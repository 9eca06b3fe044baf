import Euxis.Scan.RuleLoader

/-!
# What the rule loader makes of a rule

The two builders of patterns, and the languages that a loaded rule is restricted to.
-/

namespace Euxis.Scan

open Cpg Config

/-! ## The two builders -/

section Builders

variable (members : List (Yaml × Yaml))

/-- The pattern of `pattern-not` or `pattern-inside`. -/
def unaryPattern : Option Pattern :=
  ((Yaml.get (some (.map members)) (ascii "pattern-not")).map fun child =>
    wrapUnary .negation (buildPatternFromNode child)).or
  ((Yaml.get (some (.map members)) (ascii "pattern-inside")).map fun child =>
    wrapUnary .inside (buildPatternFromNode child))

/-- The pattern of `pattern-either` or `patterns`. -/
def listPattern : Option Pattern :=
  ((itemsUnder (.map members) (ascii "pattern-either")).map fun items =>
    { kind := .alternation, children := buildPatternList items }).or
  ((itemsUnder (.map members) (ascii "patterns")).map fun items =>
    { kind := .composite, children := buildPatternList items })

theorem buildPatternFromNode_map : buildPatternFromNode (.map members) =
    ((unaryPattern members).or (listPattern members)).getD (literalPattern (.map members)) := by
  rw [buildPatternFromNode]
  unfold unaryPattern listPattern
  cases Yaml.get (some (.map members)) (ascii "pattern-not") with
  | some child => rfl
  | none =>
    cases Yaml.get (some (.map members)) (ascii "pattern-inside") with
    | some child => rfl
    | none =>
      cases itemsUnder (.map members) (ascii "pattern-either") with
      | some items => rfl
      | none =>
        cases itemsUnder (.map members) (ascii "patterns") with
        | some items => rfl
        | none => rfl

theorem buildRulePattern_map : buildRulePattern (.map members) =
    ((listPattern members).or (unaryPattern members)).getD (literalPattern (.map members)) := by
  rw [buildRulePattern]
  unfold unaryPattern listPattern
  cases itemsUnder (.map members) (ascii "pattern-either") with
  | some items => rfl
  | none =>
    cases itemsUnder (.map members) (ascii "patterns") with
    | some items => rfl
    | none =>
      cases Yaml.get (some (.map members)) (ascii "pattern-not") with
      | some child => rfl
      | none =>
        cases Yaml.get (some (.map members)) (ascii "pattern-inside") with
        | some child => rfl
        | none => rfl

theorem unaryPattern_kind {p : Pattern} (h : unaryPattern members = some p) :
    p.kind = .negation ∨ p.kind = .inside := by
  rcases Option.or_eq_some_iff.mp h with h | ⟨-, h⟩
  · obtain ⟨child, -, rfl⟩ := Option.map_eq_some_iff.mp h
    exact Or.inl rfl
  · obtain ⟨child, -, rfl⟩ := Option.map_eq_some_iff.mp h
    exact Or.inr rfl

theorem listPattern_kind {p : Pattern} (h : listPattern members = some p) :
    p.kind = .alternation ∨ p.kind = .composite := by
  rcases Option.or_eq_some_iff.mp h with h | ⟨-, h⟩
  · obtain ⟨items, -, rfl⟩ := Option.map_eq_some_iff.mp h
    exact Or.inl rfl
  · obtain ⟨items, -, rfl⟩ := Option.map_eq_some_iff.mp h
    exact Or.inr rfl

/-- The mapping has a `pattern-not` or a `pattern-inside`. -/
def HasUnary : Prop :=
  (Yaml.get (some (.map members)) (ascii "pattern-not")).isSome = true ∨
  (Yaml.get (some (.map members)) (ascii "pattern-inside")).isSome = true

/-- The mapping has a sequence under `pattern-either` or under `patterns`. -/
def HasList : Prop :=
  (itemsUnder (.map members) (ascii "pattern-either")).isSome = true ∨
  (itemsUnder (.map members) (ascii "patterns")).isSome = true

theorem hasUnary_iff : HasUnary members ↔ (unaryPattern members).isSome = true := by
  simp [HasUnary, unaryPattern, Option.isSome_or]

theorem hasList_iff : HasList members ↔ (listPattern members).isSome = true := by
  simp [HasList, listPattern, Option.isSome_or]

/-- **The two builders.** A mapping builds the same pattern at the top of a rule and inside one,
unless it has both a unary key and a list. -/
theorem buildRulePattern_eq_iff :
    buildRulePattern (.map members) = buildPatternFromNode (.map members) ↔
    ¬ (HasUnary members ∧ HasList members) := by
  rw [buildRulePattern_map, buildPatternFromNode_map, hasUnary_iff, hasList_iff]
  cases hunary : unaryPattern members with
  | none => simp
  | some p =>
    cases hlist : listPattern members with
    | none => simp
    | some q =>
      simp only [Option.some_or, Option.getD_some, Option.isSome_some, and_self,
        not_true, iff_false]
      rintro rfl
      rcases unaryPattern_kind members hunary with hp | hp <;>
        rcases listPattern_kind members hlist with hq | hq <;> rw [hp] at hq <;> cases hq

end Builders

/-! ### `pattern-either: [eval]` with `pattern-not: safe` -/

def evalNotSafe : List (Yaml × Yaml) :=
  [(.scalar (ascii "pattern-either"), .seq [.scalar (ascii "eval")]),
   (.scalar (ascii "pattern-not"), .scalar (ascii "safe"))]

theorem evalNotSafe_builds_two : (buildRulePattern (.map evalNotSafe)).kind = .alternation ∧
    (buildPatternFromNode (.map evalNotSafe)).kind = .negation ∧
    buildRulePattern (.map evalNotSafe) ≠ buildPatternFromNode (.map evalNotSafe) := by
  -- At the top of a rule the exclusion is lost.
  rw [buildRulePattern_map, buildPatternFromNode_map]
  refine ⟨rfl, rfl, ?_⟩
  intro h
  cases congrArg Pattern.kind h

/-! ## Loaded packs -/

/-- The entries of the `rules` sequence of a document. -/
def ruleEntries (lib : YamlLib) (yaml : Bytes) : List Yaml :=
  match lib.load yaml with
  | .ok root => (itemsUnder root (ascii "rules")).getD []
  | .error _ => []

theorem buildRules_ok (entries : List Yaml) (idx : Nat) (rules : List Rule)
    (h : buildRules idx entries = .ok rules) :
    List.Forall₂ (fun entry rule => buildRule entry = .ok rule) entries rules := by
  induction entries generalizing idx rules with
  | nil =>
    cases h
    exact .nil
  | cons entry rest ih =>
    unfold buildRules at h
    cases hrule : buildRule entry with
    | error what =>
      rw [hrule] at h
      cases h
    | ok rule =>
      rw [hrule] at h
      cases hrest : buildRules (idx + 1) rest with
      | error e =>
        simp only [hrest] at h
        cases h
      | ok loaded =>
        simp only [hrest] at h
        cases h
        exact .cons hrule (ih (idx + 1) loaded hrest)

theorem loadRulesYaml_rules {lib : YamlLib} {yaml name : Bytes} {pack : RulePack}
    (h : loadRulesYaml lib yaml name = .ok pack) :
    List.Forall₂ (fun entry rule => buildRule entry = .ok rule) (ruleEntries lib yaml)
      pack.rules := by
  unfold loadRulesYaml at h
  unfold ruleEntries
  cases hload : lib.load yaml with
  | error e =>
    rw [hload] at h
    cases h
  | ok root =>
    simp only [hload] at h
    split at h
    · cases h
    · cases hitems : itemsUnder root (ascii "rules") with
      | none =>
        simp only [hitems] at h
        cases h
      | some entries =>
        simp only [hitems] at h
        -- One bad entry rejects the whole file.
        cases hrules : buildRules 0 entries with
        | error e =>
          rw [hrules] at h
          cases h
        | ok rules =>
          rw [hrules] at h
          cases h
          simpa only [hitems, Option.getD_some] using buildRules_ok entries 0 rules hrules

theorem buildRule_ok {entry : Yaml} {rule : Rule} (h : buildRule entry = .ok rule) :
    rule.languages = extractLanguages entry := by
  unfold buildRule at h
  simp only at h
  split at h
  · cases h
  · split at h
    · cases h
    · split at h
      · cases h
      · cases h
        rfl

/-! ## Languages -/

/-- One of the names in the list is a name of the language. -/
def Listed (items : List Yaml) (lang : Parse.Language) : Prop :=
  ∃ name, Yaml.scalar name ∈ items ∧ parseLanguageToken name = some lang

theorem mem_extractLanguages {entry : Yaml} {items : List Yaml}
    (h : itemsUnder entry (ascii "languages") = some items) (lang : Parse.Language) :
    lang ∈ extractLanguages entry ↔ Listed items lang := by
  have hscalar : ∀ item name, scalarText item = some name ↔ item = .scalar name := by
    intro item name
    cases item <;> simp [scalarText]
  unfold extractLanguages Listed
  simp [h, List.mem_filterMap, hscalar]

/-- The turn of the rule at a place of the pack adds the finding. -/
def Reports (pack : RulePack) (ast : Parse.Ast) (g : Graph) (file : Bytes) (i : Nat)
    (f : Security.Finding) : Prop :=
  ∃ rule before after added, pack.rules[i]? = some rule ∧
    (pack.rules.take i).foldlM (applyRule pack ast g file)
      { stats := { rulesEvaluated := pack.rules.length } } = some before ∧
    applyRule pack ast g file before rule = some after ∧ after.findings = before.findings ++ added ∧
    f ∈ added

section Turns

variable {g : Graph} (hg : g.PreOrder) (pack : RulePack) (ast : Parse.Ast) (file : Bytes)

include hg

theorem reports_iff (i : Nat) (f : Security.Finding) : Reports pack ast g file i f ↔
    ∃ rule, pack.rules[i]? = some rule ∧ f ∈ ruleFindings pack ast g file rule := by
  obtain ⟨before, hbefore, -⟩ := applyRules_loop ast hg pack file (pack.rules.take i)
    { stats := { rulesEvaluated := pack.rules.length } }
  constructor
  · rintro ⟨rule, before', after, added, hrule, -, hafter, hadded, hf⟩
    obtain ⟨after', hafter', hfindings⟩ := applyRule_spec ast hg pack file before' rule
    obtain rfl := Option.some.inj (hafter'.symm.trans hafter)
    rw [hfindings] at hadded
    exact ⟨rule, hrule, List.append_cancel_left hadded ▸ hf⟩
  · rintro ⟨rule, hrule, hf⟩
    obtain ⟨after, hafter, hfindings⟩ := applyRule_spec ast hg pack file before rule
    exact ⟨rule, before, after, _, hrule, hbefore, hafter, hfindings, hf⟩

theorem mem_findings_iff (f : Security.Finding) :
    f ∈ packFindings ast g file pack ↔ ∃ i, Reports pack ast g file i f := by
  simp only [reports_iff hg, packFindings, List.mem_flatMap]
  constructor
  · rintro ⟨rule, hrule, hf⟩
    obtain ⟨i, hi⟩ := List.mem_iff_getElem?.mp hrule
    exact ⟨i, rule, hi, hf⟩
  · rintro ⟨i, rule, hi, hf⟩
    exact ⟨rule, List.mem_of_getElem? hi, hf⟩

theorem reports_listed_iff {i : Nat} {rule : Rule} (hrule : pack.rules[i]? = some rule)
    {entry : Yaml} {items : List Yaml} (hitems : itemsUnder entry (ascii "languages") = some items)
    (hlangs : rule.languages = extractLanguages entry) :
    (∀ f, Reports pack ast g file i f → Listed items ast.language) ↔
      (∃ lang, Listed items lang) ∨ ∀ node ∈ g.nodes, fires g ast rule node = false := by
  have hmem : ∀ lang, lang ∈ rule.languages ↔ Listed items lang := by
    intro lang
    rw [hlangs, mem_extractLanguages hitems]
  have hreports : ∀ f, Reports pack ast g file i f ↔ f ∈ ruleFindings pack ast g file rule := by
    intro f
    simp [reports_iff hg, hrule]
  simp only [hreports, ← hmem]
  constructor
  · intro h
    by_cases hknown : ∃ lang, lang ∈ rule.languages
    · exact Or.inl hknown
    · -- No name is known, so the loaded list is empty and every language matches.
      right
      intro node hnode
      by_contra hfires
      refine hknown ⟨ast.language, h (makeFinding rule pack node file) ?_⟩
      have hempty : rule.languages = [] :=
        List.eq_nil_iff_forall_not_mem.mpr fun lang hlang => hknown ⟨lang, hlang⟩
      rw [ruleFindings, if_pos (by rw [ruleMatchesLanguage, if_pos hempty])]
      exact List.mem_map_of_mem (List.mem_filter.mpr ⟨hnode, by simpa using hfires⟩)
  · rintro (⟨lang, hlang⟩ | hquiet) f hf
    · unfold ruleFindings at hf
      split at hf
      · rename_i hmatch
        rw [ruleMatchesLanguage, if_neg (List.ne_nil_of_mem hlang)] at hmatch
        exact of_decide_eq_true hmatch
      · cases hf
    · unfold ruleFindings at hf
      split at hf
      · obtain ⟨node, hnode, -⟩ := List.mem_map.mp hf
        obtain ⟨hnode, hfires⟩ := List.mem_filter.mp hnode
        rw [hquiet node hnode] at hfires
        cases hfires
      · cases hf

end Turns

/-- **Languages of a rule.** The engine ends, and its findings are what the turns of the rules add.
A rule of the document with a list of languages reports in listed languages only, exactly when one
name of the list is known or its pattern matches nothing in the file. -/
theorem loaded_languages_iff {lib : YamlLib} {yaml name : Bytes} {pack : RulePack}
    (hload : loadRulesYaml lib yaml name = .ok pack) (ast : Parse.Ast) (file : Bytes) :
    ∃ result, applyRules pack ast (build ast) file = some result ∧
      (∀ f, f ∈ result.findings ↔ ∃ i, Reports pack ast (build ast) file i f) ∧
      ∀ i entry rule items, (ruleEntries lib yaml)[i]? = some entry → pack.rules[i]? = some rule →
        itemsUnder entry (ascii "languages") = some items → items ≠ [] →
        ((∀ f, Reports pack ast (build ast) file i f → Listed items ast.language) ↔
          (∃ lang, Listed items lang) ∨ ∀ node ∈ (build ast).nodes,
          fires (build ast) ast rule node = false) := by
  have hg := build_preOrder ast
  obtain ⟨result, hresult, hfindings⟩ := applyRules_spec ast hg pack file
  refine ⟨result, hresult, ?_, ?_⟩
  · intro f
    rw [hfindings]
    exact mem_findings_iff hg pack ast file f
  · intro i entry rule items hentry hrule hitems _
    obtain ⟨hi, rfl⟩ := List.getElem?_eq_some_iff.mp hentry
    obtain ⟨hi', hrule'⟩ := List.getElem?_eq_some_iff.mp hrule
    have hbuilt := (loadRulesYaml_rules hload).get hi hi'
    simp only [List.get_eq_getElem, hrule'] at hbuilt
    exact reports_listed_iff hg pack ast file hrule hitems (buildRule_ok hbuilt)

/-! ### A rule for `ruby`, and one for `python` and `ruby` -/

def namedEntry (names : List Bytes) : Yaml :=
  .map [(.scalar (ascii "languages"), .seq (names.map .scalar)),
    (.scalar (ascii "id"), .scalar (ascii "no-eval")),
    (.scalar (ascii "message"), .scalar (ascii "eval is used")),
    (.scalar (ascii "pattern"), .scalar (ascii "eval"))]

def pythonText : Bytes :=
  ascii "rules:\n- languages: [python, ruby]\n  id: no-eval\n  message: eval is used\n  pattern: eval\n"

def rubyText : Bytes :=
  ascii "rules:\n- languages: [ruby]\n  id: no-eval\n  message: eval is used\n  pattern: eval\n"

/-- The library on the two documents. -/
def rubyLib : YamlLib where
  load text :=
    if text = pythonText then
      .ok (.map [(.scalar (ascii "rules"), .seq [namedEntry [ascii "python", ascii "ruby"]])])
    else if text = rubyText then
      .ok (.map [(.scalar (ascii "rules"), .seq [namedEntry [ascii "ruby"]])])
    else .error (ascii "bad file", 0)
  asInt _ := none
  asBool _ := none

def noEvalRule (languages : List Parse.Language) : Rule :=
  { id := ascii "no-eval", message := ascii "eval is used", languages,
    pattern := { text := ascii "eval" } }

def noEvalPack (languages : List Parse.Language) : RulePack where
  name := ascii "no-eval.yaml"
  rules := [noEvalRule languages]

def callAst (language : Parse.Language) : Parse.Ast :=
  { language, source := ascii "eval(x)", namedNodes := [(ascii "call", ⟨0, 0, 0, 7, 0, 7⟩)] }

theorem itemsUnder_namedEntry (names : List Bytes) :
    itemsUnder (namedEntry names) (ascii "languages") = some (names.map .scalar) := by
  rfl

theorem buildRule_namedEntry (names : List Bytes) :
    buildRule (namedEntry names) = .ok (noEvalRule (extractLanguages (namedEntry names))) := by
  rfl

theorem load_namedEntry {lib : YamlLib} {yaml : Bytes} (names : List Bytes)
    (h : lib.load yaml = .ok (.map [(.scalar (ascii "rules"), .seq [namedEntry names])])) :
    ruleEntries lib yaml = [namedEntry names] ∧ loadRulesYaml lib yaml (ascii "no-eval.yaml") =
      .ok (noEvalPack (extractLanguages (namedEntry names))) := by
  have hitems : itemsUnder (.map [(.scalar (ascii "rules"), .seq [namedEntry names])])
      (ascii "rules") = some [namedEntry names] := by
    rfl
  constructor
  · unfold ruleEntries
    simp only [h, hitems, Option.getD_some]
  · unfold loadRulesYaml
    simp only [h, hitems, buildRules, buildRule_namedEntry]
    rfl

theorem pythonText_scoped :
    ∃ result, applyRules (noEvalPack [.python]) (callAst .javaScript) (build (callAst .javaScript))
      (ascii "a.js") = some result ∧
    ∀ f, Reports (noEvalPack [.python]) (callAst .javaScript) (build (callAst .javaScript))
      (ascii "a.js") 0 f →
      Listed [.scalar (ascii "python"), .scalar (ascii "ruby")] .javaScript := by
  have htext : rubyLib.load pythonText = .ok (.map [(.scalar (ascii "rules"),
      .seq [namedEntry [ascii "python", ascii "ruby"]])]) := by
    simp only [rubyLib, if_true]
  obtain ⟨hentries, hload⟩ := load_namedEntry [ascii "python", ascii "ruby"] htext
  have hlangs : extractLanguages (namedEntry [ascii "python", ascii "ruby"]) =
      [.python] := by decide +kernel
  rw [hlangs] at hload
  obtain ⟨result, hresult, -, hscoped⟩ :=
    loaded_languages_iff hload (callAst .javaScript) (ascii "a.js")
  rw [hentries] at hscoped
  refine ⟨result, hresult, ?_⟩
  refine (hscoped 0 _ _ _ rfl rfl (itemsUnder_namedEntry _) (by simp)).mpr
    (Or.inl ⟨.python, ascii "python", ?_, ?_⟩)
  · exact List.mem_cons_self
  · decide

theorem rubyText_unscoped :
    loadRulesYaml rubyLib rubyText (ascii "no-eval.yaml") = .ok (noEvalPack []) ∧
    ruleEntries rubyLib rubyText = [namedEntry [ascii "ruby"]] ∧
    itemsUnder (namedEntry [ascii "ruby"]) (ascii "languages") = some [.scalar (ascii "ruby")] ∧
    (∃ f, Reports (noEvalPack []) (callAst .python) (build (callAst .python)) (ascii "a.py") 0 f) ∧
    ¬ Listed [.scalar (ascii "ruby")] .python := by
  -- No name of the list is known, so the rule is applied to Python.
  have htext : rubyLib.load rubyText =
      .ok (.map [(.scalar (ascii "rules"), .seq [namedEntry [ascii "ruby"]])]) := by
    have hne : rubyText ≠ pythonText := by decide +kernel
    simp only [rubyLib, if_neg hne, if_true]
  obtain ⟨hentries, hload⟩ := load_namedEntry [ascii "ruby"] htext
  have hlangs : extractLanguages (namedEntry [ascii "ruby"]) = [] := by decide +kernel
  rw [hlangs] at hload
  refine ⟨hload, hentries, itemsUnder_namedEntry _, ?_, ?_⟩
  · have hne : ruleFindings (noEvalPack []) (callAst .python) (build (callAst .python))
        (ascii "a.py") (noEvalRule []) ≠ [] := by
      decide +kernel
    obtain ⟨f, hf⟩ := List.exists_mem_of_ne_nil _ hne
    exact ⟨f, (reports_iff (build_preOrder _) _ _ _ 0 f).mpr ⟨_, rfl, hf⟩⟩
  · rintro ⟨name, hmem, htoken⟩
    obtain rfl := Yaml.scalar.inj (List.mem_singleton.mp hmem)
    revert htoken
    decide

end Euxis.Scan
