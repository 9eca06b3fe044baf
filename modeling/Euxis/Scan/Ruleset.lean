import Euxis.Scan.Cache

/-!
# What the hash of the rule set covers
-/

namespace Euxis.Scan

open Cpg Security

/-- The findings of a scan without a cache. -/
def uncachedFindings (w : World) (file : Bytes) (args : ScanArgs) (packs : List RulePack) :
    Except ScanFault (List Finding) :=
  (scanFileCompute w file args packs (computeRulesetHash w args packs) none).map (·.1.findings)

/-- No node of the file has text that a rule could match. -/
def Unmatchable (w : World) (file : Bytes) : Prop :=
  ∀ lang ast, Parse.detectLanguage file = some lang → parseFile w lang file = some ast →
    ∀ n ∈ ast.namedNodes, ast.nodeText n.2 = []

/-- What the loader of rule packs makes sure of. -/
def Loaded (packs : List RulePack) : Prop :=
  ∀ pack ∈ packs, pack.name ≠ [] ∧ ∀ rule ∈ pack.rules, rule.id ≠ [] ∧ rule.message ≠ []

section Uncached

variable (w : World) (file : Bytes) (args : ScanArgs) (packs : List RulePack)

theorem languageFor_detect (lang : Parse.Language) (h : languageFor args file = some lang) :
    Parse.detectLanguage file = some lang := by
  unfold languageFor at h
  split at h
  · cases h
  · rename_i lang' hlang'
    rw [hlang']
    split at h
    · exact h
    · split at h
      · cases h
      · exact h

theorem cachedEntry_none (hash : Bytes) : cachedEntry w file args hash none = none := by
  unfold cachedEntry
  split <;> rfl

theorem uncached_skipped (h : languageFor args file = none) :
    uncachedFindings w file args packs = .ok [] := by
  unfold uncachedFindings
  rw [scan_skipped w file args packs _ none h]
  rfl

theorem uncached_scanned (lang : Parse.Language) (ast : Parse.Ast) (out : FileScanResult)
    (hlang : languageFor args file = some lang) (hast : parseFile w lang file = some ast)
    (h : scanAst args packs ast file = some out) :
    uncachedFindings w file args packs = .ok out.findings := by
  unfold uncachedFindings
  rw [scan_fresh w file args packs _ none lang ast out hlang (cachedEntry_none w file args _) hast
    h]
  rfl

theorem nodes_no_text (ast : Parse.Ast) (h : ∀ n ∈ ast.namedNodes, ast.nodeText n.2 = []) :
    ∀ n ∈ (build ast).nodes, ast.nodeText n.range = [] := by
  intro n hn
  have hrange : n.range ∈ ast.namedNodes.map (·.2) := by
    rw [← build_ranges]
    exact List.mem_map_of_mem hn
  obtain ⟨m, hm, hmn⟩ := List.mem_map.mp hrange
  rw [← hmn]
  exact h m hm

theorem quiet_of_no_text (ast : Parse.Ast) (h : ∀ n ∈ ast.namedNodes, ast.nodeText n.2 = []) :
    Quiet args packs ast := by
  have htext := nodes_no_text ast h
  constructor
  · intro pack _ rule _ _ node hnode
    simp [fires, htext node hnode]
  · intro _ g stats hddg
    obtain ⟨g', stats', hddg', hnodes, -⟩ := buildDdg_returns (build ast) (build_preOrder ast) {}
      (fuelFor (build ast)) (by unfold fuelFor; omega)
    rw [hddg] at hddg'
    obtain ⟨rfl, -⟩ := Prod.mk.inj (Option.some.inj hddg')
    apply Taint.not_tainted_of_no_text
    rw [hnodes]
    exact htext

theorem uncached_unmatchable (h : Unmatchable w file) :
    uncachedFindings w file args packs = .ok [] := by
  cases hlang : languageFor args file with
  | none => exact uncached_skipped w file args packs hlang
  | some lang =>
    cases hast : parseFile w lang file with
    | none =>
      unfold uncachedFindings
      rw [scan_unparsed w file args packs _ none lang hlang (cachedEntry_none w file args _) hast]
      rfl
    | some ast =>
      obtain ⟨out, hout, hquiet, -⟩ := scanAst_findings args packs ast file
      rw [uncached_scanned w file args packs lang ast out hlang hast hout, hquiet.mpr]
      exact quiet_of_no_text args packs ast
        (h lang ast (languageFor_detect file args lang hlang) hast)

end Uncached

/-! ## Edits that the hash does not see -/

section Edits

variable (ast : Parse.Ast) (file : Bytes)

/-- A rule that matches every node with text. -/
def MatchesAll (rule : Rule) : Prop :=
  rule.languages = [] ∧ ∀ g text node, patternMatches g ast rule.pattern text node = some true

def textNodes : List Node := (build ast).nodes.filter (ast.nodeText ·.range ≠ [])

theorem ruleFindings_matchesAll (pack : RulePack) (rule : Rule) (h : MatchesAll ast rule) :
    ruleFindings pack ast (build ast) file rule = (textNodes ast).map fun node =>
      makeFinding rule pack node file := by
  have hfires : fires (build ast) ast rule = fun node => decide (ast.nodeText node.range ≠ []) := by
    funext node
    simp [fires, h.2]
  unfold ruleFindings textNodes
  rw [if_pos (by simp [ruleMatchesLanguage, h.1]), hfires]

theorem textNodes_ne_nil (n : Bytes × Parse.SourceRange) (hn : n ∈ ast.namedNodes)
    (htext : ast.nodeText n.2 ≠ []) : textNodes ast ≠ [] := by
  have hrange : n.2 ∈ (build ast).nodes.map (·.range) := by
    rw [build_ranges]
    exact List.mem_map_of_mem hn
  obtain ⟨node, hnode, hr⟩ := List.mem_map.mp hrange
  apply List.ne_nil_of_mem (a := node)
  exact List.mem_filter.mpr ⟨hnode, by simpa [hr] using htext⟩

theorem scanAst_severities (args : ScanArgs) :
    ∃ taint : List Severity, ∀ packs, ∃ out, scanAst args packs ast file = some out ∧
      out.findings.map (·.severity) = (packsFindings ast file packs).map (·.severity) ++ taint := by
  obtain ⟨taint, -, -, hscan⟩ := scanAst_spec ast file args
  refine ⟨taint.map (·.severity), ?_⟩
  intro packs
  obtain ⟨out, taxa, hout, hfindings⟩ := hscan packs
  refine ⟨out, hout, ?_⟩
  rw [hfindings, List.map_map, ← List.map_append]
  rfl

/-- A pack that adds no byte to the hash and matches everything. -/
def unseenPack : RulePack :=
  { name := [], rules := [{ id := [], message := [], pattern := { kind := .negation } }] }

theorem unseenPack_findings :
    (packFindings ast (build ast) file unseenPack).length = (textNodes ast).length := by
  have hall : MatchesAll ast { id := [], message := [], pattern := { kind := .negation } } :=
    ⟨rfl, fun g text node => by rw [patternMatches]⟩
  unfold packFindings unseenPack
  rw [List.flatMap_cons, List.flatMap_nil, List.append_nil,
    ruleFindings_matchesAll ast file _ _ hall, List.length_map]

/-- The name of the language filter, read as the name of a first pack without rules. -/
def unfiltered (args : ScanArgs) (packs : List RulePack) : List RulePack :=
  { name := filterBytes args } :: (packs ++ [unseenPack])

theorem rulesetBytes_unfiltered (args : ScanArgs) (packs : List RulePack) :
    rulesetBytes { args with languageFilter := none } (unfiltered args packs) =
      rulesetBytes args packs := by
  simp [rulesetBytes, unfiltered, packBytes, filterBytes, flagBytes, unseenPack, ruleBytes]

theorem packsFindings_unfiltered (args : ScanArgs) (packs : List RulePack) :
    packsFindings ast file (unfiltered args packs) =
      packsFindings ast file packs ++ packFindings ast (build ast) file unseenPack := by
  simp [packsFindings, unfiltered, packFindings]

def otherSeverity : RuleSeverity → RuleSeverity
  | .error => .warning
  | _ => .error

theorem otherSeverity_ne (s : RuleSeverity) :
    toSecuritySeverity (otherSeverity s) ≠ toSecuritySeverity s := by
  cases s <;> decide

/-- The literal of the rule moves to the end of its message, and `pattern-not: ""` takes its
place. -/
def unseenEdit (rule : Rule) : Rule :=
  { rule with
    message := rule.message ++ rule.pattern.text
    severity := otherSeverity rule.severity
    languages := []
    pattern := { kind := .negation, children := [{}] } }

theorem unseenEdit_matchesAll (rule : Rule) : MatchesAll ast (unseenEdit rule) := by
  refine ⟨rfl, fun g text node => ?_⟩
  unfold unseenEdit
  rw [patternMatches, patternMatches]
  rfl

theorem unseenEdit_bytes (rule : Rule) : ruleBytes (unseenEdit rule) = ruleBytes rule := by
  simp [ruleBytes, unseenEdit]

theorem unseenEdit_severities (pack : RulePack) (rule : Rule) (h : textNodes ast ≠ []) :
    (ruleFindings pack ast (build ast) file (unseenEdit rule)).map (·.severity) ≠
      (ruleFindings pack ast (build ast) file rule).map (·.severity) := by
  intro heq
  rw [ruleFindings_matchesAll ast file pack _ (unseenEdit_matchesAll ast rule), List.map_map] at heq
  obtain ⟨node, rest, hnodes⟩ := List.exists_cons_of_ne_nil h
  rw [hnodes, List.map_cons] at heq
  unfold ruleFindings at heq
  split at heq
  · rw [List.map_map] at heq
    cases hfire : (build ast).nodes.filter (fires (build ast) ast rule) with
    | nil =>
      rw [hfire] at heq
      cases heq
    | cons fired more =>
      rw [hfire, List.map_cons] at heq
      exact otherSeverity_ne rule.severity (List.head_eq_of_cons_eq heq)
  · cases heq

end Edits

section Coverage

variable (w : World) (file : Bytes) (args : ScanArgs) (packs : List RulePack)

theorem severities_ne (lang : Parse.Language) (ast : Parse.Ast) (packs' : List RulePack)
    (hlang : languageFor args file = some lang) (hast : parseFile w lang file = some ast)
    (h : (packsFindings ast file packs').map (·.severity) ≠
      (packsFindings ast file packs).map (·.severity)) :
    uncachedFindings w file args packs ≠ uncachedFindings w file args packs' := by
  obtain ⟨taint, hscan⟩ := scanAst_severities ast file args
  obtain ⟨out, hout, hsev⟩ := hscan packs
  obtain ⟨out', hout', hsev'⟩ := hscan packs'
  rw [uncached_scanned w file args packs lang ast out hlang hast hout,
    uncached_scanned w file args packs' lang ast out' hlang hast hout']
  intro heq
  rw [Except.ok.inj heq, hsev'] at hsev
  exact h (List.append_cancel_right hsev)

theorem exists_unseen (h : ¬ Unmatchable w file) :
    ∃ args' packs', computeRulesetHash w args packs = computeRulesetHash w args' packs' ∧
      uncachedFindings w file args packs ≠ uncachedFindings w file args' packs' := by
  unfold Unmatchable at h
  push Not at h
  obtain ⟨lang, ast, hlang, hast, n, hn, htext⟩ := h
  have hpos := List.length_pos_of_ne_nil (textNodes_ne_nil ast n hn htext)
  have hlen : (packFindings ast (build ast) file unseenPack).length ≠ 0 := by
    rw [unseenPack_findings]
    omega
  have hlang' : languageFor { args with languageFilter := none } file = some lang := by
    simp [languageFor, hlang]
  refine ⟨{ args with languageFilter := none }, unfiltered args packs, ?_, ?_⟩
  · unfold computeRulesetHash
    rw [rulesetBytes_unfiltered]
  -- The language filter is not hashed either, so the new rule set may drop it.
  · cases hfor : languageFor args file with
    | none =>
      obtain ⟨taint, hscan⟩ := scanAst_severities ast file { args with languageFilter := none }
      obtain ⟨out, hout, hsev⟩ := hscan (unfiltered args packs)
      rw [uncached_skipped w file args packs hfor,
        uncached_scanned w file _ _ lang ast out hlang' hast hout]
      intro heq
      rw [← Except.ok.inj heq, packsFindings_unfiltered] at hsev
      have := congrArg List.length hsev
      simp only [List.length_map, List.length_append, List.length_nil] at this
      omega
    | some lang' =>
      have hsame : uncachedFindings w file args packs =
          uncachedFindings w file { args with languageFilter := none } packs := by
        obtain ⟨out, hout, -⟩ := scanAst_findings args packs ast file
        obtain rfl : lang' = lang :=
          Option.some.inj ((languageFor_detect file args lang' hfor).symm.trans hlang)
        rw [uncached_scanned w file args packs lang' ast out hfor hast hout,
          uncached_scanned w file _ packs lang' ast out hlang' hast hout]
      rw [hsame]
      apply severities_ne w file _ packs lang ast _ hlang' hast
      intro heq
      rw [packsFindings_unfiltered] at heq
      have := congrArg List.length heq
      simp only [List.length_map, List.length_append] at this
      omega

theorem loaded_unseenEdit (pack : RulePack) (rule : Rule) (more : List Rule)
    (before after : List RulePack) (hmore : pack.rules = rule :: more)
    (hloaded : Loaded (before ++ pack :: after)) :
    Loaded (before ++ { pack with rules := unseenEdit rule :: more } :: after) := by
  obtain ⟨hname, hids⟩ := hloaded pack (by simp)
  rw [hmore] at hids
  intro p hp
  rw [List.mem_append, List.mem_cons] at hp
  rcases hp with hp | rfl | hp
  · exact hloaded p (List.mem_append_left _ hp)
  · refine ⟨hname, ?_⟩
    intro r hr
    rcases List.mem_cons.mp hr with rfl | hr
    · obtain ⟨hid, hmessage⟩ := hids rule List.mem_cons_self
      exact ⟨hid, by simp [unseenEdit, hmessage]⟩
    · exact hids r (List.mem_cons_of_mem _ hr)
  · exact hloaded p (List.mem_append_right _ (List.mem_cons_of_mem _ hp))

theorem exists_unseen_edit (hloaded : Loaded packs) (hrule : ∃ pack ∈ packs, pack.rules ≠ [])
    (hlang : languageFor args file ≠ none) (h : ¬ Unmatchable w file) :
    ∃ packs', Loaded packs' ∧ computeRulesetHash w args packs = computeRulesetHash w args packs' ∧
      uncachedFindings w file args packs ≠ uncachedFindings w file args packs' := by
  unfold Unmatchable at h
  push Not at h
  obtain ⟨lang, ast, hdetect, hast, n, hn, htext⟩ := h
  obtain ⟨lang', hfor⟩ := Option.ne_none_iff_exists'.mp hlang
  obtain rfl : lang' = lang :=
    Option.some.inj ((languageFor_detect file args lang' hfor).symm.trans hdetect)
  obtain ⟨pack, hpack, hrules⟩ := hrule
  obtain ⟨rule, more, hmore⟩ := List.exists_cons_of_ne_nil hrules
  obtain ⟨before, after, rfl⟩ := List.append_of_mem hpack
  have hedit := loaded_unseenEdit pack rule more before after hmore hloaded
  refine ⟨_, hedit, ?_, ?_⟩
  · simp [computeRulesetHash, rulesetBytes, packBytes, hmore, unseenEdit_bytes]
  · apply severities_ne w file args _ lang' ast _ hfor hast
    -- Only the edited pack differs, so the findings of the others cancel.
    have hsplit : ∀ rules, packsFindings ast file (before ++ { pack with rules } :: after) =
        packsFindings ast file before ++ (rules.flatMap (ruleFindings pack ast (build ast) file) ++
          packsFindings ast file after) := by
      intro rules
      simp only [packsFindings, List.flatMap_append, List.flatMap_cons]
      rfl
    have hpack' : pack = { pack with rules := rule :: more } := by rw [← hmore]
    intro heq
    rw [hsplit, hpack', hsplit] at heq
    simp only [List.map_append, List.flatMap_cons, List.append_assoc] at heq
    have hcancel := List.append_cancel_right (List.append_cancel_left heq)
    exact unseenEdit_severities ast file pack rule (textNodes_ne_nil ast n hn htext) hcancel

/-- **What the hash covers.** The findings are a function of the hash only for a file in which no
rule could find anything. For any other file, the packs behind a hash can be edited so that the
findings change and the hash stays, even within what the loader accepts. -/
theorem ruleset_hash_covers_iff :
    ((∀ args' packs', computeRulesetHash w args packs = computeRulesetHash w args' packs' →
        uncachedFindings w file args packs = uncachedFindings w file args' packs') ↔
        Unmatchable w file) ∧
      (Loaded packs → (∃ pack ∈ packs, pack.rules ≠ []) → languageFor args file ≠ none →
        ((∀ packs', Loaded packs' →
          computeRulesetHash w args packs = computeRulesetHash w args packs' →
          uncachedFindings w file args packs = uncachedFindings w file args packs') ↔
          Unmatchable w file)) := by
  have hsame : Unmatchable w file → ∀ args' packs', uncachedFindings w file args packs =
      uncachedFindings w file args' packs' := by
    intro h args' packs'
    rw [uncached_unmatchable w file args packs h, uncached_unmatchable w file args' packs' h]
  refine ⟨⟨?_, fun h args' packs' _ => hsame h args' packs'⟩, ?_⟩
  · intro hall
    by_contra h
    obtain ⟨args', packs', hhash, hne⟩ := exists_unseen w file args packs h
    exact hne (hall args' packs' hhash)
  · intro hloaded hrule hlang
    refine ⟨?_, fun h packs' _ _ => hsame h args packs'⟩
    intro hall
    by_contra h
    obtain ⟨packs', hloaded', hhash, hne⟩ :=
      exists_unseen_edit w file args packs hloaded hrule hlang h
    exact hne (hall packs' hloaded' hhash)

end Coverage

theorem ruleset_hash_covers_eval :
    Loaded (evalPacks evalRule) ∧ languageFor {} (ascii "app.py") ≠ none ∧
      ((∀ packs', Loaded packs' →
          computeRulesetHash evalWorld {} (evalPacks evalRule) =
            computeRulesetHash evalWorld {} packs' →
          uncachedFindings evalWorld (ascii "app.py") {} (evalPacks evalRule) =
            uncachedFindings evalWorld (ascii "app.py") {} packs') ↔
              Unmatchable evalWorld (ascii "app.py")) := by
  have hloaded : Loaded (evalPacks evalRule) := by
    unfold Loaded
    decide
  have hlang : languageFor {} (ascii "app.py") ≠ none := by decide +kernel
  refine ⟨hloaded, hlang, ?_⟩
  exact (ruleset_hash_covers_iff evalWorld (ascii "app.py") {} (evalPacks evalRule)).2 hloaded
    ⟨_, List.mem_cons_self, by simp⟩ hlang

theorem severity_edit_unseen :
    Function.Injective evalWorld.digest ∧
      computeRulesetHash evalWorld {} (evalPacks evalRule) =
        computeRulesetHash evalWorld {} (evalPacks { evalRule with severity := .error }) ∧
      uncachedFindings evalWorld (ascii "app.py") {} (evalPacks evalRule) ≠
        uncachedFindings evalWorld (ascii "app.py") {}
          (evalPacks { evalRule with severity := .error }) := by
  -- The rule goes from a warning to an error: the hash stays and the findings change.
  refine ⟨fun _ _ h => List.tail_eq_of_cons_eq h, rfl, ?_⟩
  have hlang : languageFor {} (ascii "app.py") = some .python := by decide +kernel
  apply severities_ne evalWorld (ascii "app.py") {} _ .python evalAst _ hlang rfl
  decide +kernel

end Euxis.Scan
