import Euxis.Json.RoundTrip
import Euxis.Sarif
import Euxis.Scan.Stages

/-!
# What the scan cache keeps of the findings
-/

namespace Euxis.Scan

open Cpg Security

/-! ## The cached form -/

/-- What a finding keeps of itself in the cache. -/
def cachedForm (f : Finding) : Finding :=
  { ruleId := f.ruleId, message := f.message, severity := f.severity, confidence := f.confidence,
    stableFingerprint := f.stableFingerprint, cwe := f.cwe.map fun c => { id := c.id },
    owasp := f.owasp, primaryLocation := { f.primaryLocation with snippet := [] },
    complianceTaxa := f.complianceTaxa }

theorem filterMap_str (taxa : List Bytes) :
    (taxa.map Json.str).filterMap (fun t => match t with
      | .str s => some s
      | _ => none) = taxa := by
  induction taxa with
  | nil => rfl
  | cons t rest ih => rw [List.map_cons, List.filterMap_cons, ih]

theorem restoreFinding_serialize (w : World) (f : Finding) :
    ∃ members, serializeFinding f = .obj members ∧
      restoreFinding w (.obj members) = .ok (cachedForm f) := by
  have hread : ∃ members, serializeFinding f = .obj members ∧ restoreFinding w (.obj members) =
      .ok { cachedForm f with
        severity := .ofCode f.severity.code
        confidence := .ofCode f.confidence.code
        owasp := .ofCode f.owasp.code
        complianceTaxa := (f.complianceTaxa.map Json.str).filterMap fun t => match t with
          | .str s => some s
          | _ => none } := by
    obtain ⟨_, _, _, _, _, _, _, _, cwe, _, _, _, _, _⟩ := f
    cases cwe with
    | none => exact ⟨_, rfl, rfl⟩
    | some cwe => exact ⟨_, rfl, rfl⟩
  obtain ⟨members, hobj, hread⟩ := hread
  refine ⟨members, hobj, ?_⟩
  rw [hread, filterMap_str, Severity.ofCode_code, Confidence.ofCode_code, OwaspCategory.ofCode_code]
  rfl

theorem restoreFindings_serialize (w : World) (findings : List Finding) :
    restoreFindings w (findings.map serializeFinding) = findings.map cachedForm := by
  induction findings with
  | nil => rfl
  | cons f rest ih =>
    obtain ⟨members, hobj, hread⟩ := restoreFinding_serialize w f
    rw [List.map_cons, List.map_cons, hobj, restoreFindings, hread, ih]

theorem deserializeFindings_serialize (w : World) (findings : List Finding) (text : Bytes)
    (h : serializeFindings w findings = some text) :
    deserializeFindings w text = findings.map cachedForm := by
  have hfind : (findingsDocument findings).find (ascii "findings") =
      some (.arr (findings.map serializeFinding)) :=
    Json.find_set _ _ _ trivial
  unfold deserializeFindings
  rw [w.codec.parse_dump _ _ h]
  simp only [hfind]
  exact restoreFindings_serialize w findings

theorem results_cachedForm_iff (findings : List Finding)
    (h : ∀ f ∈ findings, f.source ≠ .euxisCore) :
    Sarif.results (findings.map cachedForm) = Sarif.results findings ↔ findings = [] := by
  constructor
  · intro heq
    cases findings with
    | nil => rfl
    | cons f rest =>
      have hcode := Sarif.source_of_resultOf (cachedForm f) f (List.head_eq_of_cons_eq heq)
      have hf := h f List.mem_cons_self
      cases hs : f.source <;> rw [hs] at hcode hf <;> first | exact absurd rfl hf | cases hcode
  · rintro rfl
    rfl

/-! ## Scanning twice -/

section Again

variable (w : World) (file : Bytes) (args : ScanArgs) (packs : List RulePack) (hash : Bytes)
  (cache : Option Store)

theorem scan_again (out first : FileScanResult) (cache' : Option Store) (P : Prop) (hP : P)
    (hout : out.outcome ≠ .scanned)
    (hscan : scanFileCompute w file args packs hash cache = .ok (out, cache))
    (h : scanFileCompute w file args packs hash cache = .ok (first, cache')) :
    ∃ second, scanFileCompute w file args packs hash cache' = .ok (second, cache') ∧
      (first.outcome = .scanned → second.outcome = .cacheHit) ∧
      (Sarif.results second.findings = Sarif.results first.findings ↔ P) := by
  rw [hscan] at h
  obtain ⟨rfl, rfl⟩ := Prod.mk.inj (Except.ok.inj h)
  refine ⟨out, hscan, fun hscanned => absurd hscanned hout, ?_⟩
  exact ⟨fun _ => hP, fun _ => rfl⟩

end Again


theorem storeEntry_ok (w : World) (file : Bytes) (args : ScanArgs) (hash : Bytes) (store : Store)
    (out : FileScanResult) (cache : Option Store) (hcache : args.useCache = true)
    (hread : (w.readFile file).isSome)
    (h : storeEntry w file args hash (some store) out = .ok cache) :
    ∃ text, serializeFindings w out.findings = some text ∧
      cachedEntry w file args hash cache = some text := by
  obtain ⟨content, hcontent⟩ := Option.isSome_iff_exists.mp hread
  have hhash : hashFile w file = some (w.digest content) := by rw [hashFile, hcontent]; rfl
  unfold storeEntry at h
  rw [hhash] at h
  simp only [hcache, Option.getD_some, Bool.true_eq_false, false_or, w.digest_ne_nil, if_false] at h
  cases hs : serializeFindings w out.findings with
  | none => rw [hs] at h; cases h
  | some text =>
    rw [hs] at h
    injection h with h
    subst h
    refine ⟨text, rfl, ?_⟩
    unfold cachedEntry
    rw [hcache, if_pos rfl, hhash]
    simp

theorem scan_twice (w : World) (file : Bytes) (args : ScanArgs) (packs : List RulePack)
    (hash : Bytes) (store : Store) (hcache : args.useCache = true) (lang : Parse.Language)
    (hlang : languageFor args file = some lang)
    (hmiss : cachedEntry w file args hash (some store) = none) (ast : Parse.Ast)
    (hast : parseFile w lang file = some ast) (first : FileScanResult) (cache : Option Store)
    (h : scanFileCompute w file args packs hash (some store) = .ok (first, cache)) :
    ∃ second, scanFileCompute w file args packs hash cache = .ok (second, cache) ∧
      second.outcome = .cacheHit ∧
      (Sarif.results second.findings = Sarif.results first.findings ↔ Quiet args packs ast) := by
  obtain ⟨out, hout, hquiet, hsource⟩ := scanAst_findings args packs ast file
  rw [scan_fresh w file args packs hash _ lang ast out hlang hmiss hast hout] at h
  cases hstore : storeEntry w file args hash (some store) out with
  | error fault =>
    rw [hstore] at h
    cases h
  | ok cache' =>
    rw [hstore] at h
    obtain ⟨rfl, rfl⟩ := Prod.mk.inj (Except.ok.inj h)
    have hread : (w.readFile file).isSome := by
      rw [parseFile, Option.bind_eq_some_iff] at hast
      obtain ⟨content, hcontent, -⟩ := hast
      rw [hcontent]
      rfl
    obtain ⟨text, htext, hhit⟩ :=
      storeEntry_ok w file args hash store out cache' hcache hread hstore
    refine ⟨_, scan_hit w file args packs hash _ lang text hlang hhit, rfl, ?_⟩
    rw [deserializeFindings_serialize w out.findings text htext, results_cachedForm_iff _ hsource,
      hquiet]

/-- **Scanning twice.** The second scan writes the results of the first exactly when the first came
from the cache itself or found nothing to write. -/
theorem cache_transparent_iff (w : World) (file : Bytes) (args : ScanArgs) (packs : List RulePack)
    (store : Store) (hcache : args.useCache = true) (first : FileScanResult) (cache : Option Store)
    (h : scanFileCompute w file args packs (computeRulesetHash w args packs) (some store) =
      .ok (first, cache)) :
    ∃ second, scanFileCompute w file args packs (computeRulesetHash w args packs) cache =
      .ok (second, cache) ∧ (first.outcome = .scanned → second.outcome = .cacheHit) ∧
      (Sarif.results second.findings = Sarif.results first.findings ↔
        ∀ lang, languageFor args file = some lang →
          cachedEntry w file args (computeRulesetHash w args packs) (some store) = none →
            ∀ ast, parseFile w lang file = some ast → Quiet args packs ast) := by
  cases hlang : languageFor args file with
  | none =>
    apply scan_again w file args packs _ _ _ first cache _ _ _
      (scan_skipped w file args packs _ _ hlang) h
    · rintro lang ⟨⟩
    · decide
  | some lang =>
    cases hentry : cachedEntry w file args (computeRulesetHash w args packs) (some store) with
    | some text =>
      apply scan_again w file args packs _ _ _ first cache _ _ _
        (scan_hit w file args packs _ _ lang text hlang hentry) h
      · rintro _ _ ⟨⟩
      · exact Outcome.noConfusion
    | none =>
      cases hast : parseFile w lang file with
      | none =>
        apply scan_again w file args packs _ _ _ first cache _ _ _
          (scan_unparsed w file args packs _ _ lang hlang hentry hast) h
        · rintro lang' hlang' - ast hast'
          rw [← Option.some.inj hlang', hast] at hast'
          cases hast'
        · exact Outcome.noConfusion
      | some ast =>
        -- The only scan that stores an entry, so the only one whose second run reads it.
        obtain ⟨second, hsecond, hhit, hiff⟩ :=
          scan_twice w file args packs _ store hcache lang hlang hentry ast hast first cache h
        refine ⟨second, hsecond, fun _ => hhit, ?_⟩
        rw [hiff]
        constructor
        · intro hq lang' hlang' _ ast' hast'
          rw [← Option.some.inj hlang', hast] at hast'
          rw [← Option.some.inj hast']
          exact hq
        · intro hall
          exact hall lang rfl rfl ast hast

/-! A Python file with one call, and a pack with one rule that matches it. -/

theorem plain_serializeFinding (f : Finding) : Json.plain (serializeFinding f) = true := by
  have htaxa : Json.plain (.arr (f.complianceTaxa.map .str)) = true := by
    rw [Json.plain, Json.plainItems_iff]
    intro j hj
    obtain ⟨t, -, rfl⟩ := List.mem_map.mp hj
    rfl
  unfold serializeFinding
  cases f.cwe
  all_goals
    repeat' apply Json.plain_set
    all_goals first | rfl | exact htaxa

theorem serializeFindings_textCodec (w : World) (hw : w.codec = Json.textCodec)
    (findings : List Finding) : ∃ text, serializeFindings w findings = some text := by
  have hplain : Json.plain (findingsDocument findings) = true := by
    apply Json.plain_set _ _ _ rfl
    rw [Json.plain, Json.plainItems_iff]
    intro j hj
    obtain ⟨f, -, rfl⟩ := List.mem_map.mp hj
    exact plain_serializeFinding f
  unfold serializeFindings
  rw [hw]
  exact ⟨_, if_pos hplain⟩

theorem scan_returns (w : World) (hw : w.codec = Json.textCodec) (file : Bytes) (args : ScanArgs)
    (packs : List RulePack) (hash : Bytes) (cache : Option Store) :
    ∃ out cache', scanFileCompute w file args packs hash cache = .ok (out, cache') := by
  cases hlang : languageFor args file with
  | none => exact ⟨_, _, scan_skipped w file args packs hash cache hlang⟩
  | some lang =>
    cases hentry : cachedEntry w file args hash cache with
    | some text => exact ⟨_, _, scan_hit w file args packs hash cache lang text hlang hentry⟩
    | none =>
      cases hast : parseFile w lang file with
      | none => exact ⟨_, _, scan_unparsed w file args packs hash cache lang hlang hentry hast⟩
      | some ast =>
        obtain ⟨out, hout, -⟩ := scanAst_findings args packs ast file
        obtain ⟨text, htext⟩ := serializeFindings_textCodec w hw out.findings
        rw [scan_fresh w file args packs hash cache lang ast out hlang hentry hast hout]
        unfold storeEntry
        simp only [htext]
        split
        · exact ⟨_, _, rfl⟩
        · split <;> exact ⟨_, _, rfl⟩

def evalRange (startByte endByte : Nat) : Parse.SourceRange :=
  { startRow := 0, startColumn := startByte, endRow := 0, endColumn := endByte, startByte, endByte }

def evalAst : Parse.Ast where
  language := .python
  source := ascii "eval(x)\n"
  namedNodes :=
    [(ascii "module", { evalRange 0 8 with endRow := 1, endColumn := 0 }),
      (ascii "expression_statement", evalRange 0 7),
     (ascii "call", evalRange 0 7), (ascii "identifier", evalRange 0 4),
     (ascii "argument_list", evalRange 4 7),
     (ascii "identifier", evalRange 5 6)]

/-- The digest is injective, and the only file is `app.py`. -/
def evalWorld : World where
  readFile path := if path = ascii "app.py" then some evalAst.source else none
  parse lang source := if lang = .python ∧ source = evalAst.source then some evalAst else none
  digest data := ch '#' :: data
  digest_ne_nil := by simp
  codec := Json.textCodec
  truncate _ := 0

def evalRule : Rule where
  id := ascii "no-eval"
  message := ascii "Avoid eval."
  languages := [.python]
  pattern := { text := ascii "eval(" }

def evalPacks (rule : Rule) : List RulePack := [{ name := ascii "rules.yml", rules := [rule] }]

theorem evalRule_fires : ¬ Quiet {} (evalPacks evalRule) evalAst := by
  intro h
  have hnode : ∃ node ∈ (build evalAst).nodes,
      fires (build evalAst) evalAst evalRule node = true := by
    decide +kernel
  obtain ⟨node, hnode, hfires⟩ := hnode
  rw [h.1 _ List.mem_cons_self _ List.mem_cons_self rfl node hnode] at hfires
  cases hfires

theorem cache_transparent_eval :
    ∃ first cache, scanFileCompute evalWorld (ascii "app.py") {} (evalPacks evalRule)
        (computeRulesetHash evalWorld {} (evalPacks evalRule))
        (some fun _ => none) = .ok (first, cache) ∧
      ∃ second, scanFileCompute evalWorld (ascii "app.py") {} (evalPacks evalRule)
          (computeRulesetHash evalWorld {} (evalPacks evalRule)) cache = .ok (second, cache) ∧
        (first.outcome = .scanned → second.outcome = .cacheHit) ∧
        (Sarif.results second.findings = Sarif.results first.findings ↔
          ∀ lang, languageFor {} (ascii "app.py") = some lang →
            cachedEntry evalWorld (ascii "app.py") {}
              (computeRulesetHash evalWorld {} (evalPacks evalRule))
              (some fun _ => none) = none →
            ∀ ast, parseFile evalWorld lang (ascii "app.py") = some ast →
              Quiet {} (evalPacks evalRule) ast) := by
  obtain ⟨first, cache, h⟩ := scan_returns evalWorld rfl (ascii "app.py") {} (evalPacks evalRule)
    (computeRulesetHash evalWorld {} (evalPacks evalRule)) (some fun _ => none)
  exact ⟨first, cache, h,
    cache_transparent_iff evalWorld (ascii "app.py") {} (evalPacks evalRule) (fun _ => none) rfl
    first cache h⟩

theorem cached_results_differ :
    ∃ first second cache, scanFileCompute evalWorld (ascii "app.py") {} (evalPacks evalRule)
        (computeRulesetHash evalWorld {} (evalPacks evalRule))
        (some fun _ => none) = .ok (first, cache) ∧
      scanFileCompute evalWorld (ascii "app.py") {} (evalPacks evalRule)
        (computeRulesetHash evalWorld {} (evalPacks evalRule)) cache = .ok (second, cache) ∧
      second.outcome = .cacheHit ∧
      Sarif.results second.findings ≠ Sarif.results first.findings := by
  obtain ⟨first, cache, h⟩ := scan_returns evalWorld rfl (ascii "app.py") {} (evalPacks evalRule)
    (computeRulesetHash evalWorld {} (evalPacks evalRule)) (some fun _ => none)
  have hlang : languageFor {} (ascii "app.py") = some .python := by decide +kernel
  have hast : parseFile evalWorld .python (ascii "app.py") = some evalAst := rfl
  obtain ⟨second, hsecond, hhit, hiff⟩ :=
    scan_twice evalWorld (ascii "app.py") {} (evalPacks evalRule) _
    (fun _ => none) rfl .python hlang rfl evalAst hast first cache h
  exact ⟨first, second, cache, h, hsecond, hhit, fun heq => evalRule_fires (hiff.mp heq)⟩

end Euxis.Scan
