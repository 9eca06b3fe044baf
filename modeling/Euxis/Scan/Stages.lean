import Euxis.Cpg.Ddg
import Euxis.Reach.Proofs
import Euxis.Scan.Code
import Euxis.Taint.Proofs

/-!
# What a scan of one file finds

Every stage ends on the graph of a parsed file.
-/

namespace Euxis.Scan

open Cpg Security

/-! ## The stages of a scan -/

section Stages

variable (ast : Parse.Ast) (file : Bytes)

/-- The findings of the rule engine, pack by pack. -/
def packsFindings (packs : List RulePack) : List Finding :=
  packs.flatMap (packFindings ast (build ast) file)

theorem runRules_spec (packs : List RulePack) (out : FileScanResult) :
    ∃ out', runRules packs ast (build ast) file out = some out' ∧
      out'.findings = out.findings ++ packsFindings ast file packs := by
  induction packs generalizing out with
  | nil => exact ⟨out, rfl, by simp [packsFindings]⟩
  | cons pack rest ih =>
    obtain ⟨result, hresult, hfindings⟩ := applyRules_spec ast (build_preOrder ast) pack file
    obtain ⟨out', hout', hf⟩ := ih { out with
      findings := out.findings ++ result.findings
      ruleFindings := out.ruleFindings + result.findings.length }
    refine ⟨out', ?_, ?_⟩
    · unfold runRules at hout' ⊢
      rw [List.foldlM_cons, hresult]
      exact hout'
    · rw [hf, hfindings]
      simp [packsFindings]

/-- No source reaches a sink, or nobody asks. -/
def TaintFree (args : ScanArgs) : Prop :=
  args.runTaint = true → ∀ g stats, buildDdg (fuelFor (build ast)) (build ast) {} =
    some (g, stats) → ∀ s k, ¬ Taint.Tainted g ast Taint.builtinSpecs s k

theorem runTaintAnalyzer_spec (args : ScanArgs) :
    ∃ (g : Graph) (taint : List Finding), g.PreOrder ∧
      (∀ out, ∃ out', runTaintAnalyzer args ast (build ast) file out = some (g, out') ∧
        out'.findings = out.findings ++ taint) ∧
      (∀ f ∈ taint, f.source = .llmInferred) ∧
      (taint = [] ↔ TaintFree ast args) := by
  unfold TaintFree
  cases htaint : args.runTaint with
  | false =>
    refine ⟨build ast, [], build_preOrder ast,
      ?_, by simp, fun _ h => absurd h Bool.false_ne_true, fun _ => rfl⟩
    intro out
    refine ⟨out, ?_, by simp⟩
    unfold runTaintAnalyzer
    rw [htaint]
    rfl
  | true =>
    -- The graph is built with the fuel that is enough for it, so the analyzer always returns.
    obtain ⟨g, stats, hddg, -, hg⟩ :=
      buildDdg_returns (build ast) (build_preOrder ast) {} (fuelFor (build ast))
      (by unfold fuelFor; omega)
    obtain ⟨result, hresult, hflows⟩ :=
      Taint.analyze_spec g ast Taint.builtinSpecs hg.forest (fuelFor g)
      (by unfold fuelFor; omega)
    refine ⟨g, Taint.flowsToFindings result g file, hg, ?_, ?_, ?_⟩
    · intro out
      refine ⟨{ out with
        findings := out.findings ++ Taint.flowsToFindings result g file
        taintFindings := out.taintFindings + (Taint.flowsToFindings result g file).length
        taintFlows := out.taintFlows + result.stats.flowsEmitted }, ?_, rfl⟩
      unfold runTaintAnalyzer
      rw [htaint, if_pos rfl, hddg]
      simp only [Option.bind_eq_bind, Option.bind_some, hresult]
      rfl
    · intro f hf
      obtain ⟨flow, -, hflow⟩ := List.mem_filterMap.mp hf
      exact Taint.flowToFinding_source g file flow f hflow
    · rw [Taint.flowsToFindings_eq_nil g ast Taint.builtinSpecs file result hflows]
      constructor
      · intro hnone _ g' stats' hddg' s k
        rw [hddg] at hddg'
        obtain ⟨rfl, rfl⟩ := Prod.mk.inj (Option.some.inj hddg')
        exact hnone s k
      · intro hnone s k
        exact hnone rfl g stats hddg s k

def annotated (taxa : Finding → List Bytes) (f : Finding) : Finding :=
  { f with complianceTaxa := f.complianceTaxa ++ taxa f }

theorem annotated_nothing : annotated (fun _ => []) = id := by
  funext f
  simp [annotated]

theorem runReachability_spec (args : ScanArgs) (g : Graph) (hg : g.PreOrder)
    (out : FileScanResult) :
    ∃ out' taxa, runReachability args ast g out = some out' ∧
      out'.findings = out.findings.map (annotated taxa) := by
  unfold runReachability
  split
  · obtain ⟨cg, hcg, hedges⟩ :=
      Reach.buildCallGraph_returns hg ast (fuelFor g) (by unfold fuelFor; omega)
    obtain ⟨reach, hreach⟩ := Reach.computeReachable_returns hg cg.edges hedges {} rfl (fuelFor g)
      (by unfold fuelFor; omega)
    rw [hcg]
    simp only [Option.bind_eq_bind, Option.bind_some, hreach]
    exact ⟨_, fun f => [Reach.reachableTaxon g reach (Reach.functionsByPath g out.findings) f], rfl,
      rfl⟩
  · exact ⟨out, fun _ => [], rfl, by rw [annotated_nothing, List.map_id]⟩

theorem scanAst_spec (args : ScanArgs) :
    ∃ taint : List Finding, (∀ f ∈ taint, f.source = .llmInferred) ∧
      (taint = [] ↔ TaintFree ast args) ∧
      ∀ packs, ∃ out taxa, scanAst args packs ast file = some out ∧
        out.findings = (packsFindings ast file packs ++ taint).map (annotated taxa) := by
  obtain ⟨g, taint, hg, hrun, hsource, hnil⟩ := runTaintAnalyzer_spec ast file args
  refine ⟨taint, hsource, hnil, ?_⟩
  intro packs
  obtain ⟨out₁, h₁, hf₁⟩ := runRules_spec ast file packs { outcome := .scanned }
  obtain ⟨out₂, h₂, hf₂⟩ := hrun out₁
  obtain ⟨out₃, taxa, h₃, hf₃⟩ := runReachability_spec ast args g hg out₂
  refine ⟨out₃, taxa, ?_, ?_⟩
  · unfold scanAst
    rw [h₁]
    simp only [Option.bind_eq_bind, Option.bind_some, h₂]
    exact h₃
  · rw [hf₃, hf₂, hf₁]
    rfl

end Stages

/-! ## Files without findings -/

section Quiet

variable (args : ScanArgs) (packs : List RulePack) (ast : Parse.Ast)

/-- No rule for the language matches, and nothing is tainted. -/
def Quiet : Prop :=
  (∀ pack ∈ packs, ∀ rule ∈ pack.rules, ruleMatchesLanguage rule ast.language = true →
    ∀ node ∈ (build ast).nodes, fires (build ast) ast rule node = false) ∧ TaintFree ast args

theorem packsFindings_eq_nil (file : Bytes) :
    packsFindings ast file packs = [] ↔ ∀ pack ∈ packs, ∀ rule ∈ pack.rules,
      ruleMatchesLanguage rule ast.language = true → ∀ node ∈ (build ast).nodes,
      fires (build ast) ast rule node = false := by
  have hrule : ∀ pack rule, ruleFindings pack ast (build ast) file rule = [] ↔
      (ruleMatchesLanguage rule ast.language = true →
        ∀ node ∈ (build ast).nodes, fires (build ast) ast rule node = false) := by
    intro pack rule
    unfold ruleFindings
    split
    · rename_i hlang
      rw [List.map_eq_nil_iff, List.filter_eq_nil_iff]
      simp only [hlang, true_implies, Bool.not_eq_true]
    · rename_i hlang
      simp [hlang]
  unfold packsFindings packFindings
  simp only [List.flatMap_eq_nil_iff, hrule]

theorem ruleFindings_source (pack : RulePack) (g : Graph) (file : Bytes) (rule : Rule) :
    ∀ f ∈ ruleFindings pack ast g file rule, f.source = .openGrep := by
  intro f hf
  unfold ruleFindings at hf
  split at hf
  · obtain ⟨node, -, rfl⟩ := List.mem_map.mp hf
    rfl
  · cases hf

theorem packsFindings_source (file : Bytes) :
    ∀ f ∈ packsFindings ast file packs, f.source = .openGrep := by
  intro f hf
  unfold packsFindings packFindings at hf
  simp only [List.mem_flatMap] at hf
  obtain ⟨pack, -, rule, -, hf⟩ := hf
  exact ruleFindings_source ast pack _ file rule f hf

theorem scanAst_findings (file : Bytes) :
    ∃ out, scanAst args packs ast file = some out ∧ (out.findings = [] ↔ Quiet args packs ast) ∧
      ∀ f ∈ out.findings, f.source ≠ .euxisCore := by
  obtain ⟨taint, hsource, hnil, hscan⟩ := scanAst_spec ast file args
  obtain ⟨out, taxa, hout, hfindings⟩ := hscan packs
  refine ⟨out, hout, ?_, ?_⟩
  · rw [hfindings, List.map_eq_nil_iff, List.append_eq_nil_iff, hnil, packsFindings_eq_nil]
    rfl
  · intro f hf
    rw [hfindings] at hf
    obtain ⟨f', hf', rfl⟩ := List.mem_map.mp hf
    show f'.source ≠ .euxisCore
    rcases List.mem_append.mp hf' with h | h
    · rw [packsFindings_source packs ast file f' h]
      decide
    · rw [hsource f' h]
      decide

end Quiet

/-! ## The branches of `scan_file_compute` -/

section Branches

variable (w : World) (file : Bytes) (args : ScanArgs) (packs : List RulePack) (hash : Bytes)
  (cache : Option Store)

theorem scan_skipped (h : languageFor args file = none) :
    scanFileCompute w file args packs hash cache = .ok ({}, cache) := by
  unfold scanFileCompute
  rw [h]

theorem scan_hit (lang : Parse.Language) (text : Bytes) (hlang : languageFor args file = some lang)
    (h : cachedEntry w file args hash cache = some text) :
    scanFileCompute w file args packs hash cache =
      .ok ({ outcome := .cacheHit, findings := deserializeFindings w text }, cache) := by
  unfold scanFileCompute
  rw [hlang, h]

theorem scan_unparsed (lang : Parse.Language) (hlang : languageFor args file = some lang)
    (hmiss : cachedEntry w file args hash cache = none) (h : parseFile w lang file = none) :
    scanFileCompute w file args packs hash cache = .ok ({ outcome := .parseFailure }, cache) := by
  unfold scanFileCompute
  simp only [hlang, hmiss, h]

theorem scan_fresh (lang : Parse.Language) (ast : Parse.Ast) (out : FileScanResult)
    (hlang : languageFor args file = some lang) (hmiss : cachedEntry w file args hash cache = none)
    (hast : parseFile w lang file = some ast) (h : scanAst args packs ast file = some out) :
    scanFileCompute w file args packs hash cache =
      (storeEntry w file args hash cache out).map fun cache => (out, cache) := by
  unfold scanFileCompute
  simp only [hlang, hmiss, hast, h]

end Branches

end Euxis.Scan
