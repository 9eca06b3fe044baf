import Euxis.Cpg.Builder
import Euxis.Taint.Code

/-!
# Rules and the rule engine: `libs/scan/src/rule_engine.cpp`

The data of `rule.hpp` with it. A climb of the engine that does not end gives `none`. The extra
metadata of a rule is left out: nothing reads it.
-/

namespace Euxis.Scan

open Cpg

/-! ## Rules -/

inductive RuleSeverity where
  | info
  | warning
  | error
  deriving DecidableEq, Repr

inductive PatternKind where
  | literal
  | composite
  | alternation
  | negation
  | inside
  deriving DecidableEq, Repr

structure Pattern where
  kind : PatternKind := .literal
  text : Bytes := []
  children : List Pattern := []

structure RuleMetadata where
  primaryCwe : Option Bytes := none
  primaryOwasp : Option Security.OwaspCategory := none
  references : List Bytes := []

structure Rule where
  id : Bytes
  message : Bytes
  severity : RuleSeverity := .warning
  languages : List Parse.Language := []
  pattern : Pattern
  metadata : RuleMetadata := {}

structure RulePack where
  name : Bytes := ascii "anonymous"
  rules : List Rule := []

def toSecuritySeverity : RuleSeverity → Security.Severity
  | .info => .info
  | .warning => .medium
  | .error => .high

/-! ## Matching -/

section

variable (g : Graph) (ast : Parse.Ast)

/-- An ancestor without text is passed over. -/
def insideTest (child : Bytes → NodeId → Option Bool) (parent : NodeId) : Option (Option Bool) :=
  match g.get parent with
  | none => none
  | some node =>
    if ast.nodeText node.range = [] then none
    else
      match child (ast.nodeText node.range) parent with
      | some false => none
      | verdict => some verdict

def insideMatches (child : Bytes → NodeId → Option Bool) (node : NodeId) : Option Bool :=
  (Search.climb g.up (insideTest g ast child) (g.nodeCount + 1) node).bind (·.getD (some false))

mutual

def patternMatches : Pattern → Bytes → NodeId → Option Bool
  | ⟨.literal, needle, _⟩, text, _ =>
    some (if needle = [] then false else Bytes.contains text needle)
  | ⟨.composite, _, []⟩, _, _ => some false
  | ⟨.composite, _, p :: ps⟩, text, node => allMatch (p :: ps) text node
  | ⟨.alternation, _, ps⟩, text, node => anyMatch ps text node
  | ⟨.negation, _, []⟩, _, _ => some true
  | ⟨.negation, _, p :: _⟩, text, node => (patternMatches p text node).map (!·)
  | ⟨.inside, _, []⟩, _, _ => some false
  | ⟨.inside, _, p :: _⟩, _, node =>
    insideMatches g ast (fun text node => patternMatches p text node) node

def allMatch : List Pattern → Bytes → NodeId → Option Bool
  | [], _, _ => some true
  | p :: ps, text, node =>
    (patternMatches p text node).bind fun hit => if hit then allMatch ps text node else some false

def anyMatch : List Pattern → Bytes → NodeId → Option Bool
  | [], _, _ => some false
  | p :: ps, text, node =>
    (patternMatches p text node).bind fun hit => if hit then some true else anyMatch ps text node

end

end

def ruleMatchesLanguage (r : Rule) (lang : Parse.Language) : Bool :=
  if r.languages = [] then true else lang ∈ r.languages

/-! ## Findings -/

def stableFingerprint (ruleId file rawKind name : Bytes) : Bytes :=
  Taint.fingerprintHex
    (Taint.absorb (Taint.absorb (Taint.absorb (Taint.absorb Taint.fnvOffset ruleId) file) rawKind)
      name)

def makeFinding (r : Rule) (pack : RulePack) (node : Node) (file : Bytes) : Security.Finding :=
  let ruleId := ascii "opengrep/" ++ pack.name ++ ascii "/" ++ r.id
  { ruleId,
    message := r.message,
    severity := toSecuritySeverity r.severity,
    confidence := .probable,
    source := .openGrep,
    primaryLocation := Taint.locate file node,
    cwe := r.metadata.primaryCwe.map fun id => { id },
    owasp := r.metadata.primaryOwasp.getD .none,
    complianceTaxa := r.metadata.references,
    stableFingerprint := stableFingerprint ruleId file node.rawKind node.name }

structure EngineStats where
  rulesEvaluated : Nat := 0
  nodesVisited : Nat := 0
  findingsEmitted : Nat := 0
  skippedLanguageMismatch : Nat := 0
  deriving DecidableEq, Repr

structure EngineResult where
  findings : List Security.Finding := []
  stats : EngineStats := {}

section

variable (pack : RulePack) (ast : Parse.Ast) (g : Graph) (file : Bytes)

def visitNode (rule : Rule) (result : EngineResult) (node : Node) : Option EngineResult :=
  let stats := { result.stats with nodesVisited := result.stats.nodesVisited + 1 }
  let text := ast.nodeText node.range
  if text = [] then some { result with stats }
  else
    (patternMatches g ast rule.pattern text node.id).map fun hit =>
      if hit then
        { findings := result.findings ++ [makeFinding rule pack node file],
          stats := { stats with findingsEmitted := stats.findingsEmitted + 1 } }
      else { result with stats }

def applyRule (result : EngineResult) (rule : Rule) : Option EngineResult :=
  if ruleMatchesLanguage rule ast.language then
    g.nodes.foldlM (visitNode pack ast g file rule) result
  else some { result with
      stats.skippedLanguageMismatch := result.stats.skippedLanguageMismatch + 1 }

def applyRules : Option EngineResult :=
  pack.rules.foldlM (applyRule pack ast g file) { stats := { rulesEvaluated := pack.rules.length } }

end

/-! ## What a pack finds -/

/-- The pattern of the rule matches the text of the node. -/
def fires (g : Graph) (ast : Parse.Ast) (rule : Rule) (node : Node) : Bool :=
  ast.nodeText node.range ≠ [] ∧
    patternMatches g ast rule.pattern (ast.nodeText node.range) node.id = some true

def ruleFindings (pack : RulePack) (ast : Parse.Ast) (g : Graph) (file : Bytes) (rule : Rule) :
    List Security.Finding :=
  if ruleMatchesLanguage rule ast.language then
    (g.nodes.filter (fires g ast rule)).map fun node => makeFinding rule pack node file
  else []

def packFindings (ast : Parse.Ast) (g : Graph) (file : Bytes) (pack : RulePack) :
    List Security.Finding :=
  pack.rules.flatMap (ruleFindings pack ast g file)

section

variable {g : Graph} (ast : Parse.Ast)

theorem up_lt (hg : g.PreOrder) (n p : NodeId) (h : g.up n = some p) : p < n := by
  unfold Graph.up at h
  split at h
  · cases h
  · rename_i hne
    rw [← Option.some.inj h]
    exact hg.increasing _ _ (g.parent_child n hne)

theorem insideMatches_returns (hg : g.PreOrder) (child : Bytes → NodeId → Option Bool)
    (node : NodeId) (hnode : node ≤ g.nodeCount)
    (hchild : ∀ text n, n ≤ g.nodeCount → ∃ b, child text n = some b) :
    ∃ b, insideMatches g ast child node = some b := by
  obtain ⟨r, hr, hdecides⟩ :=
    Search.climb_spec g.up (insideTest g ast child) id (up_lt hg) (g.nodeCount + 1) node
    (Nat.lt_succ_of_le hnode)
  unfold insideMatches
  rw [hr]
  cases r with
  | none => exact ⟨false, rfl⟩
  | some verdict =>
    obtain ⟨passed, last, -, hlast, -⟩ := (hdecides verdict).mp rfl
    unfold insideTest at hlast
    split at hlast
    · cases hlast
    · rename_i n hn
      obtain ⟨b, hb⟩ := hchild (ast.nodeText n.range) last (g.valid_of_get last n hn).2
      rw [hb] at hlast
      split at hlast
      · cases hlast
      · split at hlast
        · cases hlast
        · rw [← Option.some.inj hlast]
          exact ⟨b, rfl⟩

mutual

theorem patternMatches_returns (hg : g.PreOrder) :
    (p : Pattern) → (text : Bytes) → (node : NodeId) →
    node ≤ g.nodeCount → ∃ b, patternMatches g ast p text node = some b
  | ⟨.literal, _, _⟩, _, _, _ => ⟨_, by rw [patternMatches]⟩
  | ⟨.composite, _, []⟩, _, _, _ => ⟨_, by rw [patternMatches]⟩
  | ⟨.composite, _, p :: ps⟩, text, node, h => by
    rw [patternMatches]
    exact allMatch_returns hg (p :: ps) text node h
  | ⟨.alternation, _, ps⟩, text, node, h => by
    rw [patternMatches]
    exact anyMatch_returns hg ps text node h
  | ⟨.negation, _, []⟩, _, _, _ => ⟨_, by rw [patternMatches]⟩
  | ⟨.negation, _, p :: _⟩, text, node, h => by
    obtain ⟨b, hb⟩ := patternMatches_returns hg p text node h
    exact ⟨!b, by rw [patternMatches, hb]; rfl⟩
  | ⟨.inside, _, []⟩, _, _, _ => ⟨_, by rw [patternMatches]⟩
  | ⟨.inside, _, p :: _⟩, _, node, h => by
    rw [patternMatches]
    exact insideMatches_returns ast hg _ node h fun text n hn =>
      patternMatches_returns hg p text n hn

theorem allMatch_returns (hg : g.PreOrder) : (ps : List Pattern) → (text : Bytes) →
    (node : NodeId) → node ≤ g.nodeCount → ∃ b, allMatch g ast ps text node = some b
  | [], _, _, _ => ⟨_, by rw [allMatch]⟩
  | p :: ps, text, node, h => by
    obtain ⟨b, hb⟩ := patternMatches_returns hg p text node h
    rw [allMatch, hb]
    cases b with
    | true => exact allMatch_returns hg ps text node h
    | false => exact ⟨false, rfl⟩

theorem anyMatch_returns (hg : g.PreOrder) : (ps : List Pattern) → (text : Bytes) →
    (node : NodeId) → node ≤ g.nodeCount → ∃ b, anyMatch g ast ps text node = some b
  | [], _, _, _ => ⟨_, by rw [anyMatch]⟩
  | p :: ps, text, node, h => by
    obtain ⟨b, hb⟩ := patternMatches_returns hg p text node h
    rw [anyMatch, hb]
    cases b with
    | true => exact ⟨true, rfl⟩
    | false => exact anyMatch_returns hg ps text node h

end

variable (hg : g.PreOrder)

include hg

theorem visitNode_spec (pack : RulePack) (file : Bytes) (rule : Rule) (result : EngineResult)
    (node : Node) (hnode : node.id ≤ g.nodeCount) :
    ∃ result', visitNode pack ast g file rule result node = some result' ∧
      result'.findings =
        result.findings ++ if fires g ast rule node then [makeFinding rule pack node file]
          else [] := by
  unfold visitNode fires
  simp only
  split
  · rename_i htext
    exact ⟨_, rfl, by simp [htext]⟩
  · rename_i htext
    obtain ⟨b, hb⟩ := patternMatches_returns ast hg rule.pattern (ast.nodeText node.range)
      node.id hnode
    rw [hb]
    cases b with
    | true => exact ⟨_, rfl, by simp [htext]⟩
    | false => exact ⟨_, rfl, by simp⟩

theorem visitNodes_spec (pack : RulePack) (file : Bytes) (rule : Rule) (nodes : List Node)
    (hnodes : ∀ n ∈ nodes, n.id ≤ g.nodeCount) (result : EngineResult) :
    ∃ result', nodes.foldlM (visitNode pack ast g file rule) result = some result' ∧
      result'.findings =
        result.findings ++ (nodes.filter (fires g ast rule)).map fun node =>
          makeFinding rule pack node file := by
  induction nodes generalizing result with
  | nil => exact ⟨result, rfl, by simp⟩
  | cons n rest ih =>
    obtain ⟨r₁, h₁, hf₁⟩ :=
      visitNode_spec ast hg pack file rule result n (hnodes n List.mem_cons_self)
    obtain ⟨r₂, h₂, hf₂⟩ := ih (fun m hm => hnodes m (List.mem_cons_of_mem _ hm)) r₁
    refine ⟨r₂, by rw [List.foldlM_cons, h₁]; exact h₂, ?_⟩
    rw [hf₂, hf₁, List.filter_cons]
    split <;> simp

theorem applyRule_spec (pack : RulePack) (file : Bytes) (result : EngineResult) (rule : Rule) :
    ∃ result', applyRule pack ast g file result rule = some result' ∧
      result'.findings = result.findings ++ ruleFindings pack ast g file rule := by
  unfold applyRule ruleFindings
  split
  · apply visitNodes_spec ast hg pack file rule
    intro n hn
    obtain ⟨i, hi, rfl⟩ := List.mem_iff_getElem.mp hn
    rw [g.dense i hi]
    exact hi
  · exact ⟨_, rfl, by simp⟩

theorem applyRules_loop (pack : RulePack) (file : Bytes) (rules : List Rule)
    (result : EngineResult) :
    ∃ result', rules.foldlM (applyRule pack ast g file) result = some result' ∧
      result'.findings = result.findings ++ rules.flatMap (ruleFindings pack ast g file) := by
  induction rules generalizing result with
  | nil => exact ⟨result, rfl, by simp⟩
  | cons rule rest ih =>
    obtain ⟨r₁, h₁, hf₁⟩ := applyRule_spec ast hg pack file result rule
    obtain ⟨r₂, h₂, hf₂⟩ := ih r₁
    refine ⟨r₂, by rw [List.foldlM_cons, h₁]; exact h₂, ?_⟩
    rw [hf₂, hf₁, List.flatMap_cons, List.append_assoc]

theorem applyRules_spec (pack : RulePack) (file : Bytes) :
    ∃ result, applyRules pack ast g file = some result ∧
      result.findings = packFindings ast g file pack :=
  applyRules_loop ast hg pack file pack.rules _

end

end Euxis.Scan
