import Mathlib.Data.List.Destutter
import Euxis.Playbook.Evidence

/-!
# Certification readiness: `apps/cli/src/certification.cpp`

`evaluate_domains` and `finalize_result`. Coverage and confidence are computed over the rationals.
The source of an evidence item, the data of a gate and the optional signals of a domain are left
out, since neither function reads them.
-/

namespace Euxis.Certification

open Playbook (trunc emDash)

/-! ## The data -/

inductive GateStatus where
  | pass
  | fail
  | partialPass
  | skipped
  deriving DecidableEq, Repr

structure GateResult where
  name : Bytes
  status : GateStatus
  detail : Bytes
  blocking : Bool

inductive EvidenceStatus where
  | pass
  | fail
  | partialPass
  | inferred
  deriving DecidableEq, Repr

structure Evidence where
  id : Bytes
  domain : Bytes
  status : EvidenceStatus
  executionBacked : Bool
  summary : Bytes

structure DomainDefinition where
  name : Bytes
  requiredSignals : List Bytes
  critical : Bool

inductive DomainStatus where
  | verified
  | gaps
  | blocked
  | inconclusive
  deriving DecidableEq, Repr

structure DomainResult where
  name : Bytes
  status : DomainStatus
  coverage : Rat
  evidenceCount : Nat
  critical : Bool
  findings : List Bytes
  missingControls : List Bytes

/-! ## Domains -/

section Domain

variable (evidence : List Evidence) (d : DomainDefinition)

def evidenceCount : Nat := evidence.countP fun e => e.domain = d.name

/-- Evidence of the domain that can cover a signal. -/
def Evidence.speaks (e : Evidence) : Bool :=
  e.domain = d.name ∧ (e.status = .pass ∨ e.status = .partialPass)

/-- The signal is found as it is, or loosely in a summary. -/
def covered (sig : Bytes) : Bool :=
  evidence.any (fun e => (e.summary.contains sig || e.id.contains sig) && e.speaks d) ||
    (0 < evidenceCount evidence d && evidence.any fun e => e.speaks d &&
      e.summary.lower.contains sig.lower)

def coverage : Rat :=
  if d.requiredSignals = [] then if 0 < evidenceCount evidence d then 1 else 0
  else (d.requiredSignals.countP (covered evidence d) : Rat) / d.requiredSignals.length

def domainStatus (coverage : Rat) (critical : Bool) : DomainStatus :=
  if 1 ≤ coverage then .verified
  else if 1 / 2 ≤ coverage then .gaps
  else if coverage = 0 ∧ critical then .blocked
  else .inconclusive

def evaluateDomain : DomainResult :=
  { name := d.name
    status := domainStatus (coverage evidence d) d.critical
    coverage := coverage evidence d
    evidenceCount := evidenceCount evidence d
    critical := d.critical
    findings := (d.requiredSignals.filter (covered evidence d)).map (· ++ ascii ": covered")
    missingControls := d.requiredSignals.filter fun sig => !covered evidence d sig }

end Domain

def evaluateDomains (definitions : List DomainDefinition) (evidence : List Evidence) :
    List DomainResult :=
  definitions.map (evaluateDomain evidence)

/-! ## The overall status -/

/-- `BLOCKED`, `INCONCLUSIVE`, `READY WITH GAPS` and `READY`. -/
inductive Status where
  | blocked
  | inconclusive
  | readyWithGaps
  | ready
  deriving DecidableEq, Repr

namespace Status

def text : Status → Bytes
  | blocked => ascii "BLOCKED"
  | inconclusive => ascii "INCONCLUSIVE"
  | readyWithGaps => ascii "READY WITH GAPS"
  | ready => ascii "READY"

def exitCode : Status → Nat
  | blocked | inconclusive => 1
  | readyWithGaps | ready => 0

end Status

def criticalGateFails (g : GateResult) : Bool := g.status = .fail ∧ g.blocking

def criticalDomainBlocked (d : DomainResult) : Bool := d.critical ∧ d.status = .blocked

def skippedCount (gates : List GateResult) : Nat := gates.countP fun g => g.status = .skipped

def domainInconclusive (domains : List DomainResult) : Nat :=
  domains.countP fun d => d.status = .inconclusive

def majorGaps (domains : List DomainResult) : List Bytes :=
  (domains.filter fun d => d.status = .gaps).flatMap fun d =>
    d.missingControls.map fun mc => d.name ++ ascii ": missing " ++ mc

def avgCoverage (domains : List DomainResult) : Rat :=
  if 0 < domains.length then (domains.map (·.coverage)).sum / domains.length else 0

section Finalize

variable (gates : List GateResult) (domains : List DomainResult) (evidence : List Evidence)

def anyBlocking : Bool := gates.any criticalGateFails || domains.any criticalDomainBlocked

def tooLittle : Bool :=
  2 < skippedCount gates ∨ evidence.length < 5 ∨ domains.length / 2 < domainInconclusive domains

def status : Status :=
  if anyBlocking gates domains then .blocked
  else if tooLittle gates domains evidence then .inconclusive
  else if 3 / 4 < avgCoverage domains ∧ (majorGaps domains).length ≤ 3 then .ready
  else .readyWithGaps

def blockingIssues : List Bytes :=
  (gates.filter criticalGateFails).map (fun g => ascii "Gate '" ++ g.name ++ ascii "' failed: " ++
    g.detail) ++
    (domains.filter criticalDomainBlocked).map fun d => ascii "Critical domain '" ++ d.name ++
      ascii "' blocked"

/-- Gates weigh 40, domain coverage 30, evidence that was executed 20 and the critical domains
10. -/
def confidence : Int :=
  let run := gates.filter fun g => g.status ≠ .skipped
  let critical := domains.filter (·.critical)
  let gateScore : Rat := if run = [] then 0
    else (run.countP fun g => g.status = .pass : Rat) / run.length * 40
  let execScore : Rat :=
    if evidence = [] then 0 else (evidence.countP (·.executionBacked) : Rat) / evidence.length * 20
  let criticalScore : Rat := if critical = [] then 10
    else (critical.map (·.coverage)).sum / critical.length * 10
  min 100 (trunc (gateScore + avgCoverage domains * 30 + execScore + criticalScore))

/-- The action for a missing control, by the first of the names that is in it. -/
def recommend (mc : Bytes) : Option Bytes :=
  if mc.contains (ascii "CONTRIBUTING") then
    some (ascii "Add CONTRIBUTING.md for governance coverage")
  else if mc.contains (ascii "SECURITY") then
    some (ascii "Create SECURITY.md with vulnerability disclosure process")
  else if mc.contains (ascii "training") || mc.contains (ascii "onboarding") then
    some (ascii "Add training/onboarding documentation")
  else if mc.contains (ascii "LICENSE") then some (ascii "Add LICENSE file")
  else none

def recommendedActions : List Bytes :=
  ((domains.flatMap (·.missingControls)).filterMap recommend |>.mergeSort fun a b =>
    !(decide (b < a))).destutter (· ≠ ·)

def readinessSummary : Bytes :=
  let count (s : DomainStatus) : Bytes := Bytes.decimal (domains.countP fun d => d.status = s)
  (status gates domains evidence).text ++ ascii " " ++ emDash ++ ascii " " ++ count .verified ++
    ascii " verified, " ++
    count .gaps ++ ascii " with gaps, " ++ count .blocked ++ ascii " blocked, " ++
      count .inconclusive ++
    ascii " inconclusive" ++
    if skippedCount gates = 0 then []
    else ascii " (readiness reduced: " ++ Bytes.decimal (skippedCount gates) ++
      ascii " gate(s) skipped)"

end Finalize

structure RunResult where
  gates : List GateResult
  domains : List DomainResult
  evidence : List Evidence
  blockingIssues : List Bytes
  majorGaps : List Bytes
  recommendedActions : List Bytes
  skippedGates : List Bytes
  status : Status
  confidence : Int
  exitCode : Nat
  readinessSummary : Bytes

def finalizeResult (gates : List GateResult) (domains : List DomainResult)
    (evidence : List Evidence) : RunResult :=
  { gates, domains, evidence
    blockingIssues := blockingIssues gates domains
    majorGaps := majorGaps domains
    recommendedActions := recommendedActions domains
    skippedGates := (gates.filter fun g => g.status = .skipped).map (·.name)
    status := status gates domains evidence
    confidence := confidence gates domains evidence
    exitCode := (status gates domains evidence).exitCode
    readinessSummary := readinessSummary gates domains evidence }

/-- The end of `run_certification`: the evidence is evaluated and the result is finalized. -/
def certify (definitions : List DomainDefinition) (gates : List GateResult)
    (evidence : List Evidence) : RunResult :=
  finalizeResult gates (evaluateDomains definitions evidence) evidence

end Euxis.Certification
