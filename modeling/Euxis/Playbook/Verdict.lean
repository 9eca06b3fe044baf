import Euxis.Playbook.Run

/-!
# The trust engine: from the collected evidence to the exit code

`apps/cli/src/cmd/fleet.cpp` and `apps/cli/src/cmd/playbook_verify.cpp`. What the tool checks itself
joins the log, then the log and the step verdicts are tallied. Confidence is computed over the
rationals, with the truncations of the code.
-/

namespace Euxis.Playbook

/-! ## Claim verification -/

/-- One run of a project verifier. -/
structure VerificationResult where
  checkName : Bytes
  success : Bool

def VerificationResult.claimsUpgraded (vr : VerificationResult) : Int := if vr.success then 3 else 0

def verifierPillar (name : Bytes) : Bytes :=
  if containsAny name [ascii "build", ascii "cmake", ascii "cargo-check", ascii "go-vet",
    ascii "make"] then
    ascii "build"
  else if containsAny name [ascii "test", ascii "jest", ascii "vitest", ascii "pytest"] then
    ascii "testing"
  else []

def verifierEntry (vr : VerificationResult) : AgentEvidence :=
  let status : Status := if vr.success then .pass else .failed
  { agentName := ascii "claim-verifier/" ++ vr.checkName
    agentId := ascii "claim-verifier"
    verdict := status
    pillar := verifierPillar vr.checkName
    executionBacked := if vr.success then vr.claimsUpgraded else 0
    inferred := 0
    totalClaims := max 1 vr.claimsUpgraded
    degraded := false
    rawVerdict := status.asRaw }

/-- Move claims from inferred to execution-backed. -/
def upgrade (perAgent : Int) (ev : AgentEvidence) : AgentEvidence :=
  let moved := min perAgent ev.inferred
  { ev with executionBacked := ev.executionBacked + moved, inferred := ev.inferred - moved }

def upgradeClaims (claimsUpgraded : Int) (log : List AgentEvidence) : List AgentEvidence :=
  if 0 < claimsUpgraded then log.map (upgrade (max 1 (claimsUpgraded.tdiv log.length))) else log

def withVerifiers (verifications : List VerificationResult) (log : List AgentEvidence) :
    List AgentEvidence :=
  if log = [] then log
  else
    let claimsUpgraded := ((verifications.filter (·.success)).map (·.claimsUpgraded)).sum
    upgradeClaims claimsUpgraded log ++
      (verifications.filter fun vr => verifierPillar vr.checkName ≠ []).map verifierEntry

/-! ## Built-in pillar checks -/

inductive CheckStatus where
  | detected
  | passing
  | failing
  | missing
  deriving DecidableEq, Repr

structure PillarCheckResult where
  name : Bytes
  status : CheckStatus
  claims : Int
  executionBacked : Int

def testingVerdict : CheckStatus → Status
  | .passing | .detected => .pass
  | .failing => .failed
  | .missing => .partialEvidence

def securityVerdict : CheckStatus → Status
  | .passing => .pass
  | .failing => .failed
  | .detected | .missing => .partialEvidence

def builtinEntry (agentId pillar : Bytes) (verdict : CheckStatus → Status)
    (check : PillarCheckResult) : AgentEvidence :=
  { agentName := ascii "builtin/" ++ check.name
    agentId
    verdict := verdict check.status
    pillar
    executionBacked := check.executionBacked
    inferred := check.claims - check.executionBacked
    totalClaims := check.claims
    degraded := false
    rawVerdict := (verdict check.status).asRaw }

def testingEntry : PillarCheckResult → AgentEvidence :=
  builtinEntry (ascii "builtin-testing") (ascii "testing") testingVerdict

def securityEntry : PillarCheckResult → AgentEvidence :=
  builtinEntry (ascii "builtin-security") (ascii "security") securityVerdict

/-- What the tool found out by itself after the agents were done. -/
structure Checks where
  verifications : List VerificationResult
  testing : List PillarCheckResult
  security : List PillarCheckResult

def hasAgentEvidence (log : List AgentEvidence) : Bool :=
  log.any fun ev => !ev.agentId.contains (ascii "builtin-") &&
    !ev.agentId.contains (ascii "claim-verifier")

def withBuiltins (checks : Checks) (log : List AgentEvidence) : List AgentEvidence :=
  if hasAgentEvidence log then log ++ checks.testing.map testingEntry ++
    checks.security.map securityEntry
  else log

def finalLog (checks : Checks) (log : List AgentEvidence) : List AgentEvidence :=
  withBuiltins checks (withVerifiers checks.verifications log)

/-! ## The tally -/

def isInfraId (agentId : Bytes) : Bool :=
  (ascii "builtin-").isPrefixOf agentId || (ascii "claim-verifier").isPrefixOf agentId

structure Tally where
  passes : Nat
  fails : Nat
  partialCount : Nat
  timeoutCount : Nat
  decisiveNegatives : Nat
  builtinFails : Nat
  buildVerificationFailed : Bool

def tally (verdicts : StepVerdicts) (log : List AgentEvidence) : Tally :=
  { passes := verdicts.positives
    fails := verdicts.negatives
    partialCount := verdicts.count fun v => v = .partialEvidence
    timeoutCount := verdicts.count fun v => v = .timeout
    decisiveNegatives := log.countP fun ev => ev.rawVerdict = .fail ∧ ev.verdict ≠ .failed
    builtinFails := log.countP fun ev => isInfraId ev.agentId ∧ ev.verdict = .failed
    buildVerificationFailed :=
      log.any fun ev => isInfraId ev.agentId ∧ ev.verdict = .failed ∧ ev.pillar = ascii "build" }

namespace Tally

def effectiveFails (t : Tally) : Nat := t.fails + t.decisiveNegatives + t.builtinFails

def totalAgents (t : Tally) : Nat := t.passes + t.fails + t.partialCount + t.timeoutCount

def hasContradiction (t : Tally) : Bool := 0 < t.passes ∧ 0 < t.effectiveFails

def agreementRatio (t : Tally) : Rat :=
  let directional := t.passes + t.effectiveFails
  if 0 < directional then ((max t.passes t.fails : Nat) : Rat) / directional else 1

end Tally

/-! ## Confidence -/

def ratio (a b : Int) (fallback : Rat) : Rat := if 0 < b then (a : Rat) / b else fallback

def evidenceDensity (log : List AgentEvidence) : Rat :=
  ratio (log.map (·.executionBacked)).sum (log.map (·.totalClaims)).sum 0

def criticalCovered (log : List AgentEvidence) : Nat :=
  criticalPillars.countP fun cp => log.any fun ev => ev.pillar = cp

def criticalCoverage (log : List AgentEvidence) : Rat :=
  (criticalCovered log : Rat) / criticalPillars.length

def degradationRatio (t : Tally) (log : List AgentEvidence) : Rat :=
  ratio (log.countP (·.degraded)) t.totalAgents 0

def agreementPenalty (t : Tally) : Int :=
  let penalty := trunc ((1 - t.agreementRatio) * 30)
  if t.hasContradiction then max penalty 25 else penalty

def incompletePenalty (t : Tally) : Int := ((t.timeoutCount + t.partialCount : Nat) : Int) * 5

def builtinPenalty (t : Tally) : Int :=
  if 0 < t.builtinFails then if t.buildVerificationFailed then 20 else (t.builtinFails : Int) * 15
  else 0

def confidence (t : Tally) (log : List AgentEvidence) (skippedEarly budgetExceeded : Bool) : Int :=
  let confidence := 100
    - agreementPenalty t
    - trunc ((1 - evidenceDensity log) * 25)
    - trunc ((1 - criticalCoverage log) * 25)
    - trunc (degradationRatio t log * 15)
    - (if skippedEarly then 5 else 0)
    - incompletePenalty t
    - (t.decisiveNegatives : Int) * 10
    - builtinPenalty t
    - (if budgetExceeded then 10 else 0)
  max 0 (min 100 confidence)

/-! ## The verdict -/

/-- `TRUSTED`, `TRUSTED WITH GAPS`, `CAUTION`, `BLOCKED` and `INCONCLUSIVE`. -/
inductive Verdict where
  | trusted
  | trustedWithGaps
  | caution
  | blocked
  | inconclusive
  deriving DecidableEq, Repr

def Verdict.positive (v : Verdict) : Bool := v = .trusted || v = .trustedWithGaps

def verdictText (t : Tally) (confidence : Int) : Verdict :=
  if t.hasContradiction then .inconclusive
  else if 0 < t.effectiveFails ∧ t.passes = 0 then .blocked
  else if 80 ≤ confidence ∧ t.effectiveFails = 0 ∧ t.timeoutCount = 0 then .trusted
  else if 60 ≤ confidence ∧ t.effectiveFails = 0 then .trustedWithGaps
  else .caution

def suppressedCap (escalationSuppressed : Bool) (v : Verdict) : Verdict :=
  if escalationSuppressed ∧ v.positive then .caution else v

structure ContradictionEntry where
  pillar : Bytes
  agentA : Bytes
  verdictA : Status
  agentB : Bytes
  verdictB : Status
  detail : Bytes

def conflicts (a b : AgentEvidence) : Bool :=
  a.pillar = b.pillar ∧ a.verdict ≠ b.verdict ∧ a.verdict ≠ .partialEvidence ∧
    b.verdict ≠ .partialEvidence ∧ a.verdict ≠ .timeout ∧ b.verdict ≠ .timeout

def conflictEntry (a b : AgentEvidence) : ContradictionEntry :=
  { pillar := a.pillar
    agentA := a.agentName
    verdictA := a.verdict
    agentB := b.agentName
    verdictB := b.verdict
    detail := ascii "Conflicting verdicts on " ++ a.pillar }

/-- Every pair of entries that disagree on one pillar. -/
def pillarConflicts : List AgentEvidence → List ContradictionEntry
  | [] => []
  | a :: rest => (rest.filter (conflicts a)).map (conflictEntry a) ++ pillarConflicts rest

/-- The first name that is not empty among the entries with this verdict. -/
def firstAgent (log : List AgentEvidence) (verdict : Status) : Bytes :=
  ((log.find? fun ev => ev.verdict = verdict ∧ ev.agentName ≠ []).map (·.agentName)).getD []

def crossPillar (log : List AgentEvidence) : ContradictionEntry :=
  { pillar := ascii "cross-pillar"
    agentA := firstAgent log .pass
    verdictA := .pass
    agentB := firstAgent log .failed
    verdictB := .failed
    detail := ascii "Agents reached opposing conclusions across different evidence pillars" }

def contradictions (t : Tally) (log : List AgentEvidence) : List ContradictionEntry :=
  if t.hasContradiction then
    if pillarConflicts log = [] then [crossPillar log] else pillarConflicts log
  else []

/-! ## The consistency check -/

structure VerdictViolation where
  rule : Bytes
  detail : Bytes

def violationIf (p : Bool) (rule detail : String) : List VerdictViolation :=
  if p then [{ rule := ascii rule, detail := ascii detail }] else []

def verifyVerdictConsistency (verdict : Verdict) (evidence : List AgentEvidence) (confidence : Int)
    (contradictionCount : Nat) : List VerdictViolation :=
  let effectiveFails := evidence.countP (fun ev => ev.verdict = .failed) +
    evidence.countP fun ev => ev.verdict = .timeout ∧ ev.rawVerdict = .fail
  let timeoutCount := evidence.countP fun ev => ev.verdict = .timeout
  let passes := evidence.countP fun ev => ev.verdict = .pass
  violationIf (verdict = .trusted ∧ 0 < contradictionCount) "R1" "TRUSTED with contradictions" ++
  violationIf (verdict = .trusted ∧ 0 < effectiveFails) "R1" "TRUSTED with effective_fails > 0" ++
  violationIf (verdict = .trusted ∧ 0 < timeoutCount) "R1" "TRUSTED with timeouts" ++
  violationIf (verdict = .trusted ∧ confidence < 80) "R1" "TRUSTED with confidence < 80" ++
  violationIf (verdict = .blocked ∧ (effectiveFails = 0 ∨ 0 < passes)) "R2"
    "BLOCKED without unanimous failure" ++
  violationIf (verdict = .inconclusive ∧ contradictionCount = 0) "R3"
    "INCONCLUSIVE without contradictions" ++
  violationIf (verdict = .trusted ∧ timeoutCount = evidence.length ∧ evidence ≠ [])
    "R4" "TRUSTED with all agents timed out" ++
  violationIf (evidence ≠ [] ∧ evidence.length / 2 < effectiveFails ∧ verdict.positive)
    "R5" "Positive verdict with majority decisive negatives"

def consistencyCap (violations : List VerdictViolation) (v : Verdict) : Verdict :=
  if violations.length ≠ 0 ∧ v = .trusted then .trustedWithGaps else v

/-! ## The outcome -/

structure Outcome where
  evidenceLog : List AgentEvidence
  tally : Tally
  confidence : Int
  contradictions : List ContradictionEntry
  verdictText : Verdict

/-- Everything from the join of the agent threads to the last cap of the verdict, for the confidence
`c`. -/
def concludeWith (c : Int) (checks : Checks) (s : State) : Outcome :=
  let log := finalLog checks s.evidenceLog
  let t := tally s.stepVerdicts log
  let contradictions := contradictions t log
  let v := suppressedCap s.escalationSuppressed (verdictText t c)
  { evidenceLog := log
    tally := t
    confidence := c
    contradictions
    verdictText := consistencyCap (verifyVerdictConsistency v log c contradictions.length) v }

def conclude (checks : Checks) (s : State) : Outcome :=
  let log := finalLog checks s.evidenceLog
  concludeWith
    (confidence (tally s.stepVerdicts log) log (s.earlyStopped && 0 < s.agentsSkipped)
      s.budgetExceeded) checks s

/-- `--human-approve`: not asked for, no terminal to ask on, or the answer of the reviewer. -/
inductive HumanGate where
  | notAsked
  | noTerminal
  | answered (approved : Bool)
  deriving DecidableEq, Repr

def Outcome.negative (o : Outcome) : Bool :=
  0 < o.tally.effectiveFails || o.tally.hasContradiction || o.verdictText = .caution ||
    o.verdictText = .blocked || o.verdictText = .inconclusive

/-- The exit codes of both modes: 0 trusted, 1 not trusted, 2 no evidence. -/
def verdictCode (policyViolated : Bool) (o : Outcome) : Nat :=
  if o.evidenceLog = [] then 2
  else if o.negative then 1
  else if policyViolated then 1
  else 0

def exitCode (gate : HumanGate) (policyViolated : Bool) (o : Outcome) : Nat :=
  match gate with
  | .noTerminal => 2
  | .answered false => 1
  | _ => verdictCode policyViolated o

end Euxis.Playbook
