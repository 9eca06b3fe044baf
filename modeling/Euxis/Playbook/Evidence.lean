import Mathlib.Data.List.AList
import Mathlib.Data.Rat.Defs
import Euxis.Bytes

/-!
# Playbook evidence: `apps/cli/src/cmd/fleet.cpp`

What an agent's answer is turned into: the verdict read from its text, the terminal status and the
entry of the evidence log. The duration and the findings of an entry are left out, since no verdict
depends on them.
-/

namespace Euxis.Playbook

/-- Truncation towards zero, as `static_cast<int>` of a `double`. -/
def trunc (q : Rat) : Int := q.num.tdiv q.den

/-! ## Modes -/

/-- A mode other than `flash` and `standard` is handled as `forensic`. -/
inductive Mode where
  | flash
  | standard
  | forensic
  deriving DecidableEq, Repr

structure ModeSla where
  targetMs : Rat
  softCapMs : Rat
  budgetMs : Rat
  agentTimeoutS : Int

def getModeSla : Mode → ModeSla
  | .flash => { targetMs := 45000, softCapMs := 60000, budgetMs := 75000, agentTimeoutS := 45 }
  | .standard =>
    { targetMs := 180000, softCapMs := 300000, budgetMs := 600000, agentTimeoutS := 120 }
  | .forensic =>
    { targetMs := 600000, softCapMs := 900000, budgetMs := 1200000, agentTimeoutS := 300 }

/-! ## Statuses and verdict lines -/

/-- The terminal states `PASS`, `FAILED`, `TIMEOUT`, `PARTIAL` and `DEGRADED`. -/
inductive Status where
  | pass
  | failed
  | timeout
  | partialEvidence
  | degraded
  deriving DecidableEq, Repr

/-- The text in `raw_verdict`: `PASS`, `FAIL` or `WARN` as an agent emitted it, or the status of a
check that the tool ran itself. -/
inductive RawVerdict where
  | pass
  | fail
  | warn
  | failed
  | timeout
  | partialEvidence
  | degraded
  deriving DecidableEq, Repr

def Status.asRaw : Status → RawVerdict
  | .pass => .pass
  | .failed => .failed
  | .timeout => .timeout
  | .partialEvidence => .partialEvidence
  | .degraded => .degraded

def criticalPillars : List Bytes :=
  [ascii "security", ascii "testing", ascii "build", ascii "architecture"]

def canonicalizePillar (raw : Bytes) : Bytes :=
  if raw ∈ [ascii "structure", ascii "structural", ascii "design"] then ascii "architecture"
  else if raw ∈ [ascii "test", ascii "tests", ascii "verification", ascii "quality"] then
    ascii "testing"
  else if raw ∈ [ascii "compilation", ascii "ci", ascii "infra"] then ascii "build"
  else if raw ∈ [ascii "vuln", ascii "vulnerability", ascii "safety", ascii "audit"] then
    ascii "security"
  else raw

def emDash : Bytes := [0xE2, 0x80, 0x94]

/-- Any of the patterns occurs in the text. -/
def containsAny (text : Bytes) (patterns : List Bytes) : Bool := patterns.any text.contains

/-- The variations of a verdict line that count beside `VERDICT: word`. -/
def verdictVariants (word : Bytes) : List Bytes :=
  [ascii "VERDICT:" ++ word, ascii "FINAL VERDICT: " ++ word,
    ascii "**VERDICT: " ++ word ++ ascii "**", ascii "VERDICT " ++ emDash ++ ascii " " ++ word]

/-- The raw verdict of an agent's output. A `WARN` line gives what no line at all gives. -/
def classifyRawVerdict (output : Bytes) : RawVerdict :=
  let outUpper := output.upper
  if outUpper.contains (ascii "VERDICT: PASS") then .pass
  else if outUpper.contains (ascii "VERDICT: FAIL") then .fail
  else if containsAny outUpper (verdictVariants (ascii "PASS")) then .pass
  else if containsAny outUpper (verdictVariants (ascii "FAIL")) then .fail
  else .warn

def classifyAgentStatus (raw : RawVerdict) (timedOut isDegraded : Bool)
    (durationMs budgetMs : Rat) : Status :=
  if timedOut || budgetMs < durationMs then .timeout
  else if raw = .pass then if isDegraded then .degraded else .pass
  else if raw = .fail then .failed
  else .partialEvidence

/-! ## Evidence depth -/

def execMarkers : List Bytes :=
  [ascii "test", ascii "passed", ascii "failed", ascii "built", ascii "compiled", ascii "error:",
    ascii "warning:", ascii "exit code", ascii "output:", ascii "stdout", ascii "stderr",
    ascii "ran ",
    ascii "executed"]

def inferMarkers : List Bytes :=
  [ascii "appears", ascii "likely", ascii "seems", ascii "suggest", ascii "could", ascii "might",
    ascii "probably", ascii "looks like", ascii "assume", ascii "infer", ascii "based on naming",
    ascii "convention"]

structure EvidenceDepth where
  execBacked : Int
  inferred : Int
  total : Int
  deriving DecidableEq, Repr

def countLine (depth : EvidenceDepth) (line : Bytes) : EvidenceDepth :=
  if line.length < 5 then depth
  else if containsAny line.lower execMarkers then
    { depth with execBacked := depth.execBacked + 1, total := depth.total + 1 }
  else if containsAny line.lower inferMarkers then
    { depth with inferred := depth.inferred + 1, total := depth.total + 1 }
  else depth

def parseEvidenceDepth (output : Bytes) : EvidenceDepth :=
  let depth := (output.splitOn (ch '\n')).foldl countLine
    { execBacked := 0, inferred := 0, total := 0 }
  if depth.total = 0 then { depth with inferred := 1, total := 1 } else depth

/-! ## The evidence log -/

structure AgentEvidence where
  agentName : Bytes
  agentId : Bytes
  verdict : Status
  pillar : Bytes
  executionBacked : Int
  inferred : Int
  totalClaims : Int
  degraded : Bool
  rawVerdict : RawVerdict
  deriving DecidableEq, Repr

/-- `step_verdicts`: the last status recorded under each step name. -/
abbrev StepVerdicts := AList fun _ : Bytes => Status

namespace StepVerdicts

def count (verdicts : StepVerdicts) (p : Status → Bool) : Nat :=
  verdicts.entries.countP fun e => p e.2

def positives (verdicts : StepVerdicts) : Nat := verdicts.count fun v => v = .pass || v = .degraded

def negatives (verdicts : StepVerdicts) : Nat := verdicts.count fun v => v = .failed

end StepVerdicts

def verdictConverged (verdicts : StepVerdicts) (minAgents : Nat) : Bool :=
  if verdicts.entries.length < minAgents then false
  else if verdicts.positives = 0 ∧ verdicts.negatives = 0 then false
  else (0 < verdicts.positives ∧ verdicts.negatives = 0) ∨
    (0 < verdicts.negatives ∧ verdicts.positives = 0)

/-- What `ProviderExecutor::execute` returns. -/
structure Response where
  success : Bool
  output : Bytes
  exitCode : Int
  durationMs : Rat

def Response.timedOut (response : Response) (agentTimeout : Int) : Bool :=
  response.exitCode = 124 || response.exitCode = 137 || response.exitCode = 143 ||
    (agentTimeout : Rat) * 1000 < response.durationMs

end Euxis.Playbook
