import Euxis.Json.Text
import Euxis.Audit.Code
import Euxis.Merge
import Mathlib.Data.List.AList

/-!
# Session metrics: `libs/metrics/src/performance_collector.cpp` and `analyzer.cpp`

A collector, the two files it appends to, and the report on the session file. Every append to a file
succeeds: what can fail is the text of a value, on a string that is not UTF-8. Times and rates are
doubles, and the arithmetic on them is a parameter.
-/

namespace Euxis.Metrics

/-! ## Clocks and names -/

/-- The arithmetic on the times of `now_epoch`. -/
structure Timer (τ : Type) where
  /-- `static_cast<int>((now - start) * 1000)` -/
  elapsedMs : τ → τ → Int
  /-- `now - start > timeout_seconds` -/
  exceeds : τ → τ → Int → Bool

/-- What the clocks say during a call, in the order in which they are read. -/
structure Readings (τ : Type) where
  epoch : τ
  emitted : Int
  completed : Int
  deriving Repr

/-- `%Y-%m-%dT%H:%M:%S+00:00` -/
def nowIso (t : Int) : Bytes :=
  let tm := Clock.gmtime t
  Clock.isoDate tm ++ ch ':' ::
    (Clock.pad2 tm.min ++ ch ':' :: (Clock.pad2 tm.sec ++ ascii "+00:00"))

def hexDigits : Nat → Nat → Bytes
  | 0, _ => []
  | width + 1, n => hexDigits width (n / 16) ++ [Json.hexNibble (n % 16)]

/-- `generate_correlation_id` from its random value. -/
def generateCorrelationId (val : UInt64) : Bytes :=
  ascii "metrics-" ++ hexDigits 12 (val.toNat % 2 ^ 48)

/-! ## Contexts -/

structure TaskStartContext where
  taskType : Bytes := ascii "general"
  priority : Bytes := ascii "medium"
  taskComplexity : Option Bytes := none
  parentSession : Option Bytes := none

structure TaskCompletionContext where
  status : Bytes := ascii "success"
  artifactsCreated : Int := 0
  cortexOperations : Int := 0
  toolCallsCount : Int := 0
  handoffRequired : Bool := false
  delegationCount : Int := 0

structure TaskFailureContext where
  failureReason : Bytes := ascii "unknown"
  errorCategory : Bytes := ascii "unknown"
  partialCompletion : Bytes := ascii "0.0"
  reflexionGenerated : Bool := false

structure SessionData (τ : Type) where
  agentId : Bytes
  startTime : τ
  correlationId : Bytes
  taskType : Bytes
  priority : Bytes

/-! ## The collector -/

/-- `active` is a `std::map`. A file that does not exist is `none`. -/
structure Collector (τ : Type) where
  active : AList fun _ : Bytes => SessionData τ := ∅
  events : Option Bytes := none
  sessions : Option Bytes := none

/-- A line at the end of a file. The file is opened first, and so it exists even when there is no
text. -/
def appendLine (file text : Option Bytes) : Option Bytes :=
  some (file.getD [] ++ match text with
    | none => []
    | some line => line ++ [ch '\n'])

def setIfSome (props : Json) (key : Bytes) (text : Option Bytes) : Json :=
  match text with
  | none => props
  | some s => props.set key (.str s)

def event (eventType : Bytes) (timestamp : Int) (properties : Json) : Json :=
  Json.object [
    (ascii "event_type", .str eventType),
    (ascii "timestamp", .str (nowIso timestamp)),
    (ascii "properties", properties)]

section

variable {τ : Type} (codec : JsonCodec) (timer : Timer τ)

/-- The calls return their state and their result, which is `none` when they throw. -/
def emitEvent (st : Collector τ) (eventType : Bytes) (timestamp : Int) (properties : Json) :
    Collector τ × Option Unit :=
  let text := codec.dump (event eventType timestamp properties)
  ({ st with events := appendLine st.events text }, text.map fun _ => ())

def startedProps (cid agentId sessionId : Bytes) (ctx : TaskStartContext) : Json :=
  let props := Json.object [
    (ascii "correlation_id", .str cid),
    (ascii "agent_id", .str agentId),
    (ascii "session_id", .str sessionId),
    (ascii "task_type", .str ctx.taskType),
    (ascii "priority", .str ctx.priority)]
  setIfSome (setIfSome props (ascii "task_complexity") ctx.taskComplexity) (ascii "parent_session")
    ctx.parentSession

def taskStarted (agentId sessionId : Bytes) (ctx : TaskStartContext) (val : UInt64)
    (now : Readings τ) (st : Collector τ) : Collector τ × Option Bytes :=
  let cid := generateCorrelationId val
  let data : SessionData τ :=
    { agentId, startTime := now.epoch, correlationId := cid, taskType := ctx.taskType,
      priority := ctx.priority }
  let st := { st with active := st.active.insert sessionId data }
  let (st, emitted) := emitEvent codec st (ascii "Agent:TaskStarted") now.emitted
    (startedProps cid agentId sessionId ctx)
  (st, emitted.map fun _ => cid)

def completedProps (data : SessionData τ) (sessionId : Bytes) (durationMs : Int)
    (ctx : TaskCompletionContext) : Json :=
  Json.object [
    (ascii "correlation_id", .str data.correlationId),
    (ascii "agent_id", .str data.agentId),
    (ascii "session_id", .str sessionId),
    (ascii "duration_ms", .int durationMs),
    (ascii "status", .str ctx.status),
    (ascii "artifacts_created", .int ctx.artifactsCreated),
    (ascii "cortex_operations", .int ctx.cortexOperations),
    (ascii "tool_calls_count", .int ctx.toolCallsCount),
    (ascii "handoff_required", .bool ctx.handoffRequired),
    (ascii "delegation_count", .int ctx.delegationCount)]

/-- What `task_completed` writes about a session. -/
structure Summary where
  sessionId : Bytes
  agentId : Bytes
  durationMs : Int
  status : Bytes
  taskType : Bytes
  priority : Bytes
  completedAt : Bytes

def Summary.toJson (s : Summary) : Json :=
  Json.object [
    (ascii "session_id", .str s.sessionId),
    (ascii "agent_id", .str s.agentId),
    (ascii "duration_ms", .int s.durationMs),
    (ascii "status", .str s.status),
    (ascii "task_type", .str s.taskType),
    (ascii "priority", .str s.priority),
    (ascii "completed_at", .str s.completedAt)]

def appendSummary (st : Collector τ) (summary : Summary) : Collector τ × Option Unit :=
  let text := codec.dump summary.toJson
  ({ st with sessions := appendLine st.sessions text }, text.map fun _ => ())

def completedSummary (data : SessionData τ) (sessionId : Bytes) (ctx : TaskCompletionContext)
    (now : Readings τ) : Summary where
  sessionId := sessionId
  agentId := data.agentId
  durationMs := timer.elapsedMs now.epoch data.startTime
  status := ctx.status
  taskType := data.taskType
  priority := data.priority
  completedAt := nowIso now.completed

def taskCompleted (sessionId : Bytes) (ctx : TaskCompletionContext) (now : Readings τ)
    (st : Collector τ) : Collector τ × Option Unit :=
  match st.active.lookup sessionId with
  | none => (st, some ())
  | some data =>
    let st := { st with active := st.active.erase sessionId }
    let summary := completedSummary timer data sessionId ctx now
    match emitEvent codec st (ascii "Agent:TaskCompleted") now.emitted
      (completedProps data sessionId summary.durationMs ctx) with
    | (st, none) => (st, none)
    | (st, some ()) => appendSummary codec st summary

def failedProps (data : SessionData τ) (sessionId : Bytes) (durationMs : Int)
    (ctx : TaskFailureContext) : Json :=
  Json.object [
    (ascii "correlation_id", .str data.correlationId),
    (ascii "agent_id", .str data.agentId),
    (ascii "session_id", .str sessionId),
    (ascii "duration_ms", .int durationMs),
    (ascii "failure_reason", .str ctx.failureReason),
    (ascii "error_category", .str ctx.errorCategory),
    (ascii "partial_completion", .float ctx.partialCompletion),
    (ascii "reflexion_generated", .bool ctx.reflexionGenerated)]

def taskFailed (sessionId : Bytes) (ctx : TaskFailureContext) (now : Readings τ)
    (st : Collector τ) : Collector τ × Option Unit :=
  match st.active.lookup sessionId with
  | none => (st, some ())
  | some data =>
    let st := { st with active := st.active.erase sessionId }
    emitEvent codec st (ascii "Agent:TaskFailed") now.emitted
      (failedProps data sessionId (timer.elapsedMs now.epoch data.startTime) ctx)

/-- The sessions that a cleanup ends, in the order of the map. -/
def staleSessions (st : Collector τ) (current : τ) (timeoutSeconds : Int) : List Bytes :=
  (st.active.keys.mergeSort fun a b => !(decide (b < a))).filter fun sid =>
    (st.active.lookup sid).any fun data => timer.exceeds current data.startTime timeoutSeconds

def timeoutContext : TaskFailureContext :=
  { failureReason := ascii "Session timeout", errorCategory := ascii "timeout" }

def failAll (now : Bytes → Readings τ) : List Bytes → Collector τ → Collector τ × Option Unit
  | [], st => (st, some ())
  | sid :: rest, st =>
    match taskFailed codec timer sid timeoutContext (now sid) st with
    | (st, none) => (st, none)
    | (st, some ()) => failAll now rest st

/-- `now sid` is what the clocks say while the session `sid` is failed. -/
def cleanupStaleSessions (timeoutSeconds : Int) (current : τ) (now : Bytes → Readings τ)
    (st : Collector τ) : Collector τ × Option Nat :=
  let stale := staleSessions timer st current timeoutSeconds
  let (st, failed) := failAll codec timer now stale st
  (st, failed.map fun _ => stale.length)

/-! ## Runs -/

inductive Call (τ : Type) where
  | started (agentId sessionId : Bytes) (ctx : TaskStartContext) (val : UInt64) (now : Readings τ)
  | completed (sessionId : Bytes) (ctx : TaskCompletionContext) (now : Readings τ)
  | failed (sessionId : Bytes) (ctx : TaskFailureContext) (now : Readings τ)
  | cleanup (timeoutSeconds : Int) (current : τ) (now : Bytes → Readings τ)

/-- The state after a call, and whether the call returned. -/
def exec (st : Collector τ) : Call τ → Collector τ × Bool
  | .started agentId sessionId ctx val now =>
    (taskStarted codec agentId sessionId ctx val now st).map id Option.isSome
  | .completed sessionId ctx now =>
    (taskCompleted codec timer sessionId ctx now st).map id Option.isSome
  | .failed sessionId ctx now => (taskFailed codec timer sessionId ctx now st).map id Option.isSome
  | .cleanup timeoutSeconds current now =>
    (cleanupStaleSessions codec timer timeoutSeconds current now st).map id Option.isSome

/-- A call that returned: all its texts are in the files. -/
def step (st : Collector τ) (call : Call τ) : Option (Collector τ) :=
  if (exec codec timer st call).2 then some (exec codec timer st call).1 else none

def run (calls : List (Call τ)) : Option (Collector τ) := calls.foldlM (step codec timer) {}

end

/-! ## The analyzer -/

/-- The arithmetic on the doubles of a report. -/
structure Doubles (δ : Type) where
  ratio : Nat → Nat → δ
  mean : List Number → δ
  median : List Number → δ
  percentile : List Number → Nat → δ
  least : List Number → δ
  greatest : List Number → δ

def loadSessions (codec : JsonCodec) (file : Option Bytes) : List Json :=
  ((Audit.fileLines file).filter (· ≠ [])).filterMap codec.parse

/-- What the report reads of a session. -/
structure Row where
  agentId : Bytes
  durationMs : Number
  status : Bytes

def readRow (s : Json) : Except JsonError Row := do
  let agentId ← s.valueStr (ascii "agent_id") (ascii "unknown")
  let durationMs ← s.valueNumber (ascii "duration_ms") (.float (ascii "0.0"))
  let status ← s.valueStr (ascii "status") []
  return { agentId, durationMs, status }

structure AgentMetrics where
  total : Nat := 0
  successful : Nat := 0
  failed : Nat := 0
  warning : Nat := 0
  durations : List Number := []

def AgentMetrics.add (m : AgentMetrics) (row : Row) : AgentMetrics :=
  let m := { m with total := m.total + 1, durations := m.durations ++ [row.durationMs] }
  if row.status = ascii "SUCCESS" then { m with successful := m.successful + 1 }
  else if row.status = ascii "FAILURE" then { m with failed := m.failed + 1 }
  else if row.status = ascii "WARNING" then { m with warning := m.warning + 1 }
  else m

structure AgentPerformance (δ : Type) where
  totalTasks : Nat
  successRate : δ
  failureRate : δ
  avgDurationMs : δ
  medianDurationMs : δ
  p95DurationMs : δ
  p99DurationMs : δ
  minDurationMs : δ
  maxDurationMs : δ

def AgentMetrics.performance {δ : Type} (doubles : Doubles δ) (m : AgentMetrics) :
    AgentPerformance δ where
  totalTasks := m.total
  successRate := doubles.ratio m.successful m.total
  failureRate := doubles.ratio m.failed m.total
  avgDurationMs := doubles.mean m.durations
  medianDurationMs := doubles.median m.durations
  p95DurationMs := doubles.percentile m.durations 95
  p99DurationMs := doubles.percentile m.durations 99
  minDurationMs := doubles.least m.durations
  maxDurationMs := doubles.greatest m.durations

def agentMap (rows : List Row) : Merge.Index Bytes AgentMetrics :=
  rows.foldl (Merge.add Row.agentId (AgentMetrics.add {}) AgentMetrics.add) {}

def AgentMetrics.reported {δ : Type} (doubles : Doubles δ) (m : AgentMetrics) :
    Option (AgentPerformance δ) :=
  if m.total = 0 then none else some (m.performance doubles)

/-- The entries of the report, of which each agent has one at most. -/
def analyzeAgentPerformance {δ : Type} (codec : JsonCodec) (doubles : Doubles δ)
    (file : Option Bytes) :
    Except JsonError (List (Bytes × AgentPerformance δ)) := do
  let rows ← (loadSessions codec file).mapM readRow
  return (agentMap rows).order.filterMap fun agentId =>
    (((agentMap rows).entry agentId).bind (AgentMetrics.reported doubles)).map (agentId, ·)

end Euxis.Metrics
