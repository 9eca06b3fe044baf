import Euxis.Files
import Euxis.Gateway.Code
import Euxis.Json.Msgpack

/-!
# Session stores: `libs/runtime/src/session_store.cpp`

The two stores behind `ISessionStore`. MessagePack is the parameter `mp`; a `double` is kept as its
text.
-/

namespace Euxis.Session

open Files Gateway

/-! ## Snapshots -/

inductive Role where
  | user
  | assistant
  | system
  deriving DecidableEq, Repr

structure SessionMessage where
  role : Role := .user
  content : Bytes
  agentId : Bytes
  model : Bytes
  timestamp : Bytes
  durationMs : Bytes := ascii "0.0"
  decisionTraceHash : Bytes
  deriving DecidableEq, Repr

structure SessionSnapshot where
  sessionId : Bytes
  branchId : Bytes
  agentId : Bytes
  messages : List SessionMessage
  deriving DecidableEq, Repr

def roleToString : Role → Bytes
  | .user => ascii "user"
  | .assistant => ascii "assistant"
  | .system => ascii "system"

def roleFromString (s : Bytes) : Role :=
  if s = ascii "assistant" then .assistant
  else if s = ascii "system" then .system
  else .user

def messageToJson (msg : SessionMessage) : Json :=
  Json.object [(ascii "role", .str (roleToString msg.role)), (ascii "content", .str msg.content),
    (ascii "agent_id", .str msg.agentId), (ascii "model", .str msg.model),
    (ascii "timestamp", .str msg.timestamp),
    (ascii "duration_ms", .float msg.durationMs),
    (ascii "decision_trace_hash", .str msg.decisionTraceHash)]

def snapshotToJson (snapshot : SessionSnapshot) : Json :=
  (((Json.null.set (ascii "session_id") (.str snapshot.sessionId)).set
    (ascii "branch_id") (.str snapshot.branchId)).set
    (ascii "agent_id") (.str snapshot.agentId)).set
    (ascii "messages") (.arr (snapshot.messages.map messageToJson))

/-- `j.value(key, 0.0)`. -/
def valueDouble (j : Json) (key : Bytes) : Except JsonError Bytes :=
  match j with
  | .obj members =>
    match members.lookup key with
    | none => .ok (ascii "0.0")
    | some (.float text) => .ok text
    | some (.int i) => .ok (Bytes.decimalInt i)
    | some _ => .error .typeError
  | _ => .error .typeError

def messageFromJson (j : Json) : Except JsonError SessionMessage := do
  let role ← j.valueStr (ascii "role") (ascii "user")
  let content ← j.valueStr (ascii "content") []
  let agentId ← j.valueStr (ascii "agent_id") []
  let model ← j.valueStr (ascii "model") []
  let timestamp ← j.valueStr (ascii "timestamp") []
  let durationMs ← valueDouble j (ascii "duration_ms")
  let decisionTraceHash ← j.valueStr (ascii "decision_trace_hash") []
  .ok { role := roleFromString role, content, agentId, model, timestamp, durationMs,
        decisionTraceHash }

def snapshotFromJson (j : Json) (sessionId branch : Bytes) : Except JsonError SessionSnapshot := do
  let session ← j.valueStr (ascii "session_id") sessionId
  let branchId ← j.valueStr (ascii "branch_id") branch
  let agentId ← j.valueStr (ascii "agent_id") []
  let messages ← ((j.find (ascii "messages")).getD (.arr [])).elements.mapM messageFromJson
  .ok { sessionId := session, branchId, agentId, messages }

/-- What `compact` keeps. -/
def keepLast (snap : SessionSnapshot) (keepLastN : Nat) : SessionSnapshot :=
  if snap.messages.length > keepLastN then
    { snap with messages := snap.messages.drop (snap.messages.length - keepLastN) }
  else snap

/-- Why a call does not succeed: an `unexpected` value, or an exception. -/
inductive Failure where
  | unexpected (message : Bytes)
  | exception
  deriving DecidableEq, Repr

def mainBranch : Bytes := ascii "main"

/-! ## `MemorySessionStore` -/

abbrev Branches := AList fun _ : Bytes => SessionSnapshot

abbrev Sessions := AList fun _ : Bytes => Branches

namespace Memory

def save (sessions : Sessions) (snapshot : SessionSnapshot) : Sessions :=
  sessions.insert snapshot.sessionId
    (((sessions.lookup snapshot.sessionId).getD ∅).insert snapshot.branchId snapshot)

def load (sessions : Sessions) (sessionId branch : Bytes) : Except Failure SessionSnapshot :=
  match (sessions.lookup sessionId).bind (·.lookup branch) with
  | none => .error (.unexpected (ascii "Session not found in memory"))
  | some snap => .ok snap

/-- The keys of a `std::map` come in their order. -/
def listBranches (sessions : Sessions) (sessionId : Bytes) : List Bytes :=
  match sessions.lookup sessionId with
  | none => []
  | some branches => branches.keys.mergeSort fun a b => !(decide (b < a))

def compact (sessions : Sessions) (sessionId : Bytes) (keepLastN : Nat) :
    Sessions × Except Failure Unit :=
  match load sessions sessionId mainBranch with
  | .error e => (sessions, .error e)
  | .ok snap => (save sessions (keepLast snap keepLastN), .ok ())

end Memory

/-! ## `FileSessionStore` -/

/-- The directory of a store, and the working directory of the process. -/
structure Config where
  baseDir : Bytes
  cwd : Place
  baseDir_text : 0 ∉ baseDir

def msgp : Bytes := ascii ".msgp"

namespace File

def sessionDir (cfg : Config) (sessionId : Bytes) : Bytes := appendPath cfg.baseDir sessionId

def branchFile (cfg : Config) (sessionId branch : Bytes) : Bytes :=
  appendPath (sessionDir cfg sessionId) (branch ++ msgp)

def save (mp : Msgpack) (cfg : Config) (tree : Tree) (snapshot : SessionSnapshot) :
    Tree × Except Failure Unit :=
  match createDirectories tree cfg.cwd (sessionDir cfg snapshot.sessionId) with
  | none => (tree, .error .exception)
  | some tree =>
    match edit tree cfg.cwd (branchFile cfg snapshot.sessionId snapshot.branchId)
        fun _ => mp.pack (snapshotToJson snapshot) with
    | none => (tree, .error (.unexpected (ascii "Failed to open path for binary write")))
    | some tree => (tree, .ok ())

/-- A directory opens, but has no bytes to decode. -/
def load (mp : Msgpack) (cfg : Config) (tree : Tree) (sessionId branch : Bytes) :
    Except Failure SessionSnapshot :=
  match (locate tree cfg.cwd (branchFile cfg sessionId branch)).bind (nodeAt tree) with
  | none => .error (.unexpected (ascii "Session not found"))
  | some .dir => .error (.unexpected (ascii "MessagePack decoding failed"))
  | some (.file content) =>
    match mp.unpack content with
    | none => .error (.unexpected (ascii "MessagePack decoding failed"))
    | some j =>
      match snapshotFromJson j sessionId branch with
      | .error _ => .error (.unexpected (ascii "MessagePack decoding failed"))
      | .ok snap => .ok snap

/-- The iterator throws when the path leads to a file. -/
def listBranches (cfg : Config) (tree : Tree) (sessionId : Bytes) : Except Failure (List Bytes) :=
  match locate tree cfg.cwd (sessionDir cfg sessionId) with
  | none => .ok []
  | some place =>
    match nodeAt tree place with
    | none => .ok []
    | some (.file _) => .error .exception
    | some .dir =>
      .ok ((list tree place).filterMap fun entry => if extension entry.1 = msgp then
        some (stem entry.1) else none)

def compact (mp : Msgpack) (cfg : Config) (tree : Tree) (sessionId : Bytes) (keepLastN : Nat) :
    Tree × Except Failure Unit :=
  match load mp cfg tree sessionId mainBranch with
  | .error e => (tree, .error e)
  | .ok snap => save mp cfg tree (keepLast snap keepLastN)

end File

/-! ## Calls -/

inductive Call where
  | save (snapshot : SessionSnapshot)
  | load (sessionId branch : Bytes)
  | listBranches (sessionId : Bytes)
  | compact (sessionId : Bytes) (keepLastN : Nat)

inductive Answer where
  | done (result : Except Failure Unit)
  | snapshot (result : Except Failure SessionSnapshot)
  | branches (result : Except Failure (List Bytes))

def Memory.call (sessions : Sessions) : Call → Sessions × Answer
  | .save snapshot => (Memory.save sessions snapshot, .done (.ok ()))
  | .load sessionId branch => (sessions, .snapshot (Memory.load sessions sessionId branch))
  | .listBranches sessionId => (sessions, .branches (.ok (Memory.listBranches sessions sessionId)))
  | .compact sessionId keepLastN =>
    let (sessions, result) := Memory.compact sessions sessionId keepLastN
    (sessions, .done result)

def File.call (mp : Msgpack) (cfg : Config) (tree : Tree) : Call → Tree × Answer
  | .save snapshot =>
    let (tree, result) := File.save mp cfg tree snapshot
    (tree, .done result)
  | .load sessionId branch => (tree, .snapshot (File.load mp cfg tree sessionId branch))
  | .listBranches sessionId => (tree, .branches (File.listBranches cfg tree sessionId))
  | .compact sessionId keepLastN =>
    let (tree, result) := File.compact mp cfg tree sessionId keepLastN
    (tree, .done result)

/-- The answers to a sequence of calls, and the store after it. -/
def answers {σ : Type} (call : σ → Call → σ × Answer) (s : σ) : List Call → σ × List Answer
  | [] => (s, [])
  | c :: rest =>
    let (s, answer) := call s c
    let (s, more) := answers call s rest
    (s, answer :: more)

end Euxis.Session
