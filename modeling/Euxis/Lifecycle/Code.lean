import Euxis.Files
import Euxis.Gateway.Code
import Mathlib.Data.List.DropRight

/-!
# Agent lifecycles: `libs/runtime/src/lifecycle.cpp`

The manager, its two kinds of files and the process that may stop between any two file operations. A
stream that fails to open takes no bytes, as `std::ofstream` does without exceptions.
-/

namespace Euxis.Lifecycle

open Files Gateway

/-! ## States -/

inductive AgentState where
  | idle
  | ready
  | running
  | paused
  | completed
  | failed
  | terminated
  deriving DecidableEq, Repr

def stateToString : AgentState → Bytes
  | .idle => ascii "idle"
  | .ready => ascii "ready"
  | .running => ascii "running"
  | .paused => ascii "paused"
  | .completed => ascii "completed"
  | .failed => ascii "failed"
  | .terminated => ascii "terminated"

def stateFromString (s : Bytes) : AgentState :=
  if s = ascii "ready" then .ready
  else if s = ascii "running" then .running
  else if s = ascii "paused" then .paused
  else if s = ascii "completed" then .completed
  else if s = ascii "failed" then .failed
  else if s = ascii "terminated" then .terminated
  else .idle

def validTransitions : AgentState → List AgentState
  | .idle => [.ready, .terminated]
  | .ready => [.running, .terminated]
  | .running => [.paused, .completed, .failed, .terminated]
  | .paused => [.running, .terminated]
  | .completed => [.idle]
  | .failed => [.idle, .terminated]
  | .terminated => []

/-! ## The manager -/

structure Transition where
  agent : Bytes
  fromState : AgentState
  toState : AgentState
  session : Bytes
  timestamp : Bytes
  deriving DecidableEq, Repr

structure Manager where
  states : Bytes → Option AgentState
  transitions : List Transition

def getState (m : Manager) (agent : Bytes) : AgentState := (m.states agent).getD .idle

def history (m : Manager) (agent : Bytes) : List Transition :=
  m.transitions.filter (·.agent = agent)

/-- Where the manager keeps its files: its `data_dir` and the working directory. -/
structure Config where
  dataDir : Bytes
  cwd : Place
  dataDir_text : 0 ∉ dataDir

def Config.lifecycleDir (cfg : Config) : Bytes := appendPath cfg.dataDir (ascii "lifecycle")

def Config.transitionsFile (cfg : Config) : Bytes :=
  appendPath cfg.lifecycleDir (ascii "transitions.jsonl")

def stateName (agent : Bytes) : Bytes := agent ++ ascii ".state"

def Config.stateFile (cfg : Config) (agent : Bytes) : Bytes :=
  appendPath cfg.lifecycleDir (stateName agent)

/-! ## Reading the files -/

def isBlank (b : UInt8) : Bool := b = ch ' ' ∨ b = ch '\t' ∨ b = ch '\r' ∨ b = ch '\n'

/-- A text of blanks only is left as it is. -/
def trim (content : Bytes) : Bytes :=
  if content.all isBlank then content
  else (content.dropWhile isBlank).rdropWhile isBlank

/-- The first line of a file, as a state. -/
def readState : Node → AgentState
  | .file content => stateFromString (trim ((Audit.getLines content).headD []))
  | .dir => .idle

def loadState (states : Bytes → Option AgentState) (entry : Bytes × Node) :
    Bytes → Option AgentState :=
  if extension entry.1 = ascii ".state" then
    Function.update states (stem entry.1) (some (readState entry.2))
  else states

def Transition.json (t : Transition) : Json :=
  Json.object [(ascii "ts", .str t.timestamp), (ascii "agent", .str t.agent),
    (ascii "from", .str (stateToString t.fromState)),
    (ascii "state", .str (stateToString t.toState)),
    (ascii "session", .str t.session)]

def readEntry (j : Json) : Except JsonError Transition := do
  let agent ← j.valueStr (ascii "agent") []
  let fromText ← j.valueStr (ascii "from") (ascii "idle")
  let toText ← j.valueStr (ascii "state") (ascii "idle")
  let session ← j.valueStr (ascii "session") []
  let timestamp ← j.valueStr (ascii "ts") []
  .ok { agent, fromState := stateFromString fromText, toState := stateFromString toText, session,
        timestamp }

/-- A line that does not parse, or has a member of another type, is skipped. -/
def readTransition (codec : JsonCodec) (line : Bytes) : Option Transition :=
  (codec.parse line).bind fun j => (readEntry j).toOption

def loadTransitions (codec : JsonCodec) (content : Bytes) : List Transition :=
  (Audit.getLines content).filterMap fun line => if line = [] then none
    else readTransition codec line

/-- What the directory iterator visits, in some order. -/
def listing (cfg : Config) (tree : Tree) : List (Bytes × Node) :=
  match locate tree cfg.cwd cfg.lifecycleDir with
  | none => []
  | some place => list tree place

def logContent (cfg : Config) (tree : Tree) : Bytes :=
  match locate tree cfg.cwd cfg.transitionsFile with
  | none => []
  | some place => contentAt tree place

/-- `load_from_disk` of a new manager. -/
def loadFromDisk (codec : JsonCodec) (cfg : Config) (tree : Tree) (order : List (Bytes × Node)) :
    Manager where
  states := order.foldl loadState fun _ => none
  transitions := loadTransitions codec (logContent cfg tree)

/-! ## Calls and stops -/

/-- What a call of `transition` does next to the files. -/
inductive Phase where
  | openLog
  | writeLog
  | openState
  | writeState
  deriving DecidableEq, Repr

structure Call where
  t : Transition
  phase : Phase
  deriving DecidableEq, Repr

structure System where
  tree : Tree
  manager : Manager
  call : Option Call

/-- A name that is one part of a path. -/
structure AgentName where
  text : Bytes
  ne_nil : text ≠ []
  no_slash : ch '/' ∉ text

inductive Event where
  | transition (agent : AgentName) (newState : AgentState) (session : Bytes) (now : Int)
  /-- The next file operation of the call under way. -/
  | write
  /-- The process stops. A new one finds the directory there, and loads the files. -/
  | stop (order : List (Bytes × Node))

def newTransition (m : Manager) (agent : Bytes) (newState : AgentState) (session : Bytes)
    (now : Int) : Transition where
  agent := agent
  fromState := getState m agent
  toState := newState
  session := if session = [] then ascii "default" else session
  timestamp := Clock.isoTime now

/-- `transition`, up to its first file operation. -/
def beginTransition (sys : System) (agent : Bytes) (newState : AgentState) (session : Bytes)
    (now : Int) : System :=
  if newState ∈ validTransitions (getState sys.manager agent) then
    let t := newTransition sys.manager agent newState session now
    { sys with
      manager :=
        { states := Function.update sys.manager.states agent (some newState)
          transitions := sys.manager.transitions ++ [t] }
      call := some { t, phase := .openLog } }
  else sys

def edited (cfg : Config) (tree : Tree) (path : Bytes) (change : Bytes → Bytes) : Tree :=
  (edit tree cfg.cwd path change).getD tree

/-- The file operations of `append_transition` and `persist_state`. An exception of `dump` ends the
call. -/
def writeStep (codec : JsonCodec) (cfg : Config) (sys : System) (call : Call) : System :=
  let t := call.t
  match call.phase with
  | .openLog =>
    { sys with
      tree := edited cfg sys.tree cfg.transitionsFile id
      call := some { t, phase := .writeLog } }
  | .writeLog =>
    match codec.dump t.json with
    | none => { sys with call := none }
    | some line =>
      { sys with
        tree := edited cfg sys.tree cfg.transitionsFile (· ++ (line ++ [ch '\n']))
        call := some { t, phase := .openState } }
  | .openState =>
    { sys with
      tree := edited cfg sys.tree (cfg.stateFile t.agent) fun _ => []
      call := some { t, phase := .writeState } }
  | .writeState =>
    { sys with
      tree := edited cfg sys.tree (cfg.stateFile t.agent) fun _ =>
        stateToString (getState sys.manager t.agent)
      call := none }

def step (codec : JsonCodec) (cfg : Config) (sys : System) : Event → Option System
  | .transition agent newState session now =>
    if sys.call = none then some (beginTransition sys agent.text newState session now) else none
  | .write => sys.call.map (writeStep codec cfg sys)
  | .stop order =>
    if order.Perm (listing cfg sys.tree) then
      some { sys with manager := loadFromDisk codec cfg sys.tree order, call := none }
    else none

/-- A new manager, which makes its directory. -/
def start (cfg : Config) (tree : Tree) : Option System :=
  (createDirectories tree cfg.cwd cfg.lifecycleDir).map fun tree =>
    { tree, manager := { states := fun _ => none, transitions := [] }, call := none }

end Euxis.Lifecycle
