import Euxis.Json.Value

/-!
# The agent control protocol: `libs/network/src/acp.cpp`

A session manager and the ledger it shares. A call of the manager takes two locks one after the
other, so it makes two atomic steps: the change of the session map, then the append to the ledger.
-/

namespace Euxis.Acp

/-! ## Session states -/

inductive SessionState where
  | pending
  | running
  | paused
  | completed
  | failed
  | cancelled
  deriving DecidableEq, Repr

def stateName : SessionState → Bytes
  | .pending => ascii "pending"
  | .running => ascii "running"
  | .paused => ascii "paused"
  | .completed => ascii "completed"
  | .failed => ascii "failed"
  | .cancelled => ascii "cancelled"

def isTerminal (s : SessionState) : Bool := s = .completed || s = .failed || s = .cancelled

def isValidTransition (old new : SessionState) : Bool :=
  if old = new then false
  else if isTerminal old then false
  else
    match old with
    | .pending => new = .running || new = .failed || new = .cancelled
    | .running => new = .paused || new = .completed || new = .failed || new = .cancelled
    | .paused => new = .running || new = .completed || new = .failed || new = .cancelled
    | _ => false

/-! ## Sessions, events and the policy -/

structure SessionSpec where
  id : Bytes
  agentId : Bytes
  workingDir : Bytes
  metadata : Json
  createdAtUnixMs : Int

structure AcpSession where
  spec : SessionSpec
  state : SessionState
  updatedAtUnixMs : Int

structure AcpEvent where
  sessionId : Bytes
  kind : Bytes
  payload : Json
  atUnixMs : Int

def eventsFor (events : List AcpEvent) (id : Bytes) : List AcpEvent :=
  events.filter (·.sessionId = id)

structure AcpPolicy where
  permissive : Bool
  allowedAgents : List Bytes

def AcpPolicy.isAllowed (policy : AcpPolicy) (agentId : Bytes) : Bool :=
  if policy.permissive then true else agentId ∈ policy.allowedAgents

/-! ## The first step of a call -/

abbrev Sessions := Bytes → Option AcpSession

def spawnedEvent (id : Bytes) (atUnixMs : Int) : AcpEvent :=
  { sessionId := id, kind := ascii "spawned", payload := .obj [], atUnixMs }

def stateChangedEvent (id : Bytes) (old new : SessionState) (atUnixMs : Int) : AcpEvent :=
  { sessionId := id, kind := ascii "state_changed",
    payload := .obj [(ascii "from", .str (stateName old)), (ascii "to", .str (stateName new))],
    atUnixMs }

/-- `spawn` up to the end of the manager lock: the new map and the event that is still to be
appended. -/
def spawn (policy : AcpPolicy) (sessions : Sessions) (spec : SessionSpec) (atUnixMs : Int) :
    Except Bytes (Sessions × AcpEvent) :=
  if spec.id = [] then .error (ascii "session id must not be empty")
  else if spec.agentId = [] then .error (ascii "agent_id must not be empty")
  else if !policy.isAllowed spec.agentId then
    .error (ascii "agent_id not allowed by policy: " ++ spec.agentId)
  else if (sessions spec.id).isSome then .error (ascii "session id already exists: " ++ spec.id)
  else
    let session := { spec, state := .pending, updatedAtUnixMs := atUnixMs }
    .ok (Function.update sessions spec.id (some session), spawnedEvent spec.id atUnixMs)

/-- `set_state` up to the end of the manager lock. -/
def setState (sessions : Sessions) (id : Bytes) (newState : SessionState) (atUnixMs : Int) :
    Except Bytes (Sessions × AcpEvent) :=
  match sessions id with
  | none => .error (ascii "session not found: " ++ id)
  | some session =>
    if !isValidTransition session.state newState then
      .error (ascii "invalid transition " ++ stateName session.state ++ ascii " -> " ++
        stateName newState)
    else
      .ok (Function.update sessions id
        (some { session with state := newState, updatedAtUnixMs := atUnixMs }),
        stateChangedEvent id session.state newState atUnixMs)

def cancel (sessions : Sessions) (id : Bytes) (atUnixMs : Int) :
    Except Bytes (Sessions × AcpEvent) :=
  setState sessions id .cancelled atUnixMs

/-! ## Interleaving -/

inductive Call where
  | spawn (spec : SessionSpec) (atUnixMs : Int)
  | setState (id : Bytes) (newState : SessionState) (atUnixMs : Int)
  | cancel (id : Bytes) (atUnixMs : Int)

def update (policy : AcpPolicy) (sessions : Sessions) : Call → Except Bytes (Sessions × AcpEvent)
  | .spawn spec atUnixMs => spawn policy sessions spec atUnixMs
  | .setState id newState atUnixMs => setState sessions id newState atUnixMs
  | .cancel id atUnixMs => cancel sessions id atUnixMs

/-- Where the thread of a call stands: before the manager lock, between the two locks, or done. -/
inductive Thread where
  | entered (call : Call)
  | appending (event : AcpEvent)
  | returned (result : Except Bytes Unit)

structure System where
  sessions : Sessions
  events : List AcpEvent
  threads : List Thread

def start (calls : List Call) : System :=
  { sessions := fun _ => none, events := [], threads := calls.map .entered }

/-- Thread `i` makes its next step. -/
def step (policy : AcpPolicy) (sys : System) (i : Nat) : System :=
  match sys.threads[i]? with
  | some (.entered call) =>
    match update policy sys.sessions call with
    | .error message => { sys with threads := sys.threads.set i (.returned (.error message)) }
    | .ok (sessions, event) =>
      { sys with sessions, threads := sys.threads.set i (.appending event) }
  | some (.appending event) =>
    { sys with events := sys.events ++ [event], threads := sys.threads.set i (.returned (.ok ())) }
  | _ => sys

def run (policy : AcpPolicy) (sys : System) (schedule : List Nat) : System :=
  schedule.foldl (step policy) sys

def Thread.isReturned : Thread → Bool
  | .returned _ => true
  | _ => false

def Finished (sys : System) : Prop := ∀ thread ∈ sys.threads, thread.isReturned = true

instance (sys : System) : Decidable (Finished sys) :=
  inferInstanceAs (Decidable (∀ thread ∈ sys.threads, _))

end Euxis.Acp
