import Mathlib.Data.List.AList
import Mathlib.Data.List.Chain
import Euxis.A2a.Message
import Euxis.Policy.Proofs

/-!
# Tasks and the server

`libs/a2a/src/task.cpp` and `server.cpp`. A task moves from status to status and keeps where it has
been; the server creates tasks, shows them and cancels them. The random bytes and the clock are
inputs of each request.
-/

namespace Euxis.A2a

/-! ## Ids and times -/

/-- `generate_uuid` from the 16 random bytes. -/
def generateUuid (buf : Bytes) : Bytes :=
  let hex := Policy.hexEncode buf
  Bytes.join (ch '-') [hex.take 8, (hex.drop 8).take 4, (hex.drop 12).take 4, (hex.drop 16).take 4,
    (hex.drop 20).take 12]

/-- The fields of `std::tm` that are written, with the year and the month as they are written. -/
structure Utc where
  year : Nat
  month : Nat
  day : Nat
  hour : Nat
  minute : Nat
  second : Nat

def digit (v : Nat) : UInt8 := UInt8.ofNat (48 + v)

def put2 (v : Nat) : Bytes := [digit (v / 10), digit (v % 10)]

def put4 (v : Nat) : Bytes :=
  [digit (v / 1000), digit (v / 100 % 10), digit (v / 10 % 10), digit (v % 10)]

def iso8601 (t : Utc) : Bytes :=
  put4 t.year ++ ascii "-" ++ put2 t.month ++ ascii "-" ++ put2 t.day ++ ascii "T" ++ put2 t.hour ++
    ascii ":" ++ put2 t.minute ++ ascii ":" ++ put2 t.second ++ ascii "Z"

/-! ## The life of a task -/

inductive TaskStatus where
  | pending
  | active
  | completed
  | failed
  | cancelled
  deriving DecidableEq, Repr

def statusString : TaskStatus → Bytes
  | .pending => ascii "pending"
  | .active => ascii "active"
  | .completed => ascii "completed"
  | .failed => ascii "failed"
  | .cancelled => ascii "cancelled"

def isTerminal (s : TaskStatus) : Bool := s == .completed || s == .failed || s == .cancelled

def isValidTransition : TaskStatus → TaskStatus → Bool
  | .pending, next => next == .active || next == .cancelled || next == .failed
  | .active, next => next == .completed || next == .failed || next == .cancelled
  | _, _ => false

structure A2ATask where
  id : Bytes
  status : TaskStatus := .pending
  createdAt : Bytes
  updatedAt : Bytes
  messages : List A2AMessage := []
  artifacts : List Artifact := []
  history : List TaskStatus := []

def A2ATask.toJson (task : A2ATask) : Json :=
  let j := Json.null.set (ascii "id") (.str task.id)
  let j := j.set (ascii "status") (.str (statusString task.status))
  let j := j.set (ascii "createdAt") (.str task.createdAt)
  let j := j.set (ascii "updatedAt") (.str task.updatedAt)
  let j := j.set (ascii "messages") (.arr (task.messages.map A2AMessage.toJson))
  let j := j.set (ascii "artifacts") (.arr (task.artifacts.map Artifact.toJson))
  j.set (ascii "history") (.arr (task.history.map fun s => .str (statusString s)))

def createTask (buf : Bytes) (now : Utc) (message : Bytes) : A2ATask where
  id := generateUuid buf
  createdAt := iso8601 now
  updatedAt := iso8601 now
  messages :=
    if message = [] then []
    else [{ role := ascii "user", createdAt := iso8601 now,
            parts := [{ type := ascii "text", content := message }] }]

def transitionTask (now : Utc) (task : A2ATask) (newStatus : TaskStatus) : Except Bytes A2ATask :=
  if isTerminal task.status then
    .error (ascii "cannot transition from terminal state '" ++ statusString task.status ++
      ascii "'")
  else if !isValidTransition task.status newStatus then
    .error (ascii "invalid transition from '" ++ statusString task.status ++ ascii "' to '" ++
      statusString newStatus ++ ascii "'")
  else
    .ok { task with history := task.history ++ [task.status], status := newStatus,
                    updatedAt := iso8601 now }

/-! ## The server -/

structure Server where
  card : AgentCard
  tasks : AList fun _ : Bytes => A2ATask

def newServer (card : AgentCard) : Server := { card, tasks := ∅ }

/-- One call of `handle_request`, with the random bytes and the time it meets. -/
structure Request where
  method : Bytes
  params : Json
  buf : Bytes
  now : Utc

def result (j : Json) : Json := Json.object [(ascii "result", j)]

def errorReply (code : Int) (message : Bytes) : Json :=
  Json.object [(ascii "error",
    Json.object [(ascii "code", .int code), (ascii "message", .str message)])]

/-- `params["message"]`, when it is a string. -/
def initialMessage (params : Json) : Bytes := (params.findStr (ascii "message")).getD []

/-- `emplace` leaves a task that is already there, and the one in the map is shown. -/
def handleTaskCreate (s : Server) (r : Request) : Server × Json :=
  let task := createTask r.buf r.now (initialMessage r.params)
  match s.tasks.lookup task.id with
  | some stored => (s, result stored.toJson)
  | none => ({ s with tasks := s.tasks.insert task.id task }, result task.toJson)

/-- The task that `params["id"]` names, or the error that is replied. -/
def findTask (s : Server) (params : Json) : Except Json (Bytes × A2ATask) :=
  match params.findStr (ascii "id") with
  | none => .error (errorReply (-32602) (ascii "missing or invalid 'id' parameter"))
  | some id =>
    match s.tasks.lookup id with
    | none => .error (errorReply (-32602) (ascii "task not found: " ++ id))
    | some task => .ok (id, task)

def handleTaskGet (s : Server) (r : Request) : Server × Json :=
  match findTask s r.params with
  | .error reply => (s, reply)
  | .ok (_, task) => (s, result task.toJson)

def handleTaskCancel (s : Server) (r : Request) : Server × Json :=
  match findTask s r.params with
  | .error reply => (s, reply)
  | .ok (id, task) =>
    match transitionTask r.now task .cancelled with
    | .error e => (s, errorReply (-32603) e)
    | .ok task => ({ s with tasks := s.tasks.insert id task }, result task.toJson)

def handleRequest (s : Server) (r : Request) : Server × Json :=
  if r.method = ascii "agent/card" then (s, result s.card.toJson)
  else if r.method = ascii "task/create" then handleTaskCreate s r
  else if r.method = ascii "task/get" then handleTaskGet s r
  else if r.method = ascii "task/cancel" then handleTaskCancel s r
  else if r.method = ascii "capabilities/list" then
    (s, result (.arr (s.card.capabilities.map Capability.toJson)))
  else (s, errorReply (-32601) (ascii "unknown method: " ++ r.method))

def serve (s : Server) (requests : List Request) : Server :=
  requests.foldl (fun s r => (handleRequest s r).1) s

/-! ## Paths through the statuses -/

/-- A request that fails leaves the task as it is. -/
def attempt (task : A2ATask) (r : Utc × TaskStatus) : A2ATask :=
  ((transitionTask r.1 task r.2).toOption).getD task

/-- The statuses of a task, from the first one to the present one. -/
def A2ATask.trail (task : A2ATask) : List TaskStatus := task.history ++ [task.status]

def Valid (a b : TaskStatus) : Prop := isValidTransition a b = true

theorem not_valid_of_terminal {s next : TaskStatus} (h : isTerminal s = true) : ¬ Valid s next := by
  unfold Valid
  cases s <;> simp_all [isTerminal, isValidTransition]

theorem isTerminal_of_valid {a b c : TaskStatus} (hab : Valid a b) (hbc : Valid b c) :
    isTerminal c = true := by
  unfold Valid at hab hbc
  cases a <;> cases b <;> cases c <;> simp_all [isTerminal, isValidTransition]

theorem transitionTask_valid (now : Utc) (task : A2ATask) (next : TaskStatus)
    (h : Valid task.status next) :
    transitionTask now task next =
      .ok { task with history := task.history ++ [task.status], status := next,
                      updatedAt := iso8601 now } := by
  have hterminal : ¬ isTerminal task.status = true := fun ht => not_valid_of_terminal ht h
  rw [transitionTask, if_neg hterminal, if_neg]
  rw [show isValidTransition task.status next = true from h]
  simp

theorem attempt_valid (task : A2ATask) (r : Utc × TaskStatus) (h : Valid task.status r.2) :
    (attempt task r).trail = task.trail ++ [r.2] := by
  rw [attempt, transitionTask_valid r.1 task r.2 h]
  rfl

theorem attempt_invalid (task : A2ATask) (r : Utc × TaskStatus) (h : ¬ Valid task.status r.2) :
    attempt task r = task := by
  unfold attempt transitionTask
  rw [Valid, Bool.not_eq_true] at h
  split
  · rfl
  · rw [h]
    rfl

theorem isChain_concat {path : List TaskStatus} {a b : TaskStatus}
    (hpath : (path ++ [a]).IsChain Valid) (h : Valid a b) : (path ++ [a] ++ [b]).IsChain Valid := by
  apply List.isChain_append.mpr
  refine ⟨hpath, .singleton b, ?_⟩
  intro x hx y hy
  simp at hx hy
  rw [← hx, ← hy]
  exact h

theorem attempts_path (task : A2ATask) (requests : List (Utc × TaskStatus))
    (h : task.trail.IsChain Valid) :
    (requests.foldl attempt task).trail.IsChain Valid ∧
      task.trail <+: (requests.foldl attempt task).trail := by
  induction requests generalizing task with
  | nil => exact ⟨h, List.prefix_rfl⟩
  | cons r rest ih =>
    by_cases hvalid : Valid task.status r.2
    · have hnext : (attempt task r).trail.IsChain Valid := by
        rw [attempt_valid task r hvalid]
        exact isChain_concat h hvalid
      obtain ⟨hpath, hprefix⟩ := ih (attempt task r) hnext
      refine ⟨hpath, ?_⟩
      apply List.IsPrefix.trans _ hprefix
      rw [attempt_valid task r hvalid]
      exact List.prefix_append _ _
    · rw [List.foldl_cons, attempt_invalid task r hvalid]
      exact ih task h

theorem attempts_reach (task : A2ATask) (now : Utc) (more : List TaskStatus)
    (h : (task.trail ++ more).IsChain Valid) :
    ((more.map fun s => (now, s)).foldl attempt task).trail = task.trail ++ more := by
  induction more generalizing task with
  | nil => simp
  | cons s rest ih =>
    have hvalid : Valid task.status s := by
      rw [A2ATask.trail, List.append_assoc, List.isChain_append] at h
      exact h.2.1.rel
    have hstep := attempt_valid task (now, s) hvalid
    have hrest := ih (attempt task (now, s)) (by rw [hstep, List.append_assoc]; exact h)
    rw [List.map_cons, List.foldl_cons, hrest, hstep, List.append_assoc]
    rfl

theorem path_length_le (path : List TaskStatus) (h : path.IsChain Valid) : path.length ≤ 3 := by
  rcases path with _ | ⟨a, _ | ⟨b, _ | ⟨c, _ | ⟨d, rest⟩⟩⟩⟩
  case cons.cons.cons.cons =>
    simp only [List.isChain_cons_cons] at h
    exact absurd h.2.2.1 (not_valid_of_terminal (isTerminal_of_valid h.1 h.2.1))
  all_goals simp

/-- The trails of a new task are the paths from `pending`, and none is longer than two
transitions. -/
theorem trail_iff_path (buf message : Bytes) (now : Utc) :
    (∀ path, (∃ requests : List (Utc × TaskStatus),
      (requests.foldl attempt (createTask buf now message)).trail = path) ↔
      path.head? = some .pending ∧ path.IsChain Valid) ∧
    ∀ requests : List (Utc × TaskStatus),
      (requests.foldl attempt (createTask buf now message)).trail.length ≤ 3 := by
  have hstart : (createTask buf now message).trail = [.pending] := rfl
  have hpath : ∀ requests : List (Utc × TaskStatus),
      (requests.foldl attempt (createTask buf now message)).trail.IsChain Valid ∧
        [.pending] <+: (requests.foldl attempt (createTask buf now message)).trail := by
    intro requests
    rw [← hstart]
    apply attempts_path
    rw [hstart]
    exact .singleton _
  constructor
  · intro path
    constructor
    · rintro ⟨requests, rfl⟩
      obtain ⟨hchain, ⟨more, hmore⟩⟩ := hpath requests
      exact ⟨by rw [← hmore]; rfl, hchain⟩
    · rintro ⟨hhead, hchain⟩
      obtain ⟨more, rfl⟩ := List.head?_eq_some_iff.mp hhead
      exact ⟨more.map fun s => (now, s), attempts_reach _ now more hchain⟩
  · intro requests
    exact path_length_le _ (hpath requests).1

/-! ## Requests about one task -/

def Request.task (r : Request) : A2ATask := createTask r.buf r.now (initialMessage r.params)

def Request.creates (id : Bytes) (r : Request) : Bool :=
  r.method = ascii "task/create" ∧ r.task.id = id

def Request.cancels (id : Bytes) (r : Request) : Bool :=
  r.method = ascii "task/cancel" ∧ r.params.findStr (ascii "id") = some id

def A2ATask.cancelledAt (task : A2ATask) (now : Utc) : A2ATask :=
  { task with history := task.history ++ [.pending], status := .cancelled,
              updatedAt := iso8601 now }

/-- What the requests behind its creation make of a task: the first cancellation counts. -/
def afterwards (id : Bytes) (task : A2ATask) (rest : List Request) : A2ATask :=
  (rest.find? (Request.cancels id)).elim task fun r => task.cancelledAt r.now

/-- The task that a history of requests leaves under an id: the first one created with it. -/
def expected (id : Bytes) (requests : List Request) : Option A2ATask :=
  match requests.dropWhile fun r => !r.creates id with
  | [] => none
  | r :: rest => some (afterwards id r.task rest)

/-- What one request makes of the task under an id. -/
def oneStep (id : Bytes) (r : Request) (stored : Option A2ATask) : Option A2ATask :=
  if r.creates id then stored.or (some r.task)
  else if r.cancels id then stored.map fun task => if task.status = .pending then
    task.cancelledAt r.now else task
  else stored

theorem createTask_pending (r : Request) : r.task.status = .pending := rfl

theorem afterwards_cases (id : Bytes) (task : A2ATask) (rest : List Request) :
    (rest.any (Request.cancels id) = false ∧ afterwards id task rest = task) ∨
      ∃ now, afterwards id task rest = task.cancelledAt now := by
  unfold afterwards
  cases hfind : rest.find? (Request.cancels id) with
  | none =>
    refine Or.inl ⟨?_, rfl⟩
    rw [List.find?_eq_none] at hfind
    simpa using hfind
  | some r => exact Or.inr ⟨r.now, rfl⟩

theorem afterwards_concat (id : Bytes) (task : A2ATask) (rest : List Request) (r : Request)
    (hpending : task.status = .pending) :
    afterwards id task (rest ++ [r]) =
      if r.cancels id = true ∧ (afterwards id task rest).status = .pending then
        (afterwards id task rest).cancelledAt r.now
      else afterwards id task rest := by
  unfold afterwards
  rw [List.find?_append]
  cases hfind : rest.find? (Request.cancels id) with
  | some c => simp [A2ATask.cancelledAt]
  | none =>
    by_cases hr : r.cancels id = true
    · simp [hr, hpending]
    · simp [hr]

theorem expected_concat (id : Bytes) (requests : List Request) (r : Request)
    (hr : r.cancels id = true → r.creates id = false) :
    expected id (requests ++ [r]) = oneStep id r (expected id requests) := by
  unfold expected
  rw [List.dropWhile_append]
  cases hdrop : requests.dropWhile fun r => !r.creates id with
  | nil =>
    by_cases hcreates : r.creates id = true
    · simp [oneStep, hcreates, afterwards]
    · simp [oneStep, hcreates]
  | cons first rest =>
    simp only [List.isEmpty_cons, Bool.false_eq_true, if_false, List.cons_append]
    rw [afterwards_concat id first.task rest r (createTask_pending first), oneStep]
    by_cases hcancels : r.cancels id = true
    · simp [hr hcancels, hcancels]
    · by_cases hcreates : r.creates id = true
      · simp [hcreates, hcancels]
      · simp [hcreates, hcancels]

theorem creates_iff (id : Bytes) (r : Request) :
    r.creates id = true ↔ r.method = ascii "task/create" ∧ r.task.id = id := by
  rw [Request.creates, decide_eq_true_eq]

theorem cancels_iff (id : Bytes) (r : Request) :
    r.cancels id = true ↔ r.method = ascii "task/cancel" ∧
      r.params.findStr (ascii "id") = some id := by
  rw [Request.cancels, decide_eq_true_eq]

theorem not_creates_of_cancels (id : Bytes) (r : Request) (h : r.cancels id = true) :
    r.creates id = false := by
  rw [← Bool.not_eq_true, creates_iff, ((cancels_iff id r).mp h).1]
  rintro ⟨hmethod, -⟩
  exact absurd hmethod (by decide)

/-! ## What the server keeps -/

theorem handleRequest_create (s : Server) (r : Request) (h : r.method = ascii "task/create") :
    handleRequest s r = handleTaskCreate s r := by
  rw [handleRequest, h, if_neg (by decide), if_pos rfl]

theorem handleRequest_cancel (s : Server) (r : Request) (h : r.method = ascii "task/cancel") :
    handleRequest s r = handleTaskCancel s r := by
  rw [handleRequest, h, if_neg (by decide), if_neg (by decide), if_neg (by decide), if_pos rfl]

theorem handleRequest_reads (s : Server) (r : Request) (hcreate : r.method ≠ ascii "task/create")
    (hcancel : r.method ≠ ascii "task/cancel") : (handleRequest s r).1 = s := by
  unfold handleRequest handleTaskGet
  rw [if_neg hcreate, if_neg hcancel]
  split
  · rfl
  · split
    · split <;> rfl
    · split <;> rfl

theorem handleTaskCreate_stored (s : Server) (r : Request) (stored : A2ATask)
    (h : s.tasks.lookup r.task.id = some stored) :
    handleTaskCreate s r = (s, result stored.toJson) := by
  rw [Request.task] at h
  simp only [handleTaskCreate, h]

theorem handleTaskCreate_new (s : Server) (r : Request) (h : s.tasks.lookup r.task.id = none) :
    handleTaskCreate s r = ({ s with tasks := s.tasks.insert r.task.id r.task },
      result r.task.toJson) := by
  rw [Request.task] at h
  simp only [handleTaskCreate, h, Request.task]

theorem handleTaskCreate_lookup (s : Server) (r : Request) (id : Bytes) :
    (handleTaskCreate s r).1.tasks.lookup id =
      if r.task.id = id then (s.tasks.lookup id).or (some r.task) else s.tasks.lookup id := by
  cases hstored : s.tasks.lookup r.task.id with
  | some stored =>
    rw [handleTaskCreate_stored s r stored hstored]
    split
    · rename_i hid
      rw [← hid, hstored]
      rfl
    · rfl
  | none =>
    rw [handleTaskCreate_new s r hstored]
    split
    · rename_i hid
      rw [← hid, hstored, AList.lookup_insert]
      rfl
    · rename_i hid
      rw [AList.lookup_insert_ne (Ne.symm hid)]

/-- The tasks of a server wait or are cancelled. -/
def Tidy (s : Server) : Prop :=
  ∀ id task, s.tasks.lookup id = some task → task.status = .pending ∨ task.status = .cancelled

theorem transitionTask_cancel (now : Utc) (task : A2ATask) (h : task.status = .pending) :
    transitionTask now task .cancelled = .ok (task.cancelledAt now) := by
  rw [transitionTask_valid now task .cancelled (by rw [h]; rfl), h]
  rfl

theorem transitionTask_cancelled (now : Utc) (task : A2ATask) (h : task.status = .cancelled) :
    transitionTask now task .cancelled =
      .error (ascii "cannot transition from terminal state 'cancelled'") := by
  rw [transitionTask, h]
  rfl

theorem findTask_eq (s : Server) (params : Json) (id : Bytes)
    (h : params.findStr (ascii "id") = some id) :
    findTask s params =
      (s.tasks.lookup id).elim (.error (errorReply (-32602) (ascii "task not found: " ++ id)))
        fun task => .ok (id, task) := by
  simp only [findTask, h]
  cases s.tasks.lookup id <;> rfl

/-- The reply to a request that cancels a task, from what is stored under its id. -/
def cancelReply (id : Bytes) (now : Utc) : Option A2ATask → Json
  | none => errorReply (-32602) (ascii "task not found: " ++ id)
  | some task =>
    if task.status = .pending then result (task.cancelledAt now).toJson
    else errorReply (-32603) (ascii "cannot transition from terminal state 'cancelled'")

theorem handleTaskCancel_found (s : Server) (r : Request) (id : Bytes)
    (hid : r.params.findStr (ascii "id") = some id) (htidy : Tidy s) :
    (handleTaskCancel s r).2 = cancelReply id r.now (s.tasks.lookup id) ∧
      ∀ other, (handleTaskCancel s r).1.tasks.lookup other =
        if other = id then
          (s.tasks.lookup id).map fun task => if task.status = .pending then task.cancelledAt r.now
            else task
        else s.tasks.lookup other := by
  unfold handleTaskCancel
  rw [findTask_eq s r.params id hid]
  cases hstored : s.tasks.lookup id with
  | none =>
    refine ⟨rfl, ?_⟩
    intro other
    by_cases hother : other = id
    · rw [if_pos hother, hother]
      exact hstored
    · rw [if_neg hother]
      rfl
  | some task =>
    -- A stored task is pending or cancelled already: nothing else is ever stored.
    rcases htidy id task hstored with hstatus | hstatus
    · simp only [Option.elim_some, transitionTask_cancel r.now task hstatus]
      refine ⟨by rw [cancelReply, if_pos hstatus], ?_⟩
      intro other
      by_cases hother : other = id
      · rw [if_pos hother, hother, AList.lookup_insert, Option.map_some, if_pos hstatus]
      · rw [if_neg hother, AList.lookup_insert_ne hother]
    · simp only [Option.elim_some, transitionTask_cancelled r.now task hstatus]
      refine ⟨by rw [cancelReply, hstatus]; rfl, ?_⟩
      intro other
      by_cases hother : other = id
      · rw [if_pos hother, hother, hstored, Option.map_some, if_neg (by simp [hstatus])]
      · rw [if_neg hother]

theorem handleTaskCancel_missing (s : Server) (r : Request)
    (h : r.params.findStr (ascii "id") = none) : (handleTaskCancel s r).1 = s := by
  simp only [handleTaskCancel, findTask, h]

theorem handleRequest_lookup (s : Server) (r : Request) (id : Bytes) (htidy : Tidy s) :
    (handleRequest s r).1.tasks.lookup id = oneStep id r (s.tasks.lookup id) := by
  unfold oneStep
  by_cases hcreate : r.method = ascii "task/create"
  · rw [handleRequest_create s r hcreate, handleTaskCreate_lookup]
    have hcancels : ¬ r.cancels id = true := by
      rw [cancels_iff, hcreate]
      exact fun h => absurd h.1 (by decide)
    by_cases hid : r.task.id = id
    · rw [if_pos hid, if_pos ((creates_iff id r).mpr ⟨hcreate, hid⟩)]
    · rw [if_neg hid, if_neg (fun h => hid ((creates_iff id r).mp h).2), if_neg hcancels]
  · rw [if_neg fun h => hcreate ((creates_iff id r).mp h).1]
    -- No other method than these two writes to the tasks.
    by_cases hcancel : r.method = ascii "task/cancel"
    · rw [handleRequest_cancel s r hcancel]
      cases hfound : r.params.findStr (ascii "id") with
      | none =>
        rw [handleTaskCancel_missing s r hfound, if_neg]
        rw [cancels_iff, hfound]
        simp
      | some name =>
        rw [(handleTaskCancel_found s r name hfound htidy).2 id]
        by_cases hname : id = name
        · rw [if_pos hname, if_pos ((cancels_iff id r).mpr ⟨hcancel, by rw [hfound, hname]⟩), hname]
        · rw [if_neg hname, if_neg]
          intro h
          rw [cancels_iff, hfound] at h
          exact hname (Option.some.inj h.2).symm
    · rw [handleRequest_reads s r hcreate hcancel,
        if_neg fun h => hcancel ((cancels_iff id r).mp h).1]

theorem expected_status (id : Bytes) (requests : List Request) (task : A2ATask)
    (h : expected id requests = some task) : task.status = .pending ∨ task.status = .cancelled := by
  unfold expected at h
  split at h
  · exact absurd h (by simp)
  · rename_i first rest _
    obtain rfl := Option.some.inj h
    rcases afterwards_cases id first.task rest with ⟨-, heq⟩ | ⟨now, heq⟩
    · rw [heq]
      exact Or.inl rfl
    · rw [heq]
      exact Or.inr rfl

theorem tidy_of_expected {s : Server} {requests : List Request}
    (h : ∀ id, s.tasks.lookup id = expected id requests) : Tidy s := by
  intro id task htask
  rw [h] at htask
  exact expected_status id requests task htask

theorem serve_concat (s : Server) (requests : List Request) (r : Request) :
    serve s (requests ++ [r]) = (handleRequest (serve s requests) r).1 := by
  rw [serve, List.foldl_append]
  rfl

theorem serve_lookup (card : AgentCard) (requests : List Request) (id : Bytes) :
    (serve (newServer card) requests).tasks.lookup id = expected id requests := by
  induction requests using List.reverseRecOn generalizing id with
  | nil => rfl
  | append_singleton requests r ih =>
    rw [serve_concat, handleRequest_lookup _ r id (tidy_of_expected ih), ih,
      expected_concat id requests r (not_creates_of_cancels id r)]

/-- After any requests, under any id stands the first task that was created with it, cancelled by
the first cancellation behind its creation; and a cancellation succeeds exactly when there is such a
task and none has cancelled it. -/
theorem serve_history (card : AgentCard) (requests : List Request) :
    (∀ id, (serve (newServer card) requests).tasks.lookup id = expected id requests) ∧
      ∀ r id, r.cancels id = true →
        (handleRequest (serve (newServer card) requests) r).2 =
          cancelReply id r.now (expected id requests) := by
  refine ⟨serve_lookup card requests, ?_⟩
  intro r id hr
  obtain ⟨hmethod, hid⟩ := (cancels_iff id r).mp hr
  have htidy := tidy_of_expected (serve_lookup card requests)
  rw [handleRequest_cancel _ r hmethod, (handleTaskCancel_found _ r id hid htidy).1, serve_lookup]

def sampleTime : Utc := ⟨2026, 5, 24, 9, 30, 0⟩

def sampleCreate : Request where
  method := ascii "task/create"
  params := .null
  buf := List.replicate 16 0
  now := sampleTime

def sampleCancel : Request where
  method := ascii "task/cancel"
  params := .obj [(ascii "id", .str sampleCreate.task.id)]
  buf := []
  now := sampleTime

theorem sample_cancelled :
    (handleRequest (serve (newServer sampleCard) [sampleCreate]) sampleCancel).2 =
    cancelReply sampleCreate.task.id sampleTime (expected sampleCreate.task.id [sampleCreate]) :=
  (serve_history sampleCard [sampleCreate]).2 sampleCancel sampleCreate.task.id (by decide +kernel)

/-! ## Tasks with random bytes of their own -/

theorem drop_eq (x : Bytes) (i n : Nat) : x.drop i = (x.drop i).take n ++ x.drop (i + n) := by
  rw [← List.drop_drop, List.take_append_drop]

theorem pieces_eq (x : Bytes) (h : x.length = 32) :
    x = x.take 8 ++ ((x.drop 8).take 4 ++
      ((x.drop 12).take 4 ++ ((x.drop 16).take 4 ++ (x.drop 20).take 12))) := by
  have hlast : (x.drop 20).take 12 = x.drop 20 :=
    List.take_of_length_le (by rw [List.length_drop, h])
  rw [hlast, ← drop_eq x 16 4, ← drop_eq x 12 4, ← drop_eq x 8 4, List.take_append_drop]

theorem generateUuid_injective {a b : Bytes} (ha : a.length = 16) (hb : b.length = 16)
    (h : generateUuid a = generateUuid b) : a = b := by
  have hla := Policy.hexEncode_length a
  have hlb := Policy.hexEncode_length b
  rw [ha] at hla
  rw [hb] at hlb
  have hhex : Policy.hexEncode a = Policy.hexEncode b := by
    simp only [generateUuid, Bytes.join_cons_cons, Bytes.join_singleton] at h
    obtain ⟨h1, h⟩ := List.append_inj h (by simp [hla, hlb])
    obtain ⟨h2, h⟩ := List.append_inj (List.cons.inj h).2 (by simp [hla, hlb])
    obtain ⟨h3, h⟩ := List.append_inj (List.cons.inj h).2 (by simp [hla, hlb])
    obtain ⟨h4, h⟩ := List.append_inj (List.cons.inj h).2 (by simp [hla, hlb])
    rw [pieces_eq _ hla, pieces_eq _ hlb, h1, h2, h3, h4, (List.cons.inj h).2]
  have hdecode := congrArg Policy.hexDecodePairs hhex
  rw [Policy.hexDecodePairs_encode, Policy.hexDecodePairs_encode] at hdecode
  exact Option.some.inj hdecode

theorem serve_created (card : AgentCard) (before after : List Request) (r : Request)
    (hr : r.method = ascii "task/create") (hlen : ∀ q ∈ r :: before, q.buf.length = 16)
    (hfresh : ∀ q ∈ before, q.buf ≠ r.buf) :
    (serve (newServer card) (before ++ r :: after)).tasks.lookup r.task.id =
      some (afterwards r.task.id r.task after) := by
  have hother : ∀ q ∈ before, q.creates r.task.id = false := by
    intro q hq
    rw [← Bool.not_eq_true, creates_iff]
    rintro ⟨-, hid⟩
    exact hfresh q hq (generateUuid_injective (hlen q (List.mem_cons_of_mem r hq))
      (hlen r List.mem_cons_self) hid)
  have hself : r.creates r.task.id = true := (creates_iff _ r).mpr ⟨hr, rfl⟩
  rw [serve_lookup, expected, List.dropWhile_append_of_pos]
  · rw [List.dropWhile_cons_of_neg (by simp [hself])]
  · intro q hq
    simp [hother q hq]

end Euxis.A2a
