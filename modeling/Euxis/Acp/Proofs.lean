import Euxis.Acp.Code
import Euxis.Trace

/-!
# The ledger and the session map

The events of a session that are in the ledger, followed by those that threads still hold, tell how
the session came to its state. The ledger alone does so only when the threads append in the order in
which they changed the map.
-/

namespace Euxis.Acp

open Euxis.Trace (getElem?_set_cases)

/-! ## Histories -/

structure Move where
  old : SessionState
  new : SessionState
  atUnixMs : Int

/-- Valid transitions, each from where the one before it ended. -/
def Walk : SessionState → List Move → SessionState → Prop
  | src, [], dst => src = dst
  | src, m :: rest, dst => m.old = src ∧ isValidTransition m.old m.new = true ∧ Walk m.new rest dst

def Move.event (id : Bytes) (m : Move) : AcpEvent := stateChangedEvent id m.old m.new m.atUnixMs

/-- One `spawned` event, then the `state_changed` events of a walk from Pending to the current
state. -/
def IsHistory (id : Bytes) (events : List AcpEvent) (current : SessionState) : Prop :=
  ∃ spawnedAt moves, events = spawnedEvent id spawnedAt :: moves.map (Move.event id) ∧
    Walk .pending moves current

def Agrees (id : Bytes) (events : List AcpEvent) : Option AcpSession → Prop
  | none => events = []
  | some session => IsHistory id events session.state

theorem walk_snoc (src mid new : SessionState) (moves : List Move) (atUnixMs : Int)
    (h : Walk src moves mid) (hvalid : isValidTransition mid new = true) :
    Walk src (moves ++ [⟨mid, new, atUnixMs⟩]) new := by
  induction moves generalizing src with
  | nil =>
    obtain rfl : src = mid := h
    exact ⟨rfl, hvalid, rfl⟩
  | cons m rest ih =>
    obtain ⟨hold, hm, hrest⟩ := h
    exact ⟨hold, hm, ih m.new hrest⟩

/-! ## One change of the map -/

theorem update_cases (policy : AcpPolicy) (sessions sessions' : Sessions) (call : Call)
    (event : AcpEvent) (h : update policy sessions call = .ok (sessions', event)) :
    ∃ id session' atUnixMs, sessions' = Function.update sessions id (some session') ∧
      ((sessions id = none ∧ session'.state = .pending ∧ event = spawnedEvent id atUnixMs) ∨
        ∃ session, sessions id = some session ∧
          isValidTransition session.state session'.state = true ∧
          event = stateChangedEvent id session.state session'.state atUnixMs) := by
  -- `cancel` is `set_state` to a fixed state, so both go through one lemma.
  have hset : ∀ id newState atUnixMs, setState sessions id newState atUnixMs =
      .ok (sessions', event) →
      ∃ session session', sessions' = Function.update sessions id (some session') ∧
        sessions id = some session ∧ isValidTransition session.state session'.state = true ∧
        event = stateChangedEvent id session.state session'.state atUnixMs := by
    intro id newState atUnixMs h
    unfold setState at h
    split at h
    · cases h
    · rename_i session hs
      split at h
      · cases h
      · rename_i hvalid
        obtain ⟨rfl, rfl⟩ := Prod.mk.inj (Except.ok.inj h)
        exact ⟨session, _, rfl, hs, by simpa using hvalid, rfl⟩
  cases call with
  | spawn spec atUnixMs =>
    simp only [update, spawn] at h
    split_ifs at h with h1 h2 h3 h4
    obtain ⟨rfl, rfl⟩ := Prod.mk.inj (Except.ok.inj h)
    exact ⟨spec.id, _, atUnixMs, rfl, Or.inl ⟨by simpa using h4, rfl, rfl⟩⟩
  | setState id newState atUnixMs =>
    obtain ⟨session, session', hs', hs, hvalid, he⟩ := hset id newState atUnixMs h
    exact ⟨id, session', atUnixMs, hs', Or.inr ⟨session, hs, hvalid, he⟩⟩
  | cancel id atUnixMs =>
    obtain ⟨session, session', hs', hs, hvalid, he⟩ := hset id .cancelled atUnixMs h
    exact ⟨id, session', atUnixMs, hs', Or.inr ⟨session, hs, hvalid, he⟩⟩

theorem update_agrees (policy : AcpPolicy) (sessions sessions' : Sessions) (call : Call)
    (event : AcpEvent) (h : update policy sessions call = .ok (sessions', event)) (id : Bytes)
    (events : List AcpEvent) (hev : Agrees id events (sessions id)) :
    Agrees id (events ++ if event.sessionId = id then [event] else []) (sessions' id) := by
  obtain ⟨id', session', atUnixMs, rfl, hcase⟩ :=
    update_cases policy sessions sessions' call event h
  have hid : event.sessionId = id' := by
    rcases hcase with ⟨-, -, rfl⟩ | ⟨session, -, -, rfl⟩
    · rfl
    · rfl
  by_cases heq : id' = id
  · subst heq
    rw [if_pos hid, Function.update_self]
    rcases hcase with ⟨hnone, hstate, rfl⟩ | ⟨session, hsome, hvalid, rfl⟩
    · rw [hnone] at hev
      obtain rfl : events = [] := hev
      exact ⟨atUnixMs, [], rfl, hstate.symm⟩
    · rw [hsome] at hev
      obtain ⟨spawnedAt, moves, rfl, hwalk⟩ := hev
      refine ⟨spawnedAt, moves ++ [⟨session.state, session'.state, atUnixMs⟩], ?_, ?_⟩
      · rw [List.map_append, List.cons_append]
        rfl
      · exact walk_snoc _ _ _ moves atUnixMs hwalk hvalid
  · rw [if_neg (by rw [hid]; exact heq), Function.update_of_ne (Ne.symm heq), List.append_nil]
    exact hev

/-! ## Events between the locks -/

/-- The event of session `id` that thread `i` holds. -/
def waitingEvent (threads : List Thread) (id : Bytes) (i : Nat) : Option AcpEvent :=
  match threads[i]? with
  | some (.appending event) => if event.sessionId = id then some event else none
  | _ => none

def waiting (threads : List Thread) (order : List Nat) (id : Bytes) : List AcpEvent :=
  order.filterMap (waitingEvent threads id)

/-- The threads that changed the map, in the order in which they did, after thread `i` has moved. -/
def orderAfter (policy : AcpPolicy) (sys : System) (order : List Nat) (i : Nat) : List Nat :=
  match sys.threads[i]? with
  | some (.entered call) =>
    match update policy sys.sessions call with
    | .ok _ => order ++ [i]
    | .error _ => order
  | _ => order

/-- Thread `i` does not append before a thread that changed the same session earlier. -/
def InTurn (sys : System) (order : List Nat) (i : Nat) : Prop :=
  match sys.threads[i]? with
  | some (.appending event) =>
    ∀ j ∈ order.takeWhile (· ≠ i), (waitingEvent sys.threads event.sessionId j).isNone
  | _ => True

def InOrder (policy : AcpPolicy) : System → List Nat → List Nat → Prop
  | _, _, [] => True
  | sys, order, i :: rest =>
    InTurn sys order i ∧ InOrder policy (step policy sys i) (orderAfter policy sys order i) rest

instance (sys : System) (order : List Nat) (i : Nat) : Decidable (InTurn sys order i) := by
  unfold InTurn
  split
  · infer_instance
  · infer_instance

instance (policy : AcpPolicy) (sys : System) (order schedule : List Nat) :
    Decidable (InOrder policy sys order schedule) :=
  match schedule with
  | [] => isTrue trivial
  | i :: rest => by
    unfold InOrder
    exact @instDecidableAnd _ _ _ (instDecidableInOrder policy _ _ rest)

theorem waitingEvent_set_ne (threads : List Thread) (id : Bytes) (i j : Nat) (thread : Thread)
    (h : j ≠ i) : waitingEvent (threads.set i thread) id j = waitingEvent threads id j := by
  unfold waitingEvent
  rw [List.getElem?_set_ne (Ne.symm h)]

theorem waiting_set_of_not_mem (threads : List Thread) (order : List Nat) (id : Bytes) (i : Nat)
    (thread : Thread) (h : i ∉ order) :
    waiting (threads.set i thread) order id = waiting threads order id := by
  unfold waiting
  apply List.filterMap_congr
  intro j hj
  apply waitingEvent_set_ne
  rintro rfl
  exact h hj

theorem waiting_append (threads : List Thread) (xs ys : List Nat) (id : Bytes) :
    waiting threads (xs ++ ys) id = waiting threads xs id ++ waiting threads ys id :=
  List.filterMap_append

theorem waiting_returned (threads : List Thread) (id : Bytes) (i : Nat)
    (result : Except Bytes Unit) : waiting (threads.set i (.returned result)) [i] id = [] := by
  have : waitingEvent (threads.set i (.returned result)) id i = none := by
    unfold waitingEvent
    rw [List.getElem?_set_self']
    cases threads[i]? with
    | none => rfl
    | some thread => rfl
  simp [waiting, this]

theorem waiting_appending (threads : List Thread) (id : Bytes) (i : Nat) (event : AcpEvent)
    (hi : threads[i]? = some (.appending event)) :
    waiting threads [i] id = if event.sessionId = id then [event] else [] := by
  unfold waiting waitingEvent
  simp only [List.filterMap_cons, hi, List.filterMap_nil]
  by_cases hid : event.sessionId = id
  · simp [hid]
  · simp [hid]

theorem waiting_before (sys : System) (before after : List Nat) (i : Nat) (event : AcpEvent)
    (hi : sys.threads[i]? = some (.appending event)) (hbefore : i ∉ before)
    (hturn : InTurn sys (before ++ i :: after) i) :
    waiting sys.threads before event.sessionId = [] := by
  have htake : (before ++ i :: after).takeWhile (· ≠ i) = before := by
    rw [List.takeWhile_append_of_pos]
    · simp
    · intro k hk
      simpa using fun h : k = i => hbefore (h ▸ hk)
  unfold InTurn at hturn
  rw [hi] at hturn
  simp only [htake] at hturn
  unfold waiting
  rw [List.filterMap_eq_nil_iff]
  intro j hj
  exact Option.isNone_iff_eq_none.mp (hturn j hj)

/-! ## The invariant -/

structure Inv (sys : System) (order : List Nat) : Prop where
  nodup : order.Nodup
  passed : ∀ i ∈ order, ∀ call, sys.threads[i]? ≠ some (.entered call)
  covered : ∀ i event, sys.threads[i]? = some (.appending event) → i ∈ order
  agrees : ∀ id, Agrees id (eventsFor sys.events id ++ waiting sys.threads order id)
    (sys.sessions id)

theorem start_inv (calls : List Call) : Inv (start calls) [] := by
  refine ⟨List.nodup_nil, by simp, ?_, ?_⟩
  · intro i event h
    simp only [start, List.getElem?_map, Option.map_eq_some_iff] at h
    obtain ⟨call, -, hcall⟩ := h
    cases hcall
  · intro id
    rfl

theorem returned_threads (sys : System) (order : List Nat) (i : Nat) (result : Except Bytes Unit)
    (hinv : Inv sys order) :
    (∀ j ∈ order, ∀ call, (sys.threads.set i (.returned result))[j]? ≠ some (.entered call)) ∧
      ∀ j event, (sys.threads.set i (.returned result))[j]? = some (.appending event) →
        j ∈ order := by
  constructor
  · intro j hj call h
    rcases getElem?_set_cases h with ⟨-, ht⟩ | ⟨-, h⟩
    · cases ht
    · exact hinv.passed j hj call h
  · intro j event h
    rcases getElem?_set_cases h with ⟨-, ht⟩ | ⟨-, h⟩
    · cases ht
    · exact hinv.covered j event h

theorem refused_inv (sys : System) (order : List Nat) (i : Nat) (call : Call) (message : Bytes)
    (hinv : Inv sys order) (hi : sys.threads[i]? = some (.entered call)) :
    Inv { sys with threads := sys.threads.set i (.returned (.error message)) } order := by
  have hnot : i ∉ order := fun hmem => hinv.passed i hmem call hi
  obtain ⟨hpassed, hcovered⟩ := returned_threads sys order i (.error message) hinv
  refine ⟨hinv.nodup, hpassed, hcovered, ?_⟩
  intro id
  rw [waiting_set_of_not_mem _ _ _ _ _ hnot]
  exact hinv.agrees id

theorem updated_inv (policy : AcpPolicy) (sys : System) (order : List Nat) (i : Nat) (call : Call)
    (sessions : Sessions) (event : AcpEvent) (hinv : Inv sys order)
    (hi : sys.threads[i]? = some (.entered call))
    (hok : update policy sys.sessions call = .ok (sessions, event)) :
    Inv { sys with sessions, threads := sys.threads.set i (.appending event) } (order ++ [i]) := by
  have hnot : i ∉ order := fun hmem => hinv.passed i hmem call hi
  have hlt : i < sys.threads.length := (List.getElem?_eq_some_iff.mp hi).1
  refine ⟨?_, ?_, ?_, ?_⟩
  · rw [List.nodup_append]
    refine ⟨hinv.nodup, by simp, ?_⟩
    rintro j hj k hk rfl
    exact hnot (List.mem_singleton.mp hk ▸ hj)
  · intro j hj call' h
    rcases getElem?_set_cases h with ⟨-, ht⟩ | ⟨hne, h⟩
    · cases ht
    · rcases List.mem_append.mp hj with hj | hj
      · exact hinv.passed j hj call' h
      · exact hne (List.mem_singleton.mp hj)
  · intro j event' h
    rcases getElem?_set_cases h with ⟨rfl, -⟩ | ⟨-, h⟩
    · simp
    · exact List.mem_append_left _ (hinv.covered j event' h)
  -- The new event waits behind all others of its session, as its thread is the last in the order.
  · intro id
    have hw : waiting (sys.threads.set i (.appending event)) (order ++ [i]) id =
        waiting sys.threads order id ++ if event.sessionId = id then [event] else [] := by
      rw [waiting_append, waiting_set_of_not_mem _ _ _ _ _ hnot,
        waiting_appending _ _ _ _ (List.getElem?_set_self hlt)]
    rw [hw, ← List.append_assoc]
    exact update_agrees policy sys.sessions sessions call event hok id _ (hinv.agrees id)

theorem appended_inv (sys : System) (order : List Nat) (i : Nat) (event : AcpEvent)
    (hinv : Inv sys order) (hi : sys.threads[i]? = some (.appending event))
    (hturn : InTurn sys order i) :
    Inv { sys with events := sys.events ++ [event],
                   threads := sys.threads.set i (.returned (.ok ())) } order := by
  obtain ⟨hpassed, hcovered⟩ := returned_threads sys order i (.ok ()) hinv
  refine ⟨hinv.nodup, hpassed, hcovered, ?_⟩
  intro id
  -- Split the order at thread `i`: nothing before it waits for the session of its event.
  obtain ⟨before, after, hsplit⟩ := List.append_of_mem (hinv.covered i event hi)
  have hnodup := hinv.nodup
  rw [hsplit, List.nodup_append] at hnodup
  have hbefore : i ∉ before := fun hmem => hnodup.2.2 i hmem i List.mem_cons_self rfl
  have hafter : i ∉ after := (List.nodup_cons.mp hnodup.2.1).1
  have hcut : order = before ++ ([i] ++ after) := hsplit
  have hnew : waiting (sys.threads.set i (.returned (.ok ()))) order id =
      waiting sys.threads before id ++ waiting sys.threads after id := by
    rw [hcut, waiting_append, waiting_append, waiting_returned,
      waiting_set_of_not_mem _ _ _ _ _ hbefore,
      waiting_set_of_not_mem _ _ _ _ _ hafter, List.nil_append]
  have hagrees := hinv.agrees id
  rw [hcut, waiting_append, waiting_append, waiting_appending _ _ _ _ hi] at hagrees
  simp only [hnew, eventsFor, List.filter_append]
  by_cases hid : event.sessionId = id
  · have hempty : waiting sys.threads before id = [] := by
      rw [← hid]
      exact waiting_before sys before after i event hi hbefore (hsplit ▸ hturn)
    rw [hempty, if_pos hid, List.nil_append] at hagrees
    rw [hempty, List.filter_cons_of_pos (by simpa using hid), List.filter_nil, List.append_assoc]
    exact hagrees
  · rw [if_neg hid, List.nil_append] at hagrees
    rw [List.filter_cons_of_neg (by simpa using hid), List.filter_nil, List.append_nil]
    exact hagrees

theorem step_inv (policy : AcpPolicy) (sys : System) (order : List Nat) (i : Nat)
    (hinv : Inv sys order) (hturn : InTurn sys order i) :
    Inv (step policy sys i) (orderAfter policy sys order i) := by
  unfold step orderAfter
  cases hi : sys.threads[i]? with
  | none => exact hinv
  | some thread =>
    cases thread with
    | entered call =>
      simp only
      cases hok : update policy sys.sessions call with
      | error message => exact refused_inv sys order i call message hinv hi
      | ok res => exact updated_inv policy sys order i call res.1 res.2 hinv hi hok
    | appending event => exact appended_inv sys order i event hinv hi hturn
    | returned result => exact hinv

theorem run_inv (policy : AcpPolicy) (sys : System) (order schedule : List Nat)
    (hinv : Inv sys order) (hord : InOrder policy sys order schedule) :
    ∃ order', Inv (run policy sys schedule) order' := by
  induction schedule generalizing sys order with
  | nil => exact ⟨order, hinv⟩
  | cons i rest ih =>
    obtain ⟨hturn, hrest⟩ := hord
    exact ih (step policy sys i) (orderAfter policy sys order i)
      (step_inv policy sys order i hinv hturn) hrest

theorem waiting_of_finished (sys : System) (order : List Nat) (id : Bytes) (hfin : Finished sys) :
    waiting sys.threads order id = [] := by
  unfold waiting
  rw [List.filterMap_eq_nil_iff]
  intro i _
  unfold waitingEvent
  cases hi : sys.threads[i]? with
  | none => rfl
  | some thread =>
    have hret := hfin thread (List.mem_of_getElem? hi)
    cases thread with
    | entered call => cases hret
    | appending event => cases hret
    | returned result => rfl

/-! ## The ledger after all calls -/

/-- In a run in which the appends of a session keep the order of its updates, the ledger holds the
history of every session once all calls have returned. -/
theorem ledger_agrees_in_order (policy : AcpPolicy) (calls : List Call) (schedule : List Nat)
    (hord : InOrder policy (start calls) [] schedule)
    (hfin : Finished (run policy (start calls) schedule)) :
    ∀ id, Agrees id (eventsFor (run policy (start calls) schedule).events id)
      ((run policy (start calls) schedule).sessions id) := by
  intro id
  obtain ⟨order, hinv⟩ := run_inv policy (start calls) [] schedule (start_inv calls) hord
  have hagrees := hinv.agrees id
  rw [waiting_of_finished _ order id hfin, List.append_nil] at hagrees
  exact hagrees

def openPolicy : AcpPolicy := { permissive := true, allowedAgents := [] }

def auditSpec : SessionSpec :=
  { id := ascii "s1", agentId := ascii "auditor", workingDir := ascii "/repo", metadata := .null,
    createdAtUnixMs := 0 }

def auditCalls : List Call :=
  [.spawn auditSpec 0, .setState (ascii "s1") .running 1, .cancel (ascii "s1") 2]

theorem ledger_agrees_overlapping :
    Finished (run openPolicy (start auditCalls) [0, 0, 1, 2, 1, 2]) ∧
    Agrees (ascii "s1") (eventsFor (run openPolicy (start auditCalls) [0, 0, 1, 2, 1, 2]).events
      (ascii "s1"))
      ((run openPolicy (start auditCalls) [0, 0, 1, 2, 1, 2]).sessions (ascii "s1")) := by
  have hfin : Finished (run openPolicy (start auditCalls) [0, 0, 1, 2, 1, 2]) := by decide +kernel
  exact ⟨hfin, ledger_agrees_in_order openPolicy auditCalls [0, 0, 1, 2, 1, 2] (by decide +kernel)
    hfin (ascii "s1")⟩

theorem history_second_event (id : Bytes) (first second : AcpEvent) (rest : List AcpEvent)
    (current : SessionState) (h : IsHistory id (first :: second :: rest) current) :
    ∃ new, second.payload =
      .obj [(ascii "from", .str (stateName .pending)), (ascii "to", .str (stateName new))] := by
  obtain ⟨spawnedAt, moves, heq, hwalk⟩ := h
  cases moves with
  | nil => cases (List.cons.inj heq).2
  | cons m rest' =>
    obtain ⟨hold, -, -⟩ := hwalk
    have hsecond : second = m.event id := (List.cons.inj (List.cons.inj heq).2).1
    exact ⟨m.new, by rw [hsecond, ← hold]; rfl⟩

theorem ledger_overtaken : ¬ ∀ (policy : AcpPolicy) (calls : List Call) (schedule : List Nat),
    Finished (run policy (start calls) schedule) → ∀ id,
      Agrees id (eventsFor (run policy (start calls) schedule).events id)
        ((run policy (start calls) schedule).sessions id) := by
  -- The cancelling thread overtakes the other one between the locks.
  intro h
  have hagrees := h openPolicy auditCalls [0, 0, 1, 2, 2, 1] (by decide +kernel) (ascii "s1")
  obtain ⟨new, hpayload⟩ := history_second_event (ascii "s1") (spawnedEvent (ascii "s1") 0)
    (stateChangedEvent (ascii "s1") .running .cancelled 2)
    [stateChangedEvent (ascii "s1") .pending .running 1] .cancelled hagrees
  simp only [stateChangedEvent, Json.obj.injEq, List.cons.injEq, Prod.mk.injEq, Json.str.injEq]
    at hpayload
  exact absurd hpayload.1.2 (by decide)

end Euxis.Acp
