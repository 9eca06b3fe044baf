import Euxis.Loop
import Euxis.PriorityQueue

/-!
# Timers: `apps/cli/src/tui/event_loop.cpp`

The timers stand in a priority queue by the time they fire next. A call of `fire_timers` reads the
clock once and goes on while the first timer is due; a repeating timer is put back in the queue at
once, counted from that reading.
-/

namespace Euxis.Cli

/-- A timer, with handlers of any kind. -/
structure TimerEntry (η : Type) where
  id : Int
  intervalMs : Int
  repeating : Bool
  nextFireMs : Int
  handler : η
  deriving DecidableEq, Repr

/-- A handler that was called, and the timer of its event. -/
structure Firing (η : Type) where
  handler : η
  timerId : Int
  deriving DecidableEq, Repr

variable {η : Type}

def TimerEntry.firing (e : TimerEntry η) : Firing η := { handler := e.handler, timerId := e.id }

abbrev TimerQueue (η : Type) := PriorityQueue (TimerEntry η) TimerEntry.nextFireMs

structure EventLoop (Q : TimerQueue η) where
  nextTimerId : Int
  timers : Q.Queue

namespace EventLoop

variable (Q : TimerQueue η)

def new : EventLoop Q := { nextTimerId := 1, timers := Q.empty }

/-- Both ways to schedule a timer. -/
def add (repeating : Bool) (now intervalMs : Int) (handler : η) (s : EventLoop Q) : EventLoop Q :=
  let id := s.nextTimerId
  { nextTimerId := id + 1,
    timers := Q.push { id, intervalMs, repeating, nextFireMs := now + intervalMs, handler }
      s.timers }

def addTimer (now intervalMs : Int) (handler : η) (s : EventLoop Q) : EventLoop Q :=
  s.add Q true now intervalMs handler

def addOneshot (now delayMs : Int) (handler : η) (s : EventLoop Q) : EventLoop Q :=
  s.add Q false now delayMs handler

/-- One round of the loop of `fire_timers`, with what has fired so far. -/
def fireStep (now : Int) : Q.Queue × List (Firing η) → Option (Q.Queue × List (Firing η))
  | (timers, fired) =>
    match Q.top timers with
    | none => none
    | some entry =>
      if entry.nextFireMs ≤ now then
        let timers := Q.pop timers
        let fired := fired ++ [entry.firing]
        if entry.repeating then
          some (Q.push { entry with nextFireMs := now + entry.intervalMs } timers, fired)
        else some (timers, fired)
      else none

def fireTimers (fuel : Nat) (now : Int) (s : EventLoop Q) : Option (Q.Queue × List (Firing η)) :=
  Loop.run (fireStep Q now) fuel (s.timers, [])

/-! ## What a call should do -/

def due (now : Int) (timers : Multiset (TimerEntry η)) : Multiset (TimerEntry η) :=
  timers.filter (·.nextFireMs ≤ now)

/-- The call returns, and what has fired are the timers that were due, each once. -/
def FiresDueOnce (now : Int) (s : EventLoop Q) : Prop :=
  ∃ fuel timers fired, s.fireTimers Q fuel now = some (timers, fired) ∧
    (fired : Multiset (Firing η)) = (due now (Q.elems s.timers)).map TimerEntry.firing

/-- A timer that is due again as soon as it has fired. -/
def Restless (e : TimerEntry η) : Prop := e.repeating = true ∧ e.intervalMs ≤ 0

/-! ## One round -/

variable {Q} {now : Int}

theorem due_cons_of_due {e : TimerEntry η} (h : e.nextFireMs ≤ now)
    (timers : Multiset (TimerEntry η)) :
    due now (e ::ₘ timers) = e ::ₘ due now timers := Multiset.filter_cons_of_pos _ h

theorem due_cons_of_not_due {e : TimerEntry η} (h : ¬ e.nextFireMs ≤ now)
    (timers : Multiset (TimerEntry η)) :
    due now (e ::ₘ timers) = due now timers := Multiset.filter_cons_of_neg _ h

theorem mem_due {e : TimerEntry η} {timers : Multiset (TimerEntry η)} :
    e ∈ due now timers ↔ e ∈ timers ∧ e.nextFireMs ≤ now := Multiset.mem_filter

theorem fireStep_none {timers : Q.Queue} (h : due now (Q.elems timers) = 0)
    (fired : List (Firing η)) : fireStep Q now (timers, fired) = none := by
  cases htop : Q.top timers with
  | none => simp [fireStep, htop]
  | some entry =>
    have hmem : entry ∈ Q.elems timers := by
      rw [Q.elems_of_top _ _ htop]
      exact Multiset.mem_cons_self _ _
    have hnot : ¬ entry.nextFireMs ≤ now := by
      intro hdue
      have hin : entry ∈ due now (Q.elems timers) := mem_due.mpr ⟨hmem, hdue⟩
      rw [h] at hin
      exact Multiset.notMem_zero _ hin
    simp [fireStep, htop, hnot]

theorem fireStep_some {timers : Q.Queue} (h : due now (Q.elems timers) ≠ 0)
    (fired : List (Firing η)) :
    ∃ entry rest timers', Q.elems timers = entry ::ₘ rest ∧ entry.nextFireMs ≤ now ∧
      fireStep Q now (timers, fired) = some (timers', fired ++ [entry.firing]) ∧
      Q.elems timers' =
        if entry.repeating then { entry with nextFireMs := now + entry.intervalMs } ::ₘ rest
        else rest := by
  obtain ⟨e, he⟩ := Multiset.exists_mem_of_ne_zero h
  obtain ⟨hmem, hdue⟩ := mem_due.mp he
  obtain ⟨entry, htop, hle⟩ := Q.exists_top hmem
  have hentry : entry.nextFireMs ≤ now := le_trans hle hdue
  cases hrepeating : entry.repeating with
  | true =>
    refine ⟨entry, Q.elems (Q.pop timers),
      Q.push { entry with nextFireMs := now + entry.intervalMs } (Q.pop timers),
      Q.elems_of_top _ _ htop, hentry, ?_, ?_⟩
    · simp [fireStep, htop, hentry, hrepeating]
    · rw [Q.elems_push]
      simp [hrepeating]
  | false =>
    refine ⟨entry, Q.elems (Q.pop timers), Q.pop timers, Q.elems_of_top _ _ htop, hentry, ?_, ?_⟩
    · simp [fireStep, htop, hentry, hrepeating]
    · simp [hrepeating]

/-! ## A call -/

theorem run_fireStep (n : Nat) (timers : Q.Queue) (fired : List (Firing η))
    (hn : (due now (Q.elems timers)).card = n) (h : ∀ e ∈ due now (Q.elems timers), ¬ Restless e) :
    ∃ fuel timers' fired',
      Loop.run (fireStep Q now) fuel (timers, fired) = some (timers', fired ++ fired') ∧
      (fired' : Multiset (Firing η)) = (due now (Q.elems timers)).map TimerEntry.firing := by
  induction n generalizing timers fired with
  | zero =>
    have hnone : due now (Q.elems timers) = 0 := Multiset.card_eq_zero.mp hn
    refine ⟨1, timers, [], ?_, ?_⟩
    · rw [Loop.run_left (fireStep_none hnone fired), List.append_nil]
    · rw [hnone]
      rfl
  | succ n ih =>
    have hsome : due now (Q.elems timers) ≠ 0 := by
      intro hzero
      rw [hzero] at hn
      cases hn
    obtain ⟨entry, rest, next, helems, hdue, hstep, hnext⟩ := fireStep_some hsome fired
    rw [helems, due_cons_of_due hdue] at hn h ⊢
    have hrest : due now (Q.elems next) = due now rest := by
      rw [hnext]
      split
      · rename_i hrepeating
        -- A repeating timer goes back into the queue, but behind `now`: its interval is not zero.
        have hpositive : 0 < entry.intervalMs := by
          have hcalm := h entry (Multiset.mem_cons_self _ _)
          by_contra hle
          exact hcalm ⟨hrepeating, by omega⟩
        apply due_cons_of_not_due
        dsimp only
        omega
      · rfl
    rw [Multiset.card_cons] at hn
    obtain ⟨fuel, timers', fired', hrun, hfired⟩ :=
      ih next (fired ++ [entry.firing]) (by rw [hrest]; omega)
      (by rw [hrest]; exact fun e he => h e (Multiset.mem_cons_of_mem he))
    refine ⟨fuel + 1, timers', entry.firing :: fired', ?_, ?_⟩
    · rw [Loop.run_next hstep, hrun, List.append_assoc]
      rfl
    · rw [Multiset.map_cons, ← hrest, ← hfired]
      rfl

theorem not_ends_of_restless {timers : Q.Queue} {fired : List (Firing η)}
    (h : ∃ e ∈ due now (Q.elems timers), Restless e) :
    ¬ Loop.Ends (fireStep Q now) (timers, fired) := by
  apply Loop.not_ends_of_invariant (fun s => ∃ e ∈ due now (Q.elems s.1), Restless e) _ h
  rintro ⟨timers, fired⟩ ⟨e, he, hrestless⟩
  obtain ⟨entry, rest, next, helems, hdue, hstep, hnext⟩ :=
    fireStep_some (fun hzero => Multiset.notMem_zero e (hzero ▸ he)) fired
  refine ⟨_, hstep, ?_⟩
  dsimp only at he ⊢
  rw [helems, due_cons_of_due hdue, Multiset.mem_cons] at he
  rw [hnext]
  rcases he with rfl | he
  · refine ⟨{ e with nextFireMs := now + e.intervalMs }, ?_, hrestless⟩
    rw [if_pos hrestless.1, mem_due]
    refine ⟨Multiset.mem_cons_self _ _, ?_⟩
    have hinterval := hrestless.2
    dsimp only
    omega
  · refine ⟨e, ?_, hrestless⟩
    obtain ⟨hmem, hdue⟩ := mem_due.mp he
    rw [mem_due]
    refine ⟨?_, hdue⟩
    split
    · exact Multiset.mem_cons_of_mem hmem
    · exact hmem

theorem FiresDueOnce.calm {s : EventLoop Q} (h : FiresDueOnce Q now s) :
    ∀ e ∈ Q.elems s.timers, e.nextFireMs ≤ now → e.repeating = true → 0 < e.intervalMs := by
  obtain ⟨fuel, timers, fired, hrun, -⟩ := h
  intro e hmem hdue hrepeating
  by_contra hinterval
  have hends : Loop.Ends (fireStep Q now) (s.timers, []) := by
    refine ⟨fuel, ?_⟩
    rw [fireTimers] at hrun
    rw [hrun]
    rfl
  exact not_ends_of_restless ⟨e, mem_due.mpr ⟨hmem, hdue⟩, hrepeating, by omega⟩ hends

/-- A call fires every timer that is due once, and no other, if and only if none of them repeats
with an interval that is zero or negative. -/
theorem fire_timers_fair_iff (Q : TimerQueue η) (now : Int) (s : EventLoop Q) :
    FiresDueOnce Q now s ↔ ∀ e ∈ Q.elems s.timers, e.nextFireMs ≤ now → e.repeating = true →
      0 < e.intervalMs := by
  constructor
  · exact FiresDueOnce.calm
  · intro h
    have hcalm : ∀ e ∈ due now (Q.elems s.timers), ¬ Restless e := by
      rintro e he ⟨hrepeating, hinterval⟩
      obtain ⟨hmem, hdue⟩ := mem_due.mp he
      have hpositive := h e hmem hdue hrepeating
      omega
    obtain ⟨fuel, timers, fired, hrun, hfired⟩ := run_fireStep _ s.timers [] rfl hcalm
    exact ⟨fuel, timers, fired, hrun, hfired⟩

theorem elems_add (s : EventLoop Q) (repeating : Bool) (intervalMs : Int) (handler : η) :
    Q.elems (s.add Q repeating now intervalMs handler).timers =
      { id := s.nextTimerId, intervalMs, repeating, nextFireMs := now + intervalMs, handler } ::ₘ
        Q.elems s.timers :=
  Q.elems_push _ _

/-- A loop whose only timer was added with the interval zero, at the time three. -/
def busyLoop : EventLoop (PriorityQueue.sorted (TimerEntry Unit) TimerEntry.nextFireMs) :=
  addTimer _ 3 0 () (new _)

theorem mem_busyLoop :
    (⟨1, 0, true, 3, ()⟩ : TimerEntry Unit) ∈ PriorityQueue.elems _ busyLoop.timers := by
  rw [busyLoop, addTimer, elems_add]
  exact Multiset.mem_cons_self _ _

theorem zero_interval_never_returns :
    ¬ FiresDueOnce _ 5 busyLoop ∧ ∀ fuel, fireTimers _ fuel 5 busyLoop = none := by
  -- A repeating timer with an interval of zero is due again at once.
  constructor
  · intro h
    exact absurd (h.calm _ mem_busyLoop (by decide) rfl) (by decide)
  · intro fuel
    by_contra hsome
    have hdue : (⟨1, 0, true, 3, ()⟩ : TimerEntry Unit) ∈
        due 5 (PriorityQueue.elems _ busyLoop.timers) :=
      mem_due.mpr ⟨mem_busyLoop, by decide⟩
    exact not_ends_of_restless ⟨_, hdue, rfl, by decide⟩ ⟨fuel, Option.isSome_iff_ne_none.mpr hsome⟩

end EventLoop

end Euxis.Cli
