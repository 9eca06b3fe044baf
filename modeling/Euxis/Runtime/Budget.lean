import Mathlib.Data.List.Count
import Mathlib.Data.List.TakeWhile
import Euxis.Atomic

/-!
# The budget of iterations

`libs/runtime/include/euxis/runtime/iteration_budget.hpp`. One atomic counter bounds the iterations
of a turn; agents take from it and give back on any number of threads.
-/

namespace Euxis.Runtime.Budget

open Euxis.Atomic

inductive Call where
  | tryConsume
  | refund
  deriving DecidableEq

inductive Store where
  | reset
  deriving DecidableEq

/-- What the loops of `try_consume` and `refund` exchange `current` for, and when they leave
without. -/
def next (max : Nat) : Call → Nat → Option Nat
  | .tryConsume, current => if current > 0 then some (current - 1) else none
  | .refund, current => if current < max then some (current + 1) else none

def budget (max : Nat) : Code Nat Call Store where
  next := next max
  put := fun _ => max

def consumed (max remaining : Nat) : Nat := max - remaining

abbrev Log := List (Entry Call Store)

/-! ## Accounts -/

/-- The entries behind the last reset, the newest first. -/
def sinceReset (log : Log) : Log := log.reverse.takeWhile fun e => e != .stored .reset

def grants (log : Log) : Nat := (sinceReset log).count (.granted .tryConsume)

def refunds (log : Log) : Nat := (sinceReset log).count (.granted .refund)

theorem sinceReset_reset (log : Log) : sinceReset (log ++ [.stored .reset]) = [] := by
  simp [sinceReset]

theorem sinceReset_concat (log : Log) (e : Entry Call Store) (he : e ≠ .stored .reset) :
    sinceReset (log ++ [e]) = e :: sinceReset log := by
  simp [sinceReset, he]

/-- The value is what the grants and the refunds have made of the maximum. -/
structure Balanced (max : Nat) (log : Log) (v : Nat) : Prop where
  bounded : v ≤ max
  account : v + grants log = max + refunds log

theorem balanced_apply {max v v' : Nat} {log : Log} (h : Balanced max log v) (e : Entry Call Store)
    (he : apply (budget max) v e = some v') : Balanced max (log ++ [e]) v' := by
  obtain ⟨hbounded, haccount⟩ := h
  unfold grants refunds at haccount
  cases e with
  | granted c =>
    cases c with
    | tryConsume =>
      simp only [apply, budget, next, Option.ite_none_right_eq_some, Option.some.injEq] at he
      constructor
      · omega
      · rw [grants, refunds, sinceReset_concat log _ (by simp), List.count_cons_self,
          List.count_cons_of_ne (by simp)]
        omega
    | refund =>
      simp only [apply, budget, next, Option.ite_none_right_eq_some, Option.some.injEq] at he
      constructor
      · omega
      · rw [grants, refunds, sinceReset_concat log _ (by simp), List.count_cons_self,
          List.count_cons_of_ne (by simp)]
        omega
  | refused c =>
    simp only [apply, Option.some.injEq] at he
    subst he
    refine ⟨hbounded, ?_⟩
    rw [grants, refunds, sinceReset_concat log _ (by simp), List.count_cons_of_ne (by simp),
      List.count_cons_of_ne (by simp)]
    exact haccount
  | stored k =>
    simp only [apply, budget, Option.some.injEq] at he
    subst he
    -- A reset starts the account anew.
    cases k
    refine ⟨Nat.le_refl _, ?_⟩
    rw [grants, refunds, sinceReset_reset]
    rfl

theorem balanced_replay {max : Nat} (log : Log) {v : Nat}
    (h : replay (budget max) max log = some v) : Balanced max log v := by
  induction log using List.reverseRecOn generalizing v with
  | nil =>
    obtain rfl := Option.some.inj h
    exact ⟨Nat.le_refl _, rfl⟩
  | append_singleton log e ih =>
    rw [replay_concat, Option.bind_eq_some_iff] at h
    obtain ⟨w, hw, he⟩ := h
    exact balanced_apply (ih hw) e he

/-- Whoever is refused an iteration met an empty counter, and whoever is refused a refund a full
one. -/
def limit (max : Nat) : Call → Nat
  | .tryConsume => 0
  | .refund => max

theorem next_eq_none {max v : Nat} {c : Call} (hv : v ≤ max) (h : next max c v = none) :
    v = limit max c := by
  cases c with
  | tryConsume =>
    simp only [next, ite_eq_right_iff, reduceCtorEq, imp_false] at h
    simp only [limit]
    omega
  | refund =>
    simp only [next, ite_eq_right_iff, reduceCtorEq, imp_false] at h
    simp only [limit]
    omega

/-! ## A race for the last iteration -/

/-- Both threads see the one iteration that is left, one exchange succeeds, the other fails and
finds nothing. -/
def race : List (Event Call Store) :=
  [.load 0 .tryConsume 0, .load 1 .tryConsume 0, .exchange 1, .retry 0 1, .giveUp 0]

def afterRace : Shared Nat Call Store where
  past := [1]
  value := 0
  threads := fun _ => none
  log := [.granted .tryConsume, .refused .tryConsume]

theorem reaches_afterRace : Reaches (budget 1) 1 afterRace := by
  have hidle : Function.update
      (Function.update (Function.update (fun _ : Nat => none) 0 (some (Call.tryConsume, 1))) 1 none)
        0
      none = fun _ => none := by
    funext t
    simp only [Function.update_apply]
    split <;> simp
  apply Trace.Reaches.of_run race .start
  simp [race, Trace.run, step, exchangeStep, retryStep, giveUpStep, start, budget, next,
    Shared.order, afterRace, hidle]

/-! ## Every interleaving -/

/-- On any number of threads, with late loads and exchanges that fail for no reason, the counter
never leaves its bounds, every iteration granted since the last reset is missing from it or was
given back, and a call is refused only after a moment when the counter stood at the call's limit. -/
theorem reaches_balanced (max : Nat) (s : Shared Nat Call Store) (h : Reaches (budget max) max s) :
    Balanced max s.log s.value ∧
      ∀ before c after, s.log = before ++ .refused c :: after →
        Stood (budget max) max before (limit max c) := by
  have hexplained := reaches_explained h
  refine ⟨balanced_replay s.log hexplained.value, ?_⟩
  intro before c after hlog
  obtain ⟨x, ⟨earlier, hearlier, hreplay⟩, hnone⟩ := hexplained.refused before c after hlog
  have hx := next_eq_none (balanced_replay earlier hreplay).bounded hnone
  exact ⟨earlier, hearlier, hx ▸ hreplay⟩

theorem race_balanced : Balanced 1 afterRace.log afterRace.value ∧
    (∀ before c after, afterRace.log = before ++ .refused c :: after →
      Stood (budget 1) 1 before (limit 1 c)) :=
  reaches_balanced 1 afterRace reaches_afterRace

/-! ## Taking only -/

/-- Nobody gives back and nobody resets. -/
def OnlyConsumed (log : Log) : Prop :=
  ∀ e ∈ log, e = .granted .tryConsume ∨ e = .refused .tryConsume

theorem OnlyConsumed.grants_eq {log : Log} (h : OnlyConsumed log) :
    grants log = log.count (.granted .tryConsume) := by
  have hall : sinceReset log = log.reverse := by
    apply List.takeWhile_eq_self_iff.mpr
    intro e he
    rcases h e (List.mem_reverse.mp he) with rfl | rfl <;> rfl
  rw [grants, hall, List.count_reverse]

theorem OnlyConsumed.refunds_eq {log : Log} (h : OnlyConsumed log) : refunds log = 0 := by
  apply List.count_eq_zero.mpr
  intro hmem
  have hlog := List.mem_reverse.mp (List.takeWhile_subset _ hmem)
  rcases h _ hlog with he | he <;> exact absurd he (by simp)

theorem OnlyConsumed.mono {log log' : Log} (h : OnlyConsumed log) (hsub : log' ⊆ log) :
    OnlyConsumed log' :=
  fun e he => h e (hsub he)

/-- As many calls are granted as there are iterations, however the calls race, and none is refused
before. -/
theorem reaches_exact (max : Nat) (s : Shared Nat Call Store) (h : Reaches (budget max) max s)
    (honly : OnlyConsumed s.log) : s.log.count (.granted .tryConsume) = min s.log.length max := by
  obtain ⟨⟨-, haccount⟩, hrefused⟩ := reaches_balanced max s h
  rw [honly.grants_eq, honly.refunds_eq] at haccount
  by_cases hmem : Entry.refused Call.tryConsume ∈ s.log
  · obtain ⟨before, after, hlog⟩ := List.append_of_mem hmem
    obtain ⟨earlier, hearlier, hreplay⟩ := hrefused before _ after hlog
    have hsub : earlier.Sublist s.log := by
      rw [hlog]
      exact hearlier.sublist.trans (List.sublist_append_left _ _)
    -- The counter stood at zero, so by then every iteration was granted.
    have hearly := (balanced_replay earlier hreplay).account
    rw [(honly.mono hsub.subset).grants_eq, (honly.mono hsub.subset).refunds_eq] at hearly
    have hle := hsub.count_le (Entry.granted Call.tryConsume)
    have hlen : s.log.count (.granted .tryConsume) ≤ s.log.length := List.count_le_length
    simp only [limit] at hearly
    omega
  · have hall : s.log.count (.granted .tryConsume) = s.log.length := by
      apply List.count_eq_length.mpr
      intro e he
      rcases honly e he with rfl | rfl
      · rfl
      · exact absurd he hmem
    omega

theorem race_exact : afterRace.log.count (.granted .tryConsume) = min afterRace.log.length 1 :=
  reaches_exact 1 afterRace reaches_afterRace (by simp [OnlyConsumed, afterRace])

end Euxis.Runtime.Budget
