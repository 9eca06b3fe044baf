import Mathlib.Logic.Relation
import Mathlib.Tactic.Common

/-!
# Loops

A `while` loop: a step leads to the next state, or leaves the loop. It ends when a measure falls
with every step that a run reaches, and it does not when a run can never come to a state where it
leaves.
-/

namespace Euxis.Loop

variable {σ : Type} (step : σ → Option σ)

/-- The state in which the loop is left, or nothing when the fuel is used up before. -/
def run : Nat → σ → Option σ
  | 0, _ => none
  | fuel + 1, s =>
    match step s with
    | none => some s
    | some t => run fuel t

/-- The loop comes to an end. -/
def Ends (s : σ) : Prop := ∃ fuel, (run step fuel s).isSome

/-- The states that a run goes through. -/
def Reaches : σ → σ → Prop := Relation.ReflTransGen fun a b => step a = some b

variable {step} {s t : σ}

theorem run_left {fuel : Nat} (h : step s = none) : run step (fuel + 1) s = some s := by
  rw [run, h]

theorem run_next {fuel : Nat} (h : step s = some t) : run step (fuel + 1) s = run step fuel t := by
  rw [run, h]

theorem run_unique {fuel fuel' : Nat} {a b : σ} (ha : run step fuel s = some a)
    (hb : run step fuel' s = some b) : a = b := by
  induction fuel generalizing fuel' s with
  | zero => cases ha
  | succ fuel ih =>
    cases fuel' with
    | zero => cases hb
    | succ fuel' =>
      cases hs : step s with
      | none =>
        rw [run_left hs] at ha hb
        exact Option.some.inj (ha.symm.trans hb)
      | some t =>
        rw [run_next hs] at ha hb
        exact ih ha hb

theorem ends_of_left (h : step s = none) : Ends step s := ⟨1, by rw [run_left h]; rfl⟩

theorem ends_of_next (h : step s = some t) (ht : Ends step t) : Ends step s := by
  obtain ⟨fuel, hfuel⟩ := ht
  exact ⟨fuel + 1, by rw [run_next h]; exact hfuel⟩

theorem ends_of_falling (measure : σ → Nat)
    (h : ∀ t, Reaches step s t → ∀ u, step t = some u → measure u < measure t) : Ends step s := by
  induction hn : measure s using Nat.strongRecOn generalizing s with
  | ind n ih =>
    cases hs : step s with
    | none => exact ends_of_left hs
    | some t =>
      have hfall := h s Relation.ReflTransGen.refl t hs
      apply ends_of_next hs
      exact ih (measure t) (hn ▸ hfall) (fun u hu => h u (Relation.ReflTransGen.head hs hu)) rfl

/-- A loop with an invariant and a measure that falls ends where its step leaves it, with the
invariant. -/
theorem exists_run (inv : σ → Prop) (measure : σ → Nat)
    (h : ∀ s t, inv s → step s = some t → inv t ∧ measure t < measure s) (hs : inv s) :
    ∃ fuel t, run step fuel s = some t ∧ inv t ∧ step t = none := by
  induction hn : measure s using Nat.strongRecOn generalizing s with
  | ind n ih =>
    cases hstep : step s with
    | none => exact ⟨1, s, run_left hstep, hs, hstep⟩
    | some t =>
      obtain ⟨ht, hfall⟩ := h s t hs hstep
      obtain ⟨fuel, u, hrun, hu, hleft⟩ := ih (measure t) (hn ▸ hfall) ht rfl
      exact ⟨fuel + 1, u, by rw [run_next hstep, hrun], hu, hleft⟩

theorem not_ends_of_invariant (inv : σ → Prop) (h : ∀ t, inv t → ∃ u, step t = some u ∧ inv u)
    (hs : inv s) : ¬ Ends step s := by
  rintro ⟨fuel, hfuel⟩
  induction fuel generalizing s with
  | zero => cases hfuel
  | succ fuel ih =>
    obtain ⟨u, hu, hinv⟩ := h s hs
    rw [run_next hu] at hfuel
    exact ih hinv hfuel

end Euxis.Loop
