import Mathlib.Tactic.TypeStar

/-!
# Computations that may throw

How `Except` runs one step after another: an error ends the run, and a run that returns has returned
from each step.
-/

namespace Euxis

namespace Outcome

variable {ε α β : Type} {x : Except ε α} {f : α → Except ε β} {b : β}

@[simp]
theorem ok_bind (a : α) : (Except.ok a >>= f) = f a := rfl

@[simp]
theorem error_bind (e : ε) : (Except.error e >>= f) = .error e := rfl

theorem ok_of_bind (h : (x >>= f) = .ok b) : ∃ a, x = .ok a ∧ f a = .ok b := by
  cases x with
  | error e => exact absurd h (by simp)
  | ok a => exact ⟨a, rfl, h⟩

theorem mapM_map_ok {γ : Type} (read : β → Except ε γ) (write : α → β) (k : α → γ)
    (h : ∀ a, read (write a) = .ok (k a)) (l : List α) :
    (l.map write).mapM read = .ok (l.map k) := by
  induction l with
  | nil => rfl
  | cons a rest ih =>
    rw [List.map_cons, List.mapM_cons, h, ih]
    rfl

/-! ## When a run returns -/

/-- Nothing is thrown. -/
def Returns (x : Except ε α) : Prop := ∃ a, x = .ok a

@[simp]
theorem returns_ok (a : α) : Returns (Except.ok a : Except ε α) := ⟨a, rfl⟩

@[simp]
theorem not_returns_error (e : ε) : ¬ Returns (Except.error e : Except ε α) := nofun

theorem returns_bind_iff : Returns (x >>= f) ↔ ∃ a, x = .ok a ∧ Returns (f a) := by
  cases x with
  | error e => simp
  | ok a => simp

theorem returns_bind_const {p : Prop} (h : ∀ a, Returns (f a) ↔ p) :
    Returns (x >>= f) ↔ Returns x ∧ p := by
  rw [returns_bind_iff]
  constructor
  · rintro ⟨a, hx, ha⟩
    exact ⟨⟨a, hx⟩, (h a).mp ha⟩
  · rintro ⟨⟨a, hx⟩, hp⟩
    exact ⟨a, hx, (h a).mpr hp⟩

theorem returns_bind_pure (g : α → β) : Returns (x >>= fun a => (pure (g a) : Except ε β)) ↔
    Returns x := by
  cases x with
  | error e => exact iff_of_false (not_returns_error e) (not_returns_error e)
  | ok a => exact iff_of_true (returns_ok (g a)) (returns_ok a)

theorem returns_map_iff (g : α → β) : Returns (x.map g) ↔ Returns x := by
  cases x with
  | error e => simp [Except.map]
  | ok a => simp [Except.map]

theorem returns_mapError_iff {ε' : Type} (g : ε → ε') : Returns (x.mapError g) ↔ Returns x := by
  cases x with
  | error e => exact iff_of_false (not_returns_error (g e)) (not_returns_error e)
  | ok a => exact iff_of_true (returns_ok a) (returns_ok a)

theorem returns_mapM_iff (read : α → Except ε β) (l : List α) :
    Returns (l.mapM read) ↔ ∀ a ∈ l, Returns (read a) := by
  induction l with
  | nil => simp [pure, Except.pure]
  | cons a rest ih =>
    rw [List.mapM_cons, List.forall_mem_cons, ← ih]
    apply returns_bind_const
    intro b
    exact returns_bind_pure _

end Outcome

end Euxis
