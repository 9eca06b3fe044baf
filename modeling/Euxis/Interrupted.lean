import Mathlib.Data.List.Basic
import Euxis.Outcome

/-!
# Loops that a throw interrupts

A loop reads its elements one after the other and writes each into a state that outlives it. When a
reading throws, what was written before stays.
-/

namespace Euxis.Interrupted

open Outcome

variable {α β ε σ : Type}

/-- The state that the loop leaves, and what it threw. -/
def loadEach (read : α → Except ε β) (write : σ → β → σ) : σ → List α → σ × Option ε
  | s, [] => (s, none)
  | s, a :: rest =>
    match read a with
    | .error e => (s, some e)
    | .ok b => loadEach read write (write s b) rest

/-- The reading returns the value of each element that is in order, and throws on the others. -/
structure Reads (read : α → Except ε β) (ok : α → Bool) (value : α → β) : Prop where
  returns : ∀ a, ok a = true → read a = .ok (value a)
  throws : ∀ a, Returns (read a) → ok a = true

/-- Two loops in a row: the second one begins only when the first did not throw. -/
def andThen (first : σ × Option ε) (second : σ → σ × Option ε) : σ × Option ε :=
  match first with
  | (s, some e) => (s, some e)
  | (s, none) => second s

variable {read : α → Except ε β} {ok : α → Bool} {value : α → β} (write : σ → β → σ) (s : σ)
  (l : List α)

theorem Reads.error (h : Reads read ok value) {a : α} (hbad : ok a = false) :
    ∃ e, read a = .error e := by
  cases hread : read a with
  | error e => exact ⟨e, rfl⟩
  | ok b =>
    rw [h.throws a ⟨b, hread⟩] at hbad
    cases hbad

end Euxis.Interrupted
