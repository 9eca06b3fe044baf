import Euxis.Loop
import Euxis.Records

/-!
# Replacing every place of a text

A loop that looks for the next place from a position on, puts another text there and goes on behind
it. The text that was put in is never looked at, so what it holds does not matter.
-/

namespace Euxis.Replace

variable {α : Type} [DecidableEq α]

/-- The first place of `needle` from a position on. -/
def find (needle s : List α) (pos : Nat) : Option Nat :=
  if pos ≤ s.length then (Records.cutAt needle (s.drop pos)).map fun r => pos + r.1.length else none

/-- `text` in the place of the `n` elements from a position on. -/
def replace (s : List α) (pos n : Nat) (text : List α) : List α :=
  s.take pos ++ (text ++ s.drop (pos + n))

/-- One round of the loop: the text and the position from which it is searched. -/
def step (needle text : List α) : List α × Nat → Option (List α × Nat)
  | (s, pos) =>
    (find needle s pos).map fun pos => (replace s pos needle.length text, pos + text.length)

/-- What stands between the places of `needle`, each of them the first behind the one before. -/
def pieces (needle s : List α) : List (List α) :=
  (Records.records needle s).1 ++ [(Records.records needle s).2]

variable {needle : List α} (hneedle : needle ≠ [])

omit [DecidableEq α] in
theorem replace_append (done record rest text : List α) :
    replace (done ++ (record ++ (needle ++ rest))) (done.length + record.length)
      needle.length text = (done ++ (record ++ text)) ++ rest := by
  have hsplit : done ++ (record ++ (needle ++ rest)) = (done ++ record) ++ (needle ++ rest) := by
    rw [List.append_assoc]
  rw [replace, hsplit, ← List.length_append, List.take_left, ← List.drop_drop, List.drop_left,
    List.drop_left]
  simp

theorem find_append (done s : List α) :
    find needle (done ++ s) done.length = (Records.cutAt needle s).map fun r => done.length +
      r.1.length := by
  rw [find, if_pos (by simp), List.drop_left]

theorem pieces_ne_nil (s : List α) : pieces needle s ≠ [] := by
  simp [pieces]

theorem pieces_of_none {s : List α} (h : Records.cutAt needle s = none) :
    pieces needle s = [s] := by
  rw [pieces, Records.records_of_none h]
  rfl

include hneedle

theorem pieces_of_cutAt {s record rest : List α}
    (h : Records.cutAt needle s = some (record, rest)) :
    pieces needle s = record :: pieces needle rest := by
  rw [pieces, Records.records_of_cutAt hneedle h]
  rfl

theorem intercalate_pieces (s : List α) : needle.intercalate (pieces needle s) = s := by
  induction s using Records.records_induction hneedle with
  | waiting s h => rw [pieces_of_none h, List.intercalate_singleton]
  | cut s record rest h ih =>
    rw [pieces_of_cutAt hneedle h, List.intercalate_cons_of_ne_nil (pieces_ne_nil rest), ih,
      List.append_assoc]
    exact (Records.cutAt_some h).symm

/-- The loop ends with the pieces of what it had not searched yet, joined with the text. -/
theorem run_step (text done s : List α) :
    ∃ fuel pos, Loop.run (step needle text) fuel (done ++ s, done.length) =
      some (done ++ text.intercalate (pieces needle s), pos) := by
  induction s using Records.records_induction hneedle generalizing done with
  | waiting s h =>
    have hleft : step needle text (done ++ s, done.length) = none := by
      rw [step, find_append, h]
      rfl
    refine ⟨1, done.length, ?_⟩
    rw [Loop.run_left hleft, pieces_of_none h, List.intercalate_singleton]
  | cut s record rest h ih =>
    have hnext : step needle text (done ++ s, done.length) =
        some ((done ++ (record ++ text)) ++ rest, (done ++ (record ++ text)).length) := by
      rw [step, find_append, h, Option.map_some, Option.map_some, Records.cutAt_some h,
        replace_append]
      simp [Nat.add_assoc]
    obtain ⟨fuel, pos, hrun⟩ := ih (done ++ (record ++ text))
    refine ⟨fuel + 1, pos, ?_⟩
    rw [Loop.run_next hnext, hrun, pieces_of_cutAt hneedle h,
      List.intercalate_cons_of_ne_nil (pieces_ne_nil rest)]
    simp

end Euxis.Replace
