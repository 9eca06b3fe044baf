import Mathlib.Data.List.Sort
import Mathlib.Data.Multiset.Filter

/-!
# Priority queues

What a queue with the smallest key first promises. Which of several elements with that key is at the
top is not said.
-/

namespace Euxis

structure PriorityQueue (α : Type) (key : α → Int) where
  Queue : Type
  elems : Queue → Multiset α
  empty : Queue
  push : α → Queue → Queue
  top : Queue → Option α
  pop : Queue → Queue
  elems_empty : elems empty = 0
  elems_push : ∀ a q, elems (push a q) = a ::ₘ elems q
  elems_of_top_none : ∀ q, top q = none → elems q = 0
  elems_of_top : ∀ q a, top q = some a → elems q = a ::ₘ elems (pop q)
  top_le : ∀ q a, top q = some a → ∀ b ∈ elems q, key a ≤ key b

namespace PriorityQueue

variable {α : Type} {key : α → Int} (Q : PriorityQueue α key)

theorem exists_top {q : Q.Queue} {a : α} (h : a ∈ Q.elems q) :
    ∃ b, Q.top q = some b ∧ key b ≤ key a := by
  cases htop : Q.top q with
  | none =>
    rw [Q.elems_of_top_none q htop] at h
    exact absurd h (Multiset.notMem_zero a)
  | some b => exact ⟨b, rfl, Q.top_le q b htop a h⟩

theorem pairwise_insert (key : α → Int) (a : α) (l : List α)
    (h : l.Pairwise fun a b => key a ≤ key b) :
    (l.orderedInsert (fun a b => key a ≤ key b) a).Pairwise fun a b => key a ≤ key b := by
  have : Std.Total fun a b => key a ≤ key b := ⟨fun a b => le_total (key a) (key b)⟩
  have : IsTrans α fun a b => key a ≤ key b := ⟨fun _ _ _ => le_trans⟩
  exact h.orderedInsert a l

/-- The elements as a list in the order of their keys. -/
def sorted (α : Type) (key : α → Int) : PriorityQueue α key where
  Queue := { l : List α // l.Pairwise fun a b => key a ≤ key b }
  elems q := q.val
  empty := ⟨[], List.Pairwise.nil⟩
  push a q := ⟨q.val.orderedInsert (fun a b => key a ≤ key b) a,
    pairwise_insert key a q.val q.property⟩
  top q := q.val.head?
  pop q := ⟨q.val.tail, q.property.tail⟩
  elems_empty := rfl
  elems_push a q := Multiset.coe_eq_coe.mpr (List.perm_orderedInsert _ a q.val)
  elems_of_top_none q h := by
    rw [List.head?_eq_none_iff.mp h]
    rfl
  elems_of_top q a h := by
    obtain ⟨rest, hrest⟩ := List.head?_eq_some_iff.mp h
    have hval : (q.val : Multiset α) = a ::ₘ (q.val.tail : Multiset α) := by
      rw [hrest]
      rfl
    exact hval
  top_le q a h b hb := by
    obtain ⟨rest, hrest⟩ := List.head?_eq_some_iff.mp h
    have hsorted := q.property
    rw [hrest] at hb hsorted
    rcases List.mem_cons.mp hb with rfl | hb
    · exact le_refl _
    · exact List.rel_of_pairwise_cons hsorted hb

end PriorityQueue

end Euxis
