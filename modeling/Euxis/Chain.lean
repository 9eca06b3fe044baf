import Mathlib.Data.List.Induction
import Mathlib.Logic.Function.Basic

/-!
# Hash chains

A log whose entries each record the head of the log before them. The head is the hash of the last
entry.
-/

namespace Euxis.Chain

variable {E H : Type} (hash : E → H) (link : E → Option H)

/-- The head after the entries, from the head `start`. -/
def headOf (start : H) (entries : List E) : H := entries.foldl (fun _ e => hash e) start

/-- Each entry records the head before it. -/
def Linked (start : H) : List E → Prop
  | [] => True
  | e :: rest => link e = some start ∧ Linked (hash e) rest

@[simp] theorem headOf_nil (start : H) : headOf hash start [] = start := rfl

@[simp] theorem headOf_snoc (start : H) (entries : List E) (e : E) :
    headOf hash start (entries ++ [e]) = hash e := by
  simp [headOf]

theorem linked_snoc (start : H) (entries : List E) (e : E) :
    Linked hash link start (entries ++ [e]) ↔
      Linked hash link start entries ∧ link e = some (headOf hash start entries) := by
  induction entries generalizing start with
  | nil => simp [Linked]
  | cons x rest ih =>
    simp only [List.cons_append, Linked, ih, headOf, List.foldl_cons]
    tauto

/-- Every entry that follows a linked log is fine. -/
def Guarded (fine : E → Prop) (start : H) (entries : List E) : Prop :=
  ∀ front e rest, entries = front ++ e :: rest → Linked hash link start front → fine e

theorem guarded_nil (fine : E → Prop) (start : H) : Guarded hash link fine start [] := by
  intro front e rest h
  simp at h

theorem guarded_cons (fine : E → Prop) (start : H) (e : E) (entries : List E) :
    Guarded hash link fine start (e :: entries) ↔
      fine e ∧ (link e = some start → Guarded hash link fine (hash e) entries) := by
  constructor
  · intro h
    refine ⟨h [] e entries rfl trivial, ?_⟩
    intro hlink front x rest heq hfront
    exact h (e :: front) x rest (by rw [heq]; rfl) ⟨hlink, hfront⟩
  · rintro ⟨hfine, hrest⟩ front x rest heq hfront
    cases front with
    | nil =>
      obtain ⟨rfl, -⟩ := List.cons.inj heq
      exact hfine
    | cons y front =>
      obtain ⟨rfl, htail⟩ := List.cons.inj heq
      exact hrest hfront.1 front x rest htail hfront.2

/-- **The head pins the log.** When no entry hashes to the start and no two entries hash alike, two
linked logs with one head are the same log. -/
theorem linked_unique (hinj : Function.Injective hash) (start : H) (hstart : ∀ e, hash e ≠ start)
    (xs ys : List E) (hx : Linked hash link start xs) (hy : Linked hash link start ys)
    (h : headOf hash start xs = headOf hash start ys) : xs = ys := by
  induction xs using List.reverseRecOn generalizing ys with
  | nil =>
    cases ys using List.reverseRecOn with
    | nil => rfl
    | append_singleton ys y =>
      rw [headOf_snoc] at h
      exact absurd h.symm (hstart y)
  | append_singleton xs x ih =>
    cases ys using List.reverseRecOn with
    | nil =>
      rw [headOf_snoc] at h
      exact absurd h (hstart x)
    | append_singleton ys y =>
      rw [headOf_snoc, headOf_snoc] at h
      obtain rfl := hinj h
      rw [linked_snoc] at hx hy
      -- One last entry records one head, so the logs before it have the same head.
      have hbefore := Option.some.inj (hx.2.symm.trans hy.2)
      rw [ih ys hx.1 hy.1 hbefore]

end Euxis.Chain
