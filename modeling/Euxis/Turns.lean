import Mathlib.Data.List.Rotate
import Mathlib.Data.List.Sort

/-!
# Taking turns

A list as a ring: from a position on, once around, to the first element that is fit. What two such
walks find when the second one begins a place further. And the first of a stable sort, the earliest
of the smallest elements.
-/

namespace Euxis.Turns

variable {α : Type} (l : List α) (start : Nat) (fit : α → Bool)

/-- The first fit element at `start`, `start + 1` and so on, round the ring. -/
def walk : Option α :=
  (List.range l.length).findSome? fun i => l[(start + i) % l.length]?.filter fit

/-- The element is the first fit one of the list. -/
def First (c : α) : Prop :=
  ∃ before after, l = before ++ c :: after ∧ fit c = true ∧ ∀ a ∈ before, fit a = false

variable {l fit}

theorem find?_eq_some_iff_first (c : α) : l.find? fit = some c ↔ First l fit c := by
  rw [List.find?_eq_some_iff_append]
  constructor
  · rintro ⟨hc, before, after, rfl, hbefore⟩
    exact ⟨before, after, rfl, hc, fun a ha => by simpa using hbefore a ha⟩
  · rintro ⟨before, after, rfl, hc, hbefore⟩
    exact ⟨hc, before, after, rfl, fun a ha => by simp [hbefore a ha]⟩

theorem find?_eq_find?_iff_first {l' : List α} {fit' : α → Bool} (h : ∃ c ∈ l', fit' c = true) :
    l.find? fit = l'.find? fit' ↔ ∃ c, First l fit c ∧ First l' fit' c := by
  obtain ⟨c, hc⟩ := Option.isSome_iff_exists.mp (List.find?_isSome.mpr h)
  constructor
  · intro heq
    rw [hc] at heq
    exact ⟨c, (find?_eq_some_iff_first c).mp heq, (find?_eq_some_iff_first c).mp hc⟩
  · rintro ⟨d, hd, hd'⟩
    rw [← find?_eq_some_iff_first] at hd hd'
    rw [hd, hd']

theorem walk_eq_find? : walk l start fit = (l.rotate start).find? fit := by
  have hmap : (List.range l.length).map (fun i => l[(start + i) % l.length]?) =
      (l.rotate start).map some := by
    apply List.ext_getElem?
    intro i
    rcases Nat.lt_or_ge i l.length with hi | hi
    · have hlt : (i + start) % l.length < l.length := Nat.mod_lt _ (by omega)
      simp [hi, Nat.add_comm start i, List.getElem?_eq_getElem hlt]
    · simp [hi]
  have hwalk : walk l start fit =
      ((List.range l.length).map fun i => l[(start + i) % l.length]?).findSome? (·.filter fit) := by
    rw [List.findSome?_map]
    rfl
  rw [hwalk, hmap, List.findSome?_map, List.find?_eq_findSome?_guard]
  rfl

/-- The second walk begins a place further, and there are two elements that are fit for it. It finds
another one exactly when the first walk stops where it begins, or the rest of the ring has not the
same first element for both. -/
theorem find?_next_ne_iff (fit' : α → Bool) (x : α) (rest : List α) (hnodup : (x :: rest).Nodup)
    (htwo : 2 ≤ (x :: rest).countP fit') :
    (x :: rest).find? fit ≠ (rest ++ [x]).find? fit' ↔ fit x = true ∨ ¬ ∃ c, First rest fit c ∧
      First rest fit' c := by
  have hone : ∃ c ∈ rest, fit' c = true := by
    rw [← List.countP_pos_iff]
    rw [List.countP_cons] at htwo
    split at htwo <;> omega
  have hsecond : (rest ++ [x]).find? fit' = rest.find? fit' := by
    obtain ⟨d, hd⟩ := Option.isSome_iff_exists.mp (List.find?_isSome.mpr hone)
    rw [List.find?_append, hd, Option.some_or]
  rw [hsecond]
  by_cases hx : fit x = true
  · rw [List.find?_cons_of_pos hx]
    simp only [hx, true_or, iff_true]
    intro heq
    exact (List.nodup_cons.mp hnodup).1 (List.mem_of_find?_eq_some heq.symm)
  · rw [List.find?_cons_of_neg hx, Ne, find?_eq_find?_iff_first hone]
    simp [hx]

end Euxis.Turns

namespace Euxis.Stable

/-! ## The first of a stable sort -/

variable {α : Type} (r : α → α → Prop)

/-- Nothing before the element is as small, and nothing after it is smaller. -/
def Earliest (l : List α) (m : α) : Prop :=
  ∃ before after, l = before ++ m :: after ∧ (∀ b ∈ before, ¬ r b m) ∧ ∀ a ∈ after, r m a

variable {r}

theorem Earliest.le [Std.Total r] {l : List α} {m x : α} (h : Earliest r l m) (hx : x ∈ l) :
    r m x := by
  obtain ⟨before, after, rfl, hbefore, hafter⟩ := h
  rcases List.mem_append.mp hx with hx | hx
  · exact (Std.Total.total m x).resolve_right (hbefore x hx)
  · rcases List.mem_cons.mp hx with rfl | hx
    · exact (Std.Total.total x x).elim id id
    · exact hafter x hx

theorem earliest_of_head? [DecidableRel r] [Std.Total r] [IsTrans α r] (l : List α) (m : α)
    (h : (l.insertionSort r).head? = some m) : Earliest r l m := by
  induction l generalizing m with
  | nil => simp at h
  | cons x rest ih =>
    rw [List.insertionSort_cons] at h
    cases hsorted : rest.insertionSort r with
    | nil =>
      have hrest : rest = [] := by simpa [hsorted] using (List.length_insertionSort r rest).symm
      subst hrest
      obtain rfl : x = m := by simpa using h
      exact ⟨[], [], rfl, by simp, by simp⟩
    | cons y tail =>
      have hy := ih y (by rw [hsorted]; rfl)
      rw [hsorted] at h
      by_cases hxy : r x y
      · rw [List.orderedInsert_cons_of_le r tail hxy] at h
        obtain rfl : x = m := by simpa using h
        exact ⟨[], rest, rfl, by simp, fun a ha => IsTrans.trans x y a hxy (hy.le ha)⟩
      · rw [List.orderedInsert_of_not_le r tail hxy] at h
        obtain rfl : y = m := by simpa using h
        obtain ⟨before, after, rfl, hbefore, hafter⟩ := hy
        exact ⟨x :: before, after, rfl, List.forall_mem_cons.mpr ⟨hxy, hbefore⟩, hafter⟩

end Euxis.Stable
