import Mathlib.Data.List.Basic

/-!
# Maps as lists of entries

Setting a key, and setting the keys of a whole list of entries one after the other: the last entry
of a key is the one that stays.
-/

namespace Euxis.Overlay

variable {κ α : Type} [DecidableEq κ]

/-- `map[key] = value`. -/
def put : List (κ × α) → κ → α → List (κ × α)
  | [], key, value => [(key, value)]
  | (k, v) :: rest, key, value =>
    if k = key then (k, value) :: rest else (k, v) :: put rest key value

/-- The map with every entry of the list set, in order. -/
def overlay (m entries : List (κ × α)) : List (κ × α) := entries.foldl (fun m e => put m e.1 e.2) m

/-- What the last entry of the key says. -/
def last (entries : List (κ × α)) (key : κ) : Option α :=
  ((entries.filter (·.1 = key)).getLast?).map (·.2)

variable (m entries : List (κ × α)) (key other : κ) (value : α)

omit [DecidableEq κ] in
theorem lookup_cons_ne [BEq κ] [LawfulBEq κ] (h : other ≠ key) :
    List.lookup other ((key, value) :: m) = m.lookup other := by
  rw [List.lookup_cons, beq_false_of_ne h]

theorem lookup_put [BEq κ] [LawfulBEq κ] :
    (put m key value).lookup other = if other = key then some value else m.lookup other := by
  induction m with
  | nil =>
    unfold put
    split
    · simp [*]
    · rename_i h
      rw [lookup_cons_ne _ _ _ _ h]
  | cons e rest ih =>
    obtain ⟨k, v⟩ := e
    unfold put
    by_cases h : other = k
    · subst h
      by_cases hk : other = key
      · simp [hk]
      · simp [hk]
    · split
      · rename_i hk
        rw [lookup_cons_ne _ _ _ _ h, lookup_cons_ne _ _ _ _ h, if_neg (hk ▸ h)]
      · rw [lookup_cons_ne _ _ _ _ h, lookup_cons_ne _ _ _ _ h, ih]

theorem last_cons (e : κ × α) :
    last (e :: entries) key = (last entries key).or (if e.1 = key then some e.2 else none) := by
  unfold last
  by_cases h : e.1 = key
  · cases hlast : (entries.filter (·.1 = key)).getLast? <;> simp [List.getLast?_cons, h, hlast]
  · simp [h]

theorem lookup_overlay [BEq κ] [LawfulBEq κ] :
    (overlay m entries).lookup key = (last entries key).or (m.lookup key) := by
  induction entries generalizing m with
  | nil => simp [overlay, last]
  | cons e rest ih =>
    unfold overlay at ih ⊢
    rw [List.foldl_cons, ih, lookup_put, last_cons, Option.or_assoc]
    by_cases h : key = e.1
    · simp [h]
    · have hne : ¬ e.1 = key := fun heq => h heq.symm
      simp [h, hne]

end Euxis.Overlay
