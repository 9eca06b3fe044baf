import Mathlib.Data.List.AList

/-!
# Inverted indexes

A map from keys to the list of values that were put under the key, in order, and without empty lists
after a removal. How often a value is under a key when it is put there for, or taken out of, a list
of keys.
-/

namespace Euxis.Postings

variable {κ ι : Type} [DecidableEq κ] [DecidableEq ι]

abbrev Index (κ ι : Type) := AList fun _ : κ => List ι

def listed (ix : Index κ ι) (key : κ) : List ι := (ix.lookup key).getD []

def push (value : ι) (ix : Index κ ι) (key : κ) : Index κ ι :=
  ix.insert key (listed ix key ++ [value])

def drop (value : ι) (ix : Index κ ι) (key : κ) : Index κ ι :=
  if (listed ix key).filter (· ≠ value) = [] then ix.erase key
  else ix.insert key ((listed ix key).filter (· ≠ value))

variable (ix : Index κ ι) (value : ι)

omit [DecidableEq ι] in
theorem listed_push (key c : κ) :
    listed (push value ix key) c = if c = key then listed ix c ++ [value] else listed ix c := by
  unfold listed push
  split
  · rename_i heq
    subst heq
    rw [AList.lookup_insert]
    rfl
  · rename_i hne
    rw [AList.lookup_insert_ne hne]

theorem listed_drop (key c : κ) :
    listed (drop value ix key) c = if c = key then (listed ix c).filter (· ≠ value)
      else listed ix c := by
  unfold drop
  by_cases heq : c = key
  · subst heq
    rw [if_pos rfl]
    split
    · rename_i hnil
      rw [hnil, listed, AList.lookup_erase]
      rfl
    · rw [listed, AList.lookup_insert]
      rfl
  · rw [if_neg heq]
    unfold listed
    split
    · rw [AList.lookup_erase_ne heq]
    · rw [AList.lookup_insert_ne heq]

theorem count_listed_pushAll [BEq κ] [LawfulBEq κ] [BEq ι] [LawfulBEq ι] (keys : List κ) (c : κ)
    (other : ι) :
    (listed (keys.foldl (push value) ix) c).count other =
      (listed ix c).count other + if other = value then keys.count c else 0 := by
  induction keys generalizing ix with
  | nil => simp
  | cons key rest ih =>
    rw [List.foldl_cons, ih, listed_push, List.count_cons]
    by_cases hkey : c = key
    · subst hkey
      by_cases hother : other = value
      · subst hother
        simp
        omega
      · have hne : value ≠ other := fun h => hother h.symm
        simp [hother, hne]
    · have hne : ¬ key = c := fun h => hkey h.symm
      simp [hkey, hne]

theorem listed_dropAll (keys : List κ) (c : κ) :
    listed (keys.foldl (drop value) ix) c = if c ∈ keys then (listed ix c).filter (· ≠ value)
      else listed ix c := by
  induction keys generalizing ix with
  | nil => simp
  | cons key rest ih =>
    rw [List.foldl_cons, ih, listed_drop]
    by_cases hkey : c = key
    · subst hkey
      by_cases hrest : c ∈ rest
      · simp [hrest]
      · simp [hrest]
    · by_cases hrest : c ∈ rest
      · simp [hkey, hrest]
      · simp [hkey, hrest]

end Euxis.Postings
