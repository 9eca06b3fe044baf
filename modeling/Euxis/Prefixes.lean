import Mathlib.Data.List.Basic
import Mathlib.Data.List.Infix

/-!
# Sorted maps of texts

A map keeps its entries in the lexicographic order of the keys. The keys that begin with a given
text stand next to each other, from the first key that is not below the text on.
-/

namespace Euxis.Prefixes

variable {α β : Type} [LT α] [LE α] [Std.IsLinearOrder α] [Std.LawfulOrderLT α]

/-! ## Common beginnings -/

omit [Std.IsLinearOrder α] in
theorem not_lt_of_prefix {p k : List α} (h : p <+: k) : ¬ k < p := by
  obtain ⟨rest, rfl⟩ := h
  induction p with
  | nil => exact List.not_lt_nil _
  | cons a p ih =>
    rw [List.cons_append, List.cons_lt_cons_iff, not_or]
    exact ⟨Std.lt_irrefl, fun h => ih h.2⟩

theorem prefix_of_between {p a b : List α} (hpa : ¬ a < p) (hab : ¬ b < a) (hpb : p <+: b) :
    p <+: a := by
  induction p generalizing a b with
  | nil => exact List.nil_prefix
  | cons c p ih =>
    obtain ⟨rest, rfl⟩ := hpb
    cases a with
    | nil => exact absurd (List.nil_lt_cons c p) hpa
    | cons d a =>
      rw [List.cons_lt_cons_iff, not_or] at hpa
      rw [List.cons_append, List.cons_lt_cons_iff, not_or] at hab
      have hcd : d = c := by
        rcases Std.lt_trichotomy d c with h | h | h
        · exact absurd h hpa.1
        · exact h
        · exact absurd h hab.1
      subst hcd
      refine List.cons_prefix_cons.mpr ⟨rfl,
        ih (b := p ++ rest) (fun h => hpa.2 ⟨rfl, h⟩) (fun h => hab.2 ⟨rfl, h⟩) ?_⟩
      exact List.prefix_append p rest

/-! ## Maps -/

variable [DecidableEq α]

def Sorted (m : List (List α × β)) : Prop := m.Pairwise fun a b => a.1 < b.1

omit [Std.IsLinearOrder α] in
theorem lookup_none {m : List (List α × β)} {k : List α} (h : ∀ e ∈ m, k < e.1) :
    m.lookup k = none := by
  rw [List.lookup_eq_none_iff]
  intro e he
  have := h e he
  simp only [bne_iff_ne, ne_eq]
  rintro rfl
  exact Std.lt_irrefl this

omit [Std.IsLinearOrder α] in
theorem mem_iff_lookup {m : List (List α × β)} (h : Sorted m) (k : List α) (v : β) :
    (k, v) ∈ m ↔ m.lookup k = some v := by
  induction m with
  | nil => exact ⟨fun h => absurd h List.not_mem_nil, fun h => by cases h⟩
  | cons first rest ih =>
    obtain ⟨a, w⟩ := first
    obtain ⟨hfirst, hrest⟩ := List.pairwise_cons.mp h
    by_cases hk : k = a
    · subst hk
      rw [List.lookup_cons_self, List.mem_cons, Prod.mk.injEq, Option.some.injEq, eq_comm (a := w)]
      constructor
      · rintro (h | h)
        · exact h.2
        · exact absurd (hfirst _ h) Std.lt_irrefl
      · exact fun h => Or.inl ⟨rfl, h⟩
    · rw [List.lookup_cons, beq_false_of_ne hk, ← ih hrest, List.mem_cons, Prod.mk.injEq]
      exact ⟨fun h => h.resolve_left fun h => hk h.1, Or.inr⟩

variable [DecidableLT α]

/-- The entries from the first key on that is not below the bound. -/
def lowerBound (p : List α) (m : List (List α × β)) : List (List α × β) :=
  m.dropWhile fun e => e.1 < p

/-- The entry of a key is set from what it was. -/
def update (k : List α) (f : Option β → β) : List (List α × β) → List (List α × β)
  | [] => [(k, f none)]
  | (k', v) :: rest =>
    if k < k' then (k, f none) :: (k', v) :: rest
    else if k = k' then (k', f (some v)) :: rest
    else (k', v) :: update k f rest

omit [LE α] [Std.IsLinearOrder α] [Std.LawfulOrderLT α] in
theorem mem_update {k : List α} {f : Option β → β} {m : List (List α × β)} {e : List α × β}
    (h : e ∈ update k f m) : e.1 = k ∨ e ∈ m := by
  induction m with
  | nil =>
    rw [update, List.mem_singleton] at h
    exact Or.inl (congrArg Prod.fst h)
  | cons first rest ih =>
    unfold update at h
    split at h
    · rcases List.mem_cons.mp h with rfl | h
      · exact Or.inl rfl
      · exact Or.inr h
    · split at h
      · rename_i heq
        rcases List.mem_cons.mp h with rfl | h
        · exact Or.inl heq.symm
        · exact Or.inr (List.mem_cons_of_mem _ h)
      · rcases List.mem_cons.mp h with rfl | h
        · exact Or.inr List.mem_cons_self
        · exact (ih h).imp_right (List.mem_cons_of_mem _)

theorem Sorted.update {m : List (List α × β)} (h : Sorted m) (k : List α) (f : Option β → β) :
    Sorted (update k f m) := by
  induction m with
  | nil => exact List.pairwise_singleton _ _
  | cons first rest ih =>
    obtain ⟨hfirst, hrest⟩ := List.pairwise_cons.mp h
    unfold Prefixes.update
    split
    · rename_i hlt
      refine List.pairwise_cons.mpr ⟨?_, h⟩
      intro b hb
      rcases List.mem_cons.mp hb with rfl | hb
      · exact hlt
      · exact Std.lt_trans hlt (hfirst b hb)
    · rename_i hnlt
      split
      · exact List.pairwise_cons.mpr ⟨hfirst, hrest⟩
      · rename_i hne
        refine List.pairwise_cons.mpr ⟨?_, ih hrest⟩
        intro b hb
        -- Whatever is behind is the new key or an old entry, and both are larger.
        rcases mem_update hb with hbk | hb
        · rw [hbk]
          rcases Std.lt_trichotomy k first.1 with h | h | h
          · exact absurd h hnlt
          · exact absurd h hne
          · exact h
        · exact hfirst b hb

theorem lookup_update {m : List (List α × β)} (h : Sorted m) (k : List α) (f : Option β → β)
    (k' : List α) :
    (update k f m).lookup k' = if k' = k then some (f (m.lookup k)) else m.lookup k' := by
  induction m with
  | nil =>
    by_cases hk : k' = k
    · rw [if_pos hk, hk, update, List.lookup_cons_self]
      rfl
    · rw [if_neg hk, update, List.lookup_cons, beq_false_of_ne hk]
  | cons first rest ih =>
    obtain ⟨a, v⟩ := first
    obtain ⟨hfirst, hrest⟩ := List.pairwise_cons.mp h
    unfold update
    split
    · rename_i hlt
      -- In a sorted list a key that is smaller than the first one is not there.
      have hnone : ((a, v) :: rest).lookup k = none := by
        refine lookup_none ?_
        intro e he
        rcases List.mem_cons.mp he with rfl | he
        · exact hlt
        · exact Std.lt_trans hlt (hfirst e he)
      by_cases hk : k' = k
      · rw [if_pos hk, hk, hnone, List.lookup_cons_self]
      · rw [if_neg hk, List.lookup_cons, beq_false_of_ne hk]
    · split
      · rename_i heq
        by_cases hk : k' = k
        · rw [if_pos hk, hk, heq, List.lookup_cons_self, List.lookup_cons_self]
        · rw [if_neg hk, List.lookup_cons, List.lookup_cons, beq_false_of_ne (heq ▸ hk)]
      · rename_i hne
        rw [List.lookup_cons, List.lookup_cons, List.lookup_cons, beq_false_of_ne hne, ih hrest]
        by_cases hk : k' = k
        · rw [if_pos hk, if_pos hk, hk, beq_false_of_ne hne]
        · rw [if_neg hk, if_neg hk]

theorem takeWhile_lowerBound {m : List (List α × β)} (h : Sorted m) (p : List α) :
    (lowerBound p m).takeWhile (fun e => p <+: e.1) = m.filter fun e => p <+: e.1 := by
  induction m with
  | nil => rfl
  | cons first rest ih =>
    obtain ⟨hfirst, hrest⟩ := List.pairwise_cons.mp h
    have ih := ih hrest
    by_cases hlt : first.1 < p
    · have hnot : ¬ p <+: first.1 := fun hp => not_lt_of_prefix hp hlt
      rw [List.filter_cons_of_neg (by simpa using hnot), ← ih, lowerBound,
        List.dropWhile_cons_of_pos (by simpa using hlt)]
      rfl
    · have hbound : lowerBound p rest = rest := by
        cases rest with
        | nil => rfl
        | cons b rest =>
          have hb : ¬ b.1 < p := fun hb => hlt (Std.lt_trans (hfirst b List.mem_cons_self) hb)
          rw [lowerBound, List.dropWhile_cons_of_neg (by simpa using hb)]
      rw [hbound] at ih
      rw [lowerBound, List.dropWhile_cons_of_neg (by simpa using hlt)]
      by_cases hp : p <+: first.1
      · rw [List.filter_cons_of_pos (by simpa using hp),
          List.takeWhile_cons_of_pos (by simpa using hp), ih]
      · rw [List.filter_cons_of_neg (by simpa using hp),
          List.takeWhile_cons_of_neg (by simpa using hp)]
        symm
        rw [List.filter_eq_nil_iff]
        intro b hb
        simp only [decide_eq_true_eq]
        intro hpb
        -- An entry behind the block that begins with the text would stand inside of it.
        exact hp (prefix_of_between hlt (fun h => Std.lt_irrefl (Std.lt_trans h (hfirst b hb))) hpb)

end Euxis.Prefixes
