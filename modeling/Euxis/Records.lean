import Mathlib.Data.List.Infix

/-!
# Records that arrive in chunks

A text is cut into records at a separator, and what stands behind the last separator waits for more.
A parser that keeps this rest finds the same records however the text is cut into chunks.
-/

namespace Euxis.Records

variable {α ε : Type} [DecidableEq α]

/-- What stands before and after the first place of `sep`. -/
def cutAt (sep : List α) : List α → Option (List α × List α)
  | [] => none
  | b :: rest =>
    if sep.isPrefixOf (b :: rest) then some ([], (b :: rest).drop sep.length)
    else (cutAt sep rest).map fun r => (b :: r.1, r.2)

/-- The records that `fuel` rounds find, and what is left. -/
def peel (sep : List α) : Nat → List α → List (List α) × List α
  | 0, s => ([], s)
  | fuel + 1, s =>
    match cutAt sep s with
    | none => ([], s)
    | some (record, rest) => (record :: (peel sep fuel rest).1, (peel sep fuel rest).2)

/-- Each round takes a separator away, so the length is fuel enough. -/
def records (sep s : List α) : List (List α) × List α := peel sep s.length s

/-- The chunk goes behind what waits, and each complete record is handled. -/
def feed (sep : List α) (handle : List α → List ε) (waiting chunk : List α) : List α × List ε :=
  ((records sep (waiting ++ chunk)).2, (records sep (waiting ++ chunk)).1.flatMap handle)

/-- The state after all chunks, and what they deliver. -/
def feedAll {σ β : Type} (feed : σ → β → σ × List ε) (s : σ) : List β → σ × List ε
  | [] => (s, [])
  | c :: cs => ((feedAll feed (feed s c).1 cs).1, (feed s c).2 ++ (feedAll feed (feed s c).1 cs).2)

/-! ## Cutting once -/

section

variable {sep s x y : List α}

theorem cutAt_some (h : cutAt sep s = some (x, y)) : s = x ++ (sep ++ y) := by
  induction s generalizing x with
  | nil => cases h
  | cons b rest ih =>
    rw [cutAt] at h
    split at h
    · rename_i hpre
      obtain ⟨t, ht⟩ := List.isPrefixOf_iff_prefix.mp hpre
      rw [Option.some.injEq, Prod.mk.injEq] at h
      rw [← h.1, ← h.2, ← ht, List.drop_left, List.nil_append]
    · obtain ⟨⟨x', y'⟩, hr, heq⟩ := Option.map_eq_some_iff.mp h
      simp only [Prod.mk.injEq] at heq
      obtain ⟨rfl, rfl⟩ := heq
      rw [List.cons_append, ← ih hr]

theorem cutAt_append (t : List α) (h : cutAt sep s = some (x, y)) :
    cutAt sep (s ++ t) = some (x, y ++ t) := by
  induction s generalizing x with
  | nil => cases h
  | cons b rest ih =>
    rw [cutAt] at h
    rw [List.cons_append, cutAt]
    split at h
    · rename_i hpre
      have hpre' := List.isPrefixOf_iff_prefix.mp hpre
      rw [Option.some.injEq, Prod.mk.injEq] at h
      rw [← List.cons_append,
        if_pos (List.isPrefixOf_iff_prefix.mpr (hpre'.trans (List.prefix_append (b :: rest) t))),
        List.drop_append_of_le_length hpre'.length_le, h.1, h.2]
    · rename_i hpre
      obtain ⟨⟨x', y'⟩, hr, heq⟩ := Option.map_eq_some_iff.mp h
      simp only [Prod.mk.injEq] at heq
      obtain ⟨rfl, rfl⟩ := heq
      -- The separator is found further on, so it is not longer than the text.
      have hlen : sep.length ≤ (b :: rest).length := by
        rw [cutAt_some hr]
        simp only [List.length_cons, List.length_append]
        omega
      rw [if_neg]
      · rw [ih hr, Option.map_some]
      · intro hlong
        apply hpre
        rw [List.isPrefixOf_iff_prefix] at hlong ⊢
        exact List.prefix_of_prefix_length_le hlong (List.prefix_append (b :: rest) t) hlen

theorem not_infix_of_cutAt (hsep : sep ≠ []) (h : cutAt sep s = none) : ¬ sep <:+: s := by
  induction s with
  | nil => exact fun hin => hsep (List.infix_nil.mp hin)
  | cons b rest ih =>
    rw [cutAt] at h
    split at h
    · cases h
    · rename_i hpre
      rw [List.infix_cons_iff, not_or, ← List.isPrefixOf_iff_prefix]
      exact ⟨hpre, ih (Option.map_eq_none_iff.mp h)⟩

theorem cutAt_fst (hsep : sep ≠ []) (h : cutAt sep s = some (x, y)) : ¬ sep <:+: x := by
  cases hx : cutAt sep x with
  | none => exact not_infix_of_cutAt hsep hx
  | some r =>
    have hagain := cutAt_append (sep ++ y) hx
    rw [← cutAt_some h, h, Option.some.injEq, Prod.mk.injEq] at hagain
    have hlen := congrArg List.length (cutAt_some hx)
    rw [hagain.1] at hlen
    simp only [List.length_append] at hlen
    have hpos := List.length_pos_of_ne_nil hsep
    omega

theorem cutAt_of_free (h : ¬ sep <:+: x ++ sep.dropLast) :
    cutAt sep (x ++ (sep ++ y)) = some (x, y) := by
  have hsep : sep ≠ [] := by
    rintro rfl
    exact h (List.nil_infix)
  induction x with
  | nil =>
    obtain ⟨b, rest, rfl⟩ := List.exists_cons_of_ne_nil hsep
    rw [List.nil_append, List.cons_append, cutAt, ← List.cons_append, if_pos (by simp),
      List.drop_left]
  | cons b x ih =>
    rw [List.cons_append, cutAt, if_neg,
      ih (fun hin => h (hin.trans (List.suffix_cons b _).isInfix)), Option.map_some]
    intro hpre
    -- the separator would end before the last byte of the one that stands behind `x`
    have hlong : (b :: x) ++ sep.dropLast <+: b :: (x ++ (sep ++ y)) := by
      rw [← List.cons_append, List.prefix_append_right_inj]
      exact (List.dropLast_prefix sep).trans (List.prefix_append sep y)
    have hlen : sep.length ≤ ((b :: x) ++ sep.dropLast).length := by
      simp only [List.length_append, List.length_cons, List.length_dropLast]
      omega
    exact h (List.prefix_of_prefix_length_le (List.isPrefixOf_iff_prefix.mp hpre) hlong
      hlen).isInfix

theorem cutAt_skip {b : α} {sep : List α} (x s : List α) (h : b ∉ x) :
    cutAt (b :: sep) (x ++ s) = (cutAt (b :: sep) s).map fun r => (x ++ r.1, r.2) := by
  induction x with
  | nil => simp
  | cons c x ih =>
    rw [List.mem_cons, not_or] at h
    rw [List.cons_append, cutAt, if_neg (by simp [h.1]), ih h.2, Option.map_map]
    rfl

theorem cutAt_length (hsep : sep ≠ []) (h : cutAt sep s = some (x, y)) : y.length < s.length := by
  rw [cutAt_some h]
  have hpos := List.length_pos_of_ne_nil hsep
  simp only [List.length_append]
  omega

end

/-! ## Cutting all -/

variable {sep : List α} (hsep : sep ≠ [])

include hsep

theorem peel_fuel (n m : Nat) (s : List α) (hn : s.length ≤ n) (hm : s.length ≤ m) :
    peel sep n s = peel sep m s := by
  induction n generalizing m s with
  | zero =>
    rw [List.eq_nil_of_length_eq_zero (Nat.le_zero.mp hn)]
    cases m <;> rfl
  | succ n ih =>
    cases m with
    | zero =>
      rw [List.eq_nil_of_length_eq_zero (Nat.le_zero.mp hm)]
      rfl
    | succ m =>
      unfold peel
      cases hcut : cutAt sep s with
      | none => rfl
      | some r =>
        have hlt := cutAt_length hsep (x := r.1) (y := r.2) hcut
        simp only
        rw [ih m r.2 (by omega) (by omega)]

theorem records_of_cutAt {s record rest : List α} (h : cutAt sep s = some (record, rest)) :
    records sep s = (record :: (records sep rest).1, (records sep rest).2) := by
  have hlt := cutAt_length hsep h
  unfold records
  cases hlen : s.length with
  | zero => omega
  | succ n =>
    rw [peel, h]
    simp only
    rw [peel_fuel hsep n rest.length rest (by omega) (Nat.le_refl _)]

omit hsep in
theorem records_of_none {s : List α} (h : cutAt sep s = none) : records sep s = ([], s) := by
  unfold records
  cases s.length with
  | zero => rfl
  | succ n => rw [peel, h]

theorem records_induction {motive : List α → Prop} (waiting : ∀ s, cutAt sep s = none → motive s)
    (cut : ∀ s record rest, cutAt sep s = some (record, rest) → motive rest → motive s)
    (s : List α) : motive s := by
  induction hn : s.length using Nat.strong_induction_on generalizing s with
  | _ n ih =>
    cases hcut : cutAt sep s with
    | none => exact waiting s hcut
    | some r =>
      have hlt := cutAt_length hsep (x := r.1) (y := r.2) hcut
      exact cut s r.1 r.2 hcut (ih r.2.length (by omega) r.2 rfl)

theorem records_waiting (s : List α) : cutAt sep (records sep s).2 = none := by
  induction s using records_induction hsep with
  | waiting s h =>
    rw [records_of_none h]
    exact h
  | cut s record rest h ih =>
    rw [records_of_cutAt hsep h]
    exact ih

theorem records_text (s : List α) :
    (records sep s).1.flatMap (· ++ sep) ++ (records sep s).2 = s := by
  induction s using records_induction hsep with
  | waiting s h =>
    rw [records_of_none h]
    rfl
  | cut s record rest h ih =>
    rw [records_of_cutAt hsep h, List.flatMap_cons, List.append_assoc, ih, List.append_assoc]
    exact (cutAt_some h).symm

theorem records_free (s : List α) : ∀ record ∈ (records sep s).1, ¬ sep <:+: record := by
  induction s using records_induction hsep with
  | waiting s h =>
    rw [records_of_none h]
    nofun
  | cut s record rest h ih =>
    rw [records_of_cutAt hsep h]
    intro r hr
    rcases List.mem_cons.mp hr with rfl | hr
    · exact cutAt_fst hsep h
    · exact ih r hr

/-- The records of a longer text: those of the front, and those that the rest of the front takes
part in. -/
theorem records_append (s t : List α) :
    records sep (s ++ t) = ((records sep s).1 ++ (records sep ((records sep s).2 ++ t)).1,
      (records sep ((records sep s).2 ++ t)).2) := by
  induction s using records_induction hsep with
  | waiting s h =>
    rw [records_of_none h]
    rfl
  | cut s record rest h ih =>
    rw [records_of_cutAt hsep (cutAt_append t h), records_of_cutAt hsep h, ih]
    rfl

/-- **Chunks.** A parser that keeps what waits delivers the same for all ways to cut a text into
chunks. -/
theorem feedAll_feed (handle : List α → List ε) (waiting : List α) (h : cutAt sep waiting = none)
    (chunks : List (List α)) :
    feedAll (feed sep handle) waiting chunks = feed sep handle waiting chunks.flatten := by
  induction chunks generalizing waiting with
  | nil =>
    rw [feedAll, feed, List.flatten_nil, List.append_nil, records_of_none h]
    rfl
  | cons c cs ih =>
    have hrest := ih (records sep (waiting ++ c)).2 (records_waiting hsep _)
    rw [feedAll]
    simp only [feed] at hrest ⊢
    rw [hrest, List.flatten_cons, ← List.append_assoc, records_append hsep (waiting ++ c),
      List.flatMap_append]

end Euxis.Records
