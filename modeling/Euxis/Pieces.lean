import Mathlib.Data.List.ReduceOption
import Mathlib.Algebra.Order.BigOperators.Group.List
import Mathlib.Algebra.Order.Group.Nat

/-!
# Lines and chunks of one text

A text is cut twice: into lines at a separator, and into chunks anywhere. A chunk border inside a
line cuts the line into pieces. What is said about each line apart is compared with what is said
about each piece.
-/

namespace Euxis.Pieces

variable {α β : Type} [DecidableEq α]

/-! ## Two ways to cut -/

/-- The text with a mark behind each chunk. -/
def marked (chunks : List (List α)) : List (Option α) :=
  chunks.flatMap fun c => c.map some ++ [none]

/-- The lines of the text, each as the pieces that the chunks make of it. -/
def cutLines (sep : α) (chunks : List (List α)) : List (List (List α)) :=
  ((marked chunks).splitOn (some sep)).map fun line => (line.splitOn none).map List.reduceOption

theorem flatMap_splitOnP {γ : Type} (p q : γ → Bool) (l : List γ) :
    (l.splitOnP p).flatMap (·.splitOnP q) = l.splitOnP fun x => p x || q x := by
  induction l with
  | nil => rfl
  | cons x xs ih =>
    rw [List.splitOnP_cons_eq_if_modifyHead, List.splitOnP_cons_eq_if_modifyHead, ← ih]
    by_cases hp : p x
    · simp [hp]
    · obtain ⟨first, more, hparts⟩ := List.exists_cons_of_ne_nil (List.splitOnP_ne_nil p xs)
      obtain ⟨head, tail, hfirst⟩ := List.exists_cons_of_ne_nil (List.splitOnP_ne_nil q first)
      rw [hparts]
      simp only [hp, Bool.false_eq_true, if_false, Bool.false_or, List.modifyHead_cons,
        List.flatMap_cons, List.splitOnP_cons_eq_if_modifyHead, hfirst]
      split
      · rfl
      · rfl

theorem flatMap_splitOn_comm {γ : Type} [BEq γ] (a b : γ) (l : List γ) :
    (l.splitOn a).flatMap (·.splitOn b) = (l.splitOn b).flatMap (·.splitOn a) := by
  simp only [List.splitOn_eq_splitOnP]
  rw [flatMap_splitOnP, flatMap_splitOnP]
  congr 1
  funext x
  exact Bool.or_comm _ _

theorem flatten_splitOn (sep : α) (l : List α) : (l.splitOn sep).flatten = l.filter (· ≠ sep) := by
  induction l with
  | nil => rfl
  | cons x xs ih =>
    obtain ⟨first, more, hparts⟩ := List.exists_cons_of_ne_nil (List.splitOn_ne_nil sep xs)
    rw [hparts] at ih
    rw [List.splitOn_cons_eq_if_modifyHead, hparts, List.filter_cons, ← ih]
    by_cases hx : x = sep
    · simp [hx]
    · simp [hx]

theorem reduceOption_splitOn (sep : α) (l : List (Option α)) :
    (l.splitOn (some sep)).map List.reduceOption = l.reduceOption.splitOn sep := by
  induction l with
  | nil => rfl
  | cons x xs ih =>
    obtain ⟨first, more, hparts⟩ := List.exists_cons_of_ne_nil (List.splitOn_ne_nil (some sep) xs)
    rw [hparts] at ih
    rw [List.splitOn_cons_eq_if_modifyHead, hparts]
    cases x with
    | none => simpa using ih
    | some a =>
      rw [List.reduceOption_cons_of_some, List.splitOn_cons_eq_if_modifyHead, ← ih]
      by_cases ha : a = sep
      · simp [ha]
      · simp [ha]

theorem flatten_splitOn_none (l : List (Option α)) :
    ((l.splitOn none).map List.reduceOption).flatten = l.reduceOption := by
  induction l with
  | nil => rfl
  | cons x xs ih =>
    obtain ⟨first, more, hparts⟩ :=
      List.exists_cons_of_ne_nil (List.splitOn_ne_nil (none : Option α) xs)
    rw [hparts] at ih
    rw [List.splitOn_cons_eq_if_modifyHead, hparts]
    cases x with
    | none => simpa [hparts] using ih
    | some a => simpa using ih

theorem splitOn_none_marked (chunks : List (List α)) :
    (marked chunks).splitOn none = chunks.map (·.map some) ++ [[]] := by
  induction chunks with
  | nil => rfl
  | cons c cs ih =>
    have hmarked : marked (c :: cs) = c.map some ++ none :: marked cs := by simp [marked]
    have hsome : (c.map some).splitOn none = [c.map some] := List.splitOn_eq_singleton (by simp)
    rw [hmarked, List.splitOn_append_cons_self, ih, hsome]
    rfl

omit [DecidableEq α] in
theorem reduceOption_map_some (c : List α) : (c.map some).reduceOption = c := by
  induction c with
  | nil => rfl
  | cons a rest ih => rw [List.map_cons, List.reduceOption_cons_of_some, ih]

omit [DecidableEq α] in
theorem reduceOption_marked (chunks : List (List α)) :
    (marked chunks).reduceOption = chunks.flatten := by
  induction chunks with
  | nil => rfl
  | cons c cs ih =>
    have hmarked : marked (c :: cs) = c.map some ++ (none :: marked cs) := by simp [marked]
    rw [hmarked, List.reduceOption_append, reduceOption_map_some, List.reduceOption_cons_of_none,
      ih]
    rfl

theorem cutLines_flatten (sep : α) (chunks : List (List α)) :
    (cutLines sep chunks).map List.flatten = chunks.flatten.splitOn sep := by
  rw [← reduceOption_marked, ← reduceOption_splitOn, cutLines, List.map_map]
  apply List.map_congr_left
  intro line _
  exact flatten_splitOn_none line

theorem flatten_cutLines (sep : α) (chunks : List (List α)) :
    (cutLines sep chunks).flatten = chunks.flatMap (·.splitOn sep) ++ [[]] := by
  have hmap : (cutLines sep chunks).flatten =
      (((marked chunks).splitOn (some sep)).flatMap (·.splitOn none)).map List.reduceOption := by
    rw [cutLines, ← List.flatMap_def, List.map_flatMap]
  have hchunk : ∀ c : List α, ((c.map some).splitOn (some sep)).map List.reduceOption =
      c.splitOn sep := by
    intro c
    rw [reduceOption_splitOn, reduceOption_map_some]
  rw [hmap, flatMap_splitOn_comm, splitOn_none_marked, List.flatMap_append, List.map_append,
    List.map_flatMap, List.flatMap_map]
  simp only [hchunk]
  rfl

/-! ## What is said of lines and of pieces -/

variable (say : List α → List β) (sep : α) (chunks : List (List α))

theorem flatMap_chunks (hnil : say [] = []) :
    (chunks.flatMap fun c => (c.splitOn sep).flatMap say) =
      (cutLines sep chunks).flatMap (·.flatMap say) := by
  have hall : (chunks.flatMap fun c => (c.splitOn sep).flatMap say) =
      (cutLines sep chunks).flatten.flatMap say := by
    rw [flatten_cutLines, List.flatMap_append, List.flatMap_assoc, List.flatMap_singleton, hnil,
      List.append_nil]
  rw [hall, List.flatten_eq_flatMap, List.flatMap_assoc]
  rfl

theorem flatMap_lines :
    (chunks.flatten.splitOn sep).flatMap say = (cutLines sep chunks).flatMap fun pieces =>
      say pieces.flatten := by
  rw [← cutLines_flatten, List.flatMap_map]

variable {say sep chunks}

omit [DecidableEq α] in
theorem flatMap_whole (hnil : say [] = []) (pieces : List (List α)) (h : pieces.flatten ∈ pieces) :
    pieces.flatMap say = say pieces.flatten := by
  obtain ⟨before, after, hsplit⟩ := List.append_of_mem h
  have hlen := congrArg (fun l => (List.flatten l).length) hsplit
  simp only [List.flatten_append, List.flatten_cons, List.length_append] at hlen
  have hempty : ∀ l : List (List α), l.flatten.length = 0 → l.flatMap say = [] := by
    intro l hl
    rw [List.flatMap_eq_nil_iff]
    intro p hp
    rw [List.flatten_eq_nil_iff.mp (List.eq_nil_of_length_eq_zero hl) p hp]
    exact hnil
  conv_lhs => rw [hsplit]
  rw [List.flatMap_append, List.flatMap_cons, hempty before (by omega), hempty after (by omega),
    List.nil_append, List.append_nil]

theorem flatMap_chunks_eq (hnil : say [] = [])
    (h : ∀ pieces ∈ cutLines sep chunks, pieces.flatten ∉ pieces →
      say pieces.flatten = [] ∧ ∀ p ∈ pieces, say p = []) :
    (chunks.flatMap fun c => (c.splitOn sep).flatMap say) =
      (chunks.flatten.splitOn sep).flatMap say := by
  rw [flatMap_chunks say sep chunks hnil, flatMap_lines]
  apply List.flatMap_congr
  intro pieces hp
  by_cases hwhole : pieces.flatten ∈ pieces
  · exact flatMap_whole hnil pieces hwhole
  · obtain ⟨hline, hpieces⟩ := h pieces hp hwhole
    rw [hline, List.flatMap_eq_nil_iff]
    exact hpieces

omit [DecidableEq α] in
theorem eq_nil_of_flatMap_eq {ι : Type} (l : List ι) (f g : ι → List β)
    (hle : ∀ i ∈ l, f i = g i ∨ f i = []) (h : l.flatMap f = l.flatMap g) : ∀ i ∈ l, f i = g i := by
  induction l with
  | nil => nofun
  | cons i rest ih =>
    obtain ⟨hi, hrest⟩ := List.forall_mem_cons.mp hle
    rw [List.flatMap_cons, List.flatMap_cons] at h
    have hshort : (rest.flatMap f).length ≤ (rest.flatMap g).length := by
      rw [List.length_flatMap, List.length_flatMap]
      apply List.sum_le_sum
      intro k hk
      rcases hrest k hk with heq | heq <;> simp [heq]
    have hfirst : f i = g i := by
      rcases hi with heq | heq
      · exact heq
      · have hlen := congrArg List.length h
        simp only [heq, List.length_append, List.length_nil] at hlen
        rw [heq, List.eq_nil_of_length_eq_zero (l := g i) (by omega)]
    rw [hfirst] at h
    exact List.forall_mem_cons.mpr ⟨hfirst, ih hrest (List.append_cancel_left h)⟩

/-- When no part of a line says anything apart from the line itself, nothing is lost exactly when
every line that says something comes in one piece. -/
theorem flatMap_chunks_eq_iff (hnil : say [] = [])
    (h : ∀ line ∈ chunks.flatten.splitOn sep, ∀ part, part <:+: line → part ≠ line →
      say part = []) :
    (chunks.flatMap fun c => (c.splitOn sep).flatMap say) =
      (chunks.flatten.splitOn sep).flatMap say ↔
      ∀ pieces ∈ cutLines sep chunks, say pieces.flatten ≠ [] → pieces.flatten ∈ pieces := by
  -- A line that is cut says nothing in its pieces, so it is lost as a whole or had nothing to say.
  have hpieces : ∀ pieces ∈ cutLines sep chunks, pieces.flatten ∉ pieces → ∀ p ∈ pieces,
      say p = [] := by
    intro pieces hp hcut p hmem
    have hline : pieces.flatten ∈ chunks.flatten.splitOn sep := by
      rw [← cutLines_flatten]
      exact List.mem_map_of_mem hp
    refine h pieces.flatten hline p ?_ ?_
    · obtain ⟨before, after, rfl⟩ := List.append_of_mem hmem
      exact ⟨before.flatten, after.flatten, by simp⟩
    · rintro rfl
      exact hcut hmem
  constructor
  · intro heq pieces hp hsays
    rw [flatMap_chunks say sep chunks hnil, flatMap_lines] at heq
    have hsame := eq_nil_of_flatMap_eq _ _ _ (fun pieces hp => ?_) heq pieces hp
    · by_contra hcut
      apply hsays
      rw [← hsame, List.flatMap_eq_nil_iff]
      exact hpieces pieces hp hcut
    · by_cases hwhole : pieces.flatten ∈ pieces
      · exact Or.inl (flatMap_whole hnil pieces hwhole)
      · right
        rw [List.flatMap_eq_nil_iff]
        exact hpieces pieces hp hwhole
  · intro hwhole
    apply flatMap_chunks_eq hnil
    intro pieces hp hcut
    refine ⟨?_, hpieces pieces hp hcut⟩
    by_contra hsays
    exact hcut (hwhole pieces hp hsays)

end Euxis.Pieces
