import Euxis.Bytes

/-!
# Files of lines

A file that only grows by whole lines: what a reader that skips empty lines gets back from it.
-/

namespace Euxis.Lines

/-- A line that such a file can hold. -/
structure Clean (line : Bytes) : Prop where
  ne_nil : line ≠ []
  one_line : ch '\n' ∉ line

/-- The file of the lines, each with its line feed. -/
def text (lines : List Bytes) : Bytes := lines.flatMap (· ++ [ch '\n'])

def nonEmpty (content : Bytes) : List Bytes := (content.splitOn (ch '\n')).filter (· ≠ [])

theorem text_append_line (lines : List Bytes) (line : Bytes) :
    text lines ++ line ++ [ch '\n'] = text (lines ++ [line]) := by
  simp [text]

theorem nonEmpty_cons (line rest : Bytes) (h : Clean line) :
    nonEmpty (line ++ ch '\n' :: rest) = line :: nonEmpty rest := by
  unfold nonEmpty
  rw [List.splitOn_append_cons_self, List.splitOn_eq_singleton h.one_line, List.filter_append]
  simp [h.ne_nil]

theorem nonEmpty_text (lines : List Bytes) (h : ∀ line ∈ lines, Clean line) :
    nonEmpty (text lines) = lines := by
  induction lines with
  | nil => decide
  | cons line rest ih =>
    have ht : text (line :: rest) = line ++ ch '\n' :: text rest := by simp [text]
    rw [ht, nonEmpty_cons line _ (h line List.mem_cons_self),
      ih fun l hl => h l (List.mem_cons_of_mem _ hl)]

theorem splitOn_text (lines : List Bytes) (h : ∀ line ∈ lines, ch '\n' ∉ line) :
    (text lines).splitOn (ch '\n') = lines ++ [[]] := by
  induction lines with
  | nil => rfl
  | cons line rest ih =>
    have ht : text (line :: rest) = line ++ ch '\n' :: text rest := by simp [text]
    rw [ht, List.splitOn_append_cons_self, List.splitOn_eq_singleton (h line List.mem_cons_self),
      ih fun l hl => h l (List.mem_cons_of_mem _ hl)]
    rfl

/-! ## Searching a text -/

section Phrases

variable {sep : UInt8} {phrase : Bytes}

theorem contains_append_cons (h : sep ∉ phrase) (a b : Bytes) :
    (a ++ sep :: b).contains phrase = (a.contains phrase || b.contains phrase) := by
  have hiff : phrase <:+: a ++ sep :: b ↔ phrase <:+: a ∨ phrase <:+: b := by
    constructor
    · rintro ⟨s, t, heq⟩
      rw [List.append_assoc, List.append_eq_append_iff] at heq
      rcases heq with ⟨c, rfl, hc⟩ | ⟨c, rfl, hc⟩
      · -- The phrase begins in the first part, and ends there since it cannot hold the separator.
        rcases List.append_eq_append_iff.mp hc with ⟨d, rfl, -⟩ | ⟨d, rfl, hd⟩
        · exact Or.inl ⟨s, d, by simp⟩
        · cases d with
          | nil => exact Or.inl ⟨s, [], by simp⟩
          | cons x d =>
            obtain ⟨rfl, -⟩ := List.cons.inj hd
            exact absurd (List.mem_append_right c List.mem_cons_self) h
      · cases c with
        | nil =>
          cases phrase with
          | nil => exact Or.inl List.nil_infix
          | cons x p =>
            obtain ⟨rfl, -⟩ := List.cons.inj hc
            exact absurd List.mem_cons_self h
        | cons x c =>
          obtain ⟨-, rfl⟩ := List.cons.inj hc
          exact Or.inr ⟨c, t, by simp⟩
    · rintro (h | h)
      · exact h.trans (List.prefix_append _ _).isInfix
      · exact h.trans ((List.suffix_cons _ _).trans (List.suffix_append _ _)).isInfix
  unfold Bytes.contains
  rw [decide_eq_decide.mpr hiff, Bool.decide_or]

theorem contains_join (h : sep ∉ phrase) (x : Bytes) (xs : List Bytes) :
    (Bytes.join sep (x :: xs)).contains phrase = (x :: xs).any (·.contains phrase) := by
  induction xs generalizing x with
  | nil => simp
  | cons y ys ih =>
    rw [Bytes.join_cons_cons, contains_append_cons h, ih]
    rfl

end Phrases

theorem upper_join (lines : List Bytes) :
    (Bytes.join (ch '\n') lines).upper = Bytes.join (ch '\n') (lines.map Bytes.upper) := by
  induction lines with
  | nil => rfl
  | cons x xs ih =>
    cases xs with
    | nil => simp
    | cons y ys =>
      rw [List.map_cons] at ih
      rw [List.map_cons, List.map_cons, Bytes.join_cons_cons, Bytes.join_cons_cons, ← ih]
      unfold Bytes.upper
      rw [List.map_append, List.map_cons]
      rfl

theorem contains_upper_iff (content phrase : Bytes) (h : Clean phrase) :
    content.upper.contains phrase = true ↔ ∃ line ∈ nonEmpty content,
      line.upper.contains phrase = true := by
  obtain ⟨x, xs, hparts⟩ := List.exists_cons_of_ne_nil (List.splitOn_ne_nil (ch '\n') content)
  have hempty : Bytes.contains (Bytes.upper []) phrase = false := by
    simp [Bytes.contains, Bytes.upper, h.ne_nil]
  have hjoin : content = Bytes.join (ch '\n') (x :: xs) := by rw [← hparts, Bytes.join_splitOn]
  have hany : content.upper.contains phrase = (x :: xs).any fun line => (Bytes.upper line).contains
      phrase := by
    rw [hjoin, upper_join, List.map_cons, contains_join h.one_line, ← List.map_cons, List.any_map]
    rfl
  rw [hany, List.any_eq_true, nonEmpty, hparts]
  constructor
  · rintro ⟨line, hline, hin⟩
    refine ⟨line, List.mem_filter.mpr ⟨hline, ?_⟩, hin⟩
    rw [decide_eq_true_eq]
    rintro rfl
    rw [hempty] at hin
    cases hin
  · rintro ⟨line, hline, hin⟩
    exact ⟨line, List.mem_of_mem_filter hline, hin⟩

/-! ## Values, one to a line -/

section

variable {α : Type} {read : Bytes → Option α} {content : Bytes} {values : List α}

/-- A file of lines that read as the values. -/
def Reads (read : Bytes → Option α) (content : Bytes) (values : List α) : Prop :=
  ∃ lines, (∀ line ∈ lines, Clean line) ∧ content = text lines ∧ lines.map read = values.map some

theorem Reads.empty : Reads read [] [] := ⟨[], by simp, rfl, rfl⟩

theorem Reads.append (h : Reads read content values) (line : Bytes) (v : α) (hline : Clean line)
    (hread : read line = some v) : Reads read (content ++ (line ++ [ch '\n'])) (values ++ [v]) := by
  obtain ⟨lines, hclean, rfl, hvalues⟩ := h
  refine ⟨lines ++ [line], ?_, ?_, ?_⟩
  · intro l hl
    rcases List.mem_append.mp hl with hl | hl
    · exact hclean l hl
    · rw [List.mem_singleton.mp hl]
      exact hline
  · rw [← text_append_line, List.append_assoc]
  · rw [List.map_append, List.map_append, hvalues]
    simp [hread]

theorem Reads.filterMap_eq (h : Reads read content values) :
    (nonEmpty content).filterMap read = values := by
  obtain ⟨lines, hclean, rfl, hvalues⟩ := h
  rw [nonEmpty_text lines hclean]
  have hid : (lines.map read).filterMap id = (values.map some).filterMap id := by rw [hvalues]
  simpa using hid

end

end Euxis.Lines
