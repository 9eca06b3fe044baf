import Euxis.Cli.Stream

/-!
# Wrapping text: `apps/cli/src/tui/text_utils.cpp`

Each line of the text is broken on its own. A word is collected byte by byte, and put on the current
line when it ends, or on a line of its own when it has reached the width before.
-/

namespace Euxis.Cli

/-! ## The loops -/

/-- The lines that are finished, the current one, and the word that is being read. -/
structure Wrapper where
  result : List Bytes := []
  line : Bytes := []
  word : Bytes := []
  deriving DecidableEq, Repr

def isBlank (c : UInt8) : Bool := c = ch ' ' ∨ c = ch '\t'

/-- A word has ended. It goes on the current line if it fits there, else on the next one. The code
casts the lengths to `int`, which is exact for lines and words below 2^31 bytes. -/
def Wrapper.endWord (width : Nat) (s : Wrapper) : Wrapper :=
  if s.line = [] then { s with line := s.word, word := [] }
  else if s.line.length + 1 + s.word.length ≤ width then
    { s with line := s.line ++ ch ' ' :: s.word, word := [] }
  else { result := s.result ++ [s.line], line := s.word, word := [] }

/-- The lines with the current one, unless it is empty. -/
def Wrapper.lines (s : Wrapper) : List Bytes :=
  if s.line = [] then s.result else s.result ++ [s.line]

/-- A word that is as long as the width gets a line of its own. -/
def Wrapper.hardWrap (width : Nat) (s : Wrapper) : Wrapper where
  result := s.lines ++ [s.word.take width]
  line := []
  word := s.word.drop width

def Wrapper.put (width : Nat) (s : Wrapper) (c : UInt8) : Wrapper :=
  if isBlank c then
    if s.word ≠ [] then s.endWord width
    else if s.line ≠ [] ∧ s.line.length < width then { s with line := s.line ++ [c] }
    else if s.line = [] then { s with line := s.line ++ [c] }
    else s
  else
    let s := { s with word := s.word ++ [c] }
    if width ≤ s.word.length then s.hardWrap width else s

/-- The last word goes on a line as well. -/
def Wrapper.finish (width : Nat) (s : Wrapper) : Wrapper :=
  if s.word = [] then s else s.endWord width

def wrapLine (width : Nat) (rawLine : Bytes) : List Bytes :=
  if rawLine = [] then [[]] else ((rawLine.foldl (Wrapper.put width) {}).finish width).lines

def wrapText (text : Bytes) (width : Int) : List Bytes :=
  if width ≤ 0 then [text]
  else
    let result := (Audit.getLines text).flatMap (wrapLine width.toNat)
    let result := if text.getLast? = some (ch '\n') then result ++ [[]] else result
    if result = [] then [[]] else result

variable {width : Nat} {s : Wrapper}

theorem Wrapper.put_blank_cases {c : UInt8} (hblank : isBlank c = true) (s : Wrapper) :
    s.put width c = s.endWord width ∨
      s.word = [] ∧ (s.put width c = s ∨
        s.put width c = { s with line := s.line ++ [c] } ∧
        (s.line = [] ∨ s.line.length < width)) := by
  unfold Wrapper.put
  rw [if_pos hblank]
  split
  · exact Or.inl rfl
  rename_i hword
  refine Or.inr ⟨not_not.mp hword, ?_⟩
  split
  · rename_i hroom
    exact Or.inr ⟨rfl, Or.inr hroom.2⟩
  split
  · rename_i hempty
    exact Or.inr ⟨rfl, Or.inl hempty⟩
  · exact Or.inl rfl

theorem Wrapper.put_of_not_blank {c : UInt8} (hblank : isBlank c = false) (s : Wrapper) :
    s.put width c =
      if width ≤ s.word.length + 1 then ({ s with word := s.word ++ [c] } : Wrapper).hardWrap width
      else { s with word := s.word ++ [c] } := by
  unfold Wrapper.put
  simp [hblank]

/-! ## The width -/

/-- Everything fits, and the word is not finished. -/
structure Wrapper.Fits (width : Nat) (s : Wrapper) : Prop where
  result : ∀ line ∈ s.result, line.length ≤ width
  line : s.line.length ≤ width
  word : s.word.length < width

theorem Wrapper.Fits.endWord (h : s.Fits width) : (s.endWord width).Fits width := by
  obtain ⟨hresult, hline, hword⟩ := h
  unfold Wrapper.endWord
  split
  · exact ⟨hresult, hword.le, by dsimp only [List.length_nil]; omega⟩
  split
  · rename_i hfits
    refine ⟨hresult, ?_, by dsimp only [List.length_nil]; omega⟩
    simp only [List.length_append, List.length_cons]
    omega
  · refine ⟨?_, hword.le, by dsimp only [List.length_nil]; omega⟩
    simpa [or_imp, forall_and] using ⟨hresult, hline⟩

theorem Wrapper.Fits.lines (h : s.Fits width) : ∀ line ∈ s.lines, line.length ≤ width := by
  unfold Wrapper.lines
  split
  · exact h.result
  · simpa [or_imp, forall_and] using ⟨h.result, h.line⟩

theorem Wrapper.Fits.put (h : s.Fits width) (c : UInt8) : (s.put width c).Fits width := by
  have hword := h.word
  cases hblank : isBlank c with
  | true =>
    rcases Wrapper.put_blank_cases hblank s with heq | ⟨-, heq | ⟨heq, hroom⟩⟩
    · rw [heq]
      exact h.endWord
    · rw [heq]
      exact h
    · rw [heq]
      refine ⟨h.result, ?_, hword⟩
      rw [List.length_append, List.length_singleton]
      rcases hroom with hempty | hroom
      · rw [hempty, List.length_nil]
        omega
      · omega
  | false =>
    rw [Wrapper.put_of_not_blank hblank]
    split
    -- A word that has grown to the width is cut there, and its rest is the next word.
    · refine ⟨?_, Nat.zero_le _, ?_⟩
      · simpa [Wrapper.hardWrap, Wrapper.lines, or_imp, forall_and] using h.lines
      · simp only [Wrapper.hardWrap, List.length_drop, List.length_append, List.length_singleton]
        omega
    · refine ⟨h.result, h.line, ?_⟩
      simp only [List.length_append, List.length_singleton]
      omega

theorem Wrapper.Fits.finish (h : s.Fits width) : (s.finish width).Fits width := by
  unfold Wrapper.finish
  split
  · exact h
  · exact h.endWord

theorem foldl_put_fits (rawLine : Bytes) (h : s.Fits width) :
    (rawLine.foldl (Wrapper.put width) s).Fits width := by
  induction rawLine generalizing s with
  | nil => exact h
  | cons c rest ih => exact ih (h.put c)

theorem wrapLine_length (hwidth : 0 < width) (rawLine : Bytes) :
    ∀ line ∈ wrapLine width rawLine, line.length ≤ width := by
  have hstart : ({} : Wrapper).Fits width := ⟨by simp, Nat.zero_le _, hwidth⟩
  unfold wrapLine
  split
  · simp
  · exact (foldl_put_fits rawLine hstart).finish.lines

/-! ## The text -/

/-- The text without its blanks. -/
def ink (text : Bytes) : Bytes := text.filter fun c => !isBlank c

@[simp]
theorem ink_nil : ink [] = [] := rfl

@[simp]
theorem ink_append (x y : Bytes) : ink (x ++ y) = ink x ++ ink y := List.filter_append ..

@[simp]
theorem ink_blank {c : UInt8} (h : isBlank c = true) (rest : Bytes) :
    ink (c :: rest) = ink rest := by
  simp [ink, h]

theorem ink_flatten (parts : List Bytes) : ink parts.flatten = parts.flatMap ink := by
  induction parts with
  | nil => rfl
  | cons part parts ih => rw [List.flatten_cons, ink_append, ih, List.flatMap_cons]

/-- All that the wrapper holds. -/
def Wrapper.text (s : Wrapper) : Bytes := s.result.flatten ++ (s.line ++ s.word)

theorem Wrapper.ink_endWord (width : Nat) (s : Wrapper) :
    ink (s.endWord width).text = ink s.text := by
  unfold Wrapper.endWord Wrapper.text
  split
  · rename_i hempty
    simp [hempty]
  split
  · simp [ink_blank (c := ch ' ') (by decide)]
  · simp

theorem Wrapper.flatten_lines (s : Wrapper) : s.lines.flatten = s.result.flatten ++ s.line := by
  unfold Wrapper.lines
  split
  · rename_i hempty
    simp [hempty]
  · simp

theorem Wrapper.ink_put (width : Nat) (s : Wrapper) (c : UInt8) :
    ink (s.put width c).text = ink s.text ++ ink [c] := by
  cases hblank : isBlank c with
  | true =>
    rw [ink_blank hblank, ink_nil, List.append_nil]
    rcases Wrapper.put_blank_cases hblank s with heq | ⟨-, heq | ⟨heq, -⟩⟩
    · rw [heq, Wrapper.ink_endWord]
    · rw [heq]
    · rw [heq]
      simp [Wrapper.text, ink_blank hblank]
  | false =>
    rw [Wrapper.put_of_not_blank hblank]
    split
    · simp [Wrapper.hardWrap, Wrapper.text, Wrapper.flatten_lines]
    · simp [Wrapper.text]

theorem ink_foldl_put (rawLine : Bytes) (s : Wrapper) :
    ink (rawLine.foldl (Wrapper.put width) s).text = ink s.text ++ ink rawLine := by
  induction rawLine generalizing s with
  | nil => simp [ink]
  | cons c rest ih =>
    rw [List.foldl_cons, ih, Wrapper.ink_put, List.append_assoc, ← ink_append]
    rfl

theorem Wrapper.endWord_word (width : Nat) (s : Wrapper) : (s.endWord width).word = [] := by
  unfold Wrapper.endWord
  split
  · rfl
  split
  · rfl
  · rfl

theorem Wrapper.ink_lines_finish (width : Nat) (s : Wrapper) :
    ink (s.finish width).lines.flatten = ink s.text := by
  have hword : (s.finish width).word = [] := by
    unfold Wrapper.finish
    split
    · assumption
    · exact s.endWord_word width
  have htext : ink (s.finish width).text = ink s.text := by
    unfold Wrapper.finish
    split
    · rfl
    · exact Wrapper.ink_endWord width s
  rw [Wrapper.flatten_lines, ← htext, Wrapper.text, hword, List.append_nil]

theorem ink_wrapLine (rawLine : Bytes) : ink (wrapLine width rawLine).flatten = ink rawLine := by
  unfold wrapLine
  split
  · rename_i hempty
    rw [hempty]
    rfl
  · rw [Wrapper.ink_lines_finish, ink_foldl_put]
    rfl

/-! ## Words -/

/-- What stands between two words. -/
def isGap (c : UInt8) : Bool := isBlank c ∨ c = ch '\n'

/-- A longest run of other bytes in the text. -/
def IsWord (text word : Bytes) : Prop :=
  word ≠ [] ∧ (∀ c ∈ word, isGap c = false) ∧ ∃ before after, text = before ++ (word ++ after) ∧
    (∀ c, before.getLast? = some c → isGap c = true) ∧ ∀ c, after.head? = some c → isGap c = true

/-- What a step does to the lines: finished ones stay, and the current one is finished or gets
longer. -/
structure Wrapper.Grows (s t : Wrapper) : Prop where
  result : s.result ⊆ t.result
  line : s.line = [] ∨ s.line ∈ t.result ∨ s.line <+: t.line

theorem Wrapper.grows_endWord (width : Nat) (s : Wrapper) : s.Grows (s.endWord width) := by
  unfold Wrapper.endWord
  split
  · rename_i hempty
    exact ⟨List.Subset.refl _, Or.inl hempty⟩
  split
  · exact ⟨List.Subset.refl _, Or.inr (Or.inr (List.prefix_append _ _))⟩
  · exact ⟨List.subset_append_left _ _, Or.inr (Or.inl (by simp))⟩

theorem Wrapper.grows_put (width : Nat) (s : Wrapper) (c : UInt8) : s.Grows (s.put width c) := by
  cases hblank : isBlank c with
  | true =>
    rcases Wrapper.put_blank_cases hblank s with heq | ⟨-, heq | ⟨heq, -⟩⟩
    · rw [heq]
      exact s.grows_endWord width
    · rw [heq]
      exact ⟨List.Subset.refl _, Or.inr (Or.inr List.prefix_rfl)⟩
    · rw [heq]
      exact ⟨List.Subset.refl _, Or.inr (Or.inr (List.prefix_append _ _))⟩
  | false =>
    rw [Wrapper.put_of_not_blank hblank]
    split
    · unfold Wrapper.hardWrap Wrapper.lines
      by_cases hempty : s.line = []
      · exact ⟨by simp [hempty], Or.inl hempty⟩
      · refine ⟨?_, Or.inr (Or.inl (by simp [hempty]))⟩
        simp only [if_neg hempty, List.append_assoc]
        exact List.subset_append_left _ _
    · exact ⟨List.Subset.refl _, Or.inr (Or.inr List.prefix_rfl)⟩

/-- A line of the wrapper holds the word. -/
def Wrapper.Holds (s : Wrapper) (word : Bytes) : Prop :=
  (∃ line ∈ s.result, word <:+: line) ∨ word <:+: s.line

theorem Wrapper.Holds.of_grows {t : Wrapper} {word : Bytes} (h : s.Holds word)
    (hgrows : s.Grows t) : t.Holds word := by
  rcases h with ⟨line, hline, hin⟩ | hin
  · exact Or.inl ⟨line, hgrows.result hline, hin⟩
  · rcases hgrows.line with hempty | hdone | hlonger
    · rw [hempty, List.infix_nil] at hin
      rw [hin]
      exact Or.inr List.nil_infix
    · exact Or.inl ⟨s.line, hdone, hin⟩
    · exact Or.inr (hin.trans hlonger.isInfix)

theorem Wrapper.Holds.foldl_put {word : Bytes} (h : s.Holds word) (rest : Bytes) :
    (rest.foldl (Wrapper.put width) s).Holds word := by
  induction rest generalizing s with
  | nil => exact h
  | cons c rest ih => exact ih (h.of_grows (s.grows_put width c))

theorem Wrapper.Holds.finish {word : Bytes} (h : s.Holds word) : (s.finish width).Holds word := by
  unfold Wrapper.finish
  split
  · exact h
  · exact h.of_grows (s.grows_endWord width)

theorem Wrapper.Holds.lines {word : Bytes} (h : s.Holds word) (hword : word ≠ []) :
    ∃ line ∈ s.lines, word <:+: line := by
  unfold Wrapper.lines
  rcases h with ⟨line, hline, hin⟩ | hin
  · refine ⟨line, ?_, hin⟩
    split
    · exact hline
    · exact List.mem_append_left _ hline
  · have hline : s.line ≠ [] := by
      intro hempty
      rw [hempty, List.infix_nil] at hin
      exact hword hin
    rw [if_neg hline]
    exact ⟨s.line, by simp, hin⟩

theorem Wrapper.endWord_holds (width : Nat) (s : Wrapper) : (s.endWord width).Holds s.word := by
  unfold Wrapper.endWord
  split
  · exact Or.inr (List.infix_refl _)
  split
  · exact Or.inr (List.infix_append_of_infix_right ((List.suffix_cons _ _).isInfix))
  · exact Or.inr (List.infix_refl _)

theorem Wrapper.finish_holds (width : Nat) (s : Wrapper) : (s.finish width).Holds s.word := by
  unfold Wrapper.finish
  split
  · rename_i hempty
    rw [hempty]
    exact Or.inr List.nil_infix
  · exact s.endWord_holds width

theorem Wrapper.put_blank_word {c : UInt8} (hblank : isBlank c = true) (s : Wrapper) :
    (s.put width c).word = [] := by
  rcases Wrapper.put_blank_cases hblank s with heq | ⟨hempty, heq | ⟨heq, -⟩⟩
  · rw [heq]
    exact s.endWord_word width
  · rw [heq]
    exact hempty
  · rw [heq]
    exact hempty

theorem Wrapper.put_blank_holds {c : UInt8} (hblank : isBlank c = true) (s : Wrapper) :
    (s.put width c).Holds s.word := by
  rcases Wrapper.put_blank_cases hblank s with heq | ⟨hempty, -⟩
  · rw [heq]
    exact s.endWord_holds width
  · rw [hempty]
    exact Or.inr List.nil_infix

theorem foldl_put_word (before : Bytes)
    (hbefore : ∀ c, before.getLast? = some c → isBlank c = true) :
    (before.foldl (Wrapper.put width) {}).word = [] := by
  rcases List.eq_nil_or_concat' before with rfl | ⟨front, c, rfl⟩
  · rfl
  · rw [List.foldl_append, List.foldl_cons, List.foldl_nil]
    exact Wrapper.put_blank_word (hbefore c (by simp)) _

theorem foldl_put_short (word : Bytes) (s : Wrapper) (hword : ∀ c ∈ word, isBlank c = false)
    (hshort : s.word.length + word.length < width) :
    word.foldl (Wrapper.put width) s = { s with word := s.word ++ word } := by
  induction word generalizing s with
  | nil => simp
  | cons c rest ih =>
    rw [List.length_cons] at hshort
    have hput : s.put width c = { s with word := s.word ++ [c] } := by
      rw [Wrapper.put_of_not_blank (hword c List.mem_cons_self), if_neg (by omega)]
    rw [List.foldl_cons, hput, ih _ fun d hd => hword d (List.mem_cons_of_mem c hd)]
    · simp
    · simp only [List.length_append, List.length_singleton]
      omega

theorem foldl_put_full (word : Bytes) (s : Wrapper) (hword : ∀ c ∈ word, isBlank c = false)
    (hempty : s.word = []) (hne : word ≠ []) (hfull : word.length = width) :
    (word.foldl (Wrapper.put width) s).Holds word := by
  rcases List.eq_nil_or_concat' word with rfl | ⟨front, c, rfl⟩
  · exact absurd rfl hne
  · have hfront : ∀ d ∈ front, isBlank d = false := fun d hd => hword d (List.mem_append_left _ hd)
    have hlast : isBlank c = false := hword c (by simp)
    rw [List.length_append, List.length_singleton] at hfull
    have hshort : s.word.length + front.length < width := by
      rw [hempty, List.length_nil]
      omega
    rw [List.foldl_append, foldl_put_short front s hfront hshort, hempty, List.nil_append,
      List.foldl_cons, List.foldl_nil]
    have htake : (front ++ [c]).take width = front ++ [c] := by
      apply List.take_of_length_le
      rw [List.length_append, List.length_singleton]
      omega
    rw [Wrapper.put_of_not_blank hlast, if_pos hfull.ge, Wrapper.hardWrap, htake]
    exact Or.inl ⟨front ++ [c], by simp, List.infix_refl _⟩

theorem wrapLine_holds {before word after : Bytes} (hword : ∀ c ∈ word, isBlank c = false)
    (hne : word ≠ []) (hwidth : word.length ≤ width)
    (hbefore : ∀ c, before.getLast? = some c → isBlank c = true)
    (hafter : ∀ c, after.head? = some c → isBlank c = true) :
    ∃ line ∈ wrapLine width (before ++ (word ++ after)), word <:+: line := by
  have hraw : before ++ (word ++ after) ≠ [] := by simp [hne]
  have hstart : (before.foldl (Wrapper.put width) {}).word = [] := foldl_put_word before hbefore
  rw [wrapLine, if_neg hraw]
  refine Wrapper.Holds.lines ?_ hne
  rw [List.foldl_append, List.foldl_append]
  generalize before.foldl (Wrapper.put width) {} = s at hstart
  rcases hwidth.eq_or_lt with hfull | hshort
  · exact ((foldl_put_full word s hword hstart hne hfull).foldl_put after).finish
  · have hroom : s.word.length + word.length < width := by
      rw [hstart, List.length_nil]
      omega
    rw [foldl_put_short word s hword hroom, hstart, List.nil_append]
    cases after with
    | nil => exact Wrapper.finish_holds width _
    | cons c rest => exact ((Wrapper.put_blank_holds (hafter c rfl) _).foldl_put rest).finish

/-! ## Lines of the text -/

theorem isBlank_of_gap {c : UInt8} {line : Bytes} (h : isGap c = true) (hc : c ∈ line)
    (hfree : ch '\n' ∉ line) : isBlank c = true := by
  have hfeed : c ≠ ch '\n' := by
    rintro rfl
    exact hfree hc
  simpa [isGap, hfeed] using h

theorem isGap_false {c : UInt8} (h : isGap c = false) : isBlank c = false ∧ c ≠ ch '\n' := by
  simpa [isGap] using h

theorem exists_first_line (text : Bytes) :
    ∃ line rest, text = line ++ rest ∧ ch '\n' ∉ line ∧
      (rest = [] ∨ ∃ more, rest = ch '\n' :: more) := by
  cases hcut : Bytes.cut (ch '\n') text with
  | none => exact ⟨text, [], (List.append_nil text).symm, Bytes.not_mem_of_cut _ _ hcut, Or.inl rfl⟩
  | some parts =>
    obtain ⟨line, more⟩ := parts
    exact ⟨line, ch '\n' :: more, Bytes.cut_some _ _ _ _ hcut, Bytes.cut_fst_not_mem _ _ _ _ hcut,
      Or.inr ⟨more, rfl⟩⟩

theorem exists_last_line (text : Bytes) :
    ∃ front line, text = front ++ line ∧ ch '\n' ∉ line ∧
      (front = [] ∨ ∃ more, front = more ++ [ch '\n']) := by
  obtain ⟨line, rest, hrev, hfree, hrest⟩ := exists_first_line text.reverse
  refine ⟨rest.reverse, line.reverse, ?_, by simpa using hfree, ?_⟩
  · rw [← List.reverse_append, ← hrev, List.reverse_reverse]
  · rcases hrest with rfl | ⟨more, rfl⟩
    · exact Or.inl rfl
    · exact Or.inr ⟨more.reverse, List.reverse_cons⟩

theorem mem_splitOn_between {front line rest : Bytes}
    (hfront : front = [] ∨ ∃ more, front = more ++ [ch '\n']) (hline : ch '\n' ∉ line)
    (hrest : rest = [] ∨ ∃ more, rest = ch '\n' :: more) :
    line ∈ (front ++ (line ++ rest)).splitOn (ch '\n') := by
  have htail : line ∈ (line ++ rest).splitOn (ch '\n') := by
    rcases hrest with rfl | ⟨more, rfl⟩
    · rw [List.append_nil, List.splitOn_eq_singleton hline]
      exact List.mem_singleton_self line
    · rw [List.splitOn_append_cons_self_of_not_mem hline]
      exact List.mem_cons_self
  rcases hfront with rfl | ⟨more, rfl⟩
  · exact htail
  · rw [List.append_assoc, List.singleton_append, List.splitOn_append_cons_self]
    exact List.mem_append_right _ htail

theorem IsWord.line {text word : Bytes} (h : IsWord text word) :
    ∃ before after, before ++ (word ++ after) ∈ text.splitOn (ch '\n') ∧
      (∀ c, before.getLast? = some c → isBlank c = true) ∧ ∀ c, after.head? = some c →
      isBlank c = true := by
  obtain ⟨hne, hword, before, after, rfl, hbefore, hafter⟩ := h
  obtain ⟨front, b, rfl, hb, hfront⟩ := exists_last_line before
  obtain ⟨a, rest, rfl, ha, hrest⟩ := exists_first_line after
  refine ⟨b, a, ?_, ?_, ?_⟩
  · have hsplit : front ++ b ++ (word ++ (a ++ rest)) = front ++
        ((b ++ (word ++ a)) ++ rest) := by simp
    rw [hsplit]
    refine mem_splitOn_between hfront ?_ hrest
    have hfree : ch '\n' ∉ word := fun hin => (isGap_false (hword _ hin)).2 rfl
    simp [ha, hb, hfree]
  · intro c hc
    have hgap : isGap c = true := hbefore c (by rw [List.getLast?_append, hc]; rfl)
    exact isBlank_of_gap hgap (List.mem_of_getLast? hc) hb
  · intro c hc
    have hgap : isGap c = true := hafter c (by rw [List.head?_append, hc]; rfl)
    exact isBlank_of_gap hgap (List.mem_of_head? hc) ha

theorem ink_getLines (text : Bytes) :
    (Audit.getLines text).flatMap ink = text.filter fun c => !isGap c := by
  rw [flatMap_getLines ink ink_nil, ← ink_flatten, Pieces.flatten_splitOn, ink, List.filter_filter]
  apply List.filter_congr
  intro c _
  simp [isGap]

theorem mem_getLines {text line : Bytes} (h : line ∈ text.splitOn (ch '\n')) (hne : line ≠ []) :
    line ∈ Audit.getLines text := by
  rcases Audit.splitOn_getLines text with hlines | hlines
  · rwa [hlines] at h
  · rw [hlines, List.mem_append, List.mem_singleton] at h
    exact h.resolve_right hne

/-! ## The whole text -/

theorem wrapText_lines (text : Bytes) {width : Int} (h : 0 < width) :
    ∃ empties, (∀ line ∈ empties, line = []) ∧
      wrapText text width = (Audit.getLines text).flatMap (wrapLine width.toNat) ++ empties := by
  unfold wrapText
  rw [if_neg (not_le.mpr h)]
  dsimp only
  split
  · rw [if_neg (by simp)]
    exact ⟨[[]], by simp, rfl⟩
  · split
    · rename_i hnone
      exact ⟨[[]], by simp, by rw [hnone]; rfl⟩
    · exact ⟨[], by simp, by rw [List.append_nil]⟩

/-- **Nothing is lost.** No line is wider than the width. The lines hold the bytes of the text in
their order, blanks and line feeds apart, and a word that is not wider than the width is in one
piece on one of them. -/
theorem wrap_text_loses_nothing (text : Bytes) (width : Int) (h : 0 < width) :
    (∀ line ∈ wrapText text width, (line.length : Int) ≤ width) ∧
    ink (wrapText text width).flatten = text.filter (fun c => !isGap c) ∧
    ∀ word, IsWord text word → (word.length : Int) ≤ width → ∃ line ∈ wrapText text width,
      word <:+: line := by
  obtain ⟨empties, hempty, hwrap⟩ := wrapText_lines text h
  rw [hwrap]
  refine ⟨?_, ?_, ?_⟩
  · intro line hline
    rcases List.mem_append.mp hline with hline | hline
    · obtain ⟨raw, -, hline⟩ := List.mem_flatMap.mp hline
      have := wrapLine_length (by omega) raw line hline
      omega
    · rw [hempty line hline]
      exact h.le
  · have hnone : empties.flatten = [] := List.flatten_eq_nil_iff.mpr hempty
    rw [List.flatten_append, hnone, List.append_nil, ink_flatten, List.flatMap_assoc,
      ← ink_getLines]
    apply List.flatMap_congr
    intro raw _
    rw [← ink_flatten, ink_wrapLine]
  · intro word hword hwidth
    obtain ⟨before, after, hline, hbefore, hafter⟩ := hword.line
    have hraw : before ++ (word ++ after) ≠ [] := by simp [hword.1]
    have hfree : ∀ c ∈ word, isBlank c = false := fun c hc => (isGap_false (hword.2.1 c hc)).1
    have hfits : word.length ≤ width.toNat := by omega
    -- The word stands on one line of the text, and the wrapper takes the lines one by one.
    obtain ⟨line, hin, hpart⟩ := wrapLine_holds hfree hword.1 hfits hbefore hafter
    exact ⟨line, List.mem_append_left _ (List.mem_flatMap.mpr ⟨_, mem_getLines hline hraw, hin⟩),
      hpart⟩

theorem wrap_text_three_words :
    wrapText (ascii "ab  cde\nfghij") 3 = [ascii "ab ", ascii "cde", ascii "fgh", ascii "ij"] ∧
      ∃ line ∈ wrapText (ascii "ab  cde\nfghij") 3, ascii "cde" <:+: line := by
  refine ⟨by decide, (wrap_text_loses_nothing (ascii "ab  cde\nfghij") 3 (by decide)).2.2 (ascii "cde") ?_ (by decide)⟩
  refine ⟨by decide, ?_, ascii "ab  ", ascii "\nfghij", by decide, ?_, ?_⟩
  · simp [ascii, isGap, isBlank, ch]
  · intro c hc
    obtain rfl : ch ' ' = c := by simpa [ascii] using hc
    rfl
  · intro c hc
    obtain rfl : ch '\n' = c := by simpa [ascii] using hc
    rfl

end Euxis.Cli
