import Euxis.Sca.CargoLayout

/-!
# What the parser makes of a layout

Line by line: the view of every line that a layout writes, and what the scanner does with it. An
array on one line that is loose gives one dependency too many, with an empty name, and nothing else
goes wrong.
-/

namespace Euxis.Sca.CargoLock

open Sbom
open GoSum (Trimmed blank_isTrailing)

/-! ## Trimming -/

theorem trim_blanks (s : Bytes) (h : ∀ b ∈ s, GoSum.isTrailing b = true) : trim s = [] :=
  GoSum.trim_blanks s h

theorem trim_around (left body right : Bytes) (hleft : ∀ b ∈ left, GoSum.isBlank b = true)
    (hright : ∀ b ∈ right, GoSum.isTrailing b = true) (hbody : Trimmed body) :
    trim (left ++ body ++ right) = body :=
  GoSum.trim_around left body right hleft hright hbody

theorem trim_before (left body : Bytes) (hleft : ∀ b ∈ left, GoSum.isBlank b = true)
    (h : Trimmed body) : trim (left ++ body) = body := by
  have htrim := trim_around left body [] hleft (by simp) h
  rwa [List.append_nil] at htrim

theorem trim_behind (body right : Bytes) (hright : ∀ b ∈ right, GoSum.isTrailing b = true)
    (h : Trimmed body) :
    trim (body ++ right) = body := trim_around [] body right (by simp) hright h

theorem trim_of_trimmed (body : Bytes) (h : Trimmed body) : trim body = body :=
  trim_before [] body (by simp) h

/-! ## Comments -/

/-- Every `#` stands behind an odd number of quotes. -/
def hidden : Bool → Bytes → Bool
  | _, [] => true
  | inside, b :: rest =>
    if b = ch '"' then hidden (!inside) rest
    else (b ≠ ch '#' || inside) && hidden inside rest

theorem hidden_count (line before after : Bytes) (inside : Bool) (h : hidden inside line = true)
    (hcut : Bytes.cut (ch '#') line = some (before, after)) :
    (before.count (ch '"') + if inside then 1 else 0) % 2 = 1 := by
  induction line generalizing before inside with
  | nil => cases hcut
  | cons b rest ih =>
    rw [Bytes.cut] at hcut
    rw [hidden] at h
    by_cases hhash : b = ch '#'
    · subst hhash
      rw [if_pos rfl, Option.some.injEq, Prod.mk.injEq] at hcut
      rw [← hcut.1]
      rw [if_neg (by decide)] at h
      simp only [Bool.and_eq_true, ne_eq, not_true_eq_false, decide_false, Bool.false_or] at h
      simp [h.1]
    · rw [if_neg hhash] at hcut
      obtain ⟨⟨before', after'⟩, hrest, heq⟩ := Option.map_eq_some_iff.mp hcut
      rw [Prod.mk.injEq] at heq
      obtain ⟨rfl, rfl⟩ := heq
      -- A quote turns inside to outside, which is what the parity counts.
      by_cases hquote : b = ch '"'
      · rw [if_pos hquote] at h
        have hih := ih before' (!inside) h hrest
        rw [hquote, List.count_cons_self]
        cases inside <;> simp at hih ⊢ <;> omega
      · rw [if_neg hquote, Bool.and_eq_true] at h
        rw [List.count_cons_of_ne hquote]
        exact ih before' inside h.2 hrest

theorem stripComment_hidden (line : Bytes) (h : hidden false line = true) :
    stripComment line = line := by
  unfold stripComment
  split
  · rfl
  · rename_i before after hcut
    have hcount := hidden_count line before after false h hcut
    rw [if_neg]
    simp at hcount
    omega

theorem hidden_plain (inside : Bool) (s rest : Bytes) (hquote : ch '"' ∉ s) (hhash : ch '#' ∉ s) :
    hidden inside (s ++ rest) = hidden inside rest := by
  induction s with
  | nil => rfl
  | cons b s ih =>
    simp only [List.mem_cons, not_or] at hquote hhash
    rw [List.cons_append, hidden, if_neg (Ne.symm hquote.1), ih hquote.2 hhash.2]
    simp [Ne.symm hhash.1]

theorem hidden_append (inside : Bool) (s rest : Bytes) (h : hidden inside s = true)
    (hquote : ch '"' ∉ rest) (hhash : ch '#' ∉ rest) : hidden inside (s ++ rest) = true := by
  induction s generalizing inside with
  | nil =>
    have hrest := hidden_plain inside rest [] hquote hhash
    rw [List.append_nil] at hrest
    rw [List.nil_append, hrest, hidden]
  | cons b s ih =>
    rw [hidden] at h
    rw [List.cons_append, hidden]
    split at h
    · rename_i hb
      rw [if_pos hb]
      exact ih _ h
    · rename_i hb
      rw [Bool.and_eq_true] at h
      rw [if_neg hb, h.1, Bool.true_and]
      exact ih _ h.2

theorem hidden_inside (s rest : Bytes) (hquote : ch '"' ∉ s) :
    hidden true (s ++ rest) = hidden true rest := by
  induction s with
  | nil => rfl
  | cons b s ih =>
    simp only [List.mem_cons, not_or] at hquote
    rw [List.cons_append, hidden, if_neg (Ne.symm hquote.1), ih hquote.2]
    simp

theorem hidden_quoted (s : Quotable) (rest : Bytes) :
    hidden false (quoted s ++ rest) = hidden false rest := by
  have htext : quoted s ++ rest = ch '"' :: (s.1 ++ ch '"' :: rest) := by simp [quoted]
  rw [htext, hidden, if_pos rfl, Bool.not_false, hidden_inside _ _ s.2.1, hidden, if_pos rfl]
  rfl

theorem hidden_quoted_alone (s : Quotable) : hidden false (quoted s) = true := by
  have hquoted := hidden_quoted s []
  rw [List.append_nil] at hquoted
  rw [hquoted, hidden]

/-! ## Views -/

theorem Blanks.trailing (s : Blanks) : ∀ b ∈ s.1, GoSum.isTrailing b = true :=
  fun b hb => blank_isTrailing (s.2 b hb)

theorem Ending.trailing (s : Ending) : ∀ b ∈ s.1, GoSum.isTrailing b = true :=
  fun b hb => (s.2 b hb).1

theorem not_mem_of_trailing {s : Bytes} (h : ∀ b ∈ s, GoSum.isTrailing b = true) (c : UInt8)
    (hc : GoSum.isTrailing c = false) : c ∉ s := by
  intro hmem
  rw [h c hmem] at hc
  cases hc

theorem hidden_trailing (s rest : Bytes) (h : ∀ b ∈ s, GoSum.isTrailing b = true) :
    hidden false (s ++ rest) = hidden false rest :=
  hidden_plain false s rest (not_mem_of_trailing h _ (by decide))
    (not_mem_of_trailing h _ (by decide))

theorem lineView_around (m : Margins) (body : Bytes) (htrimmed : Trimmed body)
    (hhidden : hidden false body = true) : lineView (m.around body) = body := by
  have hstrip : stripComment (m.around body) = m.around body := by
    apply stripComment_hidden
    unfold Margins.around
    rw [List.append_assoc, hidden_trailing m.left.1 _ m.left.trailing]
    exact hidden_append false body m.right.1 hhidden
      (not_mem_of_trailing m.right.trailing _ (by decide))
      (not_mem_of_trailing m.right.trailing _ (by decide))
  unfold lineView
  rw [hstrip]
  exact trim_around m.left.1 body m.right.1 m.left.2 m.right.trailing htrimmed

theorem lineView_filler (f : Filler) : lineView f.line = [] := by
  unfold lineView
  cases f with
  | blank text =>
    have hplain : stripComment text.1 = text.1 := by
      apply stripComment_hidden
      have := hidden_trailing text.1 [] text.trailing
      rw [List.append_nil] at this
      rw [this, hidden]
    rw [Filler.line, hplain]
    exact trim_blanks text.1 text.trailing
  | comment left text one_line =>
    have hstrip : stripComment (left.1 ++ ch '#' :: text) = left.1 := by
      unfold stripComment
      rw [Bytes.cut_append _ _ _ (not_mem_of_trailing left.trailing _ (by decide))]
      simp only
      rw [List.count_eq_zero_of_not_mem (not_mem_of_trailing left.trailing _ (by decide)),
        if_pos rfl]
    rw [Filler.line, hstrip]
    exact trim_blanks left.1 left.trailing

theorem trimmed_brackets (name : Bytes) : Trimmed (ch '[' :: (name ++ [ch ']'])) := by
  have hone : Trimmed [ch '['] := by decide
  exact hone.append (by decide) (by simp) (by simp) name

theorem getLast_quoted (s : Quotable) : (quoted s).getLast? = some (ch '"') := by
  have hconcat : quoted s = (ch '"' :: s.1) ++ [ch '"'] := rfl
  rw [hconcat, List.getLast?_concat]

theorem trimmed_quoted (s : Quotable) : Trimmed (quoted s) where
  first := by
    intro b hb
    obtain rfl : ch '"' = b := by simpa [quoted] using hb
    decide
  last := by
    intro b hb
    rw [getLast_quoted, Option.mem_some] at hb
    rw [← hb]
    decide

theorem quoted_ne_nil (s : Quotable) : quoted s ≠ [] := by simp [quoted]

namespace Key

theorem text_ne_nil (key : Key) : key.text ≠ [] := by cases key <;> decide

theorem text_trimmed (key : Key) : Trimmed key.text := by
  cases key <;> decide

theorem text_first (key : Key) : key.text.head? ≠ some (ch '[') := by cases key <;> decide

theorem text_plain (key : Key) : ch '"' ∉ key.text ∧ ch '#' ∉ key.text ∧ ch '=' ∉ key.text ∧
    ch '\n' ∉ key.text := by
  cases key <;> decide

end Key

section

variable (a : Assignment) (key : Key) (value : Bytes)

theorem Assignment.view_eq :
    a.view key value = key.text ++ ((a.before.1 ++ ch '=' :: a.after.1) ++ value) := by
  simp [Assignment.view]

theorem Assignment.lineView_line (hvalue : Trimmed value) (hne : value ≠ [])
    (hhidden : hidden false value = true) : lineView (a.line key value) = a.view key value := by
  apply lineView_around
  · rw [a.view_eq]
    exact key.text_trimmed.append hvalue key.text_ne_nil hne _
  · rw [Assignment.view, List.append_assoc, hidden_plain _ _ _ key.text_plain.1 key.text_plain.2.1,
      hidden_trailing _ _ a.before.trailing, hidden, if_neg (by decide),
      hidden_trailing _ _ a.after.trailing, hhidden]
    decide

theorem Assignment.head_view : (a.view key value).head? = key.text.head? := by
  rw [a.view_eq, List.head?_append_of_ne_nil _ key.text_ne_nil]

theorem Assignment.view_ne_nil : a.view key value ≠ [] := by
  simp [Assignment.view]

theorem Assignment.scan_line (hvalue : Trimmed value) (hne : value ≠ [])
    (hhidden : hidden false value = true) (s : State) (hpackage : s.inPackage = true)
    (harray : s.inDependenciesArray = false) :
    scan s (a.line key value) = setField s key.text value := by
  have hfirst : (a.view key value).head? ≠ some (ch '[') := by
    rw [a.head_view]
    exact key.text_first
  have hheader : a.view key value ≠ packageHeader := by
    intro heq
    rw [heq] at hfirst
    exact hfirst (by decide)
  have hbefore : ch '=' ∉ key.text ++ a.before.1 := by
    rw [List.mem_append, not_or]
    exact ⟨key.text_plain.2.2.1, not_mem_of_trailing a.before.trailing _ (by decide)⟩
  have hkey := trim_behind key.text a.before.1 a.before.trailing key.text_trimmed
  have htrim := trim_before a.after.1 value a.after.2 hvalue
  unfold scan
  rw [a.lineView_line key value hvalue hne hhidden, scanView, if_neg (a.view_ne_nil key value),
    if_neg hheader,
    if_neg (by simp [hfirst]), if_neg (by simp [harray]), if_neg (by simp [hpackage]),
    Assignment.view,
    Bytes.cut_append _ _ _ hbefore]
  simp only [hkey, htrim]

end

/-! ## Names of dependencies -/

theorem stripQuotes_quoted (s : Quotable) : stripQuotes (quoted s) = s.1 := by
  have hlast := getLast_quoted s
  have hlen : 2 ≤ (quoted s).length := by simp [quoted]
  unfold stripQuotes
  rw [if_pos ⟨hlen, Or.inl rfl, by rw [hlast]; rfl⟩]
  simp [quoted]

theorem takeWhile_of_cut (c : UInt8) (s : Bytes) :
    (match Bytes.cut c s with
      | none => s
      | some (front, _) => front) = s.takeWhile (· ≠ c) := by
  induction s with
  | nil => rfl
  | cons b rest ih =>
    rw [Bytes.cut, List.takeWhile_cons]
    by_cases hb : b = c
    · simp [hb]
    · rw [if_neg hb, ← ih]
      cases Bytes.cut c rest <;> simp [hb]

theorem extractDepName_eq (s : Bytes) (d : Dep)
    (h : trim (if (trim s).getLast? = some (ch ',') then (trim s).dropLast else trim s) =
      quoted d.text) :
    extractDepName s = d.name := by
  unfold extractDepName
  simp only [h, stripQuotes_quoted]
  exact takeWhile_of_cut (ch ' ') d.text.1

theorem extractDepName_around (left right : Bytes) (d : Dep)
    (hleft : ∀ b ∈ left, GoSum.isBlank b = true) (hright : ∀ b ∈ right, GoSum.isTrailing b = true) :
    extractDepName (left ++ quoted d.text ++ right) = d.name := by
  apply extractDepName_eq
  rw [trim_around left _ right hleft hright (trimmed_quoted d.text), getLast_quoted,
    if_neg (by decide)]
  exact trim_of_trimmed _ (trimmed_quoted d.text)

theorem trimmed_comma (d : Dep) (gap : Blanks) : Trimmed (quoted d.text ++ gap.1 ++ [ch ',']) := by
  rw [List.append_assoc]
  exact (trimmed_quoted d.text).append (by decide) (quoted_ne_nil d.text) (by simp) gap.1

theorem extractDepName_comma (d : Dep) (gap : Blanks) :
    extractDepName (quoted d.text ++ gap.1 ++ [ch ',']) = d.name := by
  apply extractDepName_eq
  rw [trim_of_trimmed _ (trimmed_comma d gap), List.getLast?_concat, if_pos rfl,
    List.dropLast_concat]
  exact trim_behind (quoted d.text) gap.1 gap.trailing (trimmed_quoted d.text)

theorem extractDepName_blanks (s : Blanks) : extractDepName s.1 = [] := by
  unfold extractDepName
  rw [trim_blanks s.1 s.trailing]
  decide

/-! ## Arrays on several lines -/

theorem push_nil (s : State) : push s [] = s := by
  simp [push]

theorem push_push (s : State) (names more : List Bytes) :
    push (push s names) more = push s (names ++ more) := by
  simp [push]

theorem scan_filler (f : Filler) (s : State) : scan s f.line = s := by
  unfold scan
  rw [lineView_filler, scanView, if_pos rfl]

theorem scanView_entry (s : State) (harray : s.inDependenciesArray = true) (view : Bytes)
    (hfirst : view.head? = some (ch '"')) : scanView s view = push s [extractDepName view] := by
  have hne : view ≠ [] := by
    rintro rfl
    cases hfirst
  have hheader : view ≠ packageHeader := by
    rintro rfl
    exact absurd hfirst (by decide)
  have hclose : ¬ ascii "]" <+: view := by
    rintro ⟨rest, rfl⟩
    rw [List.head?_append_of_ne_nil _ (by decide)] at hfirst
    exact absurd hfirst (by decide)
  have hopen : view.head? ≠ some (ch '[') := by
    rw [hfirst]
    decide
  rw [scanView, if_neg hne, if_neg hheader, if_neg (by simp [hopen]), if_pos harray, if_neg hclose]

theorem EntryLine.scan_line (l : EntryLine) (s : State) (harray : s.inDependenciesArray = true) :
    scan s l.line = push s (l.dep?.toList.map Dep.name) := by
  cases l with
  | filler f =>
    rw [EntryLine.line, scan_filler]
    exact (push_nil s).symm
  | entry margins dep gap comma =>
    cases comma with
    | true =>
      have hhidden : hidden false (quoted dep.text ++ gap.1 ++ [ch ',']) = true := by
        rw [List.append_assoc, hidden_quoted, hidden_trailing _ _ gap.trailing]
        decide
      have hview : lineView (EntryLine.entry margins dep gap true).line = quoted dep.text ++
          gap.1 ++ [ch ','] :=
        lineView_around margins _ (trimmed_comma dep gap) hhidden
      unfold scan
      rw [hview, scanView_entry s harray _ rfl, extractDepName_comma]
      rfl
    | false =>
      -- Without a comma the gap behind the entry is trimmed with the right margin.
      have hend : ∀ b ∈ gap.1 ++ margins.right.1, GoSum.isTrailing b = true ∧ b ≠ ch '\n' := by
        intro b hb
        rcases List.mem_append.mp hb with hb | hb
        · refine ⟨gap.trailing b hb, ?_⟩
          rintro rfl
          exact absurd (gap.2 _ hb) (by decide)
        · exact margins.right.2 b hb
      have hline : (EntryLine.entry margins dep gap false).line =
          Margins.around ⟨margins.left, gap.1 ++ margins.right.1, hend⟩ (quoted dep.text) := by
        simp [EntryLine.line, Margins.around]
      unfold scan
      rw [hline, lineView_around _ _ (trimmed_quoted dep.text) (hidden_quoted_alone dep.text),
        scanView_entry s harray _ rfl]
      have hname := extractDepName_around [] [] dep (by simp) (by simp)
      rw [List.nil_append, List.append_nil] at hname
      rw [hname]
      rfl

theorem scan_entries (lines : List EntryLine) (s : State) (harray : s.inDependenciesArray = true) :
    (lines.map EntryLine.line).foldl scan s =
      push s ((lines.filterMap EntryLine.dep?).map Dep.name) := by
  induction lines generalizing s with
  | nil => exact (push_nil s).symm
  | cons l rest ih =>
    rw [List.map_cons, List.foldl_cons, l.scan_line s harray, ih (push s _) harray, push_push]
    cases hdep : l.dep? <;> simp [hdep]

theorem stripComment_keeps (front : Bytes) (b : UInt8) (rest : Bytes) (hfront : ch '#' ∉ front)
    (hb : b ≠ ch '#') : ∃ kept, stripComment (front ++ b :: rest) = front ++ b :: kept := by
  have hskip := Bytes.cut_skip (ch '#') (front ++ [b]) rest (by simp [hfront, Ne.symm hb])
  rw [List.append_assoc, List.singleton_append] at hskip
  unfold stripComment
  rw [hskip]
  cases Bytes.cut (ch '#') rest with
  | none => exact ⟨rest, rfl⟩
  | some parts =>
    simp only [Option.map_some]
    split
    · exact ⟨parts.1, by simp⟩
    · exact ⟨rest, rfl⟩

theorem trim_keeps (left : Blanks) (b : UInt8) (rest : Bytes) (hb : GoSum.isTrailing b = false) :
    ∃ kept, trim (left.1 ++ b :: rest) = b :: kept := by
  have hblank : GoSum.isBlank b = false := by
    cases hcase : GoSum.isBlank b with
    | false => rfl
    | true =>
      rw [blank_isTrailing hcase] at hb
      cases hb
  unfold trim GoSum.trim
  rw [List.dropWhile_append_of_pos left.2, List.dropWhile_cons_of_neg (by simp [hblank]),
    List.reverse_cons, List.dropWhile_append]
  split
  · refine ⟨[], ?_⟩
    rw [List.dropWhile_cons_of_neg (by simp [hb])]
    rfl
  · rw [List.reverse_append]
    exact ⟨_, rfl⟩

theorem CloseLine.scan_line (c : CloseLine) (s : State) (harray : s.inDependenciesArray = true) :
    scan s c.line = { s with inDependenciesArray := false } := by
  obtain ⟨kept, hkept⟩ :=
    stripComment_keeps c.left.1 (ch ']') c.rest (not_mem_of_trailing c.left.trailing _ (by decide))
    (by decide)
  obtain ⟨view, hview⟩ := trim_keeps c.left (ch ']') kept (by decide)
  have hline : lineView c.line = ch ']' :: view := by
    unfold lineView CloseLine.line
    rw [hkept, hview]
  have hheader : ch ']' :: view ≠ packageHeader := by
    intro heq
    exact absurd (List.cons.inj heq).1 (by decide)
  have hopen : ¬ ((ch ']' :: view).head? = some (ch '[') ∧
      (ch ']' :: view).getLast? = some (ch ']')) := by
    rintro ⟨hfirst, _⟩
    exact absurd (Option.some.inj hfirst) (by decide)
  unfold scan
  rw [hline, scanView, if_neg (by simp), if_neg hheader, if_neg hopen, if_pos harray,
    if_pos ⟨view, rfl⟩]

/-! ## Arrays on one line -/

/-- What a loose array gives besides its entries. -/
def OneLine.extra (o : OneLine) : List Bytes :=
  match o.rest with
  | none => []
  | some blanks => if blanks.1 = [] then [] else [[]]

theorem OneLine.extra_eq_nil (o : OneLine) : o.extra = [] ↔ ¬ o.Loose := by
  unfold OneLine.extra OneLine.Loose
  cases o.rest with
  | none => simp
  | some blanks => simp

def OneLine.pieces (o : OneLine) : List Bytes := o.parts.map Part.text ++ o.rest.toList.map (·.1)

theorem OneLine.pieces_ne_nil (o : OneLine) : o.pieces ≠ [] := by
  cases o <;> simp [OneLine.pieces, OneLine.parts, OneLine.rest]

theorem not_mem_quoted (s : Quotable) (c : UInt8) (hc : c ≠ ch '"') (h : c ∉ s.1) :
    c ∉ quoted s := by
  simp [quoted, hc, h]

theorem Part.not_mem_text (p : Part) (c : UInt8) (hquote : c ≠ ch '"')
    (hblank : GoSum.isTrailing c = false) (hdep : c ∉ p.dep.text.1) : c ∉ p.text := by
  unfold Part.text
  rw [List.mem_append, List.mem_append, not_or, not_or]
  exact ⟨⟨not_mem_of_trailing p.left.trailing c hblank, not_mem_quoted p.dep.text c hquote hdep⟩,
    not_mem_of_trailing p.right.trailing c hblank⟩

theorem OneLine.not_mem_pieces (o : OneLine) (c : UInt8) (hquote : c ≠ ch '"')
    (hblank : GoSum.isTrailing c = false) (hdeps : ∀ d : Dep, c ∉ d.text.1) :
    ∀ piece ∈ o.pieces, c ∉ piece := by
  intro piece hpiece
  rcases List.mem_append.mp hpiece with hpiece | hpiece
  · obtain ⟨p, _, rfl⟩ := List.mem_map.mp hpiece
    exact p.not_mem_text c hquote hblank (hdeps p.dep)
  · obtain ⟨blanks, _, rfl⟩ := List.mem_map.mp hpiece
    exact not_mem_of_trailing blanks.trailing c hblank

theorem Part.text_ne_nil (p : Part) : p.text ≠ [] := by
  simp [Part.text, quoted]

theorem OneLine.arrayParts_text (o : OneLine) :
    (arrayParts o.text).map extractDepName = o.parts.map (·.dep.name) ++ o.extra := by
  have hsplit : o.text.splitOn (ch ',') = o.pieces :=
    Bytes.splitOn_join (ch ',') o.pieces
      (o.not_mem_pieces (ch ',') (by decide) (by decide) Dep.no_comma) o.pieces_ne_nil
  have hnames : (o.parts.map Part.text).map extractDepName = o.parts.map (·.dep.name) := by
    rw [List.map_map]
    apply List.map_congr_left
    intro p _
    rw [Function.comp_apply, Part.text]
    exact extractDepName_around p.left.1 p.right.1 p.dep p.left.2 p.right.trailing
  unfold arrayParts
  simp only [hsplit, OneLine.pieces, OneLine.extra]
  cases hrest : o.rest with
  | none =>
    have hlast : (o.parts.map Part.text).getLast? ≠ some [] := by
      intro hnil
      obtain ⟨p, _, hp⟩ := List.mem_map.mp (List.mem_of_getLast? hnil)
      exact p.text_ne_nil hp
    simp only [Option.toList_none, List.map_nil, List.append_nil, if_neg hlast]
    exact hnames
  | some blanks =>
    simp only [Option.toList_some, List.map_singleton, List.getLast?_concat, Option.some.injEq,
      List.dropLast_concat]
    -- Blanks behind the last comma make one part more, with no name in it.
    by_cases hblanks : blanks.1 = []
    · rw [if_pos hblanks, if_pos hblanks, List.append_nil]
      exact hnames
    · rw [if_neg hblanks, if_neg hblanks, List.map_append, hnames, List.map_singleton,
        extractDepName_blanks]

theorem hidden_join (pieces : List Bytes) (rest : Bytes)
    (h : ∀ piece ∈ pieces, ∀ rest, hidden false (piece ++ rest) = hidden false rest) :
    hidden false (Bytes.join (ch ',') pieces ++ rest) = hidden false rest := by
  induction pieces with
  | nil => rfl
  | cons piece more ih =>
    cases more with
    | nil =>
      rw [Bytes.join_singleton]
      exact h piece List.mem_cons_self rest
    | cons next more =>
      have hmore := ih fun p hp => h p (List.mem_cons_of_mem _ hp)
      have hcomma : ch ',' ≠ ch '#' := by decide
      rw [Bytes.join_cons_cons, List.append_assoc, h piece List.mem_cons_self,
        List.cons_append, hidden, if_neg (by decide), hmore]
      simp [hcomma]

theorem OneLine.hidden_text (o : OneLine) (rest : Bytes) :
    hidden false (o.text ++ rest) = hidden false rest := by
  apply hidden_join
  intro piece hpiece rest
  rcases List.mem_append.mp hpiece with hpiece | hpiece
  · obtain ⟨p, _, rfl⟩ := List.mem_map.mp hpiece
    unfold Part.text
    rw [List.append_assoc, List.append_assoc, hidden_trailing _ _ p.left.trailing, hidden_quoted,
      hidden_trailing _ _ p.right.trailing]
  · obtain ⟨blanks, _, rfl⟩ := List.mem_map.mp hpiece
    exact hidden_trailing _ _ blanks.trailing

def OneLine.value (o : OneLine) : Bytes := ch '[' :: (o.text ++ [ch ']'])

theorem OneLine.trimmed_value (o : OneLine) : Trimmed o.value := trimmed_brackets o.text

theorem OneLine.setDependencies_value (o : OneLine) (s : State) :
    setDependencies s o.value = push s (o.parts.map (·.dep.name) ++ o.extra) := by
  have hclose : ch ']' ∉ ch '[' :: o.text := by
    rw [List.mem_cons, not_or]
    refine ⟨by decide, ?_⟩
    intro hmem
    rcases Bytes.mem_join _ _ _ hmem with heq | ⟨piece, hpiece, hin⟩
    · exact absurd heq (by decide)
    · exact o.not_mem_pieces (ch ']') (by decide) (by decide) Dep.no_close piece hpiece hin
  have hcut : Bytes.cut (ch ']') o.value = some (ch '[' :: o.text, []) :=
    Bytes.cut_append _ _ _ hclose
  unfold setDependencies
  split
  · rename_i hempty
    have htext : o.text = [] := by
      have hlen := congrArg List.length hempty
      simpa [OneLine.value, ascii] using hlen
    rw [← o.arrayParts_text, htext]
    exact (push_nil s).symm
  · rw [if_pos ⟨_, rfl⟩, hcut]
    simp only [List.drop_succ_cons, List.drop_zero]
    rw [o.arrayParts_text]

/-! ## Items -/

def Key.assign (value : Bytes) (e : ManifestEntry) : Key → ManifestEntry
  | name => { e with name := value }
  | version => { e with version := value }
  | source => { e with source := value }
  | checksum => { e with hash := some { algorithm := .sha256, value } }
  | dependencies => e

theorem setField_quoted (s : State) (key : Key) (value : Quotable) (h : key ≠ .dependencies) :
    setField s key.text (quoted value) = { s with current := key.assign value.1 s.current } := by
  unfold setField
  rw [stripQuotes_quoted]
  cases key with
  | dependencies => exact absurd rfl h
  | _ => rfl

theorem setField_dependencies (s : State) (value : Bytes) :
    setField s Key.dependencies.text value = setDependencies s value := rfl

/-- The names that an item adds to the dependencies. -/
def Item.names : Item → List Bytes
  | several _ lines _ => (lines.filterMap EntryLine.dep?).map Dep.name
  | oneLine _ array => array.parts.map (·.dep.name) ++ array.extra
  | _ => []

/-- What an item does to the package. -/
def Item.change (item : Item) (e : ManifestEntry) : ManifestEntry :=
  match item with
  | field _ key value _ => key.assign value.1 e
  | other => { e with dependsOn := e.dependsOn ++ other.names }

theorem Item.scan_lines (item : Item) (s : State) (hpackage : s.inPackage = true)
    (harray : s.inDependenciesArray = false) :
    item.lines.foldl scan s = { s with current := item.change s.current } := by
  cases item with
  | filler f =>
    have hfiller := scan_filler f s
    simpa [Item.lines, Item.change, Item.names] using hfiller
  | field a key value plain =>
    have hline := a.scan_line key (quoted value) (trimmed_quoted value) (quoted_ne_nil value)
      (hidden_quoted_alone value) s hpackage harray
    rw [setField_quoted s key value plain] at hline
    simpa [Item.lines, Item.change] using hline
  | several a lines close =>
    -- The opening bracket switches the array on, the closing one switches it off again.
    have hopen := a.scan_line .dependencies (ascii "[") (by decide) (by decide) (by decide) s
      hpackage harray
    have harrayOpen : setField s Key.dependencies.text (ascii "[") =
        { s with inDependenciesArray := true } := rfl
    rw [harrayOpen] at hopen
    rw [Item.lines, List.foldl_cons, hopen, List.foldl_append, scan_entries lines _ rfl,
      List.foldl_cons, List.foldl_nil, close.scan_line _ rfl]
    simp [push, Item.change, Item.names, harray]
  | oneLine a array =>
    have hhidden : hidden false array.value = true := by
      rw [OneLine.value, hidden, if_neg (by decide), array.hidden_text]
      decide
    have hline := a.scan_line .dependencies array.value array.trimmed_value
      (by simp [OneLine.value]) hhidden s hpackage
      harray
    rw [setField_dependencies, array.setDependencies_value] at hline
    rw [Item.lines, List.foldl_cons, List.foldl_nil]
    exact hline

theorem scan_items (items : List Item) (s : State) (hpackage : s.inPackage = true)
    (harray : s.inDependenciesArray = false) :
    (items.flatMap Item.lines).foldl scan s =
      { s with current := items.foldl (fun e item => item.change e) s.current } := by
  induction items generalizing s with
  | nil => rfl
  | cons item rest ih =>
    rw [List.flatMap_cons, List.foldl_append, item.scan_lines s hpackage harray,
      ih { s with current := item.change s.current } hpackage harray, List.foldl_cons]

/-! ## Packages -/

/-- The entry that the items of a section make. -/
def Section.built (s : Section) : ManifestEntry :=
  s.items.foldl (fun e item => item.change e) noEntry

section

variable {α : Type} (get : ManifestEntry → α) (key : Key) (make : Bytes → α)

/-- A field of the entry that one key sets. -/
structure SetBy : Prop where
  assign : ∀ k v e, get (Key.assign v e k) = if k = key then make v else get e
  push : ∀ e names, get { e with dependsOn := names } = get e

variable {get key make}

theorem SetBy.change (h : SetBy get key make) (item : Item) (e : ManifestEntry) :
    get (item.change e) = ((item.field? key).map (make ·.1)).getD (get e) := by
  cases item with
  | field a k value plain =>
    rw [Item.change, h.assign, Item.field?]
    split <;> rfl
  | _ => exact h.push e _

theorem SetBy.foldl (h : SetBy get key make) (items : List Item) (e : ManifestEntry) :
    get (items.foldl (fun e item => item.change e) e) =
      ((items.filterMap (Item.field? key)).getLast?.map (make ·.1)).getD (get e) := by
  induction items using List.reverseRecOn with
  | nil => rfl
  | append_singleton items item ih =>
    rw [List.foldl_append, List.foldl_cons, List.foldl_nil, h.change, ih, List.filterMap_append]
    cases hfield : item.field? key with
    | none => simp [hfield]
    | some value => simp [hfield]

end

theorem setBy_name : SetBy ManifestEntry.name .name id where
  assign k v e := by cases k <;> rfl
  push _ _ := rfl

theorem setBy_version : SetBy ManifestEntry.version .version id where
  assign k v e := by cases k <;> rfl
  push _ _ := rfl

theorem setBy_source : SetBy ManifestEntry.source .source id where
  assign k v e := by cases k <;> rfl
  push _ _ := rfl

theorem setBy_hash :
    SetBy ManifestEntry.hash .checksum fun value => some { algorithm := .sha256, value } where
  assign k v e := by cases k <;> rfl
  push _ _ := rfl

theorem foldl_change_rest (items : List Item) (e : ManifestEntry) :
    (items.foldl (fun e item => item.change e) e).ns = e.ns ∧
      (items.foldl (fun e item => item.change e) e).isDirect = e.isDirect ∧
      (items.foldl (fun e item => item.change e) e).isDev = e.isDev := by
  induction items generalizing e with
  | nil => exact ⟨rfl, rfl, rfl⟩
  | cons item rest ih =>
    have hitem : (item.change e).ns = e.ns ∧ (item.change e).isDirect = e.isDirect ∧
        (item.change e).isDev = e.isDev := by
      cases item with
      | field a k value plain => cases k <;> exact ⟨rfl, rfl, rfl⟩
      | _ => exact ⟨rfl, rfl, rfl⟩
    rw [List.foldl_cons]
    obtain ⟨hns, hdirect, hdev⟩ := ih (item.change e)
    exact ⟨hns.trans hitem.1, hdirect.trans hitem.2.1, hdev.trans hitem.2.2⟩

theorem foldl_change_dependsOn (items : List Item) (e : ManifestEntry) :
    (items.foldl (fun e item => item.change e) e).dependsOn = e.dependsOn ++
      items.flatMap Item.names := by
  induction items generalizing e with
  | nil => simp
  | cons item rest ih =>
    have hitem : (item.change e).dependsOn = e.dependsOn ++ item.names := by
      cases item with
      | field a k value plain => cases k <;> simp [Item.change, Key.assign, Item.names]
      | _ => rfl
    rw [List.foldl_cons, ih, hitem, List.flatMap_cons, List.append_assoc]

/-! ### Dependencies -/

def Item.extra : Item → List Bytes
  | oneLine _ array => array.extra
  | _ => []

theorem Item.extra_eq_nil (item : Item) : item.extra = [] ↔ ¬ item.Loose := by
  cases item with
  | oneLine a array => exact array.extra_eq_nil
  | _ => simp [Item.extra, Item.Loose]

theorem Item.names_eq (item : Item) :
    item.names = (item.deps?.getD []).map Dep.name ++ item.extra := by
  cases item <;> simp [Item.names, Item.deps?, Item.extra]

theorem length_flatMap_names (items : List Item) : (items.flatMap Item.names).length =
    (items.filterMap Item.deps?).flatten.length + (items.flatMap Item.extra).length := by
  induction items with
  | nil => rfl
  | cons item rest ih =>
    rw [List.flatMap_cons, List.flatMap_cons, List.length_append, List.length_append, ih,
      item.names_eq]
    cases hdeps : item.deps? <;> simp [hdeps] <;> omega

theorem flatMap_names (items : List Item) (h : items.flatMap Item.extra = []) :
    items.flatMap Item.names = (items.filterMap Item.deps?).flatten.map Dep.name := by
  induction items with
  | nil => rfl
  | cons item rest ih =>
    rw [List.flatMap_cons, List.append_eq_nil_iff] at h
    rw [List.flatMap_cons, ih h.2, item.names_eq, h.1]
    cases hdeps : item.deps? <;> simp [hdeps]

theorem flatMap_extra_eq_nil (items : List Item) :
    items.flatMap Item.extra = [] ↔ ∀ item ∈ items, ¬ item.Loose := by
  rw [List.flatMap_eq_nil_iff]
  simp only [Item.extra_eq_nil]

section

variable {p : Package} {s : Section} (h : s.Renders p)

include h

theorem Section.Renders.flatten_deps : (s.items.filterMap Item.deps?).flatten = p.dependencies := by
  rcases h.dependencies with hdeps | ⟨hdeps, hnone⟩
  · rw [hdeps]
    simp
  · rw [hdeps, hnone]
    rfl

theorem Section.Renders.built_name : s.built.name = p.name.1 := by
  rw [Section.built, setBy_name.foldl, h.name]
  rfl

theorem Section.Renders.built_eq :
    s.built = { p.entry with dependsOn := s.items.flatMap Item.names } := by
  have hname := h.built_name
  have hversion : s.built.version = p.version.1 := by
    rw [Section.built, setBy_version.foldl]
    rcases h.version with hone | ⟨hnone, hempty⟩
    · rw [hone]
      rfl
    · rw [hnone, hempty]
      rfl
  have hsource : s.built.source = p.source.1 := by
    rw [Section.built, setBy_source.foldl]
    rcases h.source with hone | ⟨hnone, hempty⟩
    · rw [hone]
      rfl
    · rw [hnone, hempty]
      rfl
  have hhash : s.built.hash = p.entry.hash := by
    rw [Section.built, setBy_hash.foldl, h.checksum, Package.entry]
    cases p.checksum <;> rfl
  have hdeps : s.built.dependsOn = s.items.flatMap Item.names := by
    rw [Section.built, foldl_change_dependsOn]
    rfl
  obtain ⟨hns, hdirect, hdev⟩ := foldl_change_rest s.items noEntry
  change s.built.ns = [] at hns
  change s.built.isDirect = false at hdirect
  change s.built.isDev = false at hdev
  -- Field by field, over an arbitrary entry: the fold itself is no longer needed.
  generalize s.built = e at *
  obtain ⟨name, version, ns, hash, isDirect, isDev, source, dependsOn⟩ := e
  simp only at hname hversion hsource hhash hdeps hns hdirect hdev
  rw [hname, hversion, hsource, hhash, hdeps, hns, hdirect, hdev]
  rfl

theorem Section.Renders.built_eq_iff : s.built = p.entry ↔ ∀ item ∈ s.items, ¬ item.Loose := by
  rw [h.built_eq, ← flatMap_extra_eq_nil]
  constructor
  · intro heq
    have hdeps : s.items.flatMap Item.names = p.dependencies.map Dep.name :=
      congrArg ManifestEntry.dependsOn heq
    have hlen := congrArg List.length hdeps
    rw [length_flatMap_names, h.flatten_deps, List.length_map] at hlen
    apply List.eq_nil_of_length_eq_zero
    omega
  · intro hextra
    rw [flatMap_names s.items hextra, h.flatten_deps]
    rfl

end

/-! ## Files -/

theorem flush_flush (s : State) : flush (flush s) = flush s := by
  simp [flush]

theorem Section.scan_lines (sec : Section) (s : State) (hname : sec.built.name ≠ []) :
    flush (sec.lines.foldl scan s) = { entries := (flush s).entries ++ [sec.built] } := by
  have hheader : scan s (sec.header.around packageHeader) = { flush s with inPackage := true } := by
    unfold scan
    rw [lineView_around _ packageHeader (by decide) (by decide), scanView, if_neg (by decide),
      if_pos rfl]
  rw [Section.lines, List.foldl_cons, hheader, scan_items _ _ rfl rfl]
  have hbuilt : sec.items.foldl (fun e item => item.change e) (flush s).current = sec.built := rfl
  simp only [hbuilt]
  unfold flush
  simp [hname]

theorem scan_other (l : OtherLine) (entries : List ManifestEntry) :
    scan { entries } l.1 = { entries } := by
  unfold scan scanView
  split
  · rfl
  · rw [if_neg l.2.2]
    split
    · rfl
    · rfl

theorem foldl_scan_other (lines : List OtherLine) (entries : List ManifestEntry) :
    (lines.map (·.1)).foldl scan { entries } = { entries } := by
  induction lines with
  | nil => rfl
  | cons l rest ih => rw [List.map_cons, List.foldl_cons, scan_other, ih]

theorem hidden_of_not_mem (inside : Bool) (s : Bytes) (h : ch '#' ∉ s) :
    hidden inside s = true := by
  induction s generalizing inside with
  | nil => rfl
  | cons b s ih =>
    simp only [List.mem_cons, not_or] at h
    rw [hidden]
    split
    · exact ih _ h.2
    · simp [Ne.symm h.1, ih _ h.2]

theorem Block.scan_lines (b : Block) (s : State) (h : ∀ sec ∈ b.section?, sec.built.name ≠ []) :
    flush (b.lines.foldl scan s) =
      { entries := (flush s).entries ++ b.section?.toList.map Section.built } := by
  cases b with
  | package sec => exact sec.scan_lines s (h sec rfl)
  | other header name no_comment one_line no_package lines =>
    have hhash : ch '#' ∉ ch '[' :: (name ++ [ch ']']) := by
      simp only [List.mem_cons, List.mem_append, List.not_mem_nil, or_false, not_or]
      exact ⟨by decide, no_comment, by decide⟩
    have hpackage : ch '[' :: (name ++ [ch ']']) ≠ packageHeader := by
      intro heq
      have hname : name ++ [ch ']'] = ascii "[package]" ++ [ch ']'] := (List.cons.inj heq).2
      exact no_package (List.append_cancel_right hname)
    have hlast : (ch '[' :: (name ++ [ch ']'])).getLast? = some (ch ']') := by
      rw [← List.cons_append, List.getLast?_concat]
    have hheader : scan s (header.around (ch '[' :: (name ++ [ch ']']))) = flush s := by
      unfold scan
      rw [lineView_around _ _ (trimmed_brackets name) (hidden_of_not_mem _ _ hhash), scanView,
        if_neg (by simp), if_neg hpackage, if_pos ⟨rfl, hlast⟩]
    have hflush : flush s = { entries := (flush s).entries } := rfl
    rw [Block.lines, List.foldl_cons, hheader, hflush, foldl_scan_other, ← hflush, flush_flush]
    simp [Block.section?, ← hflush]

theorem scan_blocks (blocks : List Block) (s : State)
    (h : ∀ sec ∈ blocks.filterMap Block.section?, sec.built.name ≠ []) :
    (flush ((blocks.flatMap Block.lines).foldl scan s)).entries =
      (flush s).entries ++ (blocks.filterMap Block.section?).map Section.built := by
  induction blocks generalizing s with
  | nil => simp
  | cons b rest ih =>
    have hrest : ∀ sec ∈ rest.filterMap Block.section?, sec.built.name ≠ [] := by
      intro sec hsec
      obtain ⟨b', hb', hsome⟩ := List.mem_filterMap.mp hsec
      exact h sec (List.mem_filterMap.mpr ⟨b', List.mem_cons_of_mem _ hb', hsome⟩)
    have hb : ∀ sec ∈ b.section?, sec.built.name ≠ [] := by
      intro sec hsec
      exact h sec (List.mem_filterMap.mpr ⟨b, List.mem_cons_self, hsec⟩)
    rw [List.flatMap_cons, List.foldl_append, ih _ hrest, b.scan_lines s hb]
    cases hsec : b.section? <;> simp [hsec]

/-! ### Lines and text -/

theorem Margins.one_line (m : Margins) (body : Bytes) (h : ch '\n' ∉ body) :
    ch '\n' ∉ m.around body := by
  unfold Margins.around
  rw [List.mem_append, List.mem_append, not_or, not_or]
  refine ⟨⟨?_, h⟩, ?_⟩
  · intro hmem
    exact absurd (m.left.2 _ hmem) (by decide)
  · intro hmem
    exact (m.right.2 _ hmem).2 rfl

theorem Blanks.one_line (s : Blanks) : ch '\n' ∉ s.1 := by
  intro hmem
  exact absurd (s.2 _ hmem) (by decide)

theorem quoted_one_line (s : Quotable) : ch '\n' ∉ quoted s := not_mem_quoted s _ (by decide) s.2.2

theorem Filler.one_line (f : Filler) : ch '\n' ∉ f.line := by
  cases f with
  | blank text =>
    intro hmem
    exact (text.2 _ hmem).2 rfl
  | comment left text one_line =>
    unfold Filler.line
    simp only [List.mem_append, List.mem_cons, not_or]
    exact ⟨left.one_line, by decide, one_line⟩

theorem Assignment.one_line (a : Assignment) (key : Key) (value : Bytes) (h : ch '\n' ∉ value) :
    ch '\n' ∉ a.line key value := by
  apply a.margins.one_line
  unfold Assignment.view
  simp only [List.mem_append, List.mem_cons, not_or]
  exact ⟨⟨key.text_plain.2.2.2, a.before.one_line⟩, by decide, a.after.one_line, h⟩

theorem EntryLine.one_line (l : EntryLine) : ch '\n' ∉ l.line := by
  cases l with
  | filler f => exact f.one_line
  | entry margins dep gap comma =>
    apply margins.one_line
    simp only [List.mem_append, not_or]
    refine ⟨⟨quoted_one_line dep.text, gap.one_line⟩, ?_⟩
    cases comma <;> decide

theorem OneLine.one_line (o : OneLine) : ch '\n' ∉ o.value := by
  have htext : ch '\n' ∉ o.text := by
    intro hmem
    rcases Bytes.mem_join _ _ _ hmem with heq | ⟨piece, hpiece, hin⟩
    · exact absurd heq (by decide)
    · rcases List.mem_append.mp hpiece with hpiece | hpiece
      · obtain ⟨p, _, rfl⟩ := List.mem_map.mp hpiece
        unfold Part.text at hin
        simp only [List.mem_append] at hin
        rcases hin with (hin | hin) | hin
        · exact p.left.one_line hin
        · exact quoted_one_line p.dep.text hin
        · exact p.right.one_line hin
      · obtain ⟨blanks, _, rfl⟩ := List.mem_map.mp hpiece
        exact blanks.one_line hin
  unfold OneLine.value
  simp only [List.mem_cons, List.mem_append, List.not_mem_nil, or_false, not_or]
  exact ⟨by decide, htext, by decide⟩

theorem Item.one_line (item : Item) : ∀ line ∈ item.lines, ch '\n' ∉ line := by
  cases item with
  | filler f => simpa [Item.lines] using f.one_line
  | field a key value plain => simpa [Item.lines] using a.one_line key _ (quoted_one_line value)
  | several a lines close =>
    intro line hline
    simp only [Item.lines, List.mem_cons, List.mem_append, List.mem_map, List.not_mem_nil, or_false]
      at hline
    rcases hline with rfl | ⟨l, _, rfl⟩ | rfl
    · exact a.one_line _ _ (by decide)
    · exact l.one_line
    · unfold CloseLine.line
      simp only [List.mem_append, List.mem_cons, not_or]
      exact ⟨close.left.one_line, by decide, close.one_line⟩
  | oneLine a array =>
    intro line hline
    rw [List.mem_singleton.mp hline]
    exact a.one_line .dependencies array.value array.one_line

theorem Block.one_line (b : Block) : ∀ line ∈ b.lines, ch '\n' ∉ line := by
  cases b with
  | package sec =>
    intro line hline
    rcases List.mem_cons.mp hline with rfl | hline
    · exact sec.header.one_line _ (by decide)
    · obtain ⟨item, _, hline⟩ := List.mem_flatMap.mp hline
      exact item.one_line line hline
  | other header name no_comment one_line no_package lines =>
    intro line hline
    rcases List.mem_cons.mp hline with rfl | hline
    · apply header.one_line
      simp only [List.mem_cons, List.mem_append, List.not_mem_nil, or_false, not_or]
      exact ⟨by decide, one_line, by decide⟩
    · obtain ⟨l, _, rfl⟩ := List.mem_map.mp hline
      exact l.2.1

theorem Layout.one_line (l : Layout) : ∀ line ∈ l.lines, ch '\n' ∉ line := by
  intro line hline
  rcases List.mem_append.mp hline with hline | hline
  · obtain ⟨other, _, rfl⟩ := List.mem_map.mp hline
    exact other.2.1
  · obtain ⟨b, _, hline⟩ := List.mem_flatMap.mp hline
    exact b.one_line line hline

theorem scan_nil (s : State) : scan s [] = s := rfl

theorem foldl_scan_getLines (content : Bytes) (s : State) :
    (Audit.getLines content).foldl scan s = (content.splitOn (ch '\n')).foldl scan s := by
  rcases Audit.splitOn_getLines content with h | h
  · rw [h]
  · rw [h, List.foldl_append, List.foldl_cons, List.foldl_nil, scan_nil]

theorem Layout.foldl_scan_text (l : Layout) (hne : l.lines ≠ []) (s : State) :
    (Audit.getLines l.text).foldl scan s = l.lines.foldl scan s := by
  have hlines : ∀ line ∈ l.lines ++ (if l.terminated then [[]] else []), ch '\n' ∉ line := by
    intro line hline
    rcases List.mem_append.mp hline with hline | hline
    · exact l.one_line line hline
    · split at hline
      · simp [List.mem_singleton.mp hline]
      · cases hline
  rw [foldl_scan_getLines, Layout.text, Bytes.splitOn_join _ _ hlines (by simp [hne]),
    List.foldl_append]
  split
  · rfl
  · rfl

/-! ## The packages come back -/

/-- What the parser should return. -/
def manifestOf (source : Bytes) (entries : List ManifestEntry) : LockManifest where
  ecosystem := .cargo
  entries := entries
  sourceFile := source
  root := entries.find? fun e => e.source = []

section

variable {l : Layout} {packages : List Package} (h : l.Renders packages)

include h

theorem Layout.Renders.built_name : ∀ sec ∈ l.sections, sec.built.name ≠ [] := by
  unfold Layout.Renders at h
  generalize l.sections = sections at h
  induction h with
  | nil => simp
  | cons hsec _ ih =>
    rw [List.forall_mem_cons, hsec.built_name]
    exact ⟨Package.name_ne_nil _, ih⟩

theorem Layout.Renders.built_eq_iff : l.sections.map Section.built = packages.map Package.entry ↔
    l.Tight := by
  unfold Layout.Tight
  unfold Layout.Renders at h
  generalize l.sections = sections at h
  induction h with
  | nil => simp
  | cons hsec _ ih =>
    rw [List.map_cons, List.map_cons, List.cons.injEq, hsec.built_eq_iff, ih, List.forall_mem_cons]

theorem Layout.Renders.parse_text (hne : packages ≠ []) (source : Bytes) :
    parseCargoLock l.text source = .ok (manifestOf source (l.sections.map Section.built)) := by
  have hsections : l.sections ≠ [] := by
    intro hnil
    unfold Layout.Renders at h
    rw [hnil] at h
    exact hne (List.forall₂_nil_right_iff.mp h)
  have hlines : l.lines ≠ [] := by
    intro hnil
    obtain ⟨sec, hsec⟩ := List.exists_mem_of_ne_nil _ hsections
    obtain ⟨b, hb, _⟩ := List.mem_filterMap.mp hsec
    have hblock := List.flatMap_eq_nil_iff.mp (List.append_eq_nil_iff.mp hnil).2 b hb
    cases b <;> cases hblock
  have hentries : (flush ((Audit.getLines l.text).foldl scan {})).entries =
      l.sections.map Section.built := by
    rw [l.foldl_scan_text hlines, Layout.lines, List.foldl_append, foldl_scan_other,
      scan_blocks _ _ h.built_name]
    rfl
  unfold parseCargoLock
  simp only [hentries]
  rw [if_neg (by simpa using hsections)]
  rfl

end

/-- **Cargo.lock.** The parser returns exactly the packages that a file was written from, if and
only if no array of dependencies on one line has blanks alone between its last comma, or its opening
bracket, and its closing bracket. -/
theorem packages_returned_iff (packages : List Package) (hne : packages ≠ []) (l : Layout)
    (h : l.Renders packages) (source : Bytes) :
    parseCargoLock l.text source = .ok (manifestOf source (packages.map Package.entry)) ↔
      l.Tight := by
  rw [h.parse_text hne source, ← h.built_eq_iff, Except.ok.injEq]
  constructor
  · intro heq
    exact congrArg (fun m : LockManifest => m.entries) heq
  · intro heq
    rw [heq]

/-! ### Two files -/

def noBlanks : Blanks := ⟨[], by simp⟩

def oneBlank : Blanks := ⟨ascii " ", List.all_eq_true.mp (by decide)⟩

def noMargins : Margins := ⟨noBlanks, [], by simp⟩

def spaced : Assignment := ⟨noMargins, oneBlank, oneBlank⟩

def serdeDep : Dep :=
  { text := ⟨ascii "serde 1.0.197", by decide⟩
    name_ne_nil := by decide
    name_first := by decide
    no_comma := by decide
    no_open := by decide
    no_close := by decide }

def appPackage : Package :=
  { name := ⟨ascii "app", by decide⟩
    version := ⟨ascii "0.1.0", by decide⟩
    source := ⟨[], by decide⟩
    checksum := none
    dependencies := [serdeDep]
    name_ne_nil := by decide }

/-- `dependencies = ["serde 1.0.197"` and then the given end of the array. -/
def appSection (trailing : Option Blanks) : Section where
  header := noMargins
  items :=
    [.field spaced .name appPackage.name (by decide),
      .field spaced .version appPackage.version (by decide),
      .oneLine spaced (.entries ⟨noBlanks, serdeDep, noBlanks⟩ [] trailing)]

def appLayout (trailing : Option Blanks) : Layout := ⟨[], [.package (appSection trailing)], true⟩

theorem appLayout_renders (trailing : Option Blanks) : (appLayout trailing).Renders [appPackage] :=
  .cons ⟨rfl, Or.inl rfl, Or.inr ⟨rfl, rfl⟩, rfl, Or.inl rfl⟩ .nil

theorem trailing_comma_returned :
    parseCargoLock (appLayout (some noBlanks)).text (ascii "Cargo.lock") =
      .ok (manifestOf (ascii "Cargo.lock") [appPackage.entry]) := by
  apply (packages_returned_iff [appPackage] (by simp) _ (appLayout_renders (some noBlanks)) _).mpr
  intro sec hsec item hitem
  obtain rfl := List.mem_singleton.mp hsec
  simp only [appSection, List.mem_cons, List.not_mem_nil, or_false] at hitem
  rcases hitem with rfl | rfl | rfl
  · exact id
  · exact id
  · rintro ⟨blanks, hblanks, hne⟩
    obtain rfl : noBlanks = blanks := Option.some.inj hblanks
    exact hne rfl

theorem blank_after_comma_adds_dependency : ¬ ∀ (packages : List Package), packages ≠ [] → ∀ l :
    Layout, l.Renders packages → ∀ source,
      parseCargoLock l.text source = .ok (manifestOf source (packages.map Package.entry)) := by
  -- `dependencies = ["serde 1.0.197", ]` has a second dependency without a name.
  intro h
  have hparse := h [appPackage] (by simp) _ (appLayout_renders (some oneBlank)) (ascii "Cargo.lock")
  have hdeps := congrArg (fun r : Except ParseError LockManifest => match r with
    | .error _ => []
    | .ok m => m.entries.map fun e : ManifestEntry => e.dependsOn.length) hparse
  exact absurd hdeps (by decide +kernel)

end Euxis.Sca.CargoLock
