import Euxis.Audit.Code
import Euxis.Json.RoundTrip
import Euxis.Lines
import Euxis.Mcp.Stdio

/-!
# Unified diffs: `apps/cli/src/tui/diff_view.cpp`

The parser goes line by line and keeps two line numbers. It takes a line for a file header, a hunk
header or a line of a hunk by how it starts, and not by where it stands.
-/

namespace Euxis.Cli

/-! ## The parser -/

inductive LineType where
  | context
  | addition
  | deletion
  | header
  deriving DecidableEq, Repr

structure DiffLine where
  type : LineType := .context
  text : Bytes
  oldLine : Int := -1
  newLine : Int := -1
  deriving DecidableEq, Repr

structure Diff where
  oldFile : Bytes := []
  newFile : Bytes := []
  lines : List DiffLine := []
  deriving DecidableEq, Repr

/-- `std::stoi` in base ten: nothing where it throws. What follows the digits is not looked at. -/
def stoi (s : Bytes) : Option Int :=
  let s := s.dropWhile Policy.isSpace
  let negative := s.head? = some (ch '-')
  let s := if s.head? = some (ch '-') ∨ s.head? = some (ch '+') then s.tail else s
  match Json.readNat s with
  | none => none
  | some (n, _) =>
    let v : Int := if negative then -(n : Int) else n
    if -2 ^ 31 ≤ v ∧ v < 2 ^ 31 then some v else none

/-- The diff so far, and the numbers of the next line in both files. -/
structure DiffParser where
  diff : Diff := {}
  oldLine : Int := 0
  newLine : Int := 0
  deriving DecidableEq, Repr

def DiffParser.push (p : DiffParser) (line : DiffLine) : DiffParser :=
  { p with diff := { p.diff with lines := p.diff.lines ++ [line] } }

/-- The numbers of a hunk header. One that cannot be read leaves those that were not yet set. -/
def readNumbers (p : DiffParser) (line : Bytes) : DiffParser :=
  match Bytes.cut (ch '-') line, Bytes.cut (ch '+') line with
  | some (_, behindMinus), some (_, behindPlus) =>
    match stoi behindMinus with
    | none => p
    | some oldLine =>
      match stoi behindPlus with
      | none => { p with oldLine }
      | some newLine => { p with oldLine, newLine }
  | _, _ => p

def parseLine (p : DiffParser) (line : Bytes) : DiffParser :=
  if (ascii "--- ").isPrefixOf line then
    { p with diff := { p.diff with oldFile := line.drop 4 } }.push { type := .header, text := line }
  else if (ascii "+++ ").isPrefixOf line then
    { p with diff := { p.diff with newFile := line.drop 4 } }.push { type := .header, text := line }
  else if (ascii "@@ ").isPrefixOf line then
    readNumbers (p.push { type := .header, text := line }) line
  else if (ascii "+").isPrefixOf line then
    { p.push { type := .addition, text := line.drop 1, newLine := p.newLine } with
        newLine := p.newLine + 1 }
  else if (ascii "-").isPrefixOf line then
    { p.push { type := .deletion, text := line.drop 1, oldLine := p.oldLine } with
        oldLine := p.oldLine + 1 }
  else if (ascii " ").isPrefixOf line then
    { p.push { type := .context, text := line.drop 1, oldLine := p.oldLine,
               newLine := p.newLine } with
      oldLine := p.oldLine + 1, newLine := p.newLine + 1 }
  else p.push { type := .context, text := line, oldLine := p.oldLine, newLine := p.newLine }

def parseUnifiedDiff (diffText : Bytes) : Diff :=
  ((Audit.getLines diffText).foldl parseLine {}).diff

/-! ## Diffs -/

inductive Mark where
  | context
  | deletion
  | addition
  deriving DecidableEq, Repr

def Mark.byte : Mark → UInt8
  | .context => ch ' '
  | .deletion => ch '-'
  | .addition => ch '+'

def Mark.type : Mark → LineType
  | .context => .context
  | .deletion => .deletion
  | .addition => .addition

/-- A line of a hunk: its mark and its text. -/
structure HunkLine where
  mark : Mark
  text : Bytes
  one_line : ch '\n' ∉ text

/-- Lines of one file: the first one and their number, which may be left out when it is one. -/
structure LineRange where
  start : Nat
  count : Nat
  short : Bool
  short_one : short = true → count = 1

def LineRange.text (r : LineRange) : Bytes :=
  Bytes.decimal r.start ++ if r.short then [] else ch ',' :: Bytes.decimal r.count

/-- An `int` holds the numbers of its lines and the next one. -/
def LineRange.Fits (r : LineRange) : Prop := r.start + r.count < 2 ^ 31

instance (r : LineRange) : Decidable r.Fits := inferInstanceAs (Decidable (_ < _))

def oldSide (lines : List HunkLine) : List Bytes := (lines.filter (·.mark ≠ .addition)).map (·.text)

def newSide (lines : List HunkLine) : List Bytes := (lines.filter (·.mark ≠ .deletion)).map (·.text)

/-- The lines are those of the file at the range. -/
def Covers (file : List Bytes) (r : LineRange) (lines : List Bytes) : Prop :=
  r.count = lines.length ∧ (lines ≠ [] → 1 ≤ r.start) ∧ lines <+: file.drop (r.start - 1)

/-- A hunk between two files. What follows its ranges is a heading. -/
structure Hunk (old new : List Bytes) where
  oldRange : LineRange
  newRange : LineRange
  heading : Bytes
  lines : List HunkLine
  heading_one_line : ch '\n' ∉ heading
  old_covers : Covers old oldRange (oldSide lines)
  new_covers : Covers new newRange (newSide lines)

variable {old new : List Bytes}

def Hunk.headerText (h : Hunk old new) : Bytes :=
  ascii "@@ -" ++ (h.oldRange.text ++
    (ascii " +" ++ (h.newRange.text ++ (ascii " @@" ++ h.heading))))

structure UnifiedDiff (old new : List Bytes) where
  oldFile : Bytes
  newFile : Bytes
  hunks : List (Hunk old new)
  oldFile_one_line : ch '\n' ∉ oldFile
  newFile_one_line : ch '\n' ∉ newFile

/-- What the lines of a diff are. -/
inductive Item (old new : List Bytes) where
  | oldFile (name : Bytes)
  | newFile (name : Bytes)
  | hunk (h : Hunk old new)
  | line (l : HunkLine)

def Item.text : Item old new → Bytes
  | .oldFile name => ascii "--- " ++ name
  | .newFile name => ascii "+++ " ++ name
  | .hunk h => h.headerText
  | .line l => l.mark.byte :: l.text

def Item.type : Item old new → LineType
  | .line l => l.mark.type
  | _ => .header

def Hunk.items (h : Hunk old new) : List (Item old new) := .hunk h :: h.lines.map .line

def UnifiedDiff.items (d : UnifiedDiff old new) : List (Item old new) :=
  .oldFile d.oldFile :: .newFile d.newFile :: d.hunks.flatMap Hunk.items

def UnifiedDiff.text (d : UnifiedDiff old new) : Bytes := Lines.text (d.items.map Item.text)

/-- The lines of a hunk with their numbers, from these on. -/
def numbered (oldLine newLine : Int) : List HunkLine → List DiffLine
  | [] => []
  | l :: rest =>
    match l.mark with
    | .context =>
      { type := .context, text := l.text, oldLine, newLine } ::
        numbered (oldLine + 1) (newLine + 1) rest
    | .deletion =>
      { type := .deletion, text := l.text, oldLine } :: numbered (oldLine + 1) newLine rest
    | .addition =>
      { type := .addition, text := l.text, newLine } :: numbered oldLine (newLine + 1) rest

def Hunk.parsed (h : Hunk old new) : List DiffLine :=
  { type := .header, text := h.headerText } :: numbered h.oldRange.start h.newRange.start h.lines

/-- What a faithful parser makes of the diff. -/
def UnifiedDiff.parsed (d : UnifiedDiff old new) : List DiffLine :=
  { type := .header, text := ascii "--- " ++ d.oldFile } ::
    { type := .header, text := ascii "+++ " ++ d.newFile } ::
    d.hunks.flatMap Hunk.parsed

/-- The numbers are those of the line in its files. -/
def PointsAt (old new : List Bytes) (line : DiffLine) : Prop :=
  match line.type with
  | .context => 1 ≤ line.oldLine ∧ old[(line.oldLine - 1).toNat]? = some line.text ∧
      1 ≤ line.newLine ∧ new[(line.newLine - 1).toNat]? = some line.text
  | .deletion =>
    1 ≤ line.oldLine ∧ old[(line.oldLine - 1).toNat]? = some line.text ∧ line.newLine = -1
  | .addition =>
    line.oldLine = -1 ∧ 1 ≤ line.newLine ∧ new[(line.newLine - 1).toNat]? = some line.text
  | .header => True

/-- The line of a hunk starts as a file header does. -/
def HeaderLike (l : HunkLine) : Prop :=
  l.mark = .deletion ∧ ascii "-- " <+: l.text ∨ l.mark = .addition ∧ ascii "++ " <+: l.text

instance (l : HunkLine) : Decidable (HeaderLike l) := inferInstanceAs (Decidable (_ ∨ _))

/-! ## One line -/

/-- The type that the parser gives to a line. -/
def lineType (line : Bytes) : LineType :=
  if (ascii "--- ").isPrefixOf line then .header
  else if (ascii "+++ ").isPrefixOf line then .header
  else if (ascii "@@ ").isPrefixOf line then .header
  else if (ascii "+").isPrefixOf line then .addition
  else if (ascii "-").isPrefixOf line then .deletion
  else .context

@[simp]
theorem readNumbers_diff (p : DiffParser) (line : Bytes) : (readNumbers p line).diff = p.diff := by
  unfold readNumbers
  split
  · split
    · rfl
    · split <;> rfl
  · rfl

theorem parseLine_lines (p : DiffParser) (line : Bytes) :
    ∃ d, (parseLine p line).diff.lines = p.diff.lines ++ [d] ∧ d.type = lineType line := by
  unfold parseLine lineType
  split
  · exact ⟨_, rfl, rfl⟩
  split
  · exact ⟨_, rfl, rfl⟩
  split
  · exact ⟨_, by rw [readNumbers_diff]; rfl, rfl⟩
  split
  · exact ⟨_, rfl, rfl⟩
  split
  · exact ⟨_, rfl, rfl⟩
  split
  · exact ⟨_, rfl, rfl⟩
  · exact ⟨_, rfl, rfl⟩

theorem foldl_parseLine_types (lines : List Bytes) (p : DiffParser) :
    (lines.foldl parseLine p).diff.lines.map (·.type) = p.diff.lines.map (·.type) ++
      lines.map lineType := by
  induction lines generalizing p with
  | nil => simp
  | cons line rest ih =>
    obtain ⟨d, hd, htype⟩ := parseLine_lines p line
    rw [List.foldl_cons, ih, hd, List.map_append, List.map_cons, List.map_cons, htype]
    simp

/-! A line of a hunk, by its mark. -/

theorem parseLine_context (p : DiffParser) (text : Bytes) :
    parseLine p (ch ' ' :: text) =
      { p.push { type := .context, text, oldLine := p.oldLine, newLine := p.newLine } with
        oldLine := p.oldLine + 1, newLine := p.newLine + 1 } := rfl

theorem parseLine_deletion (p : DiffParser) (text : Bytes) (h : ¬ ascii "-- " <+: text) :
    parseLine p (ch '-' :: text) =
      { p.push { type := .deletion, text, oldLine := p.oldLine } with
          oldLine := p.oldLine + 1 } := by
  have hprefix : (ascii "--- ").isPrefixOf (ch '-' :: text) = false :=
    Bool.eq_false_iff.mpr (mt List.isPrefixOf_iff_prefix.mp h :
      ¬ (ascii "-- ").isPrefixOf text = true)
  rw [parseLine, hprefix]
  rfl

theorem parseLine_addition (p : DiffParser) (text : Bytes) (h : ¬ ascii "++ " <+: text) :
    parseLine p (ch '+' :: text) =
      { p.push { type := .addition, text, newLine := p.newLine } with
          newLine := p.newLine + 1 } := by
  have hprefix : (ascii "+++ ").isPrefixOf (ch '+' :: text) = false :=
    Bool.eq_false_iff.mpr (mt List.isPrefixOf_iff_prefix.mp h :
      ¬ (ascii "++ ").isPrefixOf text = true)
  rw [parseLine, hprefix]
  rfl

theorem lineType_header (l : HunkLine) (h : HeaderLike l) :
    lineType (l.mark.byte :: l.text) = .header := by
  unfold lineType
  rcases h with ⟨hmark, htext⟩ | ⟨hmark, htext⟩
  · have hprefix : (ascii "--- ").isPrefixOf (ch '-' :: l.text) = true :=
      (List.isPrefixOf_iff_prefix.mpr htext : (ascii "-- ").isPrefixOf l.text = true)
    rw [hmark, Mark.byte, hprefix]
    rfl
  · have hprefix : (ascii "+++ ").isPrefixOf (ch '+' :: l.text) = true :=
      (List.isPrefixOf_iff_prefix.mpr htext : (ascii "++ ").isPrefixOf l.text = true)
    rw [hmark, Mark.byte, hprefix]
    rfl

/-! ## A hunk -/

theorem stoi_decimal_append (n : Nat) (rest : Bytes) (hrest : Json.NoDigitHead rest)
    (h : n < 2 ^ 31) : stoi (Bytes.decimal n ++ rest) = some (n : Int) := by
  obtain ⟨hspace, hminus, hplus⟩ := Mcp.decimal_unsigned n rest
  have hrange : -2 ^ 31 ≤ (n : Int) ∧ (n : Int) < 2 ^ 31 := by omega
  simp only [stoi, hspace, hminus, hplus, or_self, if_false, Json.readNat_decimal n rest hrest,
    hrange, and_self, if_true]

theorem stoi_range (r : LineRange) (rest : Bytes) (h : r.start < 2 ^ 31) :
    stoi (r.text ++ ch ' ' :: rest) = some (r.start : Int) := by
  rw [LineRange.text, List.append_assoc]
  apply stoi_decimal_append _ _ _ h
  split
  · exact Json.noDigitHead_cons _ _ (by decide)
  · exact Json.noDigitHead_cons _ _ (by decide)

theorem not_mem_range (r : LineRange) {c : UInt8} (hcomma : c ≠ ch ',') (hdigit : c.toNat < 48) :
    c ∉ r.text := by
  have hdecimal : ∀ n, c ∉ Bytes.decimal n := fun n => Bytes.decimal_not_mem n c (Or.inl hdigit)
  rw [LineRange.text, List.mem_append, not_or]
  refine ⟨hdecimal _, ?_⟩
  split
  · exact List.not_mem_nil
  · rw [List.mem_cons, not_or]
    exact ⟨hcomma, hdecimal _⟩

section Hunks

variable (h : Hunk old new) (hold : h.oldRange.start < 2 ^ 31) (hnew : h.newRange.start < 2 ^ 31)

include hold hnew

theorem parseLine_headerText (p : DiffParser) :
    parseLine p h.headerText =
      { p.push { type := .header, text := h.headerText } with
          oldLine := h.oldRange.start, newLine := h.newRange.start } := by
  have hheader : parseLine p h.headerText =
      readNumbers (p.push { type := .header, text := h.headerText }) h.headerText := rfl
  have hminus : Bytes.cut (ch '-') h.headerText =
      some (ascii "@@ ", h.oldRange.text ++ ch ' ' ::
        (ch '+' :: (h.newRange.text ++ (ascii " @@" ++ h.heading)))) := rfl
  have hplus : Bytes.cut (ch '+') h.headerText =
      some (ascii "@@ -" ++ (h.oldRange.text ++ [ch ' ']),
        h.newRange.text ++ ch ' ' :: (ascii "@@" ++ h.heading)) := by
    have htext : h.headerText = (ascii "@@ -" ++ (h.oldRange.text ++ [ch ' '])) ++
        ch '+' :: (h.newRange.text ++ ch ' ' :: (ascii "@@" ++ h.heading)) := by
      simp [Hunk.headerText, ascii]
    rw [htext]
    apply Bytes.cut_append
    simp only [List.mem_append, not_or]
    exact ⟨by decide, not_mem_range _ (by decide) (by decide), by decide⟩
  rw [hheader, readNumbers, hminus, hplus]
  simp only [stoi_range _ _ hold, stoi_range _ _ hnew]

end Hunks

theorem foldl_parseLine_lines (lines : List HunkLine) (p : DiffParser)
    (hplain : ∀ l ∈ lines, ¬ HeaderLike l) :
    ((lines.map fun l => l.mark.byte :: l.text).foldl parseLine p).diff.lines =
      p.diff.lines ++ numbered p.oldLine p.newLine lines := by
  induction lines generalizing p with
  | nil => simp [numbered]
  | cons l rest ih =>
    have hl : ¬ HeaderLike l := hplain l List.mem_cons_self
    have hrest : ∀ l ∈ rest, ¬ HeaderLike l := fun l hl => hplain l (List.mem_cons_of_mem _ hl)
    rw [List.map_cons, List.foldl_cons, ih _ hrest, numbered]
    cases hmark : l.mark with
    | context =>
      rw [Mark.byte, parseLine_context]
      simp [DiffParser.push]
    | deletion =>
      rw [Mark.byte, parseLine_deletion p l.text fun h => hl (Or.inl ⟨hmark, h⟩)]
      simp [DiffParser.push]
    | addition =>
      rw [Mark.byte, parseLine_addition p l.text fun h => hl (Or.inr ⟨hmark, h⟩)]
      simp [DiffParser.push]

theorem map_text_items (h : Hunk old new) :
    h.items.map Item.text = h.headerText :: h.lines.map fun l => l.mark.byte :: l.text := by
  rw [Hunk.items, List.map_cons, List.map_map]
  rfl

theorem foldl_parseLine_hunk (h : Hunk old new) (hold : h.oldRange.Fits) (hnew : h.newRange.Fits)
    (hplain : ∀ l ∈ h.lines, ¬ HeaderLike l) (p : DiffParser) :
    ((h.items.map Item.text).foldl parseLine p).diff.lines = p.diff.lines ++ h.parsed := by
  unfold LineRange.Fits at hold hnew
  rw [map_text_items, List.foldl_cons, parseLine_headerText h (by omega) (by omega),
    foldl_parseLine_lines _ _ hplain]
  simp [DiffParser.push, Hunk.parsed]

theorem foldl_parseLine_hunks (hunks : List (Hunk old new))
    (hfits : ∀ h ∈ hunks, h.oldRange.Fits ∧ h.newRange.Fits)
    (hplain : ∀ h ∈ hunks, ∀ l ∈ h.lines, ¬ HeaderLike l) (p : DiffParser) :
    (((hunks.flatMap Hunk.items).map Item.text).foldl parseLine p).diff.lines =
      p.diff.lines ++ hunks.flatMap Hunk.parsed := by
  induction hunks generalizing p with
  | nil => simp
  | cons h rest ih =>
    obtain ⟨hold, hnew⟩ := hfits h List.mem_cons_self
    rw [List.flatMap_cons, List.map_append, List.foldl_append,
      ih (fun h hh => hfits h (List.mem_cons_of_mem _ hh))
        (fun h hh => hplain h (List.mem_cons_of_mem _ hh)),
      foldl_parseLine_hunk h hold hnew (hplain h List.mem_cons_self), List.flatMap_cons,
      List.append_assoc]

/-! ## The text of a diff -/

theorem headerText_one_line (h : Hunk old new) : ch '\n' ∉ h.headerText := by
  have hrange : ∀ r : LineRange, ch '\n' ∉ r.text :=
    fun r => not_mem_range r (by decide) (by decide)
  simp only [Hunk.headerText, List.mem_append, not_or]
  exact ⟨by decide, hrange _, by decide, hrange _, by decide, h.heading_one_line⟩

theorem items_one_line (d : UnifiedDiff old new) :
    ∀ line ∈ d.items.map Item.text, ch '\n' ∉ line := by
  intro line hline
  obtain ⟨item, hitem, rfl⟩ := List.mem_map.mp hline
  simp only [UnifiedDiff.items, Hunk.items, List.mem_cons, List.mem_flatMap, List.mem_map] at hitem
  rcases hitem with rfl | rfl | ⟨h, -, rfl | ⟨l, -, rfl⟩⟩
  · rw [Item.text, List.mem_append, not_or]
    exact ⟨by decide, d.oldFile_one_line⟩
  · rw [Item.text, List.mem_append, not_or]
    exact ⟨by decide, d.newFile_one_line⟩
  · exact headerText_one_line h
  · rw [Item.text, List.mem_cons, not_or]
    exact ⟨by cases l.mark <;> decide, l.one_line⟩

theorem getLines_diff (d : UnifiedDiff old new) :
    Audit.getLines d.text = d.items.map Item.text := by
  unfold Audit.getLines UnifiedDiff.text
  rw [Lines.splitOn_text _ (items_one_line d)]
  simp

theorem parseUnifiedDiff_eq (d : UnifiedDiff old new) :
    parseUnifiedDiff d.text = ((d.items.map Item.text).foldl parseLine {}).diff := by
  rw [parseUnifiedDiff, getLines_diff]

theorem parseUnifiedDiff_lines (d : UnifiedDiff old new)
    (hfits : ∀ h ∈ d.hunks, h.oldRange.Fits ∧ h.newRange.Fits)
    (hplain : ∀ h ∈ d.hunks, ∀ l ∈ h.lines, ¬ HeaderLike l) :
    (parseUnifiedDiff d.text).lines = d.parsed := by
  have hold : ∀ p : DiffParser, (parseLine p (ascii "--- " ++ d.oldFile)).diff.lines =
      p.diff.lines ++ [{ type := .header, text := ascii "--- " ++ d.oldFile }] := fun _ => rfl
  have hnew : ∀ p : DiffParser, (parseLine p (ascii "+++ " ++ d.newFile)).diff.lines =
      p.diff.lines ++ [{ type := .header, text := ascii "+++ " ++ d.newFile }] := fun _ => rfl
  rw [parseUnifiedDiff_eq, UnifiedDiff.items, List.map_cons, List.map_cons, List.foldl_cons,
    List.foldl_cons, foldl_parseLine_hunks d.hunks hfits hplain, Item.text, Item.text, hnew, hold]
  rfl

/-! ## Types and numbers -/

theorem numbered_types (oldLine newLine : Int) (lines : List HunkLine) :
    (numbered oldLine newLine lines).map (·.type) = lines.map (·.mark.type) := by
  induction lines generalizing oldLine newLine with
  | nil => rfl
  | cons l rest ih =>
    rw [numbered]
    cases hmark : l.mark <;> simp [hmark, ih, Mark.type]

theorem parsed_types (d : UnifiedDiff old new) : d.parsed.map (·.type) = d.items.map Item.type := by
  have hhunk : ∀ h : Hunk old new, h.parsed.map (·.type) = h.items.map Item.type := by
    intro h
    rw [Hunk.parsed, Hunk.items, List.map_cons, List.map_cons, numbered_types, List.map_map]
    rfl
  simp only [UnifiedDiff.parsed, UnifiedDiff.items, List.map_cons, List.map_flatMap, hhunk]
  rfl

theorem parseUnifiedDiff_types (d : UnifiedDiff old new) :
    (parseUnifiedDiff d.text).lines.map (·.type) = (d.items.map Item.text).map lineType := by
  rw [parseUnifiedDiff_eq, foldl_parseLine_types]
  rfl

theorem plain_of_types (d : UnifiedDiff old new)
    (htypes : (parseUnifiedDiff d.text).lines.map (·.type) = d.parsed.map (·.type)) :
    ∀ h ∈ d.hunks, ∀ l ∈ h.lines, ¬ HeaderLike l := by
  intro h hh l hl hlike
  rw [parseUnifiedDiff_types, parsed_types, List.map_map, List.map_inj_left] at htypes
  have hitem : Item.line l ∈ d.items := by
    simp only [UnifiedDiff.items, Hunk.items, List.mem_cons, List.mem_flatMap, List.mem_map]
    exact Or.inr (Or.inr ⟨h, hh, Or.inr ⟨l, hl, rfl⟩⟩)
  have htype : lineType (l.mark.byte :: l.text) = l.mark.type := htypes _ hitem
  rw [lineType_header l hlike] at htype
  cases hmark : l.mark <;> simp [hmark, Mark.type] at htype

/-- The texts stand in the file from a line on. -/
def StandAt (file : List Bytes) (n : Int) (texts : List Bytes) : Prop :=
  texts ≠ [] → 1 ≤ n ∧ texts <+: file.drop (n - 1).toNat

theorem StandAt.of_covers {file : List Bytes} {r : LineRange} {texts : List Bytes}
    (h : Covers file r texts) : StandAt file r.start texts := by
  intro hne
  have hstart : 1 ≤ r.start := h.2.1 hne
  refine ⟨by omega, ?_⟩
  have hnat : ((r.start : Int) - 1).toNat = r.start - 1 := by omega
  rw [hnat]
  exact h.2.2

theorem StandAt.cons {file : List Bytes} {n : Int} {text : Bytes} {rest : List Bytes}
    (h : StandAt file n (text :: rest)) :
    (1 ≤ n ∧ file[(n - 1).toNat]? = some text) ∧ StandAt file (n + 1) rest := by
  obtain ⟨hn, behind, hbehind⟩ := h (List.cons_ne_nil _ _)
  refine ⟨⟨hn, ?_⟩, fun _ => ⟨by omega, ?_⟩⟩
  · rw [← Nat.add_zero (n - 1).toNat, ← List.getElem?_drop, ← hbehind]
    rfl
  · have hnat : (n + 1 - 1).toNat = (n - 1).toNat + 1 := by omega
    rw [hnat, ← List.tail_drop, ← hbehind]
    exact List.prefix_append _ _

theorem oldSide_cons (l : HunkLine) (rest : List HunkLine) :
    oldSide (l :: rest) = if l.mark = .addition then oldSide rest else l.text :: oldSide rest := by
  by_cases hmark : l.mark = .addition
  · simp [oldSide, hmark]
  · simp [oldSide, hmark]

theorem newSide_cons (l : HunkLine) (rest : List HunkLine) :
    newSide (l :: rest) = if l.mark = .deletion then newSide rest else l.text :: newSide rest := by
  by_cases hmark : l.mark = .deletion
  · simp [newSide, hmark]
  · simp [newSide, hmark]

theorem numbered_pointsAt (lines : List HunkLine) (oldLine newLine : Int)
    (hold : StandAt old oldLine (oldSide lines)) (hnew : StandAt new newLine (newSide lines)) :
    ∀ line ∈ numbered oldLine newLine lines, PointsAt old new line := by
  induction lines generalizing oldLine newLine with
  | nil => simp [numbered]
  | cons l rest ih =>
    rw [numbered]
    cases hmark : l.mark with
    | context =>
      simp only [oldSide_cons, newSide_cons, hmark, reduceCtorEq, if_false] at hold hnew
      obtain ⟨⟨hold₁, holdText⟩, hold⟩ := hold.cons
      obtain ⟨⟨hnew₁, hnewText⟩, hnew⟩ := hnew.cons
      exact List.forall_mem_cons.mpr ⟨⟨hold₁, holdText, hnew₁, hnewText⟩, ih _ _ hold hnew⟩
    | deletion =>
      simp only [oldSide_cons, newSide_cons, hmark, reduceCtorEq, if_false, if_true] at hold hnew
      obtain ⟨⟨hold₁, holdText⟩, hold⟩ := hold.cons
      exact List.forall_mem_cons.mpr ⟨⟨hold₁, holdText, rfl⟩, ih _ _ hold hnew⟩
    | addition =>
      simp only [oldSide_cons, newSide_cons, hmark, reduceCtorEq, if_false, if_true] at hold hnew
      obtain ⟨⟨hnew₁, hnewText⟩, hnew⟩ := hnew.cons
      exact List.forall_mem_cons.mpr ⟨⟨rfl, hnew₁, hnewText⟩, ih _ _ hold hnew⟩

theorem parsed_pointsAt (d : UnifiedDiff old new) : ∀ line ∈ d.parsed, PointsAt old new line := by
  intro line hline
  simp only [UnifiedDiff.parsed, Hunk.parsed, List.mem_cons, List.mem_flatMap] at hline
  rcases hline with rfl | rfl | ⟨h, -, rfl | hline⟩
  · trivial
  · trivial
  · trivial
  · exact numbered_pointsAt h.lines _ _ (StandAt.of_covers h.old_covers)
      (StandAt.of_covers h.new_covers) line hline

/-- The parser is faithful, with the numbers of the lines in both files, if and only if no line of a
hunk starts as a file header does: no deleted line's text with `-- `, and no added line's with `++
`. -/
theorem unified_diff_faithful_iff (old new : List Bytes) (d : UnifiedDiff old new)
    (hfits : ∀ h ∈ d.hunks, h.oldRange.Fits ∧ h.newRange.Fits) :
    ((parseUnifiedDiff d.text).lines = d.parsed ∧ ∀ line ∈ d.parsed, PointsAt old new line) ↔
      ∀ h ∈ d.hunks, ∀ l ∈ h.lines, ¬ HeaderLike l := by
  constructor
  · rintro ⟨hlines, -⟩
    exact plain_of_types d (by rw [hlines])
  · intro hplain
    exact ⟨parseUnifiedDiff_lines d hfits hplain, parsed_pointsAt d⟩

/-- A hunk that turns the one line of a file into two. -/
def replaceLine : Hunk [ascii "- @a"] [ascii "+ b", ascii "@@ c"] where
  oldRange := { start := 1, count := 1, short := true, short_one := fun _ => rfl }
  newRange := { start := 1, count := 2, short := false, short_one := by decide }
  heading := ascii " f(-1)"
  lines := [⟨.deletion, ascii "- @a", by decide⟩, ⟨.addition, ascii "+ b", by decide⟩,
    ⟨.addition, ascii "@@ c", by decide⟩]
  heading_one_line := by decide
  old_covers := ⟨rfl, fun _ => by decide, by decide⟩
  new_covers := ⟨rfl, fun _ => by decide, by decide⟩

def replaceDiff : UnifiedDiff [ascii "- @a"] [ascii "+ b", ascii "@@ c"] where
  oldFile := ascii "a/f"
  newFile := ascii "b/f"
  hunks := [replaceLine]
  oldFile_one_line := by decide
  newFile_one_line := by decide

theorem unified_diff_replaced_line :
    (parseUnifiedDiff replaceDiff.text).lines = replaceDiff.parsed ∧
      ∀ line ∈ replaceDiff.parsed, PointsAt [ascii "- @a"] [ascii "+ b", ascii "@@ c"] line :=
  (unified_diff_faithful_iff _ _ replaceDiff
    (by simp only [replaceDiff, List.forall_mem_singleton]; decide)).mpr
      (by simp only [replaceDiff, List.forall_mem_singleton]; decide)

/-- A hunk that deletes a comment. -/
def deleteComment : Hunk [ascii "-- note"] [] where
  oldRange := { start := 1, count := 1, short := true, short_one := fun _ => rfl }
  newRange := { start := 0, count := 0, short := false, short_one := by decide }
  heading := []
  lines := [⟨.deletion, ascii "-- note", by decide⟩]
  heading_one_line := by decide
  old_covers := ⟨rfl, fun _ => by decide, by decide⟩
  new_covers := ⟨rfl, by decide, by decide⟩

def deleteDiff : UnifiedDiff [ascii "-- note"] [] where
  oldFile := ascii "a/f"
  newFile := ascii "b/f"
  hunks := [deleteComment]
  oldFile_one_line := by decide
  newFile_one_line := by decide

theorem deleted_comment_is_header :
    (parseUnifiedDiff deleteDiff.text).lines ≠ deleteDiff.parsed ∧
      (parseUnifiedDiff deleteDiff.text).lines.getLast? =
        some { type := .header, text := ascii "--- note" } ∧
      (parseUnifiedDiff deleteDiff.text).oldFile = ascii "note" := by
  decide +kernel

end Euxis.Cli
