import Euxis.Audit.Code
import Euxis.Lines
import Euxis.Overlay
import Mathlib.Data.List.DropRight

/-!
# Frontmatter of skill files

The fields in front of a document, and the body behind them (`libs/bridge/src/parser.cpp`).
-/

namespace Euxis.Bridge

open Euxis.Audit (getLines)
open Euxis.Overlay (put overlay last)

/-! ## The code -/

/-- The fields are a `std::map`, as the entries set. -/
structure Frontmatter where
  fields : List (Bytes × Bytes)
  body : Bytes
  deriving DecidableEq

def Frontmatter.get (fm : Frontmatter) (key : Bytes) : Option Bytes := fm.fields.lookup key

def isBlank (b : UInt8) : Bool := b = ch ' ' || b = ch '\t'

/-- From `find_first_not_of(" \t")` to `find_last_not_of(" \t")`. -/
def trim (s : Bytes) : Bytes := (s.dropWhile isBlank).rdropWhile isBlank

def stripCr (line : Bytes) : Bytes := if line.getLast? = some (ch '\r') then line.dropLast else line

/-- The key before the first colon and the value behind it, if there is one. -/
def keyValue (line : Bytes) : Option (Bytes × Bytes) :=
  match line.idxOf? (ch ':') with
  | none => none
  | some colonPos => some (trim (line.take colonPos), trim (line.drop (colonPos + 1)))

def delimiter : Bytes := ascii "---"

structure ParseState where
  inFrontmatter : Bool
  frontmatterDone : Bool
  fields : List (Bytes × Bytes)
  body : Bytes

/-- One round of the loop, on the line without its carriage return. -/
def parseLine (st : ParseState) (line : Bytes) : ParseState :=
  if !st.inFrontmatter && !st.frontmatterDone && line = delimiter then
    { st with inFrontmatter := true }
  else if st.inFrontmatter && line = delimiter then
    { st with inFrontmatter := false, frontmatterDone := true }
  else if st.inFrontmatter then
    match keyValue line with
    | none => st
    | some (key, value) => { st with fields := put st.fields key value }
  else { st with body := st.body ++ line ++ [ch '\n'] }

/-- The lines that `parse_frontmatter` sees. -/
def documentLines (content : Bytes) : List Bytes := (getLines content).map stripCr

def parseFrontmatter (content : Bytes) : Frontmatter :=
  let st := (documentLines content).foldl parseLine ⟨false, false, [], []⟩
  ⟨st.fields, st.body⟩

def parseSkillFile (file : Option Bytes) : Option Frontmatter := file.map parseFrontmatter

/-! ## What the document starts with -/

/-- Fields stand between a delimiter that is the first line and the next one; all else is body. -/
structure FrontmatterFirst (content : Bytes) : Prop where
  plain : (documentLines content).head? ≠ some delimiter →
    (parseFrontmatter content).fields = [] ∧
    (parseFrontmatter content).body = Lines.text (documentLines content)
  delimited : ∀ between after, documentLines content = delimiter :: between ++ delimiter :: after →
    delimiter ∉ between →
    (∀ key, (parseFrontmatter content).get key = last (between.filterMap keyValue) key) ∧
      (parseFrontmatter content).body = Lines.text after

/-! ## Runs of the loop -/

theorem run_before (lines : List Bytes) (h : delimiter ∉ lines) (fields : List (Bytes × Bytes))
    (body : Bytes) :
    lines.foldl parseLine ⟨false, false, fields, body⟩ =
      ⟨false, false, fields, body ++ Lines.text lines⟩ := by
  induction lines generalizing body with
  | nil => simp [Lines.text]
  | cons line rest ih =>
    rw [List.mem_cons, not_or] at h
    have hstep : parseLine ⟨false, false, fields, body⟩ line =
        ⟨false, false, fields, body ++ line ++ [ch '\n']⟩ := by
      simp [parseLine, Ne.symm h.1]
    rw [List.foldl_cons, hstep, ih h.2]
    simp [Lines.text]

theorem run_inside (lines : List Bytes) (h : delimiter ∉ lines) (fields : List (Bytes × Bytes))
    (body : Bytes) :
    lines.foldl parseLine ⟨true, false, fields, body⟩ =
      ⟨true, false, overlay fields (lines.filterMap keyValue), body⟩ := by
  induction lines generalizing fields with
  | nil => simp [overlay]
  | cons line rest ih =>
    rw [List.mem_cons, not_or] at h
    rw [List.foldl_cons, List.filterMap_cons]
    cases hkey : keyValue line with
    | none =>
      have hstep : parseLine ⟨true, false, fields, body⟩ line = ⟨true, false, fields, body⟩ := by
        simp [parseLine, Ne.symm h.1, hkey]
      rw [hstep, ih h.2]
    | some entry =>
      have hstep : parseLine ⟨true, false, fields, body⟩ line =
          ⟨true, false, put fields entry.1 entry.2, body⟩ := by
        simp [parseLine, Ne.symm h.1, hkey]
      rw [hstep, ih h.2]
      simp [overlay]

theorem run_after (lines : List Bytes) (fields : List (Bytes × Bytes)) (body : Bytes) :
    lines.foldl parseLine ⟨false, true, fields, body⟩ =
      ⟨false, true, fields, body ++ Lines.text lines⟩ := by
  induction lines generalizing body with
  | nil => simp [Lines.text]
  | cons line rest ih =>
    have hstep : parseLine ⟨false, true, fields, body⟩ line =
        ⟨false, true, fields, body ++ line ++ [ch '\n']⟩ := by
      simp [parseLine]
    rw [List.foldl_cons, hstep, ih]
    simp [Lines.text]

theorem parseLine_body_length (st : ParseState) (line : Bytes) :
    (parseLine st line).body.length ≤ st.body.length + (line.length + 1) := by
  unfold parseLine
  split_ifs
  · simp
  · simp
  · split <;> simp
  · simp

theorem run_body_length (lines : List Bytes) (st : ParseState) :
    (lines.foldl parseLine st).body.length ≤ st.body.length + (Lines.text lines).length := by
  induction lines generalizing st with
  | nil => simp [Lines.text]
  | cons line rest ih =>
    have hstep := parseLine_body_length st line
    have hrest := ih (parseLine st line)
    have htext : (Lines.text (line :: rest)).length = line.length + 1 +
        (Lines.text rest).length := by
      simp [Lines.text]
      omega
    rw [List.foldl_cons, htext]
    omega

/-! ## Where the delimiters are -/

theorem parse_plain (content : Bytes) (h : delimiter ∉ documentLines content) :
    parseFrontmatter content = ⟨[], Lines.text (documentLines content)⟩ := by
  simp [parseFrontmatter, run_before _ h]

theorem parse_delimited (content : Bytes) (between after : List Bytes)
    (hlines : documentLines content = delimiter :: between ++ delimiter :: after)
    (hbetween : delimiter ∉ between) :
    parseFrontmatter content = ⟨overlay [] (between.filterMap keyValue), Lines.text after⟩ := by
  have hopen : parseLine ⟨false, false, [], []⟩ delimiter =
      ⟨true, false, [], []⟩ := by simp [parseLine]
  have hclose : ∀ fields, parseLine ⟨true, false, fields, []⟩ delimiter =
      ⟨false, true, fields, []⟩ := by simp [parseLine]
  unfold parseFrontmatter
  rw [hlines, List.cons_append, List.foldl_cons, hopen, List.foldl_append, run_inside _ hbetween,
    List.foldl_cons, hclose, run_after]
  rfl

theorem body_loses_delimiter (content : Bytes) (hmem : delimiter ∈ documentLines content) :
    (parseFrontmatter content).body.length < (Lines.text (documentLines content)).length := by
  obtain ⟨before, rest, hlines, hbefore⟩ := List.eq_append_cons_of_mem hmem
  have hopen : ∀ body, parseLine ⟨false, false, [], body⟩ delimiter =
      ⟨true, false, [], body⟩ := by simp [parseLine]
  have hlen : (Lines.text (documentLines content)).length =
      (Lines.text before).length + (delimiter.length + 1) + (Lines.text rest).length := by
    rw [hlines]
    simp [Lines.text]
    omega
  have hrun := run_body_length rest ⟨true, false, [], Lines.text before⟩
  have hbody : (parseFrontmatter content).body =
      (rest.foldl parseLine ⟨true, false, [], Lines.text before⟩).body := by
    unfold parseFrontmatter
    rw [hlines, List.foldl_append, run_before _ hbefore, List.foldl_cons, hopen]
    rfl
  rw [hbody, hlen]
  simp only at hrun
  omega

/-- The frontmatter starts at any line that is a delimiter, not only at the first. -/
theorem frontmatter_first_iff (content : Bytes) :
    FrontmatterFirst content ↔
      ((documentLines content).head? = some delimiter ∨ delimiter ∉ documentLines content) := by
  constructor
  · intro hfirst
    by_cases hhead : (documentLines content).head? = some delimiter
    · exact Or.inl hhead
    · right
      intro hmem
      have hlt := body_loses_delimiter content hmem
      rw [(hfirst.plain hhead).2] at hlt
      omega
  · intro hwhere
    constructor
    · intro hhead
      have hnone := hwhere.resolve_left hhead
      simp [parse_plain content hnone]
    · intro between after hlines hbetween
      rw [parse_delimited content between after hlines hbetween]
      refine ⟨?_, rfl⟩
      intro key
      simp [Frontmatter.get, Overlay.lookup_overlay]

theorem rule_in_text_read_as_frontmatter :
    ¬ FrontmatterFirst (ascii "Text\n---\nname: x\n---\n") := by
  intro hfirst
  have hfields := (hfirst.plain (by decide)).1
  revert hfields
  decide

example : parseFrontmatter (ascii "Text\n---\nname: x\n---\n") = ⟨[(ascii "name", ascii "x")],
    ascii "Text\n"⟩ := by decide

end Euxis.Bridge
