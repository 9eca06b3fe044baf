import Euxis.Sca.CargoLock

/-!
# Layouts of a Cargo.lock

The packages of a lockfile, and the ways of writing them down.
-/

namespace Euxis.Sca.CargoLock

open Sbom

/-! ## Texts -/

def Blanks : Type := { s : Bytes // ∀ b ∈ s, GoSum.isBlank b = true }

/-- What may stand at the end of a line. -/
def Ending : Type := { s : Bytes // ∀ b ∈ s, GoSum.isTrailing b = true ∧ b ≠ ch '\n' }

/-- A text that can stand between quotes. -/
def Quotable : Type := { s : Bytes // ch '"' ∉ s ∧ ch '\n' ∉ s }

/-- A dependency: its name, and a blank and more behind it or nothing. -/
structure Dep where
  text : Quotable
  name_ne_nil : text.1 ≠ []
  name_first : text.1.head? ≠ some (ch ' ')
  no_comma : ch ',' ∉ text.1
  no_open : ch '[' ∉ text.1
  no_close : ch ']' ∉ text.1

def Dep.name (d : Dep) : Bytes := d.text.1.takeWhile (· ≠ ch ' ')

def quoted (s : Quotable) : Bytes := ch '"' :: (s.1 ++ [ch '"'])

/-! ## Packages -/

structure Package where
  name : Quotable
  version : Quotable
  source : Quotable
  checksum : Option Quotable
  dependencies : List Dep
  name_ne_nil : name.1 ≠ []

def Package.entry (p : Package) : ManifestEntry :=
  { name := p.name.1
    version := p.version.1
    source := p.source.1
    hash := p.checksum.map fun c => { algorithm := .sha256, value := c.1 }
    dependsOn := p.dependencies.map Dep.name }

/-! ## Lines -/

inductive Key where
  | name
  | version
  | source
  | checksum
  | dependencies
  deriving DecidableEq, Repr

def Key.text : Key → Bytes
  | name => ascii "name"
  | version => ascii "version"
  | source => ascii "source"
  | checksum => ascii "checksum"
  | dependencies => ascii "dependencies"

structure Margins where
  left : Blanks
  right : Ending

def Margins.around (m : Margins) (body : Bytes) : Bytes := m.left.1 ++ body ++ m.right.1

/-- A line without content: blanks, or a comment. -/
inductive Filler where
  | blank (text : Ending)
  | comment (left : Blanks) (text : Bytes) (one_line : ch '\n' ∉ text)

def Filler.line : Filler → Bytes
  | blank text => text.1
  | comment left text _ => left.1 ++ ch '#' :: text

/-- How `key =` is written. -/
structure Assignment where
  margins : Margins
  before : Blanks
  after : Blanks

def Assignment.view (a : Assignment) (key : Key) (value : Bytes) : Bytes :=
  key.text ++ a.before.1 ++ ch '=' :: (a.after.1 ++ value)

def Assignment.line (a : Assignment) (key : Key) (value : Bytes) : Bytes :=
  a.margins.around (a.view key value)

/-! ## Arrays -/

/-- A line inside an array of several lines. -/
inductive EntryLine where
  | filler (f : Filler)
  | entry (margins : Margins) (dep : Dep) (gap : Blanks) (comma : Bool)

def EntryLine.line : EntryLine → Bytes
  | filler f => f.line
  | entry margins dep gap comma =>
    margins.around (quoted dep.text ++ gap.1 ++ if comma then [ch ','] else [])

def EntryLine.dep? : EntryLine → Option Dep
  | filler _ => none
  | entry _ dep _ _ => some dep

/-- The line that closes an array of several lines: it starts with the bracket. -/
structure CloseLine where
  left : Blanks
  rest : Bytes
  one_line : ch '\n' ∉ rest

def CloseLine.line (c : CloseLine) : Bytes := c.left.1 ++ ch ']' :: c.rest

/-- An entry of an array on one line. -/
structure Part where
  left : Blanks
  dep : Dep
  right : Blanks

def Part.text (p : Part) : Bytes := p.left.1 ++ quoted p.dep.text ++ p.right.1

/-- What stands between the brackets of an array on one line: blanks alone, or entries and, on
demand, one more comma with blanks behind it. -/
inductive OneLine where
  | empty (blanks : Blanks)
  | entries (first : Part) (more : List Part) (trailing : Option Blanks)

def OneLine.parts : OneLine → List Part
  | empty _ => []
  | entries first more _ => first :: more

/-- The text behind the last comma, where there is one that no entry follows. -/
def OneLine.rest : OneLine → Option Blanks
  | empty blanks => some blanks
  | entries _ _ trailing => trailing

def OneLine.text (o : OneLine) : Bytes :=
  Bytes.join (ch ',') (o.parts.map Part.text ++ o.rest.toList.map (·.1))

/-- Blanks in front of the closing bracket, with no entry between them and the last comma. -/
def OneLine.Loose (o : OneLine) : Prop := ∃ blanks ∈ o.rest, blanks.1 ≠ []

/-! ## Sections -/

/-- A part of a package section. -/
inductive Item where
  | filler (f : Filler)
  | field (a : Assignment) (key : Key) (value : Quotable) (plain : key ≠ .dependencies)
  | several (a : Assignment) (lines : List EntryLine) (close : CloseLine)
  | oneLine (a : Assignment) (array : OneLine)

def Item.lines : Item → List Bytes
  | filler f => [f.line]
  | field a key value _ => [a.line key (quoted value)]
  | several a lines close =>
    a.line .dependencies (ascii "[") :: (lines.map EntryLine.line ++ [close.line])
  | oneLine a array => [a.line .dependencies (ch '[' :: (array.text ++ [ch ']']))]

def Item.field? (key : Key) : Item → Option Quotable
  | field _ k value _ => if k = key then some value else none
  | _ => none

def Item.deps? : Item → Option (List Dep)
  | several _ lines _ => some (lines.filterMap EntryLine.dep?)
  | oneLine _ array => some (array.parts.map Part.dep)
  | _ => none

def Item.Loose : Item → Prop
  | oneLine _ array => array.Loose
  | _ => False

/-- A package section: its header line and its items, in any order. -/
structure Section where
  header : Margins
  items : List Item

def Section.lines (s : Section) : List Bytes :=
  s.header.around packageHeader :: s.items.flatMap Item.lines

/-- Every field of the package is written once. A version, a source or a list of dependencies may be
left out when it is empty, and a checksum that is absent is left out. -/
structure Section.Renders (p : Package) (s : Section) : Prop where
  name : s.items.filterMap (Item.field? .name) = [p.name]
  version : s.items.filterMap (Item.field? .version) = [p.version] ∨
    (s.items.filterMap (Item.field? .version) = [] ∧ p.version.1 = [])
  source : s.items.filterMap (Item.field? .source) = [p.source] ∨
    (s.items.filterMap (Item.field? .source) = [] ∧ p.source.1 = [])
  checksum : s.items.filterMap (Item.field? .checksum) = p.checksum.toList
  dependencies : s.items.filterMap Item.deps? = [p.dependencies] ∨
    (s.items.filterMap Item.deps? = [] ∧ p.dependencies = [])

/-- A line that does not open a package. -/
def OtherLine : Type := { line : Bytes // ch '\n' ∉ line ∧ lineView line ≠ packageHeader }

inductive Block where
  | package (s : Section)
  /-- A section of another name, with any lines in it. -/
  | other (header : Margins) (name : Bytes) (no_comment : ch '#' ∉ name) (one_line : ch '\n' ∉ name)
      (no_package : name ≠ ascii "[package]") (lines : List OtherLine)

def Block.lines : Block → List Bytes
  | package s => s.lines
  | other header name _ _ _ lines => header.around (ch '[' :: (name ++ [ch ']'])) :: lines.map (·.1)

def Block.section? : Block → Option Section
  | package s => some s
  | other _ _ _ _ _ _ => none

/-- A whole file: lines in front of the first section, the sections, and perhaps a line feed at the
end. -/
structure Layout where
  preamble : List OtherLine
  blocks : List Block
  terminated : Bool

def Layout.lines (l : Layout) : List Bytes := l.preamble.map (·.1) ++ l.blocks.flatMap Block.lines

def Layout.text (l : Layout) : Bytes :=
  Bytes.join (ch '\n') (l.lines ++ if l.terminated then [[]] else [])

def Layout.sections (l : Layout) : List Section := l.blocks.filterMap Block.section?

def Layout.Renders (l : Layout) (packages : List Package) : Prop :=
  List.Forall₂ Section.Renders packages l.sections

/-- No array of the file has blanks alone in front of its closing bracket. -/
def Layout.Tight (l : Layout) : Prop := ∀ s ∈ l.sections, ∀ item ∈ s.items, ¬ item.Loose

end Euxis.Sca.CargoLock
