import Euxis.Bridge.Frontmatter
import Euxis.Delimited
import Euxis.Gateway.Code
import Euxis.Outcome
import Euxis.Parse

/-!
# Importing a skill

`ClawHubImporter` (`libs/bridge/src/importer.cpp`): the frontmatter of a skill, the check of its
entrypoint, and the metadata beside it.
-/

namespace Euxis.Bridge

open Euxis.Gateway (appendPath)
open Euxis.Delimited (Name Final spell namesOf GoesOn namesOf_spell atSep_spell sep_intercalate)

/-! ## Normal paths -/

def slash : UInt8 := ch '/'

def dots : Bytes := ascii ".."

/-- One part of a path against the parts before it. A `..` that nothing stands before is kept in a
relative path only. -/
def normalStep (absolute : Bool) (kept : List Bytes) (part : Bytes) : List Bytes :=
  if part = [] ∨ part = ascii "." then kept
  else if part = dots then
    if kept ≠ [] ∧ kept.getLast? ≠ some dots then kept.dropLast
    else if absolute then kept
    else kept ++ [part]
  else kept ++ [part]

/-- A path that ends in a slash, in `.` or in a `..` that was resolved ends in a slash. -/
def keepsSlash (parts kept : List Bytes) : Bool :=
  parts.getLast? ∈ [some [], some (ascii "."), some dots] && kept ≠ [] && kept.getLast? ≠ some dots

/-- `path::lexically_normal`. -/
def lexicallyNormal (path : Bytes) : Bytes :=
  if path = [] then []
  else
    let absolute : Bool := path.head? = some slash
    let parts := path.splitOn slash
    let kept := parts.foldl (normalStep absolute) []
    if !absolute && kept = [] then ascii "."
    else (if absolute then [slash] else []) ++ [slash].intercalate kept ++
      (if keepsSlash parts kept then [slash] else [])

example : lexicallyNormal (ascii "/a/./b/../c//d/..") = ascii "/a/c/" := by decide

example : lexicallyNormal (ascii "../a/..") = ascii ".." := by decide

/-! ## The importer -/

structure BridgedSkill where
  name : Bytes
  slug : Bytes
  sourceDir : Bytes
  description : Bytes
  runtime : Bytes
  entrypoint : Bytes
  tags : List Bytes
  metadata : Json
  signaturePath : Option Bytes
  outputSchema : Option Json

/-- What can be read under a path, and whether anything is there. -/
structure Disk where
  read : Bytes → Option Bytes
  present : Bytes → Bool

/-- The check of the entrypoint: the path that is stored, or the message. -/
def checkEntrypoint (skillDir entrypoint : Bytes) : Except Bytes Bytes :=
  let resolvedEntry := lexicallyNormal (appendPath skillDir entrypoint)
  if Bytes.contains resolvedEntry dots || !(lexicallyNormal skillDir).isPrefixOf resolvedEntry then
    .error (ascii "Entrypoint path escapes skill directory: " ++ entrypoint)
  else .ok resolvedEntry

/-- The tags, separated by commas; a blank one is left out. -/
def parseTags (tagsStr : Bytes) : List Bytes :=
  ((tagsStr.splitOn (ch ',')).map trim).filter (· ≠ [])

def mergedDescription (skill : BridgedSkill) (openclaw : Json) : Except JsonError Bytes :=
  match openclaw.find (ascii "description") with
  | some v => if skill.description = [] then v.getStr else .ok skill.description
  | none => .ok skill.description

def mergeMetadata (skill : BridgedSkill) (openclaw : Json) : Except JsonError BridgedSkill := do
  let description ← mergedDescription skill openclaw
  let metadata := match openclaw.find (ascii "metadata") with
    | some v => v.items.foldl (fun metadata item => metadata.set item.1 item.2) skill.metadata
    | none => skill.metadata
  return { skill with
    description := description
    outputSchema := (openclaw.find (ascii "output_schema")).or skill.outputSchema
    metadata := metadata }

/-- The skill with `openclaw.json` merged into it, when that file is there and parses. -/
def withOpenclaw (codec : JsonCodec) (disk : Disk) (skillDir : Bytes) (skill : BridgedSkill) :
    Except JsonError BridgedSkill :=
  let openclawPath := appendPath skillDir (ascii "openclaw.json")
  match (if disk.present openclawPath then disk.read openclawPath else none) >>= codec.parse with
  | some openclaw => mergeMetadata skill openclaw
  | none => .ok skill

/-- An error of the code's own is in the inner result, an exception in the outer one. -/
def importSkill (codec : JsonCodec) (disk : Disk) (skillDir : Bytes) :
    Except JsonError (Except Bytes BridgedSkill) :=
  match parseSkillFile (disk.read (appendPath skillDir (ascii "SKILL.md"))) with
  | none => .ok (.error (ascii "Failed to parse SKILL.md in " ++ skillDir))
  | some fm =>
    let name := (fm.get (ascii "name")).getD (Parse.filename skillDir)
    let entrypoint := (fm.get (ascii "entrypoint")).getD (ascii "index.js")
    match checkEntrypoint skillDir entrypoint with
    | .error message => .ok (.error message)
    | .ok resolvedEntry => do
      let sigPath := appendPath skillDir (entrypoint ++ ascii ".sig")
      let skill ← withOpenclaw codec disk skillDir
        { name := name
          slug := (fm.get (ascii "slug")).getD name
          sourceDir := skillDir
          description := (fm.get (ascii "description")).getD []
          runtime := (fm.get (ascii "runtime")).getD (ascii "node")
          entrypoint := resolvedEntry
          tags := parseTags ((fm.get (ascii "tags")).getD [])
          metadata := .null
          signaturePath := if disk.present sigPath then some sigPath else none
          outputSchema := none }
      return .ok { skill with
        metadata := (skill.metadata.set (ascii "source") (.str (ascii "clawhub"))).set
          (ascii "imported_from")
          (.str skillDir) }

theorem withOpenclaw_entrypoint (codec : JsonCodec) (disk : Disk) (skillDir : Bytes)
    (skill merged : BridgedSkill) (h : withOpenclaw codec disk skillDir skill = .ok merged) :
    merged.entrypoint = skill.entrypoint := by
  unfold withOpenclaw at h
  dsimp only at h
  split at h
  · obtain ⟨description, -, h⟩ := Outcome.ok_of_bind h
    injection h with h
    rw [← h]
  · injection h with h
    rw [← h]

theorem importSkill_entrypoint (codec : JsonCodec) (disk : Disk) (skillDir : Bytes)
    (skill : BridgedSkill) (h : importSkill codec disk skillDir = .ok (.ok skill)) :
    ∃ fm, parseSkillFile (disk.read (appendPath skillDir (ascii "SKILL.md"))) = some fm ∧
      checkEntrypoint skillDir ((fm.get (ascii "entrypoint")).getD (ascii "index.js")) =
        .ok skill.entrypoint := by
  unfold importSkill at h
  split at h
  · exact absurd h (by simp)
  · rename_i fm hfm
    refine ⟨fm, hfm, ?_⟩
    dsimp only at h
    split at h
    · exact absurd h (by simp)
    · rename_i resolvedEntry hcheck
      obtain ⟨merged, hmerged, h⟩ := Outcome.ok_of_bind h
      injection h with h
      injection h with h
      rw [hcheck, ← h]
      exact congrArg _ (withOpenclaw_entrypoint _ _ _ _ _ hmerged).symm

/-! ## Absolute paths in normal form -/

theorem normalStep_names (kept : List Bytes) (part : Bytes) (hpart : slash ∉ part)
    (hkept : ∀ name ∈ kept, Name slash name) :
    ∀ name ∈ normalStep true kept part, Name slash name := by
  simp only [normalStep, if_true]
  split_ifs with hskip hdots hpop
  · exact hkept
  · intro name hname
    exact hkept name (List.dropLast_subset _ hname)
  · exact hkept
  · rw [not_or] at hskip
    intro name hname
    rcases List.mem_append.mp hname with hold | hnew
    · exact hkept name hold
    · rw [List.mem_singleton.mp hnew]
      exact ⟨hskip.1, hpart⟩

theorem foldl_normalStep_names (parts kept : List Bytes) (hparts : ∀ part ∈ parts, slash ∉ part)
    (hkept : ∀ name ∈ kept, Name slash name) :
    ∀ name ∈ parts.foldl (normalStep true) kept, Name slash name := by
  induction parts generalizing kept with
  | nil => exact hkept
  | cons part rest ih =>
    exact ih _ (fun p hp => hparts p (List.mem_cons_of_mem _ hp))
      (normalStep_names kept part (hparts part List.mem_cons_self) hkept)

/-- The path is its names, each behind a slash, and perhaps one slash more. -/
structure Spelled (path : Bytes) : Prop where
  absolute : path.head? = some slash
  names : ∀ name ∈ namesOf slash path, Name slash name
  text : ∃ tail, Final slash tail ∧ path = spell slash (namesOf slash path) ++ tail

theorem Spelled.of_names {names : List Bytes} {tail : Bytes}
    (hnames : ∀ name ∈ names, Name slash name) (htail : Final slash tail)
    (hne : spell slash names ++ tail ≠ []) : Spelled (spell slash names ++ tail) := by
  have hread := namesOf_spell hnames htail
  refine ⟨(atSep_spell names htail.atSep).resolve_left hne, ?_, tail, htail, ?_⟩
  · rw [hread]
    exact hnames
  · rw [hread]

theorem lexicallyNormal_spelled (path : Bytes) (habs : path.head? = some slash) :
    Spelled (lexicallyNormal path) := by
  have hne : path ≠ [] := by
    rintro rfl
    exact absurd habs (by simp)
  have hparts : ∀ part ∈ path.splitOn slash, slash ∉ part := fun part hpart hmem =>
    (Bytes.mem_splitOn slash path part hpart slash hmem).2 rfl
  have hnames := foldl_normalStep_names _ [] hparts (by simp)
  unfold lexicallyNormal
  simp only [hne, if_false, habs, decide_true, Bool.not_true, Bool.false_and, Bool.false_eq_true,
    if_true]
  generalize (path.splitOn slash).foldl (normalStep true) [] = names at hnames ⊢
  by_cases hroot : names = []
  · subst hroot
    have hslash : [slash] ++ [slash].intercalate [] ++ (if keepsSlash (path.splitOn slash) [] then
        [slash] else []) = spell slash [] ++ [slash] := by
      simp [keepsSlash]
    rw [hslash]
    exact Spelled.of_names (by simp) (Or.inr rfl) (by simp)
  · rw [List.singleton_append, sep_intercalate names hroot]
    refine Spelled.of_names hnames ?_ ?_
    · split
      · exact Or.inr rfl
      · exact Or.inl rfl
    · obtain ⟨name, rest, rfl⟩ := List.exists_cons_of_ne_nil hroot
      simp

theorem appendPath_absolute (dir path : Bytes) (habs : dir.head? = some slash) :
    (appendPath dir path).head? = some slash := by
  unfold appendPath
  split_ifs with hpath
  · exact hpath
  · simp [habs]
  · simp [habs]

/-! ## Inside the skill -/

/-- The path is absolute, and its names begin with those of the directory. -/
def Inside (skillDir path : Bytes) : Prop :=
  path.head? = some slash ∧ namesOf slash (lexicallyNormal skillDir) <+: namesOf slash path

/-- The entrypoint leads to a place beside the skill, whose name is that of the skill with more
behind it. -/
structure BesideSkill (skillDir entrypoint : Bytes) : Prop where
  no_slash : (lexicallyNormal skillDir).getLast? ≠ some slash
  no_dots : Bytes.contains (lexicallyNormal (appendPath skillDir entrypoint)) dots = false
  goes_on : GoesOn (namesOf slash (lexicallyNormal skillDir))
    (namesOf slash (lexicallyNormal (appendPath skillDir entrypoint)))

theorem checkEntrypoint_ok (skillDir entrypoint path : Bytes) :
    checkEntrypoint skillDir entrypoint = .ok path ↔
      path = lexicallyNormal (appendPath skillDir entrypoint) ∧ Bytes.contains path dots = false ∧
        lexicallyNormal skillDir <+: path := by
  unfold checkEntrypoint
  dsimp only
  split_ifs with hrefused
  · constructor
    · nofun
    · rintro ⟨rfl, hdots, hprefix⟩
      rw [hdots, List.isPrefixOf_iff_prefix.mpr hprefix] at hrefused
      exact absurd hrefused (by simp)
  · simp only [Bool.or_eq_true, Bool.not_eq_true', List.isPrefixOf_iff_prefix, not_or,
      Bool.not_eq_true, Bool.not_eq_false] at hrefused
    constructor
    · intro h
      injection h with h
      subst h
      exact ⟨rfl, hrefused.1, hrefused.2⟩
    · rintro ⟨rfl, -, -⟩
      rfl

theorem BesideSkill.accepted {skillDir entrypoint : Bytes} (habs : skillDir.head? = some slash)
    (h : BesideSkill skillDir entrypoint) :
    checkEntrypoint skillDir entrypoint =
      .ok (lexicallyNormal (appendPath skillDir entrypoint)) := by
  rw [checkEntrypoint_ok]
  refine ⟨rfl, h.no_dots, ?_⟩
  obtain ⟨tail, htail, hdir⟩ := (lexicallyNormal_spelled skillDir habs).text
  obtain ⟨tail', -, hentry⟩ :=
    (lexicallyNormal_spelled _ (appendPath_absolute skillDir entrypoint habs)).text
  have hno := h.no_slash
  rcases htail with rfl | rfl
  · rw [hdir, hentry, List.append_nil]
    exact (Delimited.spell_prefix_of_goesOn h.goes_on).trans (List.prefix_append _ _)
  · rw [hdir] at hno
    exact absurd (by simp) hno

theorem inside_or_beside (skillDir entrypoint path : Bytes) (habs : skillDir.head? = some slash)
    (hok : checkEntrypoint skillDir entrypoint = .ok path) :
    Inside skillDir path ∨ BesideSkill skillDir entrypoint := by
  obtain ⟨rfl, hdots, hprefix⟩ := (checkEntrypoint_ok skillDir entrypoint path).mp hok
  have hskill := lexicallyNormal_spelled skillDir habs
  have hstored := lexicallyNormal_spelled _ (appendPath_absolute skillDir entrypoint habs)
  obtain ⟨tail, htail, hdir⟩ := hskill.text
  obtain ⟨tail', htail', hentry⟩ := hstored.text
  have htext := hprefix
  rw [hdir, hentry] at htext
  rcases htail with rfl | rfl
  · rw [List.append_nil] at htext hdir
    rcases Delimited.prefix_or_goesOn hskill.names hstored.names htail' htext with hnames | hgoes
    · exact Or.inl ⟨hstored.absolute, hnames⟩
    · refine Or.inr ⟨?_, hdots, hgoes⟩
      rw [hdir]
      exact hgoes.getLast_ne hskill.names
  · exact Or.inl ⟨hstored.absolute, Delimited.prefix_of_sep hskill.names hstored.names htail' htext⟩

theorem BesideSkill.not_inside {skillDir entrypoint : Bytes} (h : BesideSkill skillDir entrypoint) :
    ¬ Inside skillDir (lexicallyNormal (appendPath skillDir entrypoint)) :=
  fun hinside => h.goes_on.not_prefix hinside.2

theorem imported_inside (codec : JsonCodec) (disk : Disk) (skillDir : Bytes) (skill : BridgedSkill)
    (habs : skillDir.head? = some slash) (h : importSkill codec disk skillDir = .ok (.ok skill))
    (hbeside : ∀ fm, parseSkillFile (disk.read (appendPath skillDir (ascii "SKILL.md"))) = some fm →
      ¬ BesideSkill skillDir ((fm.get (ascii "entrypoint")).getD (ascii "index.js"))) :
      Inside skillDir skill.entrypoint := by
  obtain ⟨fm, hfm, hok⟩ := importSkill_entrypoint codec disk skillDir skill h
  exact (inside_or_beside _ _ _ habs hok).resolve_right (hbeside fm hfm)

/-- A prefix of bytes stands in for a prefix of names: a name that only begins as the skill's is
accepted too. -/
theorem entrypoint_inside_iff (skillDir entrypoint : Bytes) (habs : skillDir.head? = some slash) :
    (∀ path, checkEntrypoint skillDir entrypoint = .ok path → Inside skillDir path) ↔
      ¬ BesideSkill skillDir entrypoint := by
  constructor
  · intro hinside hbeside
    exact hbeside.not_inside (hinside _ (hbeside.accepted habs))
  · intro hbeside path hok
    exact (inside_or_beside skillDir entrypoint path habs hok).resolve_right hbeside

theorem entrypoint_inside_at_default :
    (ascii "/skills/a").head? = some slash ∧ ¬ BesideSkill (ascii "/skills/a") (ascii "index.js") ∧
      checkEntrypoint (ascii "/skills/a") (ascii "index.js") = .ok (ascii "/skills/a/index.js") ∧
      Inside (ascii "/skills/a") (ascii "/skills/a/index.js") := by
  have hnot : ¬ BesideSkill (ascii "/skills/a") (ascii "index.js") := by
    intro h
    apply h.goes_on.not_prefix
    decide
  have hok : checkEntrypoint (ascii "/skills/a") (ascii "index.js") =
      .ok (ascii "/skills/a/index.js") := by decide
  exact ⟨by decide, hnot, hok, (entrypoint_inside_iff _ _ (by decide)).mpr hnot _ hok⟩

theorem entrypoint_in_other_skill :
    checkEntrypoint (ascii "/skills/a") (ascii "../ab/x.js") = .ok (ascii "/skills/ab/x.js") ∧
      ¬ Inside (ascii "/skills/a") (ascii "/skills/ab/x.js") := by
  refine ⟨by decide, ?_⟩
  rintro ⟨-, hnames⟩
  revert hnames
  decide

end Euxis.Bridge
