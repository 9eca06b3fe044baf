import Euxis.Audit.Code
import Euxis.Merge
import Euxis.Sca.Code

/-!
# go.sum: `libs/sca/src/go_sum.cpp`

A module has one line for its zip file and one for its go.mod file, in any order and at any
distance. The parser makes one entry of them.
-/

namespace Euxis.Sca.GoSum

open Sbom

/-! ## Lines -/

def isBlank (b : UInt8) : Bool := b = ch ' ' ∨ b = ch '\t'

def isTrailing (b : UInt8) : Bool := isBlank b ∨ b = ch '\r' ∨ b = ch '\n'

def trim (s : Bytes) : Bytes := ((s.dropWhile isBlank).reverse.dropWhile isTrailing).reverse

/-- At most `n` fields. -/
def fields : Nat → Bytes → List Bytes
  | 0, _ => []
  | n + 1, line =>
    let rest := line.dropWhile isBlank
    let token := rest.takeWhile fun b => !isBlank b
    if token = [] then [] else token :: fields n (rest.dropWhile fun b => !isBlank b)

def goModTail : Bytes := ascii "/go.mod"

/-- A line with three fields. The version is without its tail. -/
structure GoLine where
  module : Bytes
  version : Bytes
  isGoMod : Bool
  hash : Bytes
  deriving DecidableEq, Repr

def readLine (raw : Bytes) : Option GoLine :=
  let line := trim raw
  if line = [] ∨ line.head? = some (ch '#') then none
  else
    match fields 3 line with
    | [module, version, hash] =>
      if goModTail.isSuffixOf version then
        some { module, version := version.take (version.length - goModTail.length), isGoMod := true,
               hash }
      else some { module, version, isGoMod := false, hash }
    | _ => none

/-! ## Blanks around a line -/

theorem blank_isTrailing {b : UInt8} (h : isBlank b = true) : isTrailing b = true := by
  simp only [isTrailing, h, true_or, decide_true]

/-- A text that starts with no blank and ends with none. -/
structure Trimmed (body : Bytes) : Prop where
  first : ∀ b ∈ body.head?, isBlank b = false
  last : ∀ b ∈ body.getLast?, isTrailing b = false

theorem trimmed_iff (body : Bytes) :
    (body.head?.all fun b => !isBlank b) = true ∧
      (body.getLast?.all fun b => !isTrailing b) = true ↔ Trimmed body := by
  simp only [Option.all_eq_true, Bool.not_eq_true']
  constructor
  · intro h
    exact ⟨h.1, h.2⟩
  · intro h
    exact ⟨h.first, h.last⟩

-- Only the two ends are looked at; the fields themselves range over all bytes.
instance (body : Bytes) : Decidable (Trimmed body) := decidable_of_iff _ (trimmed_iff body)

theorem dropWhile_of_head {p : UInt8 → Bool} (s : Bytes) (h : ∀ b ∈ s.head?, p b = false) :
    s.dropWhile p = s := by
  cases s with
  | nil => rfl
  | cons b rest => exact List.dropWhile_cons_of_neg (by simp [h b rfl])

theorem trim_blanks (s : Bytes) (h : ∀ b ∈ s, isTrailing b = true) : trim s = [] := by
  unfold trim
  rw [List.reverse_eq_nil_iff, List.dropWhile_eq_nil_iff]
  intro b hb
  exact h b ((List.dropWhile_suffix _).subset (List.mem_reverse.mp hb))

theorem trim_around (left body right : Bytes) (hleft : ∀ b ∈ left, isBlank b = true)
    (hright : ∀ b ∈ right, isTrailing b = true) (hbody : Trimmed body) :
    trim (left ++ body ++ right) = body := by
  by_cases hnil : body = []
  · subst hnil
    apply trim_blanks
    intro b hb
    rcases List.mem_append.mp (by simpa using hb) with hb | hb
    · exact blank_isTrailing (hleft b hb)
    · exact hright b hb
  · unfold trim
    rw [List.append_assoc, List.dropWhile_append_of_pos hleft, dropWhile_of_head (body ++ right),
      List.reverse_append, List.dropWhile_append_of_pos, dropWhile_of_head, List.reverse_reverse]
    · intro b hb
      rw [List.head?_reverse] at hb
      exact hbody.last b hb
    · intro b hb
      exact hright b (List.mem_reverse.mp hb)
    · intro b hb
      rw [List.head?_append_of_ne_nil _ hnil] at hb
      exact hbody.first b hb

theorem Trimmed.append {x y : Bytes} (hx : Trimmed x) (hy : Trimmed y) (hxne : x ≠ [])
    (hyne : y ≠ []) (between : Bytes) : Trimmed (x ++ (between ++ y)) where
  first := by
    rw [List.head?_append_of_ne_nil _ hxne]
    exact hx.first
  last := by
    rw [List.getLast?_append_of_ne_nil _ (by simp [hyne]), List.getLast?_append_of_ne_nil _ hyne]
    exact hy.last

theorem trim_trimmed (s : Bytes) : Trimmed (trim s) where
  first := by
    intro b hb
    have hfront := List.head?_dropWhile_not isBlank s
    have hprefix : trim s <+: s.dropWhile isBlank := by
      rw [trim, ← List.reverse_suffix, List.reverse_reverse]
      exact List.dropWhile_suffix _
    obtain ⟨more, hmore⟩ := hprefix
    have hne : trim s ≠ [] := by
      intro hnil
      rw [hnil] at hb
      cases hb
    rw [← hmore, List.head?_append_of_ne_nil _ hne, Option.mem_def.mp hb] at hfront
    exact hfront
  last := by
    intro b hb
    have hback := List.head?_dropWhile_not isTrailing (s.dropWhile isBlank).reverse
    rw [trim, List.getLast?_reverse] at hb
    rw [Option.mem_def.mp hb] at hback
    exact hback

theorem trim_within (s : Bytes) :
    ∃ left right, s = left ++ trim s ++ right ∧ (∀ b ∈ left, isBlank b = true) ∧
      ∀ b ∈ right, isTrailing b = true := by
  refine ⟨s.takeWhile isBlank, ((s.dropWhile isBlank).reverse.takeWhile isTrailing).reverse, ?_, ?_,
    ?_⟩
  · rw [trim, List.append_assoc, ← List.reverse_append, List.takeWhile_append_dropWhile,
      List.reverse_reverse, List.takeWhile_append_dropWhile]
  · intro b hb
    exact List.mem_takeWhile_imp hb
  · intro b hb
    exact List.mem_takeWhile_imp (List.mem_reverse.mp hb)

/-! ## The format of a line -/

/-- A text without blanks. -/
structure Field (word : Bytes) : Prop where
  ne_nil : word ≠ []
  free : ∀ b ∈ word, isBlank b = false

/-- The blanks between two fields. -/
structure Gap (s : Bytes) : Prop where
  ne_nil : s ≠ []
  blank : ∀ b ∈ s, isBlank b = true

/-- Three fields with blanks between them. Behind the third one a blank may follow, and anything
behind that. -/
structure ThreeFields (line module version hash : Bytes) : Prop where
  fields : Field module ∧ Field version ∧ Field hash
  spaced : ∃ gap gap' rest, Gap gap ∧ Gap gap' ∧ (∀ b ∈ rest.head?, isBlank b = true) ∧
    line = module ++ (gap ++ (version ++ (gap' ++ (hash ++ rest))))

/-- The zip line of a module names its version, the go.mod line its version and the file. -/
inductive Says (line : Bytes) : GoLine → Prop
  | zip {module version hash : Bytes} : ThreeFields line module version hash →
      ¬ goModTail <:+ version → Says line { module, version, isGoMod := false, hash }
  | goMod {module version hash : Bytes} : ThreeFields line module (version ++ goModTail) hash →
      Says line { module, version, isGoMod := true, hash }

/-- The line may have blanks around it, and is no comment. -/
def LineSays (raw : Bytes) (l : GoLine) : Prop :=
  ∃ left line right, raw = left ++ line ++ right ∧ (∀ b ∈ left, isBlank b = true) ∧
    (∀ b ∈ right, isTrailing b = true) ∧ Trimmed line ∧ line.head? ≠ some (ch '#') ∧ Says line l

theorem fields_cons_iff (n : Nat) (line word : Bytes) (more : List Bytes) :
    fields (n + 1) line = word :: more ↔
      ∃ left rest, (∀ b ∈ left, isBlank b = true) ∧ Field word ∧
        (∀ b ∈ rest.head?, isBlank b = true) ∧
        line = left ++ (word ++ rest) ∧ fields n rest = more := by
  constructor
  · intro h
    rw [fields] at h
    split at h
    · cases h
    · rename_i hne
      obtain ⟨hword, hmore⟩ := List.cons.inj h
      refine ⟨line.takeWhile isBlank, _, fun b hb => List.mem_takeWhile_imp hb, ⟨hword ▸ hne, ?_⟩,
        ?_, ?_, hmore⟩
      · intro b hb
        rw [← hword] at hb
        simpa using List.mem_takeWhile_imp hb
      · intro b hb
        have hstop := List.head?_dropWhile_not (fun b => !isBlank b) (line.dropWhile isBlank)
        rw [Option.mem_def.mp hb] at hstop
        simpa using hstop
      · rw [← hword, List.takeWhile_append_dropWhile, List.takeWhile_append_dropWhile]
  · rintro ⟨left, rest, hleft, hword, hrest, rfl, rfl⟩
    have hfront : (word ++ rest).head?.all fun b => !isBlank b := by
      cases word with
      | nil => exact absurd rfl hword.ne_nil
      | cons b word => simp [hword.free b List.mem_cons_self]
    have hskip : (left ++ (word ++ rest)).dropWhile isBlank = word ++ rest := by
      rw [List.dropWhile_append_of_pos hleft, dropWhile_of_head]
      intro b hb
      rw [Option.mem_def.mp hb] at hfront
      simpa using hfront
    have hfree : ∀ b ∈ word, (!isBlank b) = true := by
      intro b hb
      rw [hword.free b hb]
      rfl
    -- The rest begins with a blank, so the word ends where the field does.
    have hstop : rest.dropWhile (fun b => !isBlank b) = rest := by
      apply dropWhile_of_head
      intro b hb
      rw [hrest b hb]
      rfl
    have htake : rest.takeWhile (fun b => !isBlank b) = [] := by
      have hboth : rest.takeWhile (fun b => !isBlank b) ++ rest.dropWhile (fun b => !isBlank b) =
          rest :=
        List.takeWhile_append_dropWhile
      rw [hstop] at hboth
      exact List.append_left_eq_self.mp hboth
    rw [fields, hskip, List.takeWhile_append_of_pos hfree, List.dropWhile_append_of_pos hfree,
      hstop, htake, List.append_nil, if_neg hword.ne_nil]

theorem gap_of_head {left word rest : Bytes} (hleft : ∀ b ∈ left, isBlank b = true)
    (hword : Field word) (hhead : ∀ b ∈ (left ++ (word ++ rest)).head?, isBlank b = true) :
    Gap left := by
  refine ⟨?_, hleft⟩
  rintro rfl
  cases word with
  | nil => exact hword.ne_nil rfl
  | cons b word =>
    have hblank := hhead b rfl
    rw [hword.free b List.mem_cons_self] at hblank
    cases hblank

theorem Gap.head {gap : Bytes} (h : Gap gap) (rest : Bytes) :
    ∀ b ∈ (gap ++ rest).head?, isBlank b = true := by
  intro b hb
  rw [List.head?_append_of_ne_nil _ h.ne_nil] at hb
  exact h.blank b (List.mem_of_mem_head? hb)

theorem threeFields_iff {line : Bytes} (hline : Trimmed line) (module version hash : Bytes) :
    fields 3 line = [module, version, hash] ↔ ThreeFields line module version hash := by
  simp only [fields_cons_iff]
  constructor
  · rintro ⟨left, rest, hleft, hmodule, hrest, rfl, left', rest', hleft', hversion, hrest', rfl,
      left'', rest'', hleft'', hhash, hrest'', rfl, -⟩
    have hnone : left = [] := by
      cases left with
      | nil => rfl
      | cons b left =>
        have hblank := hleft b List.mem_cons_self
        rw [hline.first b rfl] at hblank
        cases hblank
    subst hnone
    exact ⟨⟨hmodule, hversion, hhash⟩, left', left'', rest'', gap_of_head hleft' hversion hrest,
      gap_of_head hleft'' hhash hrest', hrest'', rfl⟩
  · rintro ⟨⟨hmodule, hversion, hhash⟩, gap, gap', rest, hgap, hgap', hrest, rfl⟩
    exact ⟨[], _, by simp, hmodule, hgap.head _, rfl, gap, _, hgap.blank, hversion, hgap'.head _, rfl, gap', rest,
      hgap'.blank, hhash, hrest, rfl, rfl⟩

/-- The reader reads what the format says. -/
theorem readLine_iff (raw : Bytes) (l : GoLine) : readLine raw = some l ↔ LineSays raw l := by
  constructor
  · intro h
    unfold readLine at h
    simp only at h
    split at h
    · cases h
    · rename_i hcode
      rw [not_or] at hcode
      obtain ⟨left, right, hraw, hleft, hright⟩ := trim_within raw
      refine ⟨left, trim raw, right, hraw, hleft, hright, trim_trimmed raw, hcode.2, ?_⟩
      split at h
      · rename_i module version hash hfields
        have hthree := (threeFields_iff (trim_trimmed raw) module version hash).mp hfields
        split at h
        · rename_i htail
          obtain ⟨front, hfront⟩ := List.isSuffixOf_iff_suffix.mp htail
          -- The reader takes the tail off again by its length.
          have hcut : version.take (version.length - goModTail.length) = front := by
            rw [← hfront, List.length_append, Nat.add_sub_cancel, List.take_left]
          rw [hcut] at h
          rw [← Option.some.inj h]
          exact .goMod (hfront ▸ hthree)
        · rename_i htail
          rw [← Option.some.inj h]
          exact .zip hthree fun hsuffix => htail (List.isSuffixOf_iff_suffix.mpr hsuffix)
      · cases h
  · rintro ⟨left, line, right, rfl, hleft, hright, hline, hcomment, hsays⟩
    unfold readLine
    rw [trim_around left line right hleft hright hline]
    simp only
    have hne : ∀ module version hash, ThreeFields line module version hash → line ≠ [] := by
      rintro module version hash ⟨⟨hmodule, -, -⟩, gap, gap', rest, -, -, -, rfl⟩
      simp [hmodule.ne_nil]
    cases hsays with
    | zip hthree htail =>
      rw [if_neg (not_or.mpr ⟨hne _ _ _ hthree, hcomment⟩),
        (threeFields_iff hline _ _ _).mpr hthree]
      simp only
      rw [if_neg fun hsuffix => htail (List.isSuffixOf_iff_suffix.mp hsuffix)]
    | goMod hthree =>
      rw [if_neg (not_or.mpr ⟨hne _ _ _ hthree, hcomment⟩),
        (threeFields_iff hline _ _ _).mpr hthree]
      simp only
      rw [if_pos (List.isSuffixOf_iff_suffix.mpr (List.suffix_append _ _)), List.length_append,
        Nat.add_sub_cancel, List.take_left]

/-! ## Entries -/

def splitModule (path : Bytes) : Bytes × Bytes := (Bytes.cutLast (ch '/') path).getD ([], path)

/-- The hash stays base64. -/
def readHash (hash : Bytes) : Option Hash :=
  if (ascii "h1:").isPrefixOf hash then some { algorithm := .sha256, value := hash.drop 3 }
  else none

def GoLine.key (l : GoLine) : Bytes := l.module ++ ch '@' :: l.version

def newEntry (l : GoLine) : ManifestEntry :=
  { ns := (splitModule l.module).1, name := (splitModule l.module).2, version := l.version,
    hash := readHash l.hash }

/-- `order` and `dedup`. -/
abbrev State := Merge.Index Bytes ManifestEntry

def addLine (s : State) (l : GoLine) : State :=
  match s.entry l.key with
  | none =>
    { order := s.order ++ [l.key], entry := Function.update s.entry l.key (some (newEntry l)) }
  | some e =>
    if ¬ l.isGoMod ∧ (ascii "h1:").isPrefixOf l.hash then
      { s with entry := Function.update s.entry l.key (some { e with hash := readHash l.hash }) }
    else s

def parseGoSum (contents source : Bytes) : Except ParseError LockManifest :=
  let lines := Audit.getLines contents
  let s := (lines.filterMap readLine).foldl addLine {}
  let entries := s.order.map fun key => (s.entry key).getD { name := [], version := [] }
  if entries = [] then
    .error { message := ascii "No module entries found in go.sum", file := source,
             line := lines.length }
  else .ok { ecosystem := .golang, entries, sourceFile := source }

/-! ## One entry for each module -/

/-- What a later line of the same module does to the entry. -/
def changeEntry (e : ManifestEntry) (l : GoLine) : ManifestEntry :=
  if ¬ l.isGoMod ∧ (ascii "h1:").isPrefixOf l.hash then { e with hash := readHash l.hash } else e

theorem addLine_eq : addLine = Merge.add GoLine.key newEntry changeEntry := by
  funext s l
  unfold addLine Merge.add changeEntry
  cases he : s.entry l.key with
  | none => rfl
  | some e =>
    simp only
    split
    · rfl
    · rw [← he, Function.update_eq_self]

def records (contents : Bytes) : List GoLine := (Audit.getLines contents).filterMap readLine

theorem mem_records_iff (contents : Bytes) (l : GoLine) :
    l ∈ records contents ↔ ∃ raw ∈ Audit.getLines contents, LineSays raw l := by
  simp only [records, List.mem_filterMap, readLine_iff]

def GoLine.id (l : GoLine) : Bytes × Bytes := (l.module, l.version)

structure WellFormed (records : List GoLine) : Prop where
  modules : ∀ l ∈ records, ch '@' ∉ l.module
  hashes : ∀ l ∈ records, ascii "h1:" <+: l.hash
  repeated : ∀ l ∈ records, ∀ l' ∈ records, l.id = l'.id → l.isGoMod = l'.isGoMod → l.hash = l'.hash

/-- The zip line of a module, and its go.mod line where it has no zip line. -/
def hashLine (records : List GoLine) (id : Bytes × Bytes) : Option GoLine :=
  (records.find? fun l => l.id = id ∧ ¬ l.isGoMod).or (records.find? fun l => l.id = id ∧ l.isGoMod)

/-- What the entry of a module should be. -/
def expected (records : List GoLine) (id : Bytes × Bytes) : ManifestEntry :=
  { ns := (splitModule id.1).1, name := (splitModule id.1).2, version := id.2,
    hash := (hashLine records id).map fun l => { algorithm := .sha256, value := l.hash.drop 3 } }

theorem readHash_h1 (hash : Bytes) (h : ascii "h1:" <+: hash) :
    readHash hash = some { algorithm := .sha256, value := hash.drop 3 } := by
  unfold readHash
  rw [if_pos (List.isPrefixOf_iff_prefix.mpr h)]

theorem key_eq_iff (l l' : GoLine) (h : ch '@' ∉ l.module) (h' : ch '@' ∉ l'.module) :
    l.key = l'.key ↔ l.id = l'.id := by
  constructor
  · intro hkey
    obtain ⟨hmodule, hversion⟩ := Bytes.append_cons_inj h h' hkey
    exact Prod.ext hmodule hversion
  · intro hid
    obtain ⟨hmodule, hversion⟩ := Prod.mk.inj hid
    rw [GoLine.key, GoLine.key, hmodule, hversion]

theorem hashLine_spec (records : List GoLine) (id : Bytes × Bytes)
    (hid : ∃ l ∈ records, l.id = id) :
    ∃ l ∈ records, hashLine records id = some l ∧ l.id = id ∧
      (l.isGoMod = true → ∀ l' ∈ records, l'.id = id → l'.isGoMod = true) := by
  unfold hashLine
  cases hzip : records.find? fun l => l.id = id ∧ ¬ l.isGoMod with
  | some l =>
    have hl := List.find?_some hzip
    simp only [decide_eq_true_eq] at hl
    exact ⟨l, List.mem_of_find?_eq_some hzip, rfl, hl.1, fun hmod => absurd hmod hl.2⟩
  | none =>
    rw [List.find?_eq_none] at hzip
    have hmods : ∀ l' ∈ records, l'.id = id → l'.isGoMod = true := by
      intro l' hl' hid'
      by_contra hmod
      exact hzip l' hl' (by simp [hid', hmod])
    cases hmod : records.find? fun l => l.id = id ∧ l.isGoMod with
    | some l =>
      have hl := List.find?_some hmod
      simp only [decide_eq_true_eq] at hl
      exact ⟨l, List.mem_of_find?_eq_some hmod, rfl, hl.1, fun _ => hmods⟩
    | none =>
      rw [List.find?_eq_none] at hmod
      obtain ⟨l, hl, hid⟩ := hid
      exact absurd (show _ = true by simp [hid, hmods l hl hid]) (hmod l hl)

/-! ## The entry of one module -/

theorem foldl_changeEntry_mods (later : List GoLine) (e : ManifestEntry)
    (h : ∀ l ∈ later, l.isGoMod = true) : later.foldl changeEntry e = e := by
  induction later with
  | nil => rfl
  | cons l later ih =>
    have hl : changeEntry e l = e := if_neg (by simp [h l List.mem_cons_self])
    rw [List.foldl_cons, hl]
    exact ih fun l' hl' => h l' (List.mem_cons_of_mem _ hl')

theorem foldl_changeEntry_zip (later : List GoLine) (e : ManifestEntry) (hash : Bytes)
    (hh1 : ascii "h1:" <+: hash) (h : ∀ l ∈ later, l.isGoMod = false → l.hash = hash)
    (hzip : (∃ l ∈ later, l.isGoMod = false) ∨ e.hash = readHash hash) :
    later.foldl changeEntry e = { e with hash := readHash hash } := by
  induction later generalizing e with
  | nil =>
    rcases hzip with ⟨l, hl, -⟩ | he
    · cases hl
    · rw [List.foldl_nil, ← he]
  | cons l later ih =>
    rw [List.foldl_cons]
    have hlater := fun l' hl' => h l' (List.mem_cons_of_mem l hl')
    cases hmod : l.isGoMod with
    | false =>
      have hl : changeEntry e l = { e with hash := readHash hash } := by
        unfold changeEntry
        rw [h l List.mem_cons_self hmod,
          if_pos ⟨by simp [hmod], List.isPrefixOf_iff_prefix.mpr hh1⟩]
      rw [hl]
      exact ih { e with hash := readHash hash } hlater (Or.inr rfl)
    -- A go.mod line changes nothing, and it is no zip line itself.
    | true =>
      have hl : changeEntry e l = e := if_neg (by simp [hmod])
      rw [hl]
      apply ih e hlater
      rcases hzip with ⟨l', hl', hzip⟩ | he
      · rcases List.mem_cons.mp hl' with rfl | hl'
        · rw [hmod] at hzip
          cases hzip
        · exact Or.inl ⟨l', hl', hzip⟩
      · exact Or.inr he

theorem gather_eq_expected (records : List GoLine) (hwf : WellFormed records) (id : Bytes × Bytes)
    (hid : ∃ l ∈ records, l.id = id) :
    Merge.gather newEntry changeEntry (records.filter (·.id = id)) =
      some (expected records id) := by
  obtain ⟨best, hbest, hline, hbestid, hmods⟩ := hashLine_spec records id hid
  have hgroup : ∀ l, l ∈ records.filter (·.id = id) ↔ l ∈ records ∧ l.id = id := by
    intro l
    rw [List.mem_filter, decide_eq_true_eq]
  cases hfilter : records.filter (·.id = id) with
  | nil =>
    obtain ⟨l, hl, hlid⟩ := hid
    have hmem := (hgroup l).mpr ⟨hl, hlid⟩
    rw [hfilter] at hmem
    cases hmem
  | cons first later =>
    rw [hfilter] at hgroup
    obtain ⟨hfirst, hfirstid⟩ := (hgroup first).mp List.mem_cons_self
    have hsame : ∀ l ∈ first :: later, l.isGoMod = best.isGoMod → l.hash = best.hash := by
      intro l hl hmod
      obtain ⟨hmem, hlid⟩ := (hgroup l).mp hl
      exact hwf.repeated l hmem best hbest (hlid.trans hbestid.symm) hmod
    have hentry : later.foldl changeEntry (newEntry first) =
        { newEntry first with hash := readHash best.hash } := by
      cases hkind : best.isGoMod with
      | true =>
        -- All lines of the module are go.mod lines, and the first one has made the entry.
        have hfirsthash := hsame first List.mem_cons_self
          ((hmods hkind first hfirst hfirstid).trans hkind.symm)
        rw [foldl_changeEntry_mods later _ fun l hl =>
          hmods hkind l ((hgroup l).mp (List.mem_cons_of_mem _ hl)).1
            ((hgroup l).mp (List.mem_cons_of_mem _ hl)).2]
        rw [← hfirsthash]
        rfl
      | false =>
        rw [hkind] at hsame
        apply foldl_changeEntry_zip later (newEntry first) best.hash (hwf.hashes best hbest)
        · intro l hl hmod
          exact hsame l (List.mem_cons_of_mem _ hl) hmod
        · rcases List.mem_cons.mp ((hgroup best).mpr ⟨hbest, hbestid⟩) with heq | hmem
          · right
            rw [heq]
            rfl
          · exact Or.inl ⟨best, hmem, hkind⟩
    rw [Merge.gather, hentry, readHash_h1 best.hash (hwf.hashes best hbest), expected,
      hline, ← hfirstid]
    rfl

/-! ## The whole file -/

theorem parseGoSum_ok (contents source : Bytes) (hne : records contents ≠ [])
    (hwf : WellFormed (records contents)) :
    parseGoSum contents source = .ok
      { ecosystem := .golang, sourceFile := source,
        entries := (Merge.distinct ((records contents).map GoLine.id)).map
          (expected (records contents)) } := by
  let lines := records contents
  let keyOf : Bytes × Bytes → Bytes := fun id => id.1 ++ ch '@' :: id.2
  obtain ⟨horder, hentry⟩ := Merge.merged GoLine.key newEntry changeEntry lines
  have hkeys : lines.map GoLine.key = (lines.map GoLine.id).map keyOf := by
    rw [List.map_map]
    rfl
  have hmem : ∀ id, id ∈ lines.map GoLine.id ↔ ∃ l ∈ lines, l.id = id := fun id => List.mem_map
  -- The map is keyed by the joined text, which tells well-formed modules apart.
  have hdistinct : Merge.distinct (lines.map GoLine.key) =
      (Merge.distinct (lines.map GoLine.id)).map keyOf := by
    rw [hkeys]
    apply Merge.distinct_map
    intro id hid id' hid' hkey
    obtain ⟨l, hl, rfl⟩ := (hmem id).mp hid
    obtain ⟨l', hl', rfl⟩ := (hmem id').mp hid'
    exact (key_eq_iff l l' (hwf.modules l hl) (hwf.modules l' hl')).mp hkey
  have hfound : ∀ id ∈ Merge.distinct (lines.map GoLine.id),
      (lines.foldl (Merge.add GoLine.key newEntry changeEntry) {}).entry (keyOf id) =
        some (expected lines id) := by
    intro id hid
    have hexists := (hmem id).mp ((Merge.mem_distinct _ id).mp hid)
    have hgroup : lines.filter (fun l => l.key = keyOf id) = lines.filter (fun l => l.id = id) := by
      apply List.filter_congr
      intro l hl
      obtain ⟨l', hl', rfl⟩ := hexists
      rw [decide_eq_decide]
      exact key_eq_iff l l' (hwf.modules l hl) (hwf.modules l' hl')
    rw [hentry, hgroup]
    exact gather_eq_expected lines hwf id hexists
  have hentries : ((lines.foldl addLine {}).order.map fun key =>
      ((lines.foldl addLine {}).entry key).getD { name := [], version := [] }) =
      (Merge.distinct (lines.map GoLine.id)).map (expected lines) := by
    rw [addLine_eq, horder, hdistinct, List.map_map]
    apply List.map_congr_left
    intro id hid
    rw [Function.comp_apply, hfound id hid]
    rfl
  have hsome : (Merge.distinct (lines.map GoLine.id)).map (expected lines) ≠ [] := by
    obtain ⟨l, hl⟩ := List.exists_mem_of_ne_nil lines hne
    exact List.ne_nil_of_mem
      (List.mem_map_of_mem ((Merge.mem_distinct _ _).mpr (List.mem_map_of_mem hl)))
  unfold parseGoSum
  simp only
  rw [show (Audit.getLines contents).filterMap readLine = lines from rfl, hentries, if_neg hsome]

theorem expected_perm (lines lines' : List GoLine) (hwf : WellFormed lines)
    (hperm : lines'.Perm lines) (id : Bytes × Bytes) (hid : ∃ l ∈ lines, l.id = id) :
    expected lines' id = expected lines id := by
  obtain ⟨l, hl, hline, hlid, hmods⟩ := hashLine_spec lines id hid
  obtain ⟨l', hl', hline', hlid', hmods'⟩ := hashLine_spec lines' id (by
    obtain ⟨l, hl, hlid⟩ := hid
    exact ⟨l, hperm.mem_iff.mpr hl, hlid⟩)
  have hkind : l'.isGoMod = l.isGoMod := by
    apply Bool.eq_iff_iff.mpr
    constructor
    · intro hmod
      exact hmods' hmod l (hperm.mem_iff.mpr hl) hlid
    · intro hmod
      exact hmods hmod l' (hperm.mem_iff.mp hl') hlid'
  have hhash := hwf.repeated l' (hperm.mem_iff.mp hl') l hl (hlid'.trans hlid.symm) hkind
  rw [expected, expected, hline, hline', Option.map_some, Option.map_some, hhash]

/-- The records are the lines that the format gives a meaning. There is one entry for each module
and version, in the order of their first lines, with the hash of the zip line where there is one;
and the same entries for a file with its lines in another order. -/
theorem parseGoSum_exact (contents source : Bytes) (hne : records contents ≠ [])
    (hwf : WellFormed (records contents)) :
    (∀ l, l ∈ records contents ↔ ∃ raw ∈ Audit.getLines contents, LineSays raw l) ∧
    ∃ m, parseGoSum contents source = .ok m ∧ m.ecosystem = .golang ∧
      m.entries = (Merge.distinct ((records contents).map GoLine.id)).map
        (expected (records contents)) ∧
      ∀ contents', (Audit.getLines contents').Perm (Audit.getLines contents) →
        ∃ m', parseGoSum contents' source = .ok m' ∧ m'.entries.Perm m.entries := by
  refine ⟨mem_records_iff contents, _, parseGoSum_ok contents source hne hwf, rfl, rfl, ?_⟩
  intro contents' hlines
  have hperm : (records contents').Perm (records contents) := hlines.filterMap readLine
  have hne' : records contents' ≠ [] := by
    intro hnil
    rw [hnil] at hperm
    exact hne hperm.nil_eq.symm
  have hwf' : WellFormed (records contents') :=
    { modules := fun l hl => hwf.modules l (hperm.mem_iff.mp hl)
      hashes := fun l hl => hwf.hashes l (hperm.mem_iff.mp hl)
      repeated := fun l hl l' hl' => hwf.repeated l (hperm.mem_iff.mp hl) l'
        (hperm.mem_iff.mp hl') }
  refine ⟨_, parseGoSum_ok contents' source hne' hwf', ?_⟩
  have hids := (Merge.distinct_perm (hperm.map GoLine.id)).map (expected (records contents'))
  apply hids.trans
  apply List.Perm.of_eq
  apply List.map_congr_left
  intro id hid
  exact expected_perm _ _ hwf hperm id (List.mem_map.mp ((Merge.mem_distinct _ id).mp hid))

/-- The go.mod line of one module stands before its zip line, with a line of another module between
them. -/
def sampleSum : Bytes := ascii "a.io/x v1/go.mod h1:mod\nb v2/go.mod h1:b\r\na.io/x v1 h1:zip\n"

theorem sampleSum_entries : ∃ m, parseGoSum sampleSum (ascii "go.sum") = .ok m ∧
    m.entries = [
      { ns := ascii "a.io", name := ascii "x", version := ascii "v1",
        hash := some ⟨.sha256, ascii "zip"⟩ },
      { name := ascii "b", version := ascii "v2", hash := some ⟨.sha256, ascii "b"⟩ }] := by
  have hwf : WellFormed (records sampleSum) := by
    constructor
    · decide +kernel
    · decide +kernel
    · decide +kernel
  obtain ⟨-, m, hm, -, hentries, -⟩ :=
    parseGoSum_exact sampleSum (ascii "go.sum") (by decide +kernel) hwf
  refine ⟨m, hm, hentries.trans ?_⟩
  decide +kernel

end Euxis.Sca.GoSum
