import Mathlib.Data.List.DropRight
import Euxis.Slopsquatting.Code

/-!
# The corpus as a set of names and ecosystems

The purpose of the guard in its own terms: what a line of a corpus says, and which names the
operations add for which ecosystems. The buckets fall short of it where one bucket stands for
several ecosystems, and the loader where a line is prefixed with an ecosystem that it does not know.
-/

namespace Euxis.Slopsquatting

open Sbom

/-! ## PEP 503 -/

def isSeparator (b : UInt8) : Bool := b = ch '-' || b = ch '_' || b = ch '.'

/-- PEP 503: runs of hyphens, underscores and dots become one hyphen, letters become small. -/
def pep503 : Bytes → Bytes
  | [] => []
  | b :: rest =>
    if isSeparator b then ch '-' :: pep503 (rest.dropWhile isSeparator)
    else Bytes.lowerByte b :: pep503 rest
termination_by s => s.length
decreasing_by
  · exact Nat.lt_succ_of_le (List.dropWhile_sublist _).length_le
  · exact Nat.lt_succ_self _

theorem normaliseByte_separator (b : UInt8) (h : isSeparator b = true) :
    normaliseByte b = ch '-' := by
  simp only [isSeparator, Bool.or_eq_true, decide_eq_true_eq] at h
  rcases h with (rfl | rfl) | rfl <;> decide

theorem normaliseByte_other (b : UInt8) (h : isSeparator b = false) :
    normaliseByte b = Bytes.lowerByte b ∧ Bytes.lowerByte b ≠ ch '-' := by
  simp only [isSeparator, Bool.or_eq_false_iff, decide_eq_false_iff_not] at h
  obtain ⟨⟨hhyphen, hscore⟩, hdot⟩ := h
  -- Neither a separator nor a small letter becomes one of the separators.
  have hne : ∀ c : UInt8, c.toNat < 97 → b ≠ c → Bytes.lowerByte b ≠ c := by
    intro c hc hbc heq
    rcases Bytes.lowerByte_cases b with hsame | hletter
    · exact hbc (hsame.symm.trans heq)
    · rw [heq] at hletter
      omega
  refine ⟨?_, hne _ (by decide) hhyphen⟩
  unfold normaliseByte
  rw [if_neg]
  rintro (heq | heq)
  · exact hne _ (by decide) hscore heq
  · exact hne _ (by decide) hdot heq

theorem collapse_after_hyphen (s : Bytes) :
    collapse true (s.map normaliseByte) =
      collapse false ((s.dropWhile isSeparator).map normaliseByte) := by
  induction s with
  | nil => rfl
  | cons b rest ih =>
    cases hsep : isSeparator b with
    | true =>
      rw [List.dropWhile_cons_of_pos hsep, List.map_cons, normaliseByte_separator b hsep,
        collapse, if_pos rfl, if_pos rfl, ih]
    | false =>
      obtain ⟨hlower, hne⟩ := normaliseByte_other b hsep
      rw [List.dropWhile_cons_of_neg (by simp [hsep]), List.map_cons, hlower, collapse,
        if_neg hne, collapse, if_neg hne]

theorem pypiNormalise_eq (s : Bytes) : pypiNormalise s = pep503 s := by
  unfold pypiNormalise
  induction s using pep503.induct with
  | case1 => simp [pep503, collapse]
  | case2 b rest hsep ih =>
    rw [pep503, if_pos hsep, ← ih, List.map_cons, normaliseByte_separator b hsep,
      collapse, if_pos rfl, collapse_after_hyphen]
    simp
  | case3 b rest hsep ih =>
    obtain ⟨hlower, hne⟩ := normaliseByte_other b (by simpa using hsep)
    rw [pep503, if_neg hsep, ← ih, List.map_cons, hlower, collapse, if_neg hne]

/-! ## The format of a corpus line -/

/-- The ecosystems that an entry is meant for. -/
inductive Scope where
  | all
  | only (e : PurlType)
  deriving DecidableEq

def Scope.covers (scope : Scope) (e : PurlType) : Prop :=
  match scope with
  | .all => True
  | .only e' => e' = e

/-- The ecosystems by name, and one more name for Go. -/
def ecosystemNames : List (Bytes × PurlType) :=
  (ascii "go", .golang) ::
    [PurlType.npm, .pypi, .cargo, .golang, .maven, .gem, .nuget, .composer, .hex, .conan, .conda,
      .github, .generic].map
      fun e => (purlTypeStr e, e)

def isComment (raw : Bytes) : Bool := (trim raw).head? = some (ch '#')

/-- The ecosystem that the line is prefixed with, and the rest of the line. -/
def prefixOf (raw : Bytes) : Option (PurlType × Bytes) :=
  (Bytes.cut (ch ':') raw).bind fun r => (ecosystemNames.lookup (trim r.1)).map fun e => (e, r.2)

/-- The name stands before the equals sign, if there is one. -/
def nameIn (text : Bytes) : Bytes := trim (text.takeWhile (· ≠ ch '='))

def named {α : Type} (name : Bytes) (a : α) : Option (Bytes × α) :=
  if name = [] then none else some (name, a)

/-- What a line says. A name without the prefix of an ecosystem is meant for all of them. -/
def lineEntry (raw : Bytes) : Option (Bytes × Scope) :=
  if isComment raw then none
  else
    match prefixOf raw with
    | some (e, rest) => named (nameIn rest) (.only e)
    | none => named (nameIn raw) .all

/-! ## What the operations add -/

/-- The lines of a file that can be read. -/
def linesOf (content : Option Bytes) : List Bytes :=
  content.toList.flatMap fun text => text.splitOn (ch '\n')

def Op.entries : Op → List (Bytes × Scope)
  | .add ecosystem names => (names.filter (· ≠ [])).map fun name => (name, .only ecosystem)
  | .addWithNearest ecosystem name _ => (named name (.only ecosystem)).toList
  | .loadCorpusFile _ content => (linesOf content).filterMap lineEntry

/-- PyPI compares names by their normal forms. -/
def SameName (e : PurlType) (a b : Bytes) : Prop := if e = .pypi then pep503 a = pep503 b else a = b

theorem SameName.refl (e : PurlType) (name : Bytes) : SameName e name name := by
  unfold SameName
  split <;> rfl

theorem SameName.trans {e : PurlType} {a b c : Bytes} (h : SameName e a b) (h' : SameName e b c) :
    SameName e a c := by
  unfold SameName at *
  split at h <;> simp_all

/-- Some operation added the name for the ecosystem. -/
def Added (ops : List Op) (name : Bytes) (e : PurlType) : Prop :=
  ∃ op ∈ ops, ∃ entry ∈ op.entries, entry.2.covers e ∧ SameName e entry.1 name

/-! ## What the operations keep -/

/-- The ecosystems that share a bucket, by one of them. -/
def slot : PurlType → PurlType
  | .npm => .npm
  | .pypi => .pypi
  | .cargo => .cargo
  | .golang => .golang
  | .maven => .maven
  | .gem => .gem
  | _ => .generic

/-- The ecosystems whose names the loader does not know. -/
def unknown (e : PurlType) : Bool := slot e = .generic && e ≠ .generic

/-- What is kept of a line. The prefix of an unknown ecosystem is taken for a part of the name. -/
def keptEntry (raw : Bytes) : Option (Bytes × PurlType) :=
  if isComment raw then none
  else
    match prefixOf raw with
    | some (e, rest) => if unknown e then named (nameIn raw) .generic else named (nameIn rest) e
    | none => named (nameIn raw) .generic

def Op.kept : Op → List (Bytes × PurlType)
  | .add ecosystem names => (names.filter (· ≠ [])).map fun name => (name, ecosystem)
  | .addWithNearest ecosystem name _ => (named name ecosystem).toList
  | .loadCorpusFile _ content => (linesOf content).filterMap keptEntry

/-! ### The loader -/

def isPadding (b : UInt8) : Bool := isBlank b || b = ch '\r' || b = ch '\n'

theorem rdropWhile_cons {b : UInt8} {rest : Bytes} (h : ¬ ∀ x ∈ b :: rest, isPadding x = true) :
    (b :: rest).rdropWhile isPadding = b :: rest.rdropWhile isPadding := by
  rw [List.rdropWhile, List.rdropWhile, List.reverse_cons, List.dropWhile_append]
  split
  · rename_i hempty
    rw [List.isEmpty_iff, List.dropWhile_eq_nil_iff] at hempty
    have hb : isPadding b = false := by
      rw [Bool.eq_false_iff]
      intro hb
      refine h fun x hx => ?_
      rcases List.mem_cons.mp hx with rfl | hx
      · exact hb
      · exact hempty x (List.mem_reverse.mpr hx)
    rw [List.dropWhile_cons_of_neg (by simp [hb]), List.dropWhile_eq_nil_iff.mpr hempty]
    rfl
  · rw [List.reverse_append]
    rfl

theorem trim_eq (s : Bytes) : trim s = (s.dropWhile isBlank).rdropWhile isPadding := rfl

theorem isPadding_of_isBlank {b : UInt8} (h : isBlank b = true) : isPadding b = true := by
  simp [isPadding, h]

theorem rdropWhile_dropWhile (s : Bytes) :
    (s.dropWhile isBlank).rdropWhile isPadding = (s.rdropWhile isPadding).dropWhile isBlank := by
  induction s with
  | nil => rfl
  | cons b rest ih =>
    by_cases hall : ∀ x ∈ b :: rest, isPadding x = true
    · -- Nothing but padding: both sides are empty.
      have hdrop : ∀ x ∈ (b :: rest).dropWhile isBlank, isPadding x = true :=
        fun x hx => hall x ((List.dropWhile_sublist _).subset hx)
      rw [List.rdropWhile_eq_nil_iff.mpr hall, List.rdropWhile_eq_nil_iff.mpr hdrop]
      rfl
    · have hkeep := rdropWhile_cons hall
      by_cases hb : isBlank b = true
      · rw [List.dropWhile_cons_of_pos hb, ih, hkeep, List.dropWhile_cons_of_pos hb]
      · rw [List.dropWhile_cons_of_neg hb, hkeep, List.dropWhile_cons_of_neg hb]

theorem trim_dropWhile (s : Bytes) : trim (s.dropWhile isBlank) = trim s := by
  have h : (s.dropWhile isBlank).dropWhile isBlank =
      s.dropWhile isBlank := by simp [List.dropWhile_idempotent]
  rw [trim_eq, trim_eq, h]

theorem trim_rdropWhile (s : Bytes) : trim (s.rdropWhile isPadding) = trim s := by
  rw [trim_eq, trim_eq, ← rdropWhile_dropWhile, List.rdropWhile_idempotent]

theorem mem_trim (s : Bytes) (b : UInt8) (h : b ∈ trim s) : b ∈ s :=
  (List.dropWhile_sublist _).subset ((List.rdropWhile_prefix _ _).subset h)

theorem trim_cut (c : UInt8) (x y : Bytes) (hc : isPadding c = false) :
    trim (x ++ c :: y) = x.dropWhile isBlank ++ c :: y.rdropWhile isPadding := by
  have hblank : ¬ isBlank c = true := by
    intro h
    rw [isPadding_of_isBlank h] at hc
    cases hc
  have hfront : (x ++ c :: y).dropWhile isBlank = x.dropWhile isBlank ++ c :: y := by
    rw [List.dropWhile_append]
    split
    · rename_i hempty
      rw [List.dropWhile_cons_of_neg hblank, List.isEmpty_iff.mp hempty]
      rfl
    · rfl
  -- The byte in the middle is no padding, so neither side is trimmed across it.
  have hback : (c :: y).rdropWhile isPadding = c :: y.rdropWhile isPadding := by
    apply rdropWhile_cons
    intro h
    rw [h c List.mem_cons_self] at hc
    cases hc
  have hlast : (c :: y).reverse.dropWhile isPadding ≠ [] := by
    intro h
    have := List.dropWhile_eq_nil_iff.mp h c (by simp)
    rw [hc] at this
    cases this
  rw [trim_eq, hfront, ← hback, List.rdropWhile, List.reverse_append, List.dropWhile_append,
    if_neg (by simpa [List.isEmpty_iff] using hlast), List.reverse_append, List.reverse_reverse]
  rfl

theorem cut_trim (c : UInt8) (s : Bytes) (hc : isPadding c = false) :
    Bytes.cut c (trim s) = (Bytes.cut c s).map fun r => (r.1.dropWhile isBlank,
      r.2.rdropWhile isPadding) := by
  cases hcut : Bytes.cut c s with
  | none =>
    have hmem : c ∉ trim s := fun h => Bytes.not_mem_of_cut c s hcut (mem_trim s c h)
    rw [Bytes.cut_of_not_mem _ _ hmem]
    rfl
  | some r =>
    obtain ⟨x, y⟩ := r
    have hx : c ∉ x.dropWhile isBlank := fun h =>
      Bytes.cut_fst_not_mem c s x y hcut ((List.dropWhile_sublist _).subset h)
    rw [Bytes.cut_some c s x y hcut, trim_cut c x y hc, Bytes.cut_append _ _ _ hx]
    rfl

theorem takeWhile_ne_of_cut (c : UInt8) (s : Bytes) :
    s.takeWhile (· ≠ c) = ((Bytes.cut c s).map (·.1)).getD s := by
  induction s with
  | nil => rfl
  | cons b rest ih =>
    by_cases hb : b = c
    · simp [Bytes.cut, hb]
    · rw [List.takeWhile_cons_of_pos (by simpa using hb), ih, Bytes.cut, if_neg hb]
      cases Bytes.cut c rest <;> rfl

theorem splitNearest_fst (text : Bytes) : (splitNearest (trim text)).1 = nameIn text := by
  unfold splitNearest nameIn
  rw [takeWhile_ne_of_cut, cut_trim _ _ (by decide)]
  cases Bytes.cut (ch '=') text with
  | none => rfl
  | some r => exact trim_dropWhile r.1

theorem parsePurlType_eq (w : Bytes) :
    (parsePurlType w ≠ .generic ∨ w = ascii "generic" ↔ ∃ e, ecosystemNames.lookup w = some e ∧
      unknown e = false) ∧
      ∀ e, ecosystemNames.lookup w = some e → unknown e = false → parsePurlType w = e := by
  by_cases hw : w ∈ ecosystemNames.map (·.1)
  · simp only [ecosystemNames, purlTypeStr, List.map_cons, List.map_nil, List.mem_cons,
      List.not_mem_nil, or_false] at hw
    rcases hw with rfl | rfl | rfl | rfl | rfl | rfl | rfl | rfl | rfl | rfl | rfl | rfl | rfl | rfl
      <;> decide +kernel
  · have hnone : ecosystemNames.lookup w = none := by
      rw [List.lookup_eq_none_iff]
      rintro ⟨name, e⟩ hmem
      rw [bne_iff_ne]
      rintro rfl
      exact hw (List.mem_map_of_mem hmem)
    simp only [ecosystemNames, purlTypeStr, List.map_cons, List.map_nil, List.mem_cons,
      List.not_mem_nil, or_false, not_or] at hw
    obtain ⟨hgo, hnpm, hpypi, hcargo, hgolang, hmaven, hgem, -, -, -, -, -, -, hgeneric⟩ := hw
    simp [hnone, parsePurlType, hgo, hnpm, hpypi, hcargo, hgolang, hmaven, hgem, hgeneric]

theorem splitPrefix_eq (raw : Bytes) :
    splitPrefix (trim raw) =
      match prefixOf raw with
      | some (e, rest) => if unknown e then (.generic, trim raw) else (e, trim rest)
      | none => (.generic, trim raw) := by
  unfold splitPrefix prefixOf
  rw [cut_trim _ _ (by decide)]
  cases Bytes.cut (ch ':') raw with
  | none => rfl
  | some r =>
    obtain ⟨before, after⟩ := r
    obtain ⟨hknown, htype⟩ := parsePurlType_eq (trim before)
    simp only [Option.map_some, Option.bind_some, trim_dropWhile, trim_rdropWhile]
    cases hlookup : ecosystemNames.lookup (trim before) with
    | none => rw [if_neg (by simp [hknown, hlookup])]; rfl
    | some e =>
      cases hunknown : unknown e with
      | true => rw [if_neg (by simp [hknown, hlookup, hunknown])]; simp [hunknown]
      | false =>
        rw [if_pos (hknown.mpr ⟨e, hlookup, hunknown⟩), htype e hlookup hunknown]; simp [hunknown]

theorem prefixOf_blank (raw : Bytes) (h : trim raw = []) : prefixOf raw = none := by
  have hcut := cut_trim (ch ':') raw (by decide)
  rw [h] at hcut
  unfold prefixOf
  rw [Option.map_eq_none_iff.mp hcut.symm]
  rfl

/-- **The loader of a line.** It keeps what the line says, but for a prefix that it does not
know. -/
theorem parseLine_kept (raw : Bytes) :
    (parseLine raw).map (fun e => (e.name, e.ecosystem)) = keptEntry raw := by
  by_cases hcomment : isComment raw = true
  · have hhead : (trim raw).head? = some (ch '#') := by simpa [isComment] using hcomment
    simp [parseLine, keptEntry, hcomment, hhead]
  · have hhead : (trim raw).head? ≠ some (ch '#') := by simpa [isComment] using hcomment
    by_cases hblank : trim raw = []
    · have hempty : nameIn raw = [] := by
        rw [← splitNearest_fst, hblank]
        rfl
      simp [parseLine, keptEntry, hcomment, hblank, prefixOf_blank raw hblank, hempty, named]
    · -- The text with the name is a trimmed one in each case.
      have hparse : (parseLine raw).map (fun e => (e.name, e.ecosystem)) =
          named (splitNearest (splitPrefix (trim raw)).2).1 (splitPrefix (trim raw)).1 := by
        unfold parseLine named
        rw [if_neg (by simp [hblank, hhead])]
        dsimp only
        split <;> rfl
      rw [hparse, splitPrefix_eq, keptEntry, if_neg hcomment]
      cases prefixOf raw with
      | none => simp [splitNearest_fst]
      | some r => cases hunknown : unknown r.1 <;> simp [hunknown, splitNearest_fst]

theorem parseLine_name (raw : Bytes) (e : Entry) (h : parseLine raw = some e) : e.name ≠ [] := by
  unfold parseLine at h
  dsimp only at h
  split at h
  · cases h
  · split at h
    · cases h
    · rename_i hname
      rw [← Option.some.inj h]
      exact hname

/-! ## What the buckets hold -/

/-- What is kept is found from an ecosystem. -/
def Found (entry : Bytes × PurlType) (name : Bytes) (e : PurlType) : Prop :=
  slot entry.2 = slot e ∧ SameName e entry.1 name

theorem slot_pypi (e : PurlType) (h : slot e = slot .pypi) : e = .pypi := by
  revert h
  cases e <;> decide

theorem bucketFor_setBucket (g : Guard) (e e' : PurlType) (bucket : EcosystemBucket) :
    (g.setBucket e bucket).bucketFor e' = if slot e = slot e' then bucket else g.bucketFor e' := by
  cases e <;> cases e' <;> rfl

theorem contains_setBucket (g : Guard) (e e' : PurlType) (name query : Bytes)
    (bucket : EcosystemBucket)
    (hnames : bucket.names = (Guard.insertName e name (g.bucketFor e)).names)
    (hnormal : bucket.normalisedNames = (Guard.insertName e name (g.bucketFor e)).normalisedNames) :
    (g.setBucket e bucket).contains query e' ↔ g.contains query e' ∨ Found (name, e) query e' := by
  unfold Guard.contains Found SameName
  rw [bucketFor_setBucket]
  dsimp only
  by_cases hslot : slot e = slot e'
  · rw [if_pos hslot]
    have hbucket : g.bucketFor e = g.bucketFor e' := by
      revert hslot
      cases e <;> cases e' <;> intro hslot <;> first | rfl | exact absurd hslot (by decide)
    by_cases hpypi : e' = .pypi
    · subst hpypi
      obtain rfl := slot_pypi e hslot
      rw [if_pos rfl, if_pos rfl, if_pos rfl, hnormal]
      simp only [Guard.insertName, if_true, Finset.mem_insert, decide_eq_true_eq, pypiNormalise_eq]
      tauto
    · rw [if_neg hpypi, if_neg hpypi, if_neg hpypi, hnames, hbucket]
      simp only [Guard.insertName, Finset.mem_insert, decide_eq_true_eq]
      tauto
  · rw [if_neg hslot]
    simp [hslot]

theorem contains_add (g : Guard) (e e' : PurlType) (names : List Bytes) (query : Bytes) :
    (g.add e names).contains query e' ↔
      g.contains query e' ∨ ∃ entry ∈ (Op.add e names).kept, Found entry query e' := by
  unfold Guard.add
  induction names generalizing g with
  | nil => simp [Op.kept]
  | cons name names ih =>
    rw [List.foldl_cons, ih]
    unfold Guard.addName
    split
    · rename_i hempty
      simp [Op.kept, hempty]
    · rename_i hname
      rw [contains_setBucket g e e' name query _ rfl rfl]
      simp only [Op.kept, ne_eq, decide_not, List.filter_cons, hname, decide_false,
        Bool.not_false, if_true, List.map_cons, List.mem_cons, exists_eq_or_imp]
      tauto

theorem contains_addWithNearest (g : Guard) (e e' : PurlType) (name nearest query : Bytes) :
    (g.addWithNearest e name nearest).contains query e' ↔
      g.contains query e' ∨ ∃ entry ∈ (named name e).toList, Found entry query e' := by
  unfold Guard.addWithNearest named
  split
  · simp
  · rw [contains_setBucket g e e' name query]
    · simp
    · split <;> rfl
    · split <;> rfl

theorem contains_loadLine (state : Guard × Nat) (raw query : Bytes) (e' : PurlType) :
    (Guard.loadLine state raw).1.contains query e' ↔ state.1.contains query e' ∨
      ∃ entry ∈ (keptEntry raw).toList, Found entry query e' := by
  rw [← parseLine_kept]
  unfold Guard.loadLine
  cases hparse : parseLine raw with
  | none => simp
  | some e =>
    dsimp only
    rw [contains_addWithNearest, named, if_neg (parseLine_name raw e hparse)]
    rfl

theorem contains_loadLines (g : Guard) (lines : List Bytes) (n : Nat) (query : Bytes)
    (e' : PurlType) :
    (lines.foldl Guard.loadLine (g, n)).1.contains query e' ↔ g.contains query e' ∨
      ∃ entry ∈ lines.filterMap keptEntry, Found entry query e' := by
  induction lines generalizing g n with
  | nil => simp
  | cons raw lines ih =>
    rw [List.foldl_cons, ih, contains_loadLine, List.filterMap_cons]
    cases keptEntry raw with
    | none => simp
    | some entry =>
      simp only [Option.toList_some, List.mem_cons, List.not_mem_nil, or_false, exists_eq_left,
        exists_eq_or_imp]
      rw [or_assoc]

theorem contains_apply (g : Guard) (op : Op) (query : Bytes) (e : PurlType) :
    (op.apply g).contains query e ↔ g.contains query e ∨ ∃ entry ∈ op.kept,
      Found entry query e := by
  cases op with
  | add e' names => exact contains_add g e' e names query
  | addWithNearest e' name nearest => exact contains_addWithNearest g e' e name nearest query
  | loadCorpusFile path content =>
    cases content with
    | none => simp [Op.apply, Guard.loadCorpusFile, Op.kept, linesOf]
    | some content =>
      have h := contains_loadLines g (content.splitOn (ch '\n')) 0 query e
      simpa [Op.apply, Guard.loadCorpusFile, Guard.loadLines, Op.kept, linesOf] using h

/-- The guard finds what some operation has put into the bucket of the ecosystem. -/
theorem contains_build (ops : List Op) (query : Bytes) (e : PurlType) :
    (build ops).contains query e ↔ ∃ op ∈ ops, ∃ entry ∈ op.kept, Found entry query e := by
  have hfold : ∀ g : Guard, (ops.foldl Op.apply g).contains query e ↔ g.contains query e ∨
      ∃ op ∈ ops, ∃ entry ∈ op.kept, Found entry query e := by
    induction ops with
    | nil => simp
    | cons op ops ih =>
      intro g
      rw [List.foldl_cons, ih, contains_apply, or_assoc]
      simp only [List.mem_cons, exists_eq_or_imp]
  have hempty : ({} : Guard).contains query e = false := by
    unfold Guard.contains
    cases e <;> simp [Guard.bucketFor]
  unfold build
  rw [hfold, hempty]
  simp

/-! ## The set -/

/-- The name is kept in the bucket that several ecosystems share. -/
def Shared (ops : List Op) (name : Bytes) : Prop :=
  ∃ op ∈ ops, ∃ e, slot e = .generic ∧ (name, e) ∈ op.kept

/-- What the buckets and the loader cannot express is made up for by other entries. -/
structure Complete (ops : List Op) : Prop where
  /-- A line for every ecosystem stands also under each ecosystem with a bucket of its own. -/
  listed : ∀ op ∈ ops, ∀ name, (name, Scope.all) ∈ op.entries → ∀ e, slot e ≠ .generic →
    ∃ op' ∈ ops, ∃ name', (name', Scope.only e) ∈ op'.entries ∧ SameName e name' name
  /-- What is kept for one ecosystem without such a bucket is added for the others, too. -/
  shared : ∀ name, Shared ops name → ∀ e, slot e = .generic → Added ops name e
  /-- What a line says under a prefix that the loader does not know is kept for another reason. -/
  misread : ∀ path content, Op.loadCorpusFile path content ∈ ops → ∀ raw ∈ linesOf content,
    ∀ name e, lineEntry raw = some (name, .only e) → unknown e = true → Shared ops name

theorem slot_own (e e' : PurlType) (h : slot e = slot e') (hown : slot e' ≠ .generic) : e = e' := by
  revert h hown
  cases e <;> cases e' <;> decide

theorem sameName_of_shared {e : PurlType} {a b : Bytes} (h : slot e = .generic) :
    SameName e a b ↔ a = b := by
  unfold SameName
  rw [if_neg]
  rintro rfl
  cases h

theorem named_eq_some {α : Type} {name name' : Bytes} {a a' : α} :
    named name a = some (name', a') ↔ name ≠ [] ∧ name = name' ∧ a = a' := by
  unfold named
  split <;> simp_all

theorem keptEntry_own {raw name : Bytes} {e : PurlType} (hown : slot e ≠ .generic) :
    keptEntry raw = some (name, e) ↔ lineEntry raw = some (name, .only e) := by
  have hgeneric : PurlType.generic ≠ e := by
    rintro rfl
    exact hown rfl
  unfold keptEntry lineEntry
  split
  · simp
  · cases prefixOf raw with
    | none => simp [named_eq_some, hgeneric]
    | some r =>
      obtain ⟨e', rest⟩ := r
      cases hunknown : unknown e' with
      | false => simp [hunknown, named_eq_some]
      | true =>
        have hne : e' ≠ e := by
          rintro rfl
          simp [unknown, hown] at hunknown
        simp [hunknown, named_eq_some, hgeneric, hne]

theorem kept_own {op : Op} {name : Bytes} {e : PurlType} (hown : slot e ≠ .generic) :
    (name, e) ∈ op.kept ↔ (name, Scope.only e) ∈ op.entries := by
  cases op with
  | add e' names => simp [Op.kept, Op.entries]
  | addWithNearest e' name' nearest => simp [Op.kept, Op.entries, named_eq_some]
  | loadCorpusFile path content => simp [Op.kept, Op.entries, keptEntry_own hown]

theorem kept_of_all {op : Op} {name : Bytes} (h : (name, Scope.all) ∈ op.entries) :
    (name, PurlType.generic) ∈ op.kept := by
  cases op with
  | add e' names => simp [Op.entries] at h
  | addWithNearest e' name' nearest => simp [Op.entries, named_eq_some] at h
  | loadCorpusFile path content =>
    unfold Op.entries at h
    unfold Op.kept
    rw [List.mem_filterMap] at h ⊢
    obtain ⟨raw, hraw, hentry⟩ := h
    refine ⟨raw, hraw, ?_⟩
    unfold lineEntry at hentry
    unfold keptEntry
    split at hentry
    · cases hentry
    · rename_i hcomment
      rw [if_neg hcomment]
      cases hfront : prefixOf raw with
      | none =>
        rw [hfront] at hentry
        simpa [named_eq_some] using hentry
      | some r =>
        rw [hfront] at hentry
        simp [named_eq_some] at hentry

theorem Complete.shared_of_only {ops : List Op} (h : Complete ops) {op : Op} (hop : op ∈ ops)
    {name : Bytes} {e : PurlType} (hslot : slot e = .generic)
    (hentry : (name, Scope.only e) ∈ op.entries) : Shared ops name := by
  cases op with
  | add e' names => exact ⟨_, hop, e, hslot, by simpa [Op.kept, Op.entries] using hentry⟩
  | addWithNearest e' name' nearest =>
    exact ⟨_, hop, e, hslot, by simpa [Op.kept, Op.entries, named_eq_some] using hentry⟩
  | loadCorpusFile path content =>
    have hline := hentry
    unfold Op.entries at hline
    rw [List.mem_filterMap] at hline
    obtain ⟨raw, hraw, hsome⟩ := hline
    -- A prefix that the loader does not know is where it goes wrong.
    cases hunknown : unknown e with
    | true => exact h.misread path content hop raw hraw name e hsome hunknown
    | false =>
      refine ⟨_, hop, e, hslot, ?_⟩
      unfold Op.kept
      rw [List.mem_filterMap]
      refine ⟨raw, hraw, ?_⟩
      unfold lineEntry at hsome
      unfold keptEntry
      split at hsome
      · cases hsome
      · rename_i hcomment
        rw [if_neg hcomment]
        cases hfront : prefixOf raw with
        | none =>
          rw [hfront] at hsome
          simp [named_eq_some] at hsome
        | some r =>
          rw [hfront] at hsome
          simp only [named_eq_some, Scope.only.injEq] at hsome
          obtain ⟨hname, rfl, rfl⟩ := hsome
          simp [hunknown, named_eq_some, hname]

/-- After any sequence of operations the guard is the set of what they add, exactly when the
sequence is complete. -/
theorem corpus_set_iff (ops : List Op) :
    (∀ name e, (build ops).contains name e ↔ Added ops name e) ↔ Complete ops := by
  constructor
  · intro hset
    refine ⟨?_, ?_, ?_⟩
    -- Each part of the condition from one lookup that the set answers with yes.
    · intro op hop name hentry e hown
      have hadded : Added ops name e := ⟨op, hop, _, hentry, trivial, .refl e name⟩
      obtain ⟨op', hop', ⟨name', e'⟩, hentry', hslot, hsame⟩ :=
        (contains_build ops name e).mp ((hset name e).mpr hadded)
      obtain rfl := slot_own e' e hslot hown
      exact ⟨op', hop', name', (kept_own hown).mp hentry', hsame⟩
    · rintro name ⟨op, hop, e', hslot', hkept⟩ e hslot
      exact (hset name e).mp ((contains_build ops name e).mpr
        ⟨op, hop, _, hkept, hslot'.trans hslot.symm, .refl e name⟩)
    · intro path content hop raw hraw name e hentry hunknown
      have hslot : slot e = .generic := by simp_all [unknown]
      have hadded : Added ops name e :=
        ⟨_, hop, (name, .only e), List.mem_filterMap.mpr ⟨raw, hraw, hentry⟩, rfl, .refl e name⟩
      obtain ⟨op', hop', ⟨name', e'⟩, hkept, hslot', hsame⟩ :=
        (contains_build ops name e).mp ((hset name e).mpr hadded)
      obtain rfl := (sameName_of_shared hslot).mp hsame
      exact ⟨op', hop', e', hslot'.trans hslot, hkept⟩
  · intro hcomplete name e
    rw [contains_build]
    constructor
    · rintro ⟨op, hop, ⟨name', e'⟩, hkept, hslot, hsame⟩
      by_cases hown : slot e = .generic
      · obtain ⟨op', hop', entry', hentry', hcovers, hsame'⟩ :=
          hcomplete.shared name' ⟨op, hop, e', hslot.trans hown, hkept⟩ e hown
        exact ⟨op', hop', entry', hentry', hcovers, hsame'.trans hsame⟩
      · obtain rfl := slot_own e' e hslot hown
        exact ⟨op, hop, _, (kept_own hown).mp hkept, rfl, hsame⟩
    · rintro ⟨op, hop, ⟨name', scope⟩, hentry, hcovers, hsame⟩
      cases scope with
      | all =>
        by_cases hown : slot e = .generic
        · exact ⟨op, hop, _, kept_of_all hentry, hown.symm, hsame⟩
        · obtain ⟨op', hop', name'', hentry', hsame'⟩ := hcomplete.listed op hop name' hentry e hown
          exact ⟨op', hop', _, (kept_own hown).mpr hentry', rfl, hsame'.trans hsame⟩
      | only e' =>
        obtain rfl : e' = e := hcovers
        by_cases hown : slot e' = .generic
        · obtain ⟨op', hop', e'', hslot, hkept⟩ := hcomplete.shared_of_only hop hown hentry
          exact ⟨op', hop', _, hkept, hslot.trans hown.symm, hsame⟩
        · exact ⟨op, hop, _, (kept_own hown).mpr hentry, rfl, hsame⟩

theorem corpus_not_a_set : ¬ ∀ (ops : List Op) (name : Bytes) (e : PurlType),
    (build ops).contains name e ↔ Added ops name e := by
  intro h
  have hcontains := (h [.loadCorpusFile (ascii "corpus.txt") (some (ascii "easy-fetch\n"))]
    (ascii "easy-fetch")
    .npm).mpr ⟨_, List.mem_cons_self,
      (ascii "easy-fetch", .all), by decide +kernel, trivial, .refl _ _⟩
  exact absurd hcontains (by decide +kernel)

end Euxis.Slopsquatting
