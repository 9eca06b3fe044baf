import Euxis.Bytes
import Mathlib.Data.List.AList
import Mathlib.Data.List.TakeWhile

/-!
# A file tree

Directories and files, found by walking a path part by part. There are no symbolic links, and
nothing is removed.
-/

namespace Euxis.Files

abbrev Place := List Bytes

inductive Node where
  | file (content : Bytes)
  | dir
  deriving DecidableEq, Repr

/-- What stands at each place. The root has no entry: it is always a directory. -/
abbrev Tree := AList fun _ : Place => Node

def nodeAt (tree : Tree) (place : Place) : Option Node :=
  if place = [] then some .dir else tree.lookup place

def contentAt (tree : Tree) (place : Place) : Bytes :=
  match nodeAt tree place with
  | some (.file content) => content
  | _ => []

/-! ## Paths -/

/-- One part of a path, from a directory. -/
def enter (tree : Tree) (place : Place) (part : Bytes) : Option Place :=
  if nodeAt tree place = some .dir then
    some (if part = [] ∨ part = ascii "." then place
      else if part = ascii ".." then place.dropLast
      else place ++ [part])
  else none

/-- The parts of a path, and where it starts. The path ends at its first zero byte. -/
def parts (path : Bytes) : List Bytes := (path.takeWhile (· ≠ 0)).splitOn (ch '/')

def origin (cwd : Place) (path : Bytes) : Place := if path.head? = some (ch '/') then [] else cwd

/-- Where a path leads. -/
def locate (tree : Tree) (cwd : Place) (path : Bytes) : Option Place :=
  if path.takeWhile (· ≠ 0) = [] then none else (parts path).foldlM (enter tree) (origin cwd path)

/-! ## Operations -/

/-- The file at a path holds `change` of what it held, or of nothing. It fails at a directory. -/
def edit (tree : Tree) (cwd : Place) (path : Bytes) (change : Bytes → Bytes) : Option Tree :=
  (locate tree cwd path).bind fun place =>
    match nodeAt tree place with
    | some .dir => none
    | some (.file content) => some (tree.insert place (.file (change content)))
    | none => some (tree.insert place (.file (change [])))

def makeDir (st : Tree × Place) (part : Bytes) : Option (Tree × Place) :=
  (enter st.1 st.2 part).bind fun place =>
    match nodeAt st.1 place with
    | some .dir => some (st.1, place)
    | some (.file _) => none
    | none => some (st.1.insert place .dir, place)

/-- All directories of a path. -/
def createDirectories (tree : Tree) (cwd : Place) (path : Bytes) : Option Tree :=
  if path.takeWhile (· ≠ 0) = [] then none
  else ((parts path).foldlM makeDir (tree, origin cwd path)).map (·.1)

/-- The entries of a directory. -/
def list (tree : Tree) (place : Place) : List (Bytes × Node) :=
  tree.entries.filterMap fun e =>
    if e.1.dropLast = place then e.1.getLast?.map (·, e.2) else none

/-! ## Extensions -/

/-- `stem()` and `extension()` of a file name: a dot at its start begins no extension. -/
def splitExtension (name : Bytes) : Bytes × Bytes :=
  if name = ascii "." ∨ name = ascii ".." then (name, [])
  else
    match Bytes.cutLast (ch '.') name with
    | some (b :: stem, rest) => (b :: stem, ch '.' :: rest)
    | _ => (name, [])

def stem (name : Bytes) : Bytes := (splitExtension name).1

def extension (name : Bytes) : Bytes := (splitExtension name).2

/-! ## Lemmas -/

theorem nodeAt_of_ne (tree : Tree) (place : Place) (h : place ≠ []) :
    nodeAt tree place = tree.lookup place :=
  if_neg h

theorem nodeAt_child (tree : Tree) (place : Place) (name : Bytes) :
    nodeAt tree (place ++ [name]) = tree.lookup (place ++ [name]) := nodeAt_of_ne tree _ (by simp)

theorem nodeAt_insert (tree : Tree) (place : Place) (node : Node) (h : place ≠ []) :
    nodeAt (tree.insert place node) place = some node := by
  rw [nodeAt_of_ne _ _ h, AList.lookup_insert]

theorem nodeAt_insert_ne (tree : Tree) (place other : Place) (node : Node) (h : other ≠ place) :
    nodeAt (tree.insert place node) other = nodeAt tree other := by
  unfold nodeAt
  rw [AList.lookup_insert_ne h]

theorem mem_list (tree : Tree) (place : Place) (name : Bytes) (node : Node) :
    (name, node) ∈ list tree place ↔ nodeAt tree (place ++ [name]) = some node := by
  rw [nodeAt_child, ← Option.mem_def, AList.mem_lookup_iff]
  unfold list
  rw [List.mem_filterMap]
  constructor
  · rintro ⟨⟨p, n⟩, hmem, he⟩
    split at he
    · rename_i hp
      obtain ⟨last, hlast, heq⟩ := Option.map_eq_some_iff.mp he
      obtain ⟨front, rfl⟩ := List.getLast?_eq_some_iff.mp hlast
      simp only [List.dropLast_concat] at hp
      simp only [Prod.mk.injEq] at heq
      rw [← hp, ← heq.1, ← heq.2]
      exact hmem
    · cases he
  · intro hmem
    exact ⟨_, hmem, by simp⟩

theorem nodup_list (tree : Tree) (place : Place) : ((list tree place).map (·.1)).Nodup := by
  have hkeys := tree.nodupKeys
  unfold list
  generalize tree.entries = entries at hkeys
  induction entries with
  | nil => simp
  | cons e rest ih =>
    rw [List.nodupKeys_cons] at hkeys
    have hrest := ih hkeys.2
    rw [List.filterMap_cons]
    split
    · exact hrest
    · rename_i entry he
      obtain ⟨hp, hentry⟩ : e.1.dropLast = place ∧ e.1.getLast?.map (·, e.2) = some entry := by
        split at he
        · exact ⟨by assumption, he⟩
        · cases he
      obtain ⟨last, hlast, rfl⟩ := Option.map_eq_some_iff.mp hentry
      rw [List.map_cons, List.nodup_cons]
      refine ⟨?_, hrest⟩
      intro hin
      obtain ⟨⟨name, node⟩, hmem, rfl⟩ := List.mem_map.mp hin
      obtain ⟨e', hmem', he'⟩ := List.mem_filterMap.mp hmem
      split at he'
      · rename_i hp'
        obtain ⟨last', hlast', heq⟩ := Option.map_eq_some_iff.mp he'
        simp only [Prod.mk.injEq] at heq
        obtain ⟨front, hfront⟩ := List.getLast?_eq_some_iff.mp hlast
        obtain ⟨front', hfront'⟩ := List.getLast?_eq_some_iff.mp hlast'
        rw [hfront, List.dropLast_concat] at hp
        rw [hfront', List.dropLast_concat] at hp'
        -- Two entries of one directory with the same last name would be one place.
        apply hkeys.1
        rw [hfront, hp, ← hp', ← heq.1, ← hfront']
        exact List.mem_keys_of_mem hmem'
      · cases he'

/-! ### Directories stay -/

/-- Every directory of one tree is one of the other. -/
def Grows (tree tree' : Tree) : Prop :=
  ∀ place, nodeAt tree place = some .dir → nodeAt tree' place = some .dir

theorem Grows.refl (tree : Tree) : Grows tree tree := fun _ h => h

theorem Grows.trans {a b c : Tree} (h : Grows a b) (h' : Grows b c) : Grows a c :=
  fun p hp => h' p (h p hp)

theorem grows_insert (tree : Tree) (place : Place) (node : Node)
    (h : nodeAt tree place ≠ some .dir) : Grows tree (tree.insert place node) := by
  intro p hp
  rw [nodeAt_insert_ne tree place p node ?_]
  · exact hp
  · rintro rfl
    exact h hp

theorem enter_grows {tree tree' : Tree} (h : Grows tree tree') {place place' : Place} {part : Bytes}
    (he : enter tree place part = some place') : enter tree' place part = some place' := by
  unfold enter at he ⊢
  split at he
  · rename_i hd
    rw [if_pos (h place hd)]
    exact he
  · cases he

theorem foldlM_enter_grows {tree tree' : Tree} (h : Grows tree tree') (names : List Bytes)
    {place place' : Place} (he : names.foldlM (enter tree) place = some place') :
    names.foldlM (enter tree') place = some place' := by
  induction names generalizing place with
  | nil => exact he
  | cons part rest ih =>
    rw [List.foldlM_cons] at he ⊢
    obtain ⟨mid, hmid, hrest⟩ := Option.bind_eq_some_iff.mp he
    rw [enter_grows h hmid]
    exact ih hrest

theorem locate_grows {tree tree' : Tree} (h : Grows tree tree') {cwd place : Place} {path : Bytes}
    (hl : locate tree cwd path = some place) : locate tree' cwd path = some place := by
  unfold locate at hl ⊢
  split at hl
  · cases hl
  · rename_i hne
    rw [if_neg hne]
    exact foldlM_enter_grows h _ hl

/-! ### Longer paths -/

theorem dir_of_foldlM (tree : Tree) (names : List Bytes) (place place' : Place)
    (h : names.foldlM (enter tree) place = some place') (hd : nodeAt tree place' = some .dir) :
    nodeAt tree place = some .dir := by
  cases names with
  | nil =>
    simp only [List.foldlM_nil, Option.pure_def, Option.some.injEq] at h
    rw [h]
    exact hd
  | cons part rest =>
    rw [List.foldlM_cons] at h
    obtain ⟨mid, hmid, -⟩ := Option.bind_eq_some_iff.mp h
    unfold enter at hmid
    split at hmid
    · assumption
    · cases hmid

theorem foldlM_makeDir_eq (tree : Tree) (names : List Bytes) (place place' : Place)
    (h : names.foldlM (enter tree) place = some place') (hd : nodeAt tree place' = some .dir) :
    names.foldlM makeDir (tree, place) = some (tree, place') := by
  induction names generalizing place with
  | nil =>
    simp only [List.foldlM_nil, Option.pure_def, Option.some.injEq] at h ⊢
    rw [h]
  | cons part rest ih =>
    rw [List.foldlM_cons] at h
    obtain ⟨mid, hmid, hrest⟩ := Option.bind_eq_some_iff.mp h
    have hdir := dir_of_foldlM tree rest mid place' hrest hd
    have hmake : makeDir (tree, place) part = some (tree, mid) := by
      unfold makeDir
      rw [hmid]
      simp [hdir]
    rw [List.foldlM_cons, hmake]
    exact ih mid hrest

section

variable {tree : Tree} {cwd place : Place}

theorem parts_slash (p q : Bytes) (hp : 0 ∉ p) (hq : 0 ∉ q) :
    parts (p ++ ch '/' :: q) = p.splitOn (ch '/') ++ q.splitOn (ch '/') := by
  rw [parts, Bytes.takeWhile_text _ (Bytes.not_mem_slash p q hp hq), List.splitOn_append_cons_self]

theorem takeWhile_slash (p q : Bytes) (hp : 0 ∉ p) (hq : 0 ∉ q) :
    (p ++ ch '/' :: q).takeWhile (· ≠ 0) ≠ [] := by
  rw [Bytes.takeWhile_text _ (Bytes.not_mem_slash p q hp hq)]
  simp

/-- A path whose text before a slash leads to `place`. -/
def LeadsTo (tree : Tree) (cwd : Place) (p q : Bytes) (place : Place) : Prop :=
  (p.splitOn (ch '/')).foldlM (enter tree) (origin cwd (p ++ ch '/' :: q)) = some place

theorem locate_slash {p q : Bytes} (hp : 0 ∉ p) (hq : 0 ∉ q) (h : LeadsTo tree cwd p q place) :
    locate tree cwd (p ++ ch '/' :: q) = (q.splitOn (ch '/')).foldlM (enter tree) place := by
  unfold locate
  rw [if_neg (takeWhile_slash p q hp hq), parts_slash p q hp hq, List.foldlM_append, h]
  rfl

theorem createDirectories_slash {p q : Bytes} (hp : 0 ∉ p) (hq : 0 ∉ q)
    (h : LeadsTo tree cwd p q place) (hd : nodeAt tree place = some .dir) :
    createDirectories tree cwd (p ++ ch '/' :: q) =
      ((q.splitOn (ch '/')).foldlM makeDir (tree, place)).map (·.1) := by
  unfold createDirectories
  rw [if_neg (takeWhile_slash p q hp hq), parts_slash p q hp hq, List.foldlM_append,
    foldlM_makeDir_eq tree _ _ _ h hd]
  rfl

theorem locate_text {p : Bytes} (hp : 0 ∉ p) (h : locate tree cwd p = some place) :
    p ≠ [] ∧ (p.splitOn (ch '/')).foldlM (enter tree) (origin cwd p) = some place := by
  unfold locate at h
  rw [parts, Bytes.takeWhile_text p hp] at h
  split at h
  · cases h
  · exact ⟨by assumption, h⟩

theorem leadsTo_of_locate {p : Bytes} (hp : 0 ∉ p) (h : locate tree cwd p = some place)
    (q : Bytes) : LeadsTo tree cwd p q place := by
  obtain ⟨hne, hfold⟩ := locate_text hp h
  have horigin : origin cwd (p ++ ch '/' :: q) = origin cwd p := by
    unfold origin
    cases p with
    | nil => exact absurd rfl hne
    | cons b rest => simp
  unfold LeadsTo
  rw [horigin]
  exact hfold

theorem leadsTo_of_trailing {p : Bytes} (hp : 0 ∉ p)
    (h : locate tree cwd (p ++ [ch '/']) = some place) (q : Bytes) :
    LeadsTo tree cwd p q place := by
  obtain ⟨-, hfold⟩ := locate_text (by simpa using Bytes.not_mem_slash p [] hp (by simp)) h
  have horigin : origin cwd (p ++ ch '/' :: q) = origin cwd (p ++ [ch '/']) := by
    unfold origin
    cases p <;> simp
  rw [List.splitOn_append_cons_self, List.foldlM_append, List.splitOn_nil] at hfold
  obtain ⟨mid, hmid, hlast⟩ := Option.bind_eq_some_iff.mp hfold
  have hstay : mid = place := by
    simp only [List.foldlM_cons, List.foldlM_nil, enter] at hlast
    split at hlast
    · simpa using hlast
    · cases hlast
  unfold LeadsTo
  rw [horigin, hmid, hstay]

end

theorem makeDir_spec {tree tree' : Tree} {place place' : Place} {part : Bytes}
    (h : makeDir (tree, place) part = some (tree', place')) :
    Grows tree tree' ∧ enter tree place part = some place' ∧ nodeAt tree' place' = some .dir := by
  unfold makeDir at h
  obtain ⟨next, hnext, hmake⟩ := Option.bind_eq_some_iff.mp h
  simp only at hnext hmake
  split at hmake
  · rename_i hdir
    simp only [Option.some.injEq, Prod.mk.injEq] at hmake
    rw [← hmake.1, ← hmake.2]
    exact ⟨Grows.refl _, hnext, hdir⟩
  · cases hmake
  · rename_i hnone
    simp only [Option.some.injEq, Prod.mk.injEq] at hmake
    have hne : next ≠ [] := by
      rintro rfl
      simp [nodeAt] at hnone
    rw [← hmake.1, ← hmake.2]
    exact ⟨grows_insert tree next .dir (by simp [hnone]), hnext, nodeAt_insert _ _ _ hne⟩

theorem foldlM_makeDir_spec (names : List Bytes) {tree tree' : Tree} {place place' : Place}
    (h : names.foldlM makeDir (tree, place) = some (tree', place')) :
    Grows tree tree' ∧ names.foldlM (enter tree') place = some place' ∧
      (names ≠ [] → nodeAt tree' place' = some .dir) := by
  induction names generalizing tree place with
  | nil =>
    simp only [List.foldlM_nil, Option.pure_def, Option.some.injEq, Prod.mk.injEq] at h
    rw [← h.1, ← h.2]
    exact ⟨Grows.refl _, rfl, fun hne => absurd rfl hne⟩
  | cons part rest ih =>
    rw [List.foldlM_cons] at h
    obtain ⟨⟨mid, at1⟩, hmid, hrest⟩ := Option.bind_eq_some_iff.mp h
    obtain ⟨hgrow, henter, hdir⟩ := makeDir_spec hmid
    obtain ⟨hgrow', hfold, hlast⟩ := ih hrest
    refine ⟨hgrow.trans hgrow', ?_, ?_⟩
    · rw [List.foldlM_cons, enter_grows (hgrow.trans hgrow') henter]
      exact hfold
    · intro _
      cases rest with
      | nil =>
        simp only [List.foldlM_nil, Option.pure_def, Option.some.injEq, Prod.mk.injEq] at hrest
        rw [← hrest.1, ← hrest.2]
        exact hdir
      | cons next more => exact hlast (by simp)

theorem createDirectories_spec {tree tree' : Tree} {cwd : Place} {path : Bytes}
    (h : createDirectories tree cwd path = some tree') :
    Grows tree tree' ∧ ∃ place, locate tree' cwd path = some place ∧
      nodeAt tree' place = some .dir := by
  unfold createDirectories at h
  split at h
  · cases h
  · rename_i hne
    obtain ⟨⟨made, place⟩, hfold, rfl⟩ := Option.map_eq_some_iff.mp h
    obtain ⟨hgrow, henter, hdir⟩ := foldlM_makeDir_spec _ hfold
    refine ⟨hgrow, place, ?_, hdir (List.splitOn_ne_nil _ _)⟩
    unfold locate
    rw [if_neg hne]
    exact henter

/-! ### Directories and files one step down -/

/-- A part of a path that goes down. -/
def Plain (part : Bytes) : Prop := part ≠ [] ∧ part ≠ ascii "." ∧ part ≠ ascii ".."

instance (part : Bytes) : Decidable (Plain part) := inferInstanceAs (Decidable (_ ∧ _ ∧ _))

theorem enter_plain (tree : Tree) (place : Place) (part : Bytes)
    (hd : nodeAt tree place = some .dir) (h : Plain part) :
    enter tree place part = some (place ++ [part]) := by
  unfold enter
  rw [if_pos hd, if_neg (by simp [h.1, h.2.1]), if_neg h.2.2]

theorem makeDir_plain (tree : Tree) (place : Place) (part : Bytes)
    (hd : nodeAt tree place = some .dir) (h : Plain part)
    (hfree : ∀ content, nodeAt tree (place ++ [part]) ≠ some (.file content)) :
    ∃ tree', makeDir (tree, place) part = some (tree', place ++ [part]) ∧
      nodeAt tree' (place ++ [part]) = some .dir ∧
      ∀ q, q ≠ place ++ [part] → nodeAt tree' q = nodeAt tree q := by
  unfold makeDir
  rw [enter_plain tree place part hd h, Option.bind_some]
  dsimp only
  cases hn : nodeAt tree (place ++ [part]) with
  | none =>
    exact ⟨_, rfl, nodeAt_insert _ _ _ (by simp), fun q hq => nodeAt_insert_ne _ _ _ _ hq⟩
  | some node =>
    cases node with
    | dir => exact ⟨tree, rfl, hn, fun _ _ => rfl⟩
    | file content => exact absurd hn (hfree content)

theorem foldlM_makeDir_plain (names : List Bytes) (tree : Tree) (place : Place)
    (hd : nodeAt tree place = some .dir) (h : ∀ part ∈ names, Plain part)
    (hfree : ∀ pre, pre <+: names → ∀ content, nodeAt tree (place ++ pre) ≠ some (.file content)) :
    ∃ tree', names.foldlM makeDir (tree, place) = some (tree', place ++ names) ∧
      (∀ pre, pre <+: names → nodeAt tree' (place ++ pre) = some .dir) ∧
      ∀ q, (∀ pre, pre ≠ [] → pre <+: names → q ≠ place ++ pre) →
        nodeAt tree' q = nodeAt tree q := by
  induction names generalizing tree place with
  | nil =>
    refine ⟨tree, by simp, ?_, fun _ _ => rfl⟩
    intro pre hpre
    rw [List.prefix_nil.mp hpre, List.append_nil]
    exact hd
  | cons part rest ih =>
    obtain ⟨mid, hmake, hmid, hsame⟩ := makeDir_plain tree place part hd (h part List.mem_cons_self)
      (hfree [part] ⟨rest, rfl⟩)
    -- The directory that was just made is no file, and below it nothing has changed.
    have hfree' : ∀ pre, pre <+: rest →
        ∀ content, nodeAt mid (place ++ [part] ++ pre) ≠ some (.file content) := by
      intro pre hpre content
      by_cases hp : pre = []
      · rw [hp, List.append_nil, hmid]
        simp
      · rw [hsame _ (by simpa using hp)]
        have := hfree (part :: pre) (List.cons_prefix_cons.mpr ⟨rfl, hpre⟩) content
        simpa using this
    obtain ⟨last, hlast, hdirs, hrest⟩ := ih mid (place ++ [part]) hmid
      (fun p hp => h p (List.mem_cons_of_mem _ hp)) hfree'
    refine ⟨last, ?_, ?_, ?_⟩
    · rw [List.foldlM_cons, hmake]
      simpa using hlast
    · intro pre hpre
      cases pre with
      | nil =>
        rw [List.append_nil, hrest place, hsame place]
        · exact hd
        · simp
        · intro pre _ _
          simp
      | cons b pre =>
        rw [List.cons_prefix_cons] at hpre
        have := hdirs pre hpre.2
        rw [hpre.1]
        simpa using this
    · intro q hq
      rw [hrest q, hsame q]
      · exact hq [part] (by simp) ⟨rest, rfl⟩
      · intro pre _ hpre
        have := hq (part :: pre) (by simp) (List.cons_prefix_cons.mpr ⟨rfl, hpre⟩)
        simpa using this

theorem foldlM_enter_plain (names : List Bytes) (tree : Tree) (place : Place)
    (h : ∀ part ∈ names, Plain part)
    (hdirs : ∀ pre, pre <+: names → pre ≠ names → nodeAt tree (place ++ pre) = some .dir) :
    names.foldlM (enter tree) place = some (place ++ names) := by
  induction names generalizing place with
  | nil => simp
  | cons part rest ih =>
    have hd := hdirs [] List.nil_prefix (by simp)
    rw [List.append_nil] at hd
    rw [List.foldlM_cons, enter_plain tree place part hd (h part List.mem_cons_self)]
    have hrest := ih (place ++ [part]) (fun p hp => h p (List.mem_cons_of_mem _ hp)) (by
      intro pre hpre hne
      have := hdirs (part :: pre) (List.cons_prefix_cons.mpr ⟨rfl, hpre⟩) (by simpa using hne)
      simpa using this)
    simpa using hrest

theorem foldlM_enter_none (names : List Bytes) (tree : Tree) (place : Place)
    (h : ∀ part ∈ names, Plain part) (pre : List Bytes) (hpre : pre <+: names) (hne : pre ≠ names)
    (hd : nodeAt tree (place ++ pre) ≠ some .dir) : names.foldlM (enter tree) place = none := by
  induction names generalizing place pre with
  | nil => exact absurd (List.prefix_nil.mp hpre) hne
  | cons part rest ih =>
    rw [List.foldlM_cons]
    by_cases hplace : nodeAt tree place = some .dir
    · rw [enter_plain tree place part hplace (h part List.mem_cons_self)]
      cases pre with
      | nil =>
        rw [List.append_nil] at hd
        exact absurd hplace hd
      | cons b pre =>
        rw [List.cons_prefix_cons] at hpre
        rw [hpre.1] at hd hne
        exact ih (place ++ [part]) (fun p hp => h p (List.mem_cons_of_mem _ hp)) pre hpre.2
          (by simpa using hne)
          (by simpa using hd)
    · unfold enter
      rw [if_neg hplace]
      rfl

theorem edit_eq (tree : Tree) (cwd place : Place) (path : Bytes) (change : Bytes → Bytes)
    (hl : locate tree cwd path = some place) (hd : nodeAt tree place ≠ some .dir) :
    edit tree cwd path change =
      some (tree.insert place (.file (change (contentAt tree place)))) := by
  unfold edit contentAt
  rw [hl, Option.bind_some]
  cases hn : nodeAt tree place with
  | none => rfl
  | some node =>
    cases node with
    | dir => exact absurd hn hd
    | file content => rfl

theorem splitExtension_append (b : UInt8) (name ext : Bytes) (hext : ch '.' ∉ ext)
    (hne : ext ≠ []) :
    splitExtension (b :: name ++ ch '.' :: ext) = (b :: name, ch '.' :: ext) := by
  obtain ⟨c, cs, rfl⟩ := List.exists_cons_of_ne_nil hne
  have hlen : 3 ≤ (b :: name ++ ch '.' :: c :: cs).length := by
    simp
    omega
  have hdots : ¬ (b :: name ++ ch '.' :: c :: cs = ascii "." ∨
      b :: name ++ ch '.' :: c :: cs = ascii "..") := by
    rintro (h | h) <;>
    · rw [h] at hlen
      exact absurd hlen (by decide)
  unfold splitExtension
  rw [if_neg hdots, Bytes.cutLast_append _ _ _ hext]

theorem splitExtension_spec (name : Bytes) (h : extension name ≠ []) :
    stem name ≠ [] ∧ name = stem name ++ extension name := by
  unfold stem extension splitExtension at *
  split at h
  · exact absurd rfl h
  · rename_i hdots
    rw [if_neg hdots]
    split at h
    · rename_i b front rest hcut
      exact ⟨by simp, Bytes.cutLast_some _ _ _ _ hcut⟩
    · exact absurd rfl h

theorem extension_eq_iff (name base ext : Bytes) (hbase : base ≠ []) (hext : ch '.' ∉ ext)
    (hne : ext ≠ []) :
    (extension name = ch '.' :: ext ∧ stem name = base) ↔ name = base ++ ch '.' :: ext := by
  constructor
  · rintro ⟨he, hs⟩
    rw [← hs, ← he]
    exact (splitExtension_spec name (by rw [he]; simp)).2
  · rintro rfl
    obtain ⟨b, rest, rfl⟩ := List.exists_cons_of_ne_nil hbase
    unfold stem extension
    rw [splitExtension_append b rest ext hext hne]
    exact ⟨rfl, rfl⟩

end Euxis.Files
