import Euxis.JsonCache.Code
import Euxis.Trace

/-!
# Coherence of the JSON cache

A row is sound when its digest and its value come from one content. Every step keeps the rows and
the stages of the calls sound, except the one in `put` that hashes the file again: it needs that the
file has not been rewritten since it was parsed.
-/

namespace Euxis.JsonCache

open Trace

variable (libs : Libs)

/-- A call that was answered from the cache returned the parse of the content it had hashed. -/
def Coherent (w : World) : Prop :=
  ∀ call ∈ w.calls, ∀ content value, call.stage = .hit content value →
    libs.parse content = .ok value

/-- When `put` hashes the file, the file parses as it did when it was read. -/
def Stable (w : World) : Event → Prop
  | .advance i _ => ∀ file content value current, w.calls[i]? = some ⟨file, .parsed content value⟩ →
    w.files file = some current → libs.parse current = libs.parse content
  | _ => True

/-! ## One call -/

structure SoundRow (row : Row) (content : Bytes) (value : Json) : Prop where
  hash : row.contentHash = libs.hash content
  blob : row.msgpackBlob = libs.msgpack.pack value
  parse : libs.parse content = .ok value

def RowSound (row : Option Row) : Prop := ∀ r ∈ row, ∃ content value, SoundRow libs r content value

def StageSound : Stage → Prop
  | .hashed content hash => hash = libs.hash content
  | .parsed content value => libs.parse content = .ok value
  | .rehashed content value hash => hash = libs.hash content ∧ libs.parse content = .ok value
  | .hit content value => libs.parse content = .ok value
  | _ => True

section Steps

variable {libs : Libs} {fault : Option Fault} {content : Option Bytes} {row : Option Row}

theorem hashFile_ok {read hash : Bytes} (h : hashFile libs fault content = .ok (read, hash)) :
    content = some read ∧ hash = libs.hash read := by
  unfold hashFile at h
  cases content with
  | none => cases h
  | some c =>
    dsimp only at h
    split at h
    · cases h
    · cases h
      exact ⟨rfl, rfl⟩

theorem getExists_sound : StageSound libs (getExists content) := by
  unfold getExists
  split <;> trivial

theorem getHash_sound : StageSound libs (getHash libs fault content) := by
  unfold getHash
  cases h : hashFile libs fault content with
  | error message => trivial
  | ok read => exact (hashFile_ok h).2

theorem getRow_sound (hinj : Function.Injective libs.hash) (hrow : RowSound libs row)
    (read : Bytes) : StageSound libs (getRow libs row read (libs.hash read)) := by
  unfold getRow
  cases row with
  | none => trivial
  | some r =>
    obtain ⟨stored, value, hsound⟩ := hrow r rfl
    dsimp only
    split
    · rename_i hmatch
      rw [hsound.blob, libs.msgpack.unpack_pack]
      -- One digest, one content: the value is the parse of what was hashed just now.
      have hsame : stored = read := hinj (hsound.hash.symm.trans hmatch.1)
      exact hsame ▸ hsound.parse
    · trivial

theorem getSelect_sound (hinj : Function.Injective libs.hash) (hrow : RowSound libs row)
    (read : Bytes) : StageSound libs (getSelect libs fault row read (libs.hash read)) := by
  unfold getSelect
  split
  · trivial
  · trivial
  · exact getRow_sound hinj hrow read

theorem load_sound (file : Bytes) : StageSound libs (load libs content file) := by
  unfold load
  cases content with
  | none => trivial
  | some read =>
    dsimp only
    split
    · trivial
    · assumption

theorem putHash_sound (value : Json)
    (hstable : ∀ current ∈ content, libs.parse current = .ok value) :
    StageSound libs (putHash libs fault content value) := by
  unfold putHash
  cases h : hashFile libs fault content with
  | error message => trivial
  | ok read =>
    obtain ⟨hread, hhash⟩ := hashFile_ok h
    exact ⟨hhash, hstable _ hread⟩

theorem putInsert_sound (hrow : RowSound libs row) (read : Bytes) (value : Json)
    (hparse : libs.parse read = .ok value) :
    StageSound libs (putInsert libs fault row value (libs.hash read)).1 ∧
      RowSound libs (putInsert libs fault row value (libs.hash read)).2 := by
  unfold putInsert
  split
  · exact ⟨trivial, hrow⟩
  · exact ⟨trivial, hrow⟩
  · refine ⟨trivial, ?_⟩
    rintro r ⟨⟩
    exact ⟨read, value, rfl, rfl, hparse⟩

theorem next_sound (hinj : Function.Injective libs.hash) (file : Bytes) (stage : Stage)
    (after : Stage × Option Row) (hrow : RowSound libs row) (hstage : StageSound libs stage)
    (hstable : ∀ read value, stage = .parsed read value → ∀ current ∈ content,
      libs.parse current = libs.parse read)
    (h : next libs fault content row file stage = some after) :
    StageSound libs after.1 ∧ RowSound libs after.2 := by
  cases stage with
  | called =>
    cases h
    exact ⟨getExists_sound, hrow⟩
  | found =>
    cases h
    exact ⟨getHash_sound, hrow⟩
  | hashed read hash =>
    cases h
    obtain rfl : hash = libs.hash read := hstage
    exact ⟨getSelect_sound hinj hrow read, hrow⟩
  | missed =>
    cases h
    exact ⟨load_sound file, hrow⟩
  | parsed read value =>
    cases h
    have hparse : libs.parse read = .ok value := hstage
    -- `put` hashes the file once more. By the condition that content parses to the same value.
    refine ⟨putHash_sound value ?_, hrow⟩
    intro current hcurrent
    rw [hstable read value rfl current hcurrent, hparse]
  | rehashed read value hash =>
    cases h
    obtain ⟨rfl, hparse⟩ : hash = libs.hash read ∧ libs.parse read = .ok value := hstage
    exact putInsert_sound hrow read value hparse
  | hit read value => cases h
  | returned result => cases h

end Steps

/-! ## Runs -/

structure Sound (w : World) : Prop where
  rows : ∀ file, RowSound libs (w.rows file)
  calls : ∀ call ∈ w.calls, StageSound libs call.stage

theorem opened_sound (files : Bytes → Option Bytes) : Sound libs (opened files) where
  rows := by
    rintro file r ⟨⟩
  calls := by
    rintro call ⟨⟩

theorem advance_some {libs : Libs} {w w' : World} {i : Nat} {fault : Option Fault}
    (h : step libs w (.advance i fault) = some w') :
    ∃ call after, w.calls[i]? = some call ∧
      next libs fault (w.files call.file) (w.rows call.file) call.file call.stage = some after ∧
      w' = { w with rows := Function.update w.rows call.file after.2,
                    calls := w.calls.set i { call with stage := after.1 } } := by
  obtain ⟨call, hcall, h⟩ := Option.bind_eq_some_iff.mp h
  obtain ⟨after, hafter, h⟩ := Option.bind_eq_some_iff.mp h
  exact ⟨call, after, hcall, hafter, (Option.some.inj h).symm⟩

theorem step_sound {libs : Libs} (hinj : Function.Injective libs.hash) (w : World) (e : Event)
    (w' : World) (hw : Sound libs w) (hstable : Stable libs w e) (h : step libs w e = some w') :
    Sound libs w' := by
  cases e with
  -- A rewrite touches neither the rows nor the calls: they speak of contents, not of the file.
  | rewrite file content =>
    cases h
    exact ⟨hw.rows, hw.calls⟩
  | getOrLoad file =>
    cases h
    refine ⟨hw.rows, ?_⟩
    intro call hcall
    rcases List.mem_append.mp hcall with hold | hnew
    · exact hw.calls call hold
    · rw [List.mem_singleton.mp hnew]
      trivial
  | advance i fault =>
    obtain ⟨call, after, hcall, hafter, rfl⟩ := advance_some h
    have hmem : call ∈ w.calls := List.mem_of_getElem? hcall
    obtain ⟨hstage, hrow⟩ :=
      next_sound hinj call.file call.stage after (hw.rows call.file) (hw.calls call hmem)
      (by
        intro read value hparsed current hcurrent
        refine hstable call.file read value current ?_ hcurrent
        rw [hcall, ← hparsed]) hafter
    constructor
    · intro file
      dsimp only
      by_cases hfile : file = call.file
      · rw [hfile, Function.update_self]
        exact hrow
      · rw [Function.update_of_ne hfile]
        exact hw.rows file
    · intro other hother
      rcases List.mem_or_eq_of_mem_set hother with hold | rfl
      · exact hw.calls other hold
      · exact hstage
  | purge =>
    cases h
    refine ⟨?_, hw.calls⟩
    rintro file r ⟨⟩

theorem Sound.coherent {libs : Libs} {w : World} (hw : Sound libs w) : Coherent libs w := by
  intro call hcall content value hstage
  have h := hw.calls call hcall
  rw [hstage] at h
  exact h

/-- In a run where no file changes its meaning between the parse and the hash of `put`, every hit is
the parse of the content that was hashed. -/
theorem cache_coherent (libs : Libs) (hinj : Function.Injective libs.hash)
    (files : Bytes → Option Bytes) (w : World)
    (h : Reaches (step libs) (Stable libs) (opened files) w) : Coherent libs w :=
  (h.keeps (Sound libs) (opened_sound libs files) (step_sound hinj)).coherent

/-! ## The condition is needed -/

section Stale

variable (libs : Libs) (w : World) (i : Nat)

theorem advance_call (file : Bytes) (stage stage' : Stage) (row : Option Row)
    (hcall : w.calls[i]? = some ⟨file, stage⟩)
    (hnext : next libs none (w.files file) (w.rows file) file stage = some (stage', row)) :
    ∃ w', step libs w (.advance i none) = some w' ∧ w'.files = w.files ∧ w'.rows file = row ∧
      w'.calls[i]? = some ⟨file, stage'⟩ := by
  refine ⟨{ w with rows := Function.update w.rows file row, calls := w.calls.set i ⟨file, stage'⟩ },
    ?_, rfl, ?_, ?_⟩
  · simp [step, hcall, hnext]
  · exact Function.update_self ..
  · have hlt : i < w.calls.length := (List.getElem?_eq_some_iff.mp hcall).1
    exact List.getElem?_set_self hlt

theorem get_hits (file content : Bytes) (value : Json) (row : Row)
    (hcall : w.calls[i]? = some ⟨file, .called⟩) (hfile : w.files file = some content)
    (hrow : w.rows file = some row) (hhash : row.contentHash = libs.hash content)
    (hne : row.msgpackBlob ≠ []) (hblob : row.msgpackBlob = libs.msgpack.pack value) :
    ∃ w', Reaches (step libs) (fun _ _ => True) w w' ∧ ⟨file, .hit content value⟩ ∈ w'.calls := by
  obtain ⟨w1, hstep1, hfiles1, hrow1, hcall1⟩ :=
    advance_call libs w i file .called .found (some row) hcall
    (by simp [next, getExists, hfile, hrow])
  obtain ⟨w2, hstep2, -, hrow2, hcall2⟩ := advance_call libs w1 i file .found
    (.hashed content (libs.hash content)) (some row) hcall1
    (by simp [next, getHash, hashFile, hfiles1, hfile, hrow1])
  have hhit : getRow libs (some row) content (libs.hash content) = .hit content value := by
    unfold getRow
    dsimp only
    rw [if_pos ⟨hhash, hne⟩, hblob, libs.msgpack.unpack_pack]
  obtain ⟨w3, hstep3, -, -, hcall3⟩ :=
    advance_call libs w2 i file (.hashed content (libs.hash content))
    (.hit content value) (some row) hcall2 (by simp [next, getSelect, hrow2, hhit])
  refine ⟨w3, ?_, List.mem_of_getElem? hcall3⟩
  exact ((Reaches.start.next _ trivial hstep1).next _ trivial hstep2).next _ trivial hstep3

theorem stale_after_put (file content current : Bytes) (value : Json)
    (hcall : w.calls[i]? = some ⟨file, .parsed content value⟩) (hfile : w.files file = some current)
    (hpack : libs.msgpack.pack value ≠ []) (hchanged : libs.parse current ≠ .ok value) :
    ∃ w', Reaches (step libs) (fun _ _ => True) w w' ∧ ¬ Coherent libs w' := by
  obtain ⟨w1, hstep1, hfiles1, hrow1, hcall1⟩ := advance_call libs w i file (.parsed content value)
    (.rehashed current value (libs.hash current))
    (w.rows file) hcall (by simp [next, putHash, hashFile, hfile])
  obtain ⟨w2, hstep2, hfiles2, hrow2, -⟩ :=
    advance_call libs w1 i file (.rehashed current value (libs.hash current))
    (.returned (.ok value))
    (some ⟨libs.hash current, libs.msgpack.pack value⟩) hcall1 (by simp [next, putInsert])
  have hstep3 : step libs w2 (.getOrLoad file) =
      some { w2 with calls := w2.calls ++ [⟨file, .called⟩] } := rfl
  obtain ⟨w', hreach, hhit⟩ :=
    get_hits libs { w2 with calls := w2.calls ++ [⟨file, .called⟩] } w2.calls.length file
    current value _ (by simp) (by simp [hfiles2, hfiles1, hfile]) hrow2 rfl hpack rfl
  refine ⟨w', .trans ?_ hreach, ?_⟩
  · exact ((Reaches.start.next _ trivial hstep1).next _ trivial hstep2).next _ trivial hstep3
  · intro hcoherent
    exact hchanged (hcoherent _ hhit current value rfl)

end Stale

/-! ## Samples -/

def digestOne : Bytes := ascii "92cdf578c47085a5992256f0dcf97d0b19f1f1c9de4d5fe30c3ace6191b6e5db"

def digestTwo : Bytes := ascii "31237cdb79ae1dfa7ffb87cde7ea8a80352d300ee5ac758a6cddd19d671925ec"

/-- BLAKE2b on two contents, an injective function on the others. -/
def sampleHash (content : Bytes) : Bytes :=
  if content = ascii "1" then digestOne else if content = ascii "2" then digestTwo
  else ch 'x' :: content

def sampleUnhash (digest : Bytes) : Bytes :=
  if digest = digestOne then ascii "1" else if digest = digestTwo then ascii "2" else digest.tail

theorem sampleUnhash_hash (content : Bytes) : sampleUnhash (sampleHash content) = content := by
  have hx : ∀ digest : Bytes, digest.head? ≠ some (ch 'x') → ch 'x' :: content ≠ digest := by
    rintro digest hhead rfl
    exact hhead rfl
  unfold sampleHash
  split_ifs with hone htwo
  · rw [hone, sampleUnhash, if_pos rfl]
  · rw [htwo, sampleUnhash, if_neg (by decide), if_pos rfl]
  · rw [sampleUnhash, if_neg (hx digestOne (by decide)), if_neg (hx digestTwo (by decide)),
      List.tail_cons]

theorem sampleHash_injective : Function.Injective sampleHash :=
  Function.LeftInverse.injective sampleUnhash_hash

/-- The number `n` is packed as its one byte. -/
def sampleLibs (n : UInt8) (h : n ≠ unusedByte) : Libs where
  hash := sampleHash
  parse text := (Json.read text).elim (.error []) .ok
  msgpack := .sample (.int n.toNat) [n] (by simpa using h)

def sampleFile : Bytes := ascii "registry.json"

def sampleFiles : Bytes → Option Bytes :=
  Function.update (fun _ => none) sampleFile (some (ascii "1"))

/-- The number that a call has returned from the cache, and the content it had hashed. -/
def numberHit (w : World) (i : Nat) : Option (Bytes × Int) :=
  match w.calls[i]? with
  | some ⟨_, .hit content (.int n)⟩ => some (content, n)
  | _ => none

theorem numberHit_some {w : World} {i : Nat} {content : Bytes} {n : Int}
    (h : numberHit w i = some (content, n)) :
    ∃ call ∈ w.calls, call.stage = .hit content (.int n) := by
  unfold numberHit at h
  split at h
  · rename_i hcall
    cases h
    exact ⟨_, List.mem_of_getElem? hcall, rfl⟩
  · cases h

/-- The file has the content that was parsed. -/
def unchanged (w : World) : Event → Bool
  | .advance i _ =>
    match w.calls[i]? with
    | some ⟨file, .parsed content _⟩ => w.files file = some content
    | _ => true
  | _ => true

theorem stable_of_unchanged (libs : Libs) (w : World) (e : Event) (h : unchanged w e = true) :
    Stable libs w e := by
  cases e with
  | advance i fault =>
    intro file content value current hcall hcurrent
    simp only [unchanged, hcall, hcurrent, Option.some.injEq, decide_eq_true_eq] at h
    rw [h]
  | _ => trivial

theorem hit_between_rewrites :
    ∃ w, Reaches (step (sampleLibs 2 (by decide))) (Stable (sampleLibs 2 (by decide)))
    (opened sampleFiles) w ∧ numberHit w 1 = some (ascii "2", 2) ∧
      Coherent (sampleLibs 2 (by decide)) w := by
  have hrun : (run (step (sampleLibs 2 (by decide))) (fun w e => unchanged w e) (opened sampleFiles)
      [.getOrLoad sampleFile, .advance 0 none, .advance 0 none,
        .rewrite sampleFile (some (ascii "2")),
        .advance 0 none, .advance 0 none, .advance 0 none, .advance 0 none, .getOrLoad sampleFile,
        .advance 1 none, .advance 1 none, .rewrite sampleFile (some (ascii "1")),
        .advance 1 none]).map
      (fun w => numberHit w 1) = some (some (ascii "2", 2)) := by
    decide +kernel
  obtain ⟨w, hw, hhit⟩ := Option.map_eq_some_iff.mp hrun
  have hreach := (Reaches.of_run _ .start hw).mono (stable_of_unchanged (sampleLibs 2 (by decide)))
  exact ⟨w, hreach, hhit, cache_coherent _ sampleHash_injective sampleFiles w hreach⟩

theorem rewrite_before_put_stale : ¬ ∀ (libs : Libs), Function.Injective libs.hash →
    ∀ (files : Bytes → Option Bytes)
    (w : World), Reaches (step libs) (fun _ _ => True) (opened files) w → Coherent libs w := by
  -- The file is rewritten between the parse and the hash of `put`.
  intro h
  have hrun : (run (step (sampleLibs 1 (by decide))) (fun _ _ => True) (opened sampleFiles)
      [.getOrLoad sampleFile, .advance 0 none, .advance 0 none, .advance 0 none, .advance 0 none,
        .rewrite sampleFile (some (ascii "2")), .advance 0 none, .advance 0 none,
        .getOrLoad sampleFile,
        .advance 1 none, .advance 1 none, .advance 1 none]).map
      (fun w => numberHit w 1) = some (some (ascii "2", 1)) := by
    decide +kernel
  obtain ⟨w, hw, hhit⟩ := Option.map_eq_some_iff.mp hrun
  obtain ⟨call, hcall, hstage⟩ := numberHit_some hhit
  have hparse := h _ sampleHash_injective sampleFiles w (Reaches.of_run _ .start hw) call
    hcall _ _ hstage
  have htwo : (sampleLibs 1 (by decide)).parse (ascii "2") = .ok (.int 2) := rfl
  rw [htwo] at hparse
  cases hparse

end Euxis.JsonCache
