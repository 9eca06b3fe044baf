import Euxis.Policy.Proofs
import Euxis.Scan.Code

/-!
# The key of a cached result: `libs/cache/src/key.cpp` and `hash.cpp`

Four fields go into one stream of bytes, with a zero byte between them. The hash of the stream, in
hex, is the key.
-/

namespace Euxis.Cache

open Scan (KeyInputs)

/-- `crypto_generichash` of the library: the hash of a text, and the same hash in parts. Parts are
hashed as the text they make together. -/
structure GenericHash where
  hash : Bytes → Bytes
  State : Type
  init : State
  update : State → Bytes → State
  final : State → Bytes
  final_updates : ∀ parts : List Bytes, final (parts.foldl update init) = hash parts.flatten

/-! ## The hasher -/

variable (H : GenericHash)

/-- `Hasher`. Its state is gone after a move. -/
structure Hasher where
  state : Option H.State

def Hasher.new : Hasher H := { state := some H.init }

def toHex (bytes : Bytes) : Bytes := Policy.hexEncode bytes

variable {H}

def Hasher.update (h : Hasher H) (s : Bytes) : Hasher H :=
  match h.state with
  | none => h
  | some state => if s = [] then h else { state := some (H.update state s) }

def Hasher.finalize (h : Hasher H) : Bytes :=
  match h.state with
  | none => []
  | some state => toHex (H.final state)

variable (H)

def composeKey (inputs : KeyInputs) : Bytes :=
  let h := Hasher.new H
  let h := h.update inputs.file
  let h := h.update [0]
  let h := h.update inputs.contentHash
  let h := h.update [0]
  let h := h.update inputs.rulesetHash
  let h := h.update [0]
  let h := h.update inputs.toolVersion
  h.finalize

/-! ## The stream -/

variable {H}

/-- The hasher has taken the bytes, in some parts. -/
def Hasher.Holds (h : Hasher H) (bytes : Bytes) : Prop :=
  ∃ parts : List Bytes, h.state = some (parts.foldl H.update H.init) ∧ parts.flatten = bytes

theorem Hasher.new_holds : (Hasher.new H).Holds [] := ⟨[], rfl, rfl⟩

theorem Hasher.Holds.update {h : Hasher H} {bytes : Bytes} (hh : h.Holds bytes) (s : Bytes) :
    (h.update s).Holds (bytes ++ s) := by
  obtain ⟨parts, hstate, hparts⟩ := hh
  unfold Hasher.update
  rw [hstate]
  by_cases hs : s = []
  · subst hs
    exact ⟨parts, by simp [hstate], by simp [hparts]⟩
  · exact ⟨parts ++ [s], by simp [hs], by simp [hparts]⟩

theorem Hasher.Holds.finalize {h : Hasher H} {bytes : Bytes} (hh : h.Holds bytes) :
    h.finalize = toHex (H.hash bytes) := by
  obtain ⟨parts, hstate, rfl⟩ := hh
  unfold Hasher.finalize
  rw [hstate]
  simp only [H.final_updates]

/-- All that is hashed for a key. -/
def keyBytes (inputs : KeyInputs) : Bytes :=
  inputs.file ++ 0 :: (inputs.contentHash ++ 0 :: (inputs.rulesetHash ++ 0 :: inputs.toolVersion))

theorem composeKey_eq (inputs : KeyInputs) :
    composeKey H inputs = toHex (H.hash (keyBytes inputs)) := by
  have hholds := ((((((Hasher.new_holds (H := H)).update inputs.file).update [0]).update
    inputs.contentHash).update
    [0]).update inputs.rulesetHash).update [0] |>.update inputs.toolVersion
  rw [composeKey, hholds.finalize, keyBytes]
  simp

theorem composeKey_eq_scan (w : Scan.World) (hdigest : ∀ data, w.digest data = toHex (H.hash data))
    (inputs : KeyInputs) : Scan.composeKey w inputs = composeKey H inputs := by
  rw [composeKey_eq, Scan.composeKey, hdigest, keyBytes]
  simp

theorem toHex_injective : Function.Injective toHex := by
  intro a b h
  have hread := congrArg Policy.hexDecodePairs h
  rw [toHex, toHex, Policy.hexDecodePairs_encode, Policy.hexDecodePairs_encode] at hread
  exact Option.some.inj hread

/-- No field but the last holds a zero byte. -/
structure Separated (inputs : KeyInputs) : Prop where
  file : 0 ∉ inputs.file
  contentHash : 0 ∉ inputs.contentHash
  rulesetHash : 0 ∉ inputs.rulesetHash

theorem keyBytes_inj {a b : KeyInputs} (ha : Separated a) (hb : Separated b)
    (h : keyBytes a = keyBytes b) : a = b := by
  obtain ⟨hfile, h⟩ := Bytes.append_cons_inj ha.file hb.file h
  obtain ⟨hcontent, h⟩ := Bytes.append_cons_inj ha.contentHash hb.contentHash h
  obtain ⟨hruleset, hversion⟩ := Bytes.append_cons_inj ha.rulesetHash hb.rulesetHash h
  cases a
  cases b
  simp_all

/-- **Keys.** Two inputs whose streams the hash tells apart have the same key only if all four
fields are equal. -/
theorem compose_key_collision_free (H : GenericHash) (a b : KeyInputs) (ha : Separated a)
    (hb : Separated b) (hhash : H.hash (keyBytes a) = H.hash (keyBytes b) → keyBytes a = keyBytes b)
    (h : composeKey H a = composeKey H b) :
    a.file = b.file ∧ a.contentHash = b.contentHash ∧ a.rulesetHash = b.rulesetHash ∧
      a.toolVersion = b.toolVersion := by
  rw [composeKey_eq, composeKey_eq] at h
  have heq : a = b := keyBytes_inj ha hb (hhash (toHex_injective h))
  rw [heq]
  exact ⟨rfl, rfl, rfl, rfl⟩

/-- A hash of 32 bytes: those that the text starts with. -/
def firstBytes : GenericHash where
  hash text := (text ++ List.replicate 32 0).take 32
  State := Bytes
  init := []
  update state part := state ++ part
  final state := (state ++ List.replicate 32 0).take 32
  final_updates parts := by
    have hflatten : ∀ start : Bytes, parts.foldl (· ++ ·) start = start ++ parts.flatten := by
      induction parts with
      | nil => simp
      | cons part parts ih =>
        intro start
        rw [List.foldl_cons, ih, List.flatten_cons, List.append_assoc]
    rw [hflatten, List.nil_append]

def shortRuleset : KeyInputs :=
  { file := ascii "/a.py", contentHash := ascii "c0", rulesetHash := ascii "X",
    toolVersion := ascii "Y" }

def longRuleset : KeyInputs :=
  { file := ascii "/a.py", contentHash := ascii "c0", rulesetHash := ascii "XY", toolVersion := [] }

theorem compose_key_no_smearing :
    composeKey firstBytes shortRuleset ≠ composeKey firstBytes longRuleset := by
  intro h
  have hfields := compose_key_collision_free firstBytes shortRuleset longRuleset
    ⟨by decide, by decide, by decide⟩
    ⟨by decide, by decide, by decide⟩ (fun hhash => absurd hhash (by decide)) h
  exact absurd hfields.2.2.1 (by decide)

end Euxis.Cache
