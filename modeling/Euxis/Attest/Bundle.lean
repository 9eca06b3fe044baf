import Euxis.Attest.Proofs
import Euxis.Outcome

/-!
# Sigstore bundles: `libs/attest/src/bundle.cpp`

A bundle has its envelope, a hint at the key and the entries of the transparency log. The writer
leaves out what is empty, and the reader puts a default where it finds nothing.
-/

namespace Euxis.Attest

def kSigstoreBundleMediaType : Bytes := ascii "application/vnd.dev.sigstore.bundle.v0.3+json"

structure PublicKeyMaterial where
  hint : Bytes := []
  rawB64 : Bytes := []

structure TlogEntry where
  logIndex : Int64 := 0
  integratedTimeUnix : Int64 := 0
  logId : Bytes := []
  kindVersionKind : Bytes := []
  kindVersionVersion : Bytes := []
  inclusionProof : Json := .obj []

structure Bundle where
  mediaType : Bytes := kSigstoreBundleMediaType
  publicKey : PublicKeyMaterial := {}
  dsseEnvelope : Envelope
  tlogEntries : List TlogEntry := []

structure BundleError where
  message : Bytes
  deriving DecidableEq, Repr

/-! ## Writing -/

/-- `j.empty()`. -/
def isEmpty : Json → Bool
  | .null | .arr [] | .obj [] => true
  | _ => false

def kindVersionToJson (t : TlogEntry) : Json :=
  (Json.null.set (ascii "kind") (.str t.kindVersionKind)).set (ascii "version")
    (.str t.kindVersionVersion)

def tlogToJson (t : TlogEntry) : Json :=
  let out := (Json.null.set (ascii "logIndex") (.int t.logIndex.toInt)).set (ascii "integratedTime")
    (.int t.integratedTimeUnix.toInt)
  let out := if t.logId ≠ [] then out.set (ascii "logID") (.str t.logId) else out
  let out := if t.kindVersionKind ≠ [] then out.set (ascii "kindVersion") (kindVersionToJson t)
    else out
  if ¬ isEmpty t.inclusionProof then out.set (ascii "inclusionProof") t.inclusionProof else out

def publicKeyToJson (pk : PublicKeyMaterial) : Json :=
  let out := Json.null.set (ascii "hint") (.str pk.hint)
  if pk.rawB64 ≠ [] then out.set (ascii "rawBytes") (.str pk.rawB64) else out

def verificationMaterialToJson (b : Bundle) : Json :=
  let vm := Json.null.set (ascii "publicKey") (publicKeyToJson b.publicKey)
  if b.tlogEntries ≠ [] then vm.set (ascii "tlogEntries") (.arr (b.tlogEntries.map tlogToJson))
  else vm

def bundleToJson (b : Bundle) : Json :=
  ((Json.null.set (ascii "mediaType") (.str b.mediaType)).set (ascii "verificationMaterial")
    (verificationMaterialToJson b)).set (ascii "dsseEnvelope") (envelopeToJson b.dsseEnvelope)

/-! ## Reading -/

/-- A reader gives up with an error of its own, or the library throws under it. -/
inductive Failure where
  | returned (e : BundleError)
  | thrown (e : JsonError)
  deriving DecidableEq, Repr

def throwing {α : Type} : Except JsonError α → Except Failure α
  | .ok a => .ok a
  | .error e => .error (.thrown e)

def bundleError {α : Type} (message : Bytes) : Except Failure α := .error (.returned { message })

/-- `j.value(key, default)` with an `int64_t` default. `truncate` casts a float, and a number above
the range wraps. -/
def valueInt64 (truncate : Bytes → Int64) (j : Json) (key : Bytes) (fallback : Int64) :
    Except JsonError Int64 :=
  match j with
  | .obj members =>
    match members.lookup key with
    | none => .ok fallback
    | some (.int i) => .ok (Int64.ofInt i)
    | some (.float text) => .ok (truncate text)
    | some _ => .error .typeError
  | _ => .error .typeError

variable (truncate : Bytes → Int64)

def kindVersionFromJson (j : Json) : Except JsonError (Bytes × Bytes) :=
  match j.find (ascii "kindVersion") with
  | some (.obj members) => do
    let kind ← Json.valueStr (.obj members) (ascii "kind") []
    let version ← Json.valueStr (.obj members) (ascii "version") []
    return (kind, version)
  | _ => .ok ([], [])

def inclusionProofFromJson (j : Json) : Json :=
  match j.find (ascii "inclusionProof") with
  | some (.obj members) => .obj members
  | _ => .obj []

def tlogFromJson (j : Json) : Except Failure TlogEntry :=
  match j with
  | .obj _ => do
    let logIndex ← throwing (valueInt64 truncate j (ascii "logIndex") 0)
    let integratedTimeUnix ← throwing (valueInt64 truncate j (ascii "integratedTime") 0)
    let logId ← throwing (j.valueStr (ascii "logID") [])
    let (kindVersionKind, kindVersionVersion) ← throwing (kindVersionFromJson j)
    return {
      logIndex, integratedTimeUnix, logId, kindVersionKind, kindVersionVersion
      inclusionProof := inclusionProofFromJson j }
  | _ => bundleError (ascii "tlog entry not an object")

def publicKeyFromJson (vm : Json) : Except JsonError PublicKeyMaterial :=
  match vm.find (ascii "publicKey") with
  | some (.obj members) => do
    let hint ← Json.valueStr (.obj members) (ascii "hint") []
    let rawB64 ← Json.valueStr (.obj members) (ascii "rawBytes") []
    return { hint, rawB64 }
  | _ => .ok {}

def tlogEntriesFromJson (vm : Json) : Except Failure (List TlogEntry) :=
  match vm.find (ascii "tlogEntries") with
  | some (.arr items) => items.mapM (tlogFromJson truncate)
  | _ => .ok []

def dsseEnvelopeFromJson (j : Json) : Except Failure Envelope :=
  match j.find (ascii "dsseEnvelope") with
  | none => bundleError (ascii "Bundle: missing dsseEnvelope")
  | some env =>
    match envelopeFromJson env with
    | .error e => bundleError (ascii "Bundle.dsseEnvelope: " ++ e.message)
    | .ok env => .ok env

def bundleFromJson (j : Json) : Except Failure Bundle :=
  match j with
  | .obj _ =>
    match j.find (ascii "verificationMaterial") with
    | some (.obj members) => do
      let publicKey ← throwing (publicKeyFromJson (.obj members))
      let tlogEntries ← tlogEntriesFromJson truncate (.obj members)
      let dsseEnvelope ← dsseEnvelopeFromJson j
      return {
        mediaType := (j.findStr (ascii "mediaType")).getD kSigstoreBundleMediaType
        publicKey, dsseEnvelope, tlogEntries }
    | _ => bundleError (ascii "Bundle: missing verificationMaterial")
  | _ => bundleError (ascii "Bundle: not an object")

/-! ## One log entry -/

/-- What the code stores: the proof is an object, and a version stands beside a kind. -/
structure TlogEntry.Kept (t : TlogEntry) : Prop where
  proof : t.inclusionProof.IsObject
  kind : t.kindVersionKind ≠ [] ∨ t.kindVersionVersion = []

theorem valueInt64_of_find (j : Json) (key : Bytes) (n : Int64)
    (h : j.find key = some (.int n.toInt)) : valueInt64 truncate j key 0 = .ok n := by
  cases j with
  | obj members =>
    have hlookup : members.lookup key = some (.int n.toInt) := h
    unfold valueInt64
    simp only [hlookup, Int64.ofInt_toInt]
  | _ => exact absurd h (by simp [Json.find])

theorem kindVersionFromJson_toJson (t : TlogEntry) (j : Json) (hkept : t.Kept)
    (h : j.find (ascii "kindVersion") = if t.kindVersionKind ≠ [] then some (kindVersionToJson t)
      else none) :
    kindVersionFromJson j = .ok (t.kindVersionKind, t.kindVersionVersion) := by
  unfold kindVersionFromJson
  rw [h]
  by_cases hkind : t.kindVersionKind = []
  · rw [if_neg (by simp [hkind]), hkind, hkept.kind.resolve_left (by simp [hkind])]
  · obtain ⟨members, hobj⟩ : ∃ members, kindVersionToJson t = .obj members := ⟨_, rfl⟩
    have hk : (kindVersionToJson t).find (ascii "kind") = some (.str t.kindVersionKind) := by
      unfold kindVersionToJson
      rw [Json.find_set_ne, Json.find_set]
      · trivial
      · trivial
      · decide
    have hv : (kindVersionToJson t).find (ascii "version") = some (.str t.kindVersionVersion) :=
      Json.find_set _ _ _ trivial
    rw [hobj] at hk hv
    simp only [ne_eq, hkind, not_false_eq_true, if_true, hobj]
    rw [Json.valueStr_of_some _ _ [] _ hk, Outcome.ok_bind, Json.valueStr_of_some _ _ [] _ hv,
      Outcome.ok_bind]
    rfl

theorem inclusionProofFromJson_toJson (j proof : Json) (hobj : proof.IsObject)
    (h : j.find (ascii "inclusionProof") = if ¬ isEmpty proof then some proof else none) :
    inclusionProofFromJson j = proof := by
  obtain ⟨members, rfl⟩ := hobj.exists_members
  unfold inclusionProofFromJson
  rw [h]
  cases members with
  | nil => simp [isEmpty]
  | cons m rest => simp [isEmpty]

theorem tlogFromJson_obj (j : Json) (t : TlogEntry) (hobj : j.IsObject)
    (hindex : valueInt64 truncate j (ascii "logIndex") 0 = .ok t.logIndex)
    (htime : valueInt64 truncate j (ascii "integratedTime") 0 = .ok t.integratedTimeUnix)
    (hid : j.valueStr (ascii "logID") [] = .ok t.logId)
    (hkind : kindVersionFromJson j = .ok (t.kindVersionKind, t.kindVersionVersion))
    (hproof : inclusionProofFromJson j = t.inclusionProof) : tlogFromJson truncate j = .ok t := by
  obtain ⟨members, rfl⟩ := hobj.exists_members
  simp only [tlogFromJson, hindex, htime, hid, hkind, hproof, throwing, Outcome.ok_bind]
  rfl

theorem tlogFromJson_toJson (t : TlogEntry) (hkept : t.Kept) :
    tlogFromJson truncate (tlogToJson t) = .ok t := by
  let numbers := (Json.null.set (ascii "logIndex") (.int t.logIndex.toInt)).set
    (ascii "integratedTime")
    (.int t.integratedTimeUnix.toInt)
  let ids := if t.logId ≠ [] then numbers.set (ascii "logID") (.str t.logId) else numbers
  let kinds := if t.kindVersionKind ≠ [] then ids.set (ascii "kindVersion") (kindVersionToJson t)
    else ids
  have hnumbers : numbers.IsObject := trivial
  have hids : ids.IsObject := Json.isObject_ite_set _ _ _ _ hnumbers
  have hkinds : kinds.IsObject := Json.isObject_ite_set _ _ _ _ hids
  -- A member that is left out when it is empty hides no other one.
  have hnumber : ∀ key, key ≠ ascii "logID" → key ≠ ascii "kindVersion" →
      key ≠ ascii "inclusionProof" → (tlogToJson t).find key = numbers.find key := by
    intro key hid hkind hproof
    calc (tlogToJson t).find key = kinds.find key := Json.find_ite_set_ne _ _ _ _ _ hkinds hproof
      _ = ids.find key := Json.find_ite_set_ne _ _ _ _ _ hids hkind
      _ = numbers.find key := Json.find_ite_set_ne _ _ _ _ _ hnumbers hid
  apply tlogFromJson_obj truncate (tlogToJson t) t (Json.isObject_ite_set _ _ _ _ hkinds)
  · apply valueInt64_of_find
    rw [hnumber _ (by decide) (by decide) (by decide)]
    exact (Json.find_set_ne _ _ _ _ (by trivial) (by decide)).trans (Json.find_set _ _ _ trivial)
  · apply valueInt64_of_find
    rw [hnumber _ (by decide) (by decide) (by decide)]
    exact Json.find_set _ _ _ trivial
  · apply Json.valueStr_of_find _ _ _ (Json.isObject_ite_set _ _ _ _ hkinds)
    calc (tlogToJson t).find (ascii "logID") = kinds.find (ascii "logID") :=
          Json.find_ite_set_ne _ _ _ _ _ hkinds (by decide)
      _ = ids.find (ascii "logID") := Json.find_ite_set_ne _ _ _ _ _ hids (by decide)
      _ = if t.logId ≠ [] then some (.str t.logId) else none :=
        Json.find_ite_set _ _ _ _ hnumbers (by rfl)
  · apply kindVersionFromJson_toJson t _ hkept
    calc (tlogToJson t).find (ascii "kindVersion") = kinds.find (ascii "kindVersion") :=
          Json.find_ite_set_ne _ _ _ _ _ hkinds (by decide)
      _ = if t.kindVersionKind ≠ [] then some (kindVersionToJson t) else none :=
          Json.find_ite_set _ _ _ _ hids
            ((Json.find_ite_set_ne _ _ _ _ _ hnumbers (by decide)).trans (by rfl))
  · apply inclusionProofFromJson_toJson _ _ hkept.proof
    apply Json.find_ite_set _ _ _ _ hkinds
    calc kinds.find (ascii "inclusionProof") = ids.find (ascii "inclusionProof") :=
          Json.find_ite_set_ne _ _ _ _ _ hids (by decide)
      _ = numbers.find (ascii "inclusionProof") :=
        Json.find_ite_set_ne _ _ _ _ _ hnumbers (by decide)
      _ = none := by rfl

/-! ## The whole bundle -/

theorem publicKeyFromJson_toJson (vm : Json) (pk : PublicKeyMaterial)
    (h : vm.find (ascii "publicKey") = some (publicKeyToJson pk)) :
    publicKeyFromJson vm = .ok pk := by
  let hinted := Json.null.set (ascii "hint") (.str pk.hint)
  have hhinted : hinted.IsObject := trivial
  have hobj : (publicKeyToJson pk).IsObject := Json.isObject_ite_set _ _ _ _ hhinted
  have hhint : (publicKeyToJson pk).find (ascii "hint") = some (.str pk.hint) :=
    (Json.find_ite_set_ne _ _ _ _ _ hhinted (by decide)).trans (Json.find_set _ _ _ trivial)
  have hraw : (publicKeyToJson pk).find (ascii "rawBytes") = if pk.rawB64 ≠ [] then
      some (.str pk.rawB64) else none :=
    Json.find_ite_set _ _ _ _ hhinted (by rfl)
  have hrawBytes := Json.valueStr_of_find _ _ _ hobj hraw
  obtain ⟨members, hmembers⟩ := hobj.exists_members
  rw [hmembers] at h hhint hrawBytes
  simp only [publicKeyFromJson, h, Json.valueStr_of_some _ _ [] _ hhint, hrawBytes, Outcome.ok_bind]
  rfl

theorem mapM_tlogFromJson (entries : List TlogEntry) (h : ∀ t ∈ entries, t.Kept) :
    (entries.map tlogToJson).mapM (tlogFromJson truncate) = .ok entries := by
  induction entries with
  | nil => rfl
  | cons t rest ih =>
    have hrest := ih (fun t' ht' => h t' (List.mem_cons_of_mem _ ht'))
    rw [List.map_cons, List.mapM_cons, tlogFromJson_toJson truncate t (h t List.mem_cons_self),
      Outcome.ok_bind, hrest, Outcome.ok_bind]
    rfl

theorem tlogEntriesFromJson_toJson (b : Bundle) (h : ∀ t ∈ b.tlogEntries, t.Kept) :
    tlogEntriesFromJson truncate (verificationMaterialToJson b) = .ok b.tlogEntries := by
  have hfind : (verificationMaterialToJson b).find (ascii "tlogEntries") =
      if b.tlogEntries ≠ [] then some (.arr (b.tlogEntries.map tlogToJson)) else none :=
    Json.find_ite_set _ _ _ _ trivial (by rfl)
  unfold tlogEntriesFromJson
  rw [hfind]
  by_cases hnil : b.tlogEntries = []
  · rw [hnil]
    rfl
  · rw [if_pos hnil]
    exact mapM_tlogFromJson truncate b.tlogEntries h

/-- A bundle survives the way through JSON, whatever its strings are. -/
theorem bundleFromJson_toJson (truncate : Bytes → Int64) (b : Bundle)
    (h : ∀ t ∈ b.tlogEntries, t.Kept) : bundleFromJson truncate (bundleToJson b) = .ok b := by
  have hmedia : (bundleToJson b).findStr (ascii "mediaType") = some b.mediaType := by
    unfold bundleToJson
    rw [Json.findStr_set_ne, Json.findStr_set_ne, Json.findStr_set]
    · trivial
    · trivial
    · decide
    · trivial
    · decide
  have hvm : (bundleToJson b).find (ascii "verificationMaterial") =
      some (verificationMaterialToJson b) := by
    unfold bundleToJson
    rw [Json.find_set_ne, Json.find_set]
    · trivial
    · trivial
    · decide
  have henv : dsseEnvelopeFromJson (bundleToJson b) = .ok b.dsseEnvelope := by
    have hfind : (bundleToJson b).find (ascii "dsseEnvelope") =
        some (envelopeToJson b.dsseEnvelope) :=
      Json.find_set _ _ _ trivial
    simp only [dsseEnvelopeFromJson, hfind, envelopeFromJson_toJson]
  have hkey : publicKeyFromJson (verificationMaterialToJson b) = .ok b.publicKey :=
    publicKeyFromJson_toJson _ _
      ((Json.find_ite_set_ne _ _ _ _ _ (by trivial) (by decide)).trans
        (Json.find_set _ _ _ trivial))
  -- The log entries are the only part with a condition: a kind without a version is not written.
  have hlogs := tlogEntriesFromJson_toJson truncate b h
  have hobj : (verificationMaterialToJson b).IsObject := Json.isObject_ite_set _ _ _ _ trivial
  obtain ⟨members, hmembers⟩ := hobj.exists_members
  obtain ⟨fields, hfields⟩ : ∃ fields, bundleToJson b = .obj fields := ⟨_, rfl⟩
  rw [hmembers] at hvm hkey hlogs
  rw [hfields] at hmedia hvm henv ⊢
  simp only [bundleFromJson, hvm, hkey, hlogs, henv, hmedia, throwing, Outcome.ok_bind]
  rfl

def sampleBundle : Bundle where
  dsseEnvelope := { payloadType := ascii "text", payload := [],
                    signatures := [{ keyid := [255] }, {}] }
  tlogEntries := [
    { logIndex := -3, kindVersionKind := ascii "dsse",
      inclusionProof := .obj [(ascii "root", .null)] }, {}]

theorem sampleBundle_roundTrip :
    bundleFromJson (fun _ => 0) (bundleToJson sampleBundle) = .ok sampleBundle := by
  apply bundleFromJson_toJson
  intro t ht
  simp only [sampleBundle, List.mem_cons, List.not_mem_nil, or_false] at ht
  rcases ht with rfl | rfl
  · exact ⟨trivial, Or.inl (by decide)⟩
  · exact ⟨trivial, Or.inr rfl⟩

end Euxis.Attest
