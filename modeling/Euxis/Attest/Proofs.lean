import Euxis.Attest.Base64
import Euxis.Json.RoundTrip

/-!
# Signed statements verify
-/

namespace Euxis.Attest

/-! ## Through JSON -/

theorem signatureFromJson_obj (j : Json) (members : List (Bytes × Json)) (hj : j = .obj members) :
    signatureFromJson j =
      some { keyid := (j.findStr (ascii "keyid")).getD [],
             sig := (j.findStr (ascii "sig")).getD [] } := by
  subst hj
  rfl

theorem signatureFromJson_toJson (s : Signature) :
    signatureFromJson (signatureToJson s) = some s := by
  obtain ⟨members, hobj⟩ : ∃ members, signatureToJson s = .obj members := ⟨_, rfl⟩
  have hkeyid : (signatureToJson s).findStr (ascii "keyid") = some s.keyid := by
    unfold signatureToJson Json.object
    simp only [List.foldl_cons, List.foldl_nil]
    rw [Json.findStr_set_ne, Json.findStr_set]
    · trivial
    · trivial
    · decide
  have hsig : (signatureToJson s).findStr (ascii "sig") = some s.sig := by
    unfold signatureToJson Json.object
    simp only [List.foldl_cons, List.foldl_nil]
    rw [Json.findStr_set]
    trivial
  rw [signatureFromJson_obj _ members hobj, hkeyid, hsig]
  rfl

theorem envelopeFromJson_obj (j : Json) (members : List (Bytes × Json)) (hj : j = .obj members)
    (payloadType payload : Bytes) (htype : j.findStr (ascii "payloadType") = some payloadType)
    (hpayload : j.findStr (ascii "payload") = some payload) :
    envelopeFromJson j = .ok { payloadType, payload, signatures := signaturesFromJson j } := by
  unfold envelopeFromJson
  rw [htype, hpayload, hj]

theorem envelopeFromJson_toJson (env : Envelope) :
    envelopeFromJson (envelopeToJson env) = .ok env := by
  obtain ⟨members, hobj⟩ : ∃ members, envelopeToJson env = .obj members := ⟨_, rfl⟩
  have htype : (envelopeToJson env).findStr (ascii "payloadType") = some env.payloadType := by
    unfold envelopeToJson
    rw [Json.findStr_set_ne, Json.findStr_set_ne, Json.findStr_set]
    · trivial
    · trivial
    · decide
    · trivial
    · decide
  have hpayload : (envelopeToJson env).findStr (ascii "payload") = some env.payload := by
    unfold envelopeToJson
    rw [Json.findStr_set_ne, Json.findStr_set]
    · trivial
    · trivial
    · decide
  have hfind : (envelopeToJson env).find (ascii "signatures") =
      some (.arr (env.signatures.map signatureToJson)) :=
    Json.find_set _ _ _ trivial
  have hsignatures : signaturesFromJson (envelopeToJson env) = env.signatures := by
    unfold signaturesFromJson
    rw [hfind]
    dsimp only
    have hall : signatureFromJson ∘ signatureToJson = some := funext signatureFromJson_toJson
    rw [List.filterMap_map, hall, List.filterMap_some]
  rw [envelopeFromJson_obj _ members hobj _ _ htype hpayload, hsignatures]

/-! ## What is signed -/

theorem lengthPrefixed_inj (x y r s : Bytes)
    (h : Bytes.decimal x.length ++ ch ' ' :: (x ++ r) = Bytes.decimal y.length ++
      ch ' ' :: (y ++ s)) :
    x = y ∧ r = s := by
  have hspace : ∀ n, ch ' ' ∉ Bytes.decimal n :=
    fun n => Bytes.decimal_not_mem n _ (Or.inl (by decide))
  have hcut := congrArg (Bytes.cut (ch ' ')) h
  rw [Bytes.cut_append _ _ _ (hspace _), Bytes.cut_append _ _ _ (hspace _), Option.some.injEq,
    Prod.mk.injEq] at hcut
  obtain ⟨hlength, hrest⟩ := hcut
  exact List.append_inj hrest (Bytes.decimal_injective _ _ hlength)

theorem pae_eq (payloadType payload : Bytes) :
    pae payloadType payload =
      ascii "DSSEv1 " ++ (Bytes.decimal payloadType.length ++ ch ' ' ::
        (payloadType ++ ch ' ' ::
          (Bytes.decimal payload.length ++ ch ' ' :: (payload ++ [])))) := by
  have hhead : ascii "DSSEv1 " = ascii "DSSEv1" ++ [ch ' '] := by decide
  rw [pae, hhead]
  simp only [List.append_assoc, List.cons_append, List.nil_append, List.append_nil]

/-- **The signed text.** Two payloads have one encoding only when they and their types are the
same. -/
theorem pae_injective (t₁ t₂ b₁ b₂ : Bytes) : pae t₁ b₁ = pae t₂ b₂ ↔ t₁ = t₂ ∧ b₁ = b₂ := by
  constructor
  · intro h
    rw [pae_eq, pae_eq] at h
    obtain ⟨htype, hrest⟩ := lengthPrefixed_inj t₁ t₂ _ _ (List.append_cancel_left h)
    rw [List.cons.injEq] at hrest
    obtain ⟨hpayload, -⟩ := lengthPrefixed_inj b₁ b₂ [] [] hrest.2
    exact ⟨htype, hpayload⟩
  · rintro ⟨rfl, rfl⟩
    rfl

/-! ## Signing and checking -/

variable (crypto : Ed25519) (json : JsonCodec)

theorem signatureVerifies_sign (secretKey : Block 64) (publicKey : Block 32) (keyid message : Bytes)
    (hpair : ∀ m, crypto.verify publicKey m (crypto.sign secretKey m) = true) :
    signatureVerifies crypto publicKey message
      { keyid, sig := base64Encode (crypto.sign secretKey message).1 } = true := by
  unfold signatureVerifies
  rw [base64Decode_encode]
  simp only [(crypto.sign secretKey message).2, dif_pos]
  exact hpair message

theorem verifyEnvelope_signed (secretKey : Block 64) (publicKey : Block 32)
    (hpair : ∀ m, crypto.verify publicKey m (crypto.sign secretKey m) = true)
    (keyid payload : Bytes) :
    verifyEnvelope crypto
      { payloadType := kDsseInTotoPayloadType
        payload := base64Encode payload
        signatures :=
          [{ keyid,
             sig := base64Encode (crypto.sign secretKey (pae kDsseInTotoPayloadType payload)).1 }] }
      publicKey = .ok payload := by
  unfold verifyEnvelope
  have hsig := signatureVerifies_sign crypto secretKey publicKey keyid
    (pae kDsseInTotoPayloadType payload) hpair
  simp [base64Decode_encode, hsig]

/-- What was signed is what verification returns, before and after the envelope goes through
JSON. -/
theorem signed_statement_verifies (secretKey : Block 64) (publicKey : Block 32)
    (hpair : ∀ m, crypto.verify publicKey m (crypto.sign secretKey m) = true) (s : Statement)
    (hvalid : validate s = .ok ()) (keyid : Bytes) :
    (serialiseForSigning json s = none → signStatement crypto json s secretKey keyid = none) ∧
    ∀ payload, serialiseForSigning json s = some payload →
      ∃ env, signStatement crypto json s secretKey keyid = some (.ok env) ∧
        verifyEnvelope crypto env publicKey = .ok payload ∧
        ∃ env', envelopeFromJson (envelopeToJson env) = .ok env' ∧
          verifyEnvelope crypto env' publicKey = .ok payload := by
  unfold signStatement
  rw [hvalid]
  constructor
  · intro hnone
    simp [hnone]
  · intro payload hpayload
    simp only [hpayload]
    refine ⟨_, rfl, ?_, _, envelopeFromJson_toJson _, ?_⟩
    · exact verifyEnvelope_signed crypto secretKey publicKey hpair keyid payload
    · exact verifyEnvelope_signed crypto secretKey publicKey hpair keyid payload

/-! A signature that holds the public key, as the last half of a libsodium secret key does. -/

def keyCopy : Ed25519 where
  sign secretKey _ := secretKey
  verify publicKey _ signature := signature.1.drop 32 = publicKey.1

def zeroKey (n : Nat) : Block n := ⟨List.replicate n 0, List.length_replicate⟩

def sampleStatement : Statement :=
  { subjects := [{ name := ascii "pack.tar",
                   digest := AList.singleton (ascii "sha256") (ascii "0a1b") }]
    predicateType := ascii "https://slsa.dev/provenance/v1"
    predicate := .null }

theorem sample_statement_verifies :
    validate sampleStatement = .ok () ∧ ∃ payload env,
      serialiseForSigning Json.textCodec sampleStatement = some payload ∧
        signStatement keyCopy Json.textCodec sampleStatement (zeroKey 64) (ascii "k1") =
          some (.ok env) ∧
        verifyEnvelope keyCopy env (zeroKey 32) = .ok payload := by
  have hpair : ∀ m, keyCopy.verify (zeroKey 32) m (keyCopy.sign (zeroKey 64) m) = true := by
    intro m
    simp [keyCopy, zeroKey]
  have hvalid : validate sampleStatement = .ok () := by rfl
  have h := signed_statement_verifies keyCopy Json.textCodec (zeroKey 64) (zeroKey 32) hpair
    sampleStatement hvalid
    (ascii "k1")
  obtain ⟨env, hsign, hverify, -⟩ := h.2 _ rfl
  exact ⟨hvalid, _, env, rfl, hsign, hverify⟩

end Euxis.Attest
