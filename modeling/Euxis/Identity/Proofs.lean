import Euxis.Identity.Code
import Euxis.Json.RoundTrip
import Euxis.Policy.Proofs

/-!
# What a proof vouches for

A credential has fields that its proof signs and fields that it does not. Under the proof of an
issued credential, `verify_credential` accepts exactly the credentials with the same signed fields,
at any time.
-/

namespace Euxis.Identity

/-! ## The fields -/

/-- The fields that enter the signed form. -/
structure SignedFields where
  issuerDid : Bytes
  subjectDid : Bytes
  claims : List Claim
  issuedAt : Bytes
  expiresAt : Bytes
  deriving DecidableEq, Repr

/-- The other fields, without the proof value. -/
structure UnsignedFields where
  id : Bytes
  proofType : Bytes
  proofCreated : Bytes
  verificationMethod : Bytes
  deriving DecidableEq, Repr

def VerifiableCredential.signed (c : VerifiableCredential) : SignedFields :=
  ⟨c.issuerDid, c.subjectDid, c.claims, c.issuedAt, c.expiresAt⟩

def VerifiableCredential.unsigned (c : VerifiableCredential) : UnsignedFields :=
  ⟨c.id, c.proof.type, c.proof.created, c.proof.verificationMethod⟩

theorem eq_of_fields (c c' : VerifiableCredential) (hs : c'.signed = c.signed)
    (hu : c'.unsigned = c.unsigned) (hp : c'.proof.proofValue = c.proof.proofValue) : c' = c := by
  obtain ⟨id, issuer, subject, claims, ⟨type, created, method, value⟩, issued, expires⟩ := c
  obtain ⟨id', issuer', subject', claims', ⟨type', created', method', value'⟩, issued', expires'⟩ :=
    c'
  simp only [VerifiableCredential.signed, VerifiableCredential.unsigned, SignedFields.mk.injEq,
    UnsignedFields.mk.injEq] at hs hu hp
  obtain ⟨rfl, rfl, rfl, rfl, rfl⟩ := hs
  obtain ⟨rfl, rfl, rfl, rfl⟩ := hu
  subst hp
  rfl

/-! ## The signed form -/

theorem claimToJson_members (c : Claim) :
    claimToJson c =
      .obj [(ascii "scope", .str c.scope), (ascii "type", .str c.type),
        (ascii "value", .str c.value)] := rfl

theorem claimToJson_injective : Function.Injective claimToJson := by
  rintro ⟨type, value, scope⟩ ⟨type', value', scope'⟩ h
  simp only [claimToJson_members, Json.obj.injEq, List.cons.injEq, Prod.mk.injEq,
    Json.str.injEq, true_and, and_true] at h
  obtain ⟨rfl, rfl, rfl⟩ := h
  rfl

theorem canonicalJson_members (issuerDid subjectDid : Bytes) (claims : List Claim)
    (issuedAt expiresAt : Bytes) :
    claimsToCanonicalJson issuerDid subjectDid claims issuedAt expiresAt =
      .obj [(ascii "claims", .arr (claims.map claimToJson)), (ascii "expires_at", .str expiresAt),
        (ascii "issued_at", .str issuedAt), (ascii "issuer", .str issuerDid),
        (ascii "subject", .str subjectDid)] := rfl

/-- The signed form of a credential. -/
def canonicalOf (codec : JsonCodec) (c : VerifiableCredential) : Option Bytes :=
  canonical codec c.issuerDid c.subjectDid c.claims c.issuedAt c.expiresAt

theorem canonicalOf_injective (codec : JsonCodec) (c c' : VerifiableCredential) (data : Bytes)
    (h : canonicalOf codec c = some data) (h' : canonicalOf codec c' = some data) :
    c'.signed = c.signed := by
  have hparse := codec.parse_dump _ _ h
  rw [codec.parse_dump _ _ h', Option.some.injEq, canonicalJson_members, canonicalJson_members]
    at hparse
  simp only [Json.obj.injEq, List.cons.injEq, Prod.mk.injEq, Json.str.injEq, Json.arr.injEq,
    true_and, and_true]
    at hparse
  obtain ⟨hclaims, hexpires, hissued, hissuer, hsubject⟩ := hparse
  have hclaims := claimToJson_injective.list_map hclaims
  simp only [VerifiableCredential.signed, hclaims, hexpires, hissued, hissuer, hsubject]

theorem canonicalOf_congr (codec : JsonCodec) (c c' : VerifiableCredential)
    (h : c'.signed = c.signed) : canonicalOf codec c' = canonicalOf codec c := by
  simp only [VerifiableCredential.signed, SignedFields.mk.injEq] at h
  obtain ⟨hissuer, hsubject, hclaims, hissued, hexpires⟩ := h
  simp only [canonicalOf, hissuer, hsubject, hclaims, hissued, hexpires]

/-! ## The proof -/

theorem hexValue_digits : ∀ n < 256, Policy.hexValue (Policy.hexDigit (n / 16)) = some (n / 16) ∧
    Policy.hexValue (Policy.hexDigit (n % 16)) = some (n % 16) := by
  decide +kernel

theorem hex2bin_hexEncode (data : Bytes) : hex2bin (Policy.hexEncode data) = some data := by
  induction data with
  | nil => rfl
  | cons b data ih =>
    obtain ⟨hhi, hlo⟩ := hexValue_digits b.toNat b.toNat_lt
    have hbyte : UInt8.ofNat (b.toNat / 16 * 16 + b.toNat % 16) = b := by
      rw [Nat.div_add_mod', UInt8.ofNat_toNat]
    have hcons : Policy.hexEncode (b :: data) =
        Policy.hexDigit (b.toNat / 16) :: Policy.hexDigit (b.toNat % 16) ::
          Policy.hexEncode data := by
      simp [Policy.hexEncode]
    rw [hcons, hex2bin, hhi, hlo, ih]
    simp only [Option.bind_eq_bind, Option.bind_some, hbyte]

section

variable (generichash : Bytes → Bytes) (hmac : Bytes → Bytes → Bytes) (codec : JsonCodec)

theorem verifyCredential_iff (hlen : ∀ k m, (hmac k m).length = Policy.hmacBytes)
    (c : VerifiableCredential) (key data : Bytes)
    (hproof : c.proof.proofValue = Policy.hexEncode (hmacSha256Raw generichash hmac key data)) :
    verifyCredential generichash hmac codec c key = some true ↔
      ∃ data', canonicalOf codec c = some data' ∧
        hmacSha256Raw generichash hmac key data' = hmacSha256Raw generichash hmac key data := by
  have hsize : ¬ c.proof.proofValue.length ≠ Policy.hmacBytes * 2 := by
    rw [hproof, Policy.hexEncode_length, hmacSha256Raw, hlen, not_not]
  have hraw := hex2bin_hexEncode (hmacSha256Raw generichash hmac key data)
  rw [← hproof] at hraw
  have hverdict : verifyCredential generichash hmac codec c key =
      (canonicalOf codec c).bind fun data' =>
        some (hmacSha256Raw generichash hmac key data' == hmacSha256Raw generichash hmac
          key data) := by
    simp only [verifyCredential, if_neg hsize, hraw]
    rfl
  rw [hverdict, Option.bind_eq_some_iff]
  simp only [Option.some.injEq, beq_iff_eq]

theorem issueCredential_spec (credId issuerDid key subjectDid : Bytes) (claims : List Claim)
    (now ttl : Int) (c : VerifiableCredential)
    (h : issueCredential generichash hmac codec credId issuerDid key subjectDid claims now ttl =
      some c) :
    ∃ data, canonicalOf codec c = some data ∧
      c.proof.proofValue = Policy.hexEncode (hmacSha256Raw generichash hmac key data) := by
  unfold issueCredential at h
  obtain ⟨data, hdata, hc⟩ := Option.bind_eq_some_iff.mp h
  rw [Option.some.injEq] at hc
  subst hc
  exact ⟨data, hdata, rfl⟩

theorem verify_reused_proof_iff (hlen : ∀ k m, (hmac k m).length = Policy.hmacBytes)
    (c c' : VerifiableCredential) (key data : Bytes) (hdata : canonicalOf codec c = some data)
    (hproof : c'.proof.proofValue = Policy.hexEncode (hmacSha256Raw generichash hmac key data))
    (hcoll : ∀ m, hmacSha256Raw generichash hmac key m = hmacSha256Raw generichash hmac key data →
      m = data) :
    verifyCredential generichash hmac codec c' key = some true ↔ c'.signed = c.signed := by
  rw [verifyCredential_iff generichash hmac codec hlen c' key data hproof]
  constructor
  · rintro ⟨data', hdata', hmac'⟩
    rw [hcoll data' hmac'] at hdata'
    exact canonicalOf_injective codec c c' data hdata hdata'
  · intro hsigned
    exact ⟨data, (canonicalOf_congr codec c c' hsigned).trans hdata, rfl⟩

end

/-- Every credential under the proof of an issued one is refused, unless it is that one and not yet
expired: so it is where a signed field differs, or where no other field does and there is time
left. -/
theorem credential_binding_iff (generichash : Bytes → Bytes) (hmac : Bytes → Bytes → Bytes)
    (codec : JsonCodec) (hlen : ∀ k m, (hmac k m).length = Policy.hmacBytes)
    (credId issuerDid key subjectDid : Bytes) (claims : List Claim) (now ttl : Int)
    (c c' : VerifiableCredential)
    (hissue : issueCredential generichash hmac codec credId issuerDid key subjectDid claims now
      ttl = some c) (hcoll : ∀ m data, canonicalOf codec c = some data →
      hmacSha256Raw generichash hmac key m = hmacSha256Raw generichash hmac key data → m = data)
    (hproof : c'.proof.proofValue = c.proof.proofValue) (t : Int) :
    (verifyCredential generichash hmac codec c' key = some true → c' = c ∧ t < now + ttl) ↔
      c'.signed ≠ c.signed ∨ (c'.unsigned = c.unsigned ∧ t < now + ttl) := by
  obtain ⟨data, hdata, hvalue⟩ :=
    issueCredential_spec generichash hmac codec credId issuerDid key subjectDid claims now
      ttl c hissue
  rw [verify_reused_proof_iff generichash hmac codec hlen c c' key data hdata (hproof.trans hvalue)
    fun m => hcoll m data hdata]
  constructor
  · intro h
    by_cases hsigned : c'.signed = c.signed
    · obtain ⟨rfl, htime⟩ := h hsigned
      exact Or.inr ⟨rfl, htime⟩
    · exact Or.inl hsigned
  · rintro (hne | ⟨hunsigned, htime⟩) hsigned
    · exact absurd hsigned hne
    · exact ⟨eq_of_fields c c' hsigned hunsigned hproof, htime⟩

/-! ## Samples -/

def sampleKey : Bytes := List.replicate 32 1

def sampleClaims : List Claim := [⟨ascii "role", ascii "admin", ascii "system"⟩]

/-- Issued on 2026-01-01, for one day. -/
def sampleTime : Int := 1767225600

def sampleData : Bytes :=
  Json.write (claimsToCanonicalJson (ascii "did:euxis:issuer") (ascii "did:euxis:subject")
    sampleClaims
    (Clock.isoTime sampleTime) (Clock.isoTime (sampleTime + 86400)))

/-- HMAC-SHA256 of the signed form of the sample. -/
def sampleMac : Bytes :=
  [75, 175, 67, 153, 156, 106, 239, 236, 99, 36, 181, 97, 232, 136, 93, 254,
    109, 51, 64, 125, 174, 13, 79, 21, 242, 121, 82, 45, 244, 135, 25, 150]

/-- HMAC-SHA256 at the sample, and another tag elsewhere. -/
def sampleHmac (key data : Bytes) : Bytes :=
  if key = sampleKey ∧ data = sampleData then sampleMac else List.replicate 32 0

theorem sampleHmac_length (key data : Bytes) : (sampleHmac key data).length = Policy.hmacBytes := by
  unfold sampleHmac
  split <;> rfl

theorem sampleHmac_unique (m : Bytes)
    (h : hmacSha256Raw id sampleHmac sampleKey m =
      hmacSha256Raw id sampleHmac sampleKey sampleData) :
    m = sampleData := by
  by_contra hne
  have hkey : (if sampleKey.length = 32 then sampleKey else id sampleKey) = sampleKey := if_pos rfl
  simp only [hmacSha256Raw, hkey, sampleHmac, hne, and_false, if_false, true_and, if_true] at h
  exact absurd h (by decide)

def sampleCredential : VerifiableCredential where
  id := ascii "00112233-4455-6677-8899-aabbccddeeff"
  issuerDid := ascii "did:euxis:issuer"
  subjectDid := ascii "did:euxis:subject"
  claims := sampleClaims
  proof :=
    { type := ascii "HmacSha256Signature2026"
      created := Clock.isoTime sampleTime
      verificationMethod := ascii "did:euxis:issuer#keys-1"
      proofValue := Policy.hexEncode sampleMac }
  issuedAt := Clock.isoTime sampleTime
  expiresAt := Clock.isoTime (sampleTime + 86400)

theorem sampleCredential_canonical :
    canonicalOf Json.textCodec sampleCredential = some sampleData := rfl

theorem sampleMac_eq : hmacSha256Raw id sampleHmac sampleKey sampleData = sampleMac := by
  simp [hmacSha256Raw, sampleHmac, sampleKey]

theorem sampleCredential_issued :
    issueCredential id sampleHmac Json.textCodec sampleCredential.id (ascii "did:euxis:issuer")
      sampleKey
      (ascii "did:euxis:subject") sampleClaims sampleTime 86400 = some sampleCredential := by
  have hdata : canonical Json.textCodec (ascii "did:euxis:issuer") (ascii "did:euxis:subject")
      sampleClaims
      (Clock.isoTime sampleTime) (Clock.isoTime (sampleTime + 86400)) = some sampleData := rfl
  simp only [issueCredential, hdata, sampleMac_eq, Option.bind_eq_bind, Option.bind_some]
  rfl

def guestCredential : VerifiableCredential :=
  { sampleCredential with claims := [⟨ascii "role", ascii "guest", ascii "system"⟩] }

theorem guest_credential_refused :
    verifyCredential id sampleHmac Json.textCodec guestCredential sampleKey ≠ some true := by
  have hbinding := credential_binding_iff id sampleHmac Json.textCodec sampleHmac_length _
    _ _ _ _ _ _ _
    guestCredential sampleCredential_issued (fun m data hdata => by
      obtain rfl : sampleData = data := Option.some.inj hdata
      exact sampleHmac_unique m) rfl sampleTime
  intro hverify
  have hsame := (hbinding.mpr (Or.inl (by decide)) hverify).1
  exact absurd hsame (by decide)

def renamedCredential : VerifiableCredential := { sampleCredential with id := ascii "another id" }

theorem renamed_credential_accepted :
    ¬ (∀ c', c'.proof.proofValue = sampleCredential.proof.proofValue → ∀ t : Int,
        verifyCredential id sampleHmac Json.textCodec c' sampleKey = some true →
          c' = sampleCredential ∧ t < sampleTime + 86400) ∧
      verifyCredential id sampleHmac Json.textCodec sampleCredential sampleKey = some true ∧
      verifyCredential id sampleHmac Json.textCodec renamedCredential sampleKey = some true ∧
      renamedCredential ≠ sampleCredential := by
  have haccepts : ∀ c', c'.proof.proofValue = Policy.hexEncode sampleMac →
      c'.signed = sampleCredential.signed →
      verifyCredential id sampleHmac Json.textCodec c' sampleKey = some true := by
    intro c' hproof hsigned
    rw [← sampleMac_eq] at hproof
    exact (verify_reused_proof_iff id sampleHmac Json.textCodec sampleHmac_length sampleCredential
      c' sampleKey
      sampleData sampleCredential_canonical hproof sampleHmac_unique).mpr hsigned
  refine ⟨?_, haccepts _ rfl rfl, haccepts _ rfl rfl, by decide⟩
  intro hall
  have hlate := (hall sampleCredential rfl (sampleTime + 86400) (haccepts _ rfl rfl)).2
  exact absurd hlate (lt_irrefl _)

end Euxis.Identity
