import Euxis.Json.Value
import Euxis.Policy.Code

/-!
# Verifiable credentials: `libs/identity/src/credentials.cpp`

Issue and verify. BLAKE2b and HMAC-SHA256 come from libsodium and are the parameters `generichash`
and `hmac`; the clock and the random id are parameters of a call.
-/

namespace Euxis.Identity

structure Claim where
  type : Bytes
  value : Bytes
  scope : Bytes
  deriving DecidableEq, Repr

structure Proof where
  type : Bytes
  created : Bytes
  verificationMethod : Bytes
  proofValue : Bytes
  deriving DecidableEq, Repr

structure VerifiableCredential where
  id : Bytes
  issuerDid : Bytes
  subjectDid : Bytes
  claims : List Claim
  proof : Proof
  issuedAt : Bytes
  expiresAt : Bytes
  deriving DecidableEq, Repr

/-! ## The signed form -/

def claimToJson (c : Claim) : Json :=
  Json.object [(ascii "type", .str c.type), (ascii "value", .str c.value),
    (ascii "scope", .str c.scope)]

def claimsToCanonicalJson (issuerDid subjectDid : Bytes) (claims : List Claim)
    (issuedAt expiresAt : Bytes) : Json :=
  (Json.object [(ascii "issuer", .str issuerDid), (ascii "subject", .str subjectDid),
    (ascii "issued_at", .str issuedAt), (ascii "expires_at", .str expiresAt)]).set
    (ascii "claims") (.arr (claims.map claimToJson))

/-- What is signed. `dump` throws on text that is not UTF-8. -/
def canonical (codec : JsonCodec) (issuerDid subjectDid : Bytes) (claims : List Claim)
    (issuedAt expiresAt : Bytes) : Option Bytes :=
  codec.dump (claimsToCanonicalJson issuerDid subjectDid claims issuedAt expiresAt)

/-! ## The proof -/

variable (generichash : Bytes → Bytes) (hmac : Bytes → Bytes → Bytes)

def hmacSha256Raw (key data : Bytes) : Bytes :=
  hmac (if key.length = 32 then key else generichash key) data

/-- `sodium_hex2bin`: any byte that is no digit, or a digit that is left over, is an error. -/
def hex2bin : Bytes → Option Bytes
  | [] => some []
  | [_] => none
  | a :: b :: rest => do
    let hi ← Policy.hexValue a
    let lo ← Policy.hexValue b
    let out ← hex2bin rest
    some (UInt8.ofNat (hi * 16 + lo) :: out)

variable (codec : JsonCodec)

/-- `now` is the clock and `ttl` the lifetime, in seconds. -/
def issueCredential (credId issuerDid issuerKey subjectDid : Bytes) (claims : List Claim)
    (now ttl : Int) :
    Option VerifiableCredential := do
  let issuedAt := Clock.isoTime now
  let expiresAt := Clock.isoTime (now + ttl)
  let data ← canonical codec issuerDid subjectDid claims issuedAt expiresAt
  let proof : Proof :=
    { type := ascii "HmacSha256Signature2026"
      created := issuedAt
      verificationMethod := issuerDid ++ ascii "#keys-1"
      proofValue := Policy.hexEncode (hmacSha256Raw generichash hmac issuerKey data) }
  some { id := credId, issuerDid, subjectDid, claims, proof, issuedAt, expiresAt }

/-- `none` is an exception. The clock is not read. -/
def verifyCredential (credential : VerifiableCredential) (issuerKey : Bytes) : Option Bool := do
  let data ← canonical codec credential.issuerDid credential.subjectDid credential.claims
    credential.issuedAt
    credential.expiresAt
  let expectedMac := hmacSha256Raw generichash hmac issuerKey data
  if credential.proof.proofValue.length ≠ Policy.hmacBytes * 2 then some false
  else
    match hex2bin credential.proof.proofValue with
    | none => some false
    | some actualMac => some (expectedMac == actualMac)

end Euxis.Identity
