import Euxis.Clock

/-!
# Capability tokens: `libs/bridge/src/policy.cpp`

The token, its canonical string, and how it is signed and checked. HMAC-SHA256 comes from
libsodium, so it is a parameter here: `hmac key message`.
-/

namespace Euxis.Policy

structure AgentCapabilityToken where
  agentId : Bytes
  sessionId : Bytes
  allowedProviders : List Bytes
  allowedTools : List Bytes
  maxTokenBudget : Int32 := 4096
  filesystemReadOnly : Bool := true
  networkDenyAll : Bool := true
  issuedAt : Bytes
  expiresAt : Bytes
  hmacSignature : Bytes
  deriving DecidableEq

/-- The `join` lambda of `canonical_string`. -/
def joinList (v : List Bytes) (delim : Bytes) : Bytes :=
  match v with
  | [] => []
  | front :: rest => rest.foldl (fun a b => a ++ delim ++ b) front

def flag (b : Bool) : Bytes := if b then ascii "1" else ascii "0"

def canonicalString (t : AgentCapabilityToken) : Bytes :=
  t.agentId ++ ascii ":" ++ t.sessionId ++ ascii ":" ++
    joinList t.allowedProviders (ascii ",") ++ ascii ":" ++
    joinList t.allowedTools (ascii ",") ++ ascii ":" ++
    Bytes.decimalInt t.maxTokenBudget.toInt ++ ascii ":" ++
    flag t.filesystemReadOnly ++ ascii ":" ++
    flag t.networkDenyAll ++ ascii ":" ++
    t.issuedAt ++ ascii ":" ++ t.expiresAt

/-! ## Hex -/

def hexDigit (n : Nat) : UInt8 := if n < 10 then UInt8.ofNat (48 + n) else UInt8.ofNat (87 + n)

def hexEncode (data : Bytes) : Bytes :=
  data.flatMap fun b => [hexDigit (b.toNat / 16), hexDigit (b.toNat % 16)]

def isSpace (b : UInt8) : Bool := b == 32 || (9 ≤ b && b ≤ 13)

def hexValue (b : UInt8) : Option Nat :=
  if 48 ≤ b ∧ b ≤ 57 then some (b.toNat - 48)
  else if 97 ≤ b ∧ b ≤ 102 then some (b.toNat - 87)
  else if 65 ≤ b ∧ b ≤ 70 then some (b.toNat - 55)
  else none

/-- The digits that `num_get` accepts: it stops at the first byte that is none. -/
def hexDigits (s : Bytes) : List Nat :=
  (s.takeWhile fun b => (hexValue b).isSome).filterMap hexValue

def dropHexPrefix (s : Bytes) : Bytes :=
  match s with
  | z :: x :: rest => if z = ch '0' ∧ (x = ch 'x' ∨ x = ch 'X') then rest else s
  | _ => s

/-- `iss >> std::hex >> byte` into an `unsigned int`. Blanks are skipped, a sign and a `0x` are
accepted, and what follows the digits is left in the stream. -/
def readHex (s : Bytes) : Option Nat :=
  let s := s.dropWhile isSpace
  let negative := s.head? = some (ch '-')
  let s := if negative ∨ s.head? = some (ch '+') then s.tail else s
  match hexDigits (dropHexPrefix s) with
  | [] => none
  | digits =>
    let v := digits.foldl (fun acc d => acc * 16 + d) 0
    some (if negative then (2 ^ 32 - v) % 2 ^ 32 else v)

def hexDecodePairs : Bytes → Option Bytes
  | a :: b :: rest => do
    let byte ← readHex [a, b]
    let out ← hexDecodePairs rest
    some (UInt8.ofNat byte :: out)
  | _ => some []

def hexDecode (hex : Bytes) (outLen : Nat) : Option Bytes :=
  if hex.length ≠ outLen * 2 then none else hexDecodePairs hex

/-! ## Issue and verify -/

/-- `crypto_auth_hmacsha256_BYTES` -/
def hmacBytes : Nat := 32

/-- The clock is read twice: `issued` for `issued_at`, and `now` for the expiry. -/
def issueCapabilityToken (hmac : Bytes → Bytes → Bytes) (agentId sessionId : Bytes)
    (allowedProviders allowedTools : List Bytes) (maxTokenBudget : Int32) (signingKey : Bytes)
    (issued now : Int) : AgentCapabilityToken :=
  let token : AgentCapabilityToken :=
    { agentId, sessionId, allowedProviders, allowedTools, maxTokenBudget
      issuedAt := Clock.isoTime issued
      expiresAt := Clock.isoTime (now + 3600)
      hmacSignature := [] }
  { token with hmacSignature := hexEncode (hmac signingKey (canonicalString token)) }

/-- `crypto_auth_hmacsha256_verify` is 0 when the tag is the HMAC of the message. -/
def verifyCapabilityToken (hmac : Bytes → Bytes → Bytes) (token : AgentCapabilityToken)
    (signingKey : Bytes) (now : Int) : Bool :=
  if token.expiresAt ≠ [] ∧ token.expiresAt ≤ Clock.isoTime now then false
  else
    match hexDecode token.hmacSignature hmacBytes with
    | none => false
    | some expectedMac => expectedMac == hmac signingKey (canonicalString token)

end Euxis.Policy
