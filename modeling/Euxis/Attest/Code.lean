import Euxis.Json.Value
import Mathlib.Data.List.AList

/-!
# Attestations: `libs/attest/src/dsse.cpp`, `statement.cpp` and `signing.cpp`

Ed25519 comes from libsodium, so it is a parameter. `none` says that `dump` threw.
-/

namespace Euxis.Attest

/-! ## Base64 -/

structure DsseError where
  message : Bytes
  deriving DecidableEq, Repr

def kBase64Alphabet : Bytes :=
  ascii "ABCDEFGHIJKLMNOPQRSTUVWXYZabcdefghijklmnopqrstuvwxyz0123456789+/"

def base64IndexTable : List Int :=
  (List.range kBase64Alphabet.length).foldl
    (fun table i => table.set (kBase64Alphabet.getD i 0).toNat i) (List.replicate 256 (-1))

def kBase64Lookup (c : UInt8) : Int := base64IndexTable.getD c.toNat (-1)

/-- `kBase64Alphabet[(v >> shift) & 0x3F]` -/
def symbolAt (v shift : UInt32) : UInt8 := kBase64Alphabet.getD ((v >>> shift) &&& 0x3F).toNat 0

def base64Encode : Bytes → Bytes
  | x :: y :: z :: rest =>
    let v := (x.toUInt32 <<< 16) ||| (y.toUInt32 <<< 8) ||| z.toUInt32
    symbolAt v 18 :: symbolAt v 12 :: symbolAt v 6 :: symbolAt v 0 :: base64Encode rest
  | [x, y] =>
    let v := (x.toUInt32 <<< 16) ||| (y.toUInt32 <<< 8)
    [symbolAt v 18, symbolAt v 12, symbolAt v 6, ch '=']
  | [x] =>
    let v := x.toUInt32 <<< 16
    [symbolAt v 18, symbolAt v 12, ch '=', ch '=']
  | [] => []

/-- The bytes at which the decoder leaves its loop. -/
def stopsDecoding (c : UInt8) : Bool := c = ch '=' ∨ c = ch '\n' ∨ c = ch '\r' ∨ c = ch ' '

def base64DecodeLoop : Bytes → UInt32 → Nat → Bytes → Except DsseError Bytes
  | [], _, _, out => .ok out
  | c :: rest, buffer, bits, out =>
    if stopsDecoding c then .ok out
    else
      let v := kBase64Lookup c
      if v < 0 then .error { message := ascii "base64: invalid character" }
      else
        let buffer := (buffer <<< 6) ||| UInt32.ofNat v.toNat
        let bits := bits + 6
        if 8 ≤ bits then
          let bits := bits - 8
          base64DecodeLoop rest buffer bits
            (out ++ [((buffer >>> UInt32.ofNat bits) &&& 0xFF).toUInt8])
        else base64DecodeLoop rest buffer bits out

def base64Decode (encoded : Bytes) : Except DsseError Bytes := base64DecodeLoop encoded 0 0 []

/-! ## Envelopes -/

def pae (payloadType payload : Bytes) : Bytes :=
  ascii "DSSEv1" ++ [ch ' '] ++ Bytes.decimal payloadType.length ++ [ch ' '] ++
    payloadType ++ [ch ' '] ++ Bytes.decimal payload.length ++ [ch ' '] ++ payload

def kDsseInTotoPayloadType : Bytes := ascii "application/vnd.in-toto+json"

structure Signature where
  keyid : Bytes := []
  sig : Bytes := []
  deriving DecidableEq, Repr

structure Envelope where
  payloadType : Bytes
  payload : Bytes
  signatures : List Signature
  deriving DecidableEq, Repr

def signatureToJson (s : Signature) : Json :=
  Json.object [(ascii "keyid", .str s.keyid), (ascii "sig", .str s.sig)]

def envelopeToJson (env : Envelope) : Json :=
  ((Json.null.set (ascii "payloadType") (.str env.payloadType)).set (ascii "payload")
    (.str env.payload)).set (ascii "signatures") (.arr (env.signatures.map signatureToJson))

/-- What is no object is skipped. -/
def signatureFromJson : Json → Option Signature
  | .obj members =>
    some { keyid := (Json.findStr (.obj members) (ascii "keyid")).getD [],
           sig := (Json.findStr (.obj members) (ascii "sig")).getD [] }
  | _ => none

def signaturesFromJson (j : Json) : List Signature :=
  match j.find (ascii "signatures") with
  | some (.arr items) => items.filterMap signatureFromJson
  | _ => []

def envelopeFromJson (j : Json) : Except DsseError Envelope :=
  match j with
  | .obj _ =>
    match j.findStr (ascii "payloadType") with
    | none => .error { message := ascii "DSSE: payloadType missing or not a string" }
    | some payloadType =>
      match j.findStr (ascii "payload") with
      | none => .error { message := ascii "DSSE: payload missing or not a string" }
      | some payload => .ok { payloadType, payload, signatures := signaturesFromJson j }
  | _ => .error { message := ascii "DSSE: not an object" }

/-! ## Statements -/

/-- The digests in the order in which the hash map lists them. -/
structure Subject where
  name : Bytes
  digest : AList fun _ : Bytes => Bytes

structure Statement where
  subjects : List Subject
  predicateType : Bytes
  predicate : Json

def kStatementType : Bytes := ascii "https://in-toto.io/Statement/v1"

def digestToJson (digest : AList fun _ : Bytes => Bytes) : Json :=
  digest.entries.foldl (fun j d => j.set d.1 (.str d.2)) (.obj [])

def subjectToJson (subject : Subject) : Json :=
  (Json.null.set (ascii "name") (.str subject.name)).set (ascii "digest")
    (digestToJson subject.digest)

def statementToJson (s : Statement) : Json :=
  (((Json.null.set (ascii "_type") (.str kStatementType)).set (ascii "predicateType")
    (.str s.predicateType)).set (ascii "predicate") s.predicate).set (ascii "subject")
      (.arr (s.subjects.map subjectToJson))

def serialiseForSigning (json : JsonCodec) (s : Statement) : Option Bytes :=
  json.dump (statementToJson s)

structure StatementError where
  message : Bytes
  deriving DecidableEq, Repr

def validateDigest (alg value : Bytes) : Except StatementError Unit :=
  if alg = [] ∨ value = [] then
    .error { message := ascii "Subject digest algorithm and value must both be non-empty" }
  else if value.all Bytes.isXdigit then .ok ()
  else .error { message := ascii "Subject digest value must be hex-encoded" }

def validateSubject (subj : Subject) : Except StatementError Unit :=
  if subj.name = [] then .error { message := ascii "Subject `name` must be non-empty" }
  else if subj.digest.entries = [] then
    .error { message := ascii "Subject `digest` must contain at least one entry" }
  else subj.digest.entries.forM fun d => validateDigest d.1 d.2

def validate (s : Statement) : Except StatementError Unit :=
  if s.subjects = [] then .error { message := ascii "Statement must contain at least one subject" }
  else do
    s.subjects.forM validateSubject
    if s.predicateType = [] then
      .error { message := ascii "Statement.predicateType must be non-empty" }
    else if ch ':' ∉ s.predicateType then
      .error { message := ascii "Statement.predicateType must be a URI" }
    else .ok ()

/-! ## Signing -/

/-- An array of `n` bytes. -/
def Block (n : Nat) := { b : Bytes // b.length = n }

structure Ed25519 where
  sign : Block 64 → Bytes → Block 64
  verify : Block 32 → Bytes → Block 64 → Bool

structure SigningError where
  message : Bytes
  deriving DecidableEq, Repr

variable (crypto : Ed25519) (json : JsonCodec)

def signStatement (statement : Statement) (secretKey : Block 64) (keyid : Bytes) :
    Option (Except SigningError Envelope) :=
  match validate statement with
  | .error e => some (.error { message := ascii "Statement validation: " ++ e.message })
  | .ok () => do
    let payloadStr ← serialiseForSigning json statement
    let sigBytes := crypto.sign secretKey (pae kDsseInTotoPayloadType payloadStr)
    return .ok {
      payloadType := kDsseInTotoPayloadType
      payload := base64Encode payloadStr
      signatures := [{ keyid, sig := base64Encode sigBytes.1 }] }

/-- Signatures that do not decode to 64 bytes are passed over. -/
def signatureVerifies (publicKey : Block 32) (paeBytes : Bytes) (sig : Signature) : Bool :=
  match base64Decode sig.sig with
  | .error _ => false
  | .ok dec => if h : dec.length = 64 then crypto.verify publicKey paeBytes ⟨dec, h⟩ else false

def verifyEnvelope (envelope : Envelope) (publicKey : Block 32) : Except SigningError Bytes :=
  if envelope.signatures = [] then .error { message := ascii "Envelope has no signatures" }
  else
    match base64Decode envelope.payload with
    | .error e => .error { message := ascii "payload base64 decode: " ++ e.message }
    | .ok payloadDec =>
      if envelope.signatures.any
        (signatureVerifies crypto publicKey (pae envelope.payloadType payloadDec)) then
        .ok payloadDec
      else .error { message := ascii "No valid signature found for the supplied public key" }

end Euxis.Attest
