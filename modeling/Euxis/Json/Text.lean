import Euxis.Json.Value

/-!
# A text format for JSON values

What `dump()` writes with its default arguments, and a reader for exactly that. The two make a
`JsonCodec`, so its laws can hold together.
-/

namespace Euxis.Json

/-! ## The writer -/

def hexNibble (n : Nat) : UInt8 := if n < 10 then UInt8.ofNat (48 + n) else UInt8.ofNat (87 + n)

def escapeByte (b : UInt8) : Bytes :=
  if b = 34 then [92, 34]
  else if b = 92 then [92, 92]
  else if b = 8 then [92, ch 'b']
  else if b = 12 then [92, ch 'f']
  else if b = 10 then [92, ch 'n']
  else if b = 13 then [92, ch 'r']
  else if b = 9 then [92, ch 't']
  else if b < 32 then [92, ch 'u', 48, 48, hexNibble (b.toNat / 16), hexNibble (b.toNat % 16)]
  else [b]

def writeString (s : Bytes) : Bytes := 34 :: (s.flatMap escapeByte ++ [34])

mutual

def write : Json → Bytes
  | null => ascii "null"
  | bool true => ascii "true"
  | bool false => ascii "false"
  | int i => Bytes.decimalInt i
  | float text => text
  | str s => writeString s
  | arr items => ch '[' :: writeItems items
  | obj members => ch '{' :: writeMembers members

/-- The items and the closing bracket. -/
def writeItems : List Json → Bytes
  | [] => [ch ']']
  | j :: js => write j ++ writeMoreItems js

def writeMoreItems : List Json → Bytes
  | [] => [ch ']']
  | j :: js => ch ',' :: (write j ++ writeMoreItems js)

def writeMembers : List (Bytes × Json) → Bytes
  | [] => [ch '}']
  | m :: ms => writeMember m ++ writeMoreMembers ms

def writeMoreMembers : List (Bytes × Json) → Bytes
  | [] => [ch '}']
  | m :: ms => ch ',' :: (writeMember m ++ writeMoreMembers ms)

def writeMember : Bytes × Json → Bytes
  | (key, j) => writeString key ++ ch ':' :: write j

end

/-! ## The reader -/

def unescape (c : UInt8) : Option UInt8 :=
  if c = 34 then some 34
  else if c = 92 then some 92
  else if c = ch 'b' then some 8
  else if c = ch 'f' then some 12
  else if c = ch 'n' then some 10
  else if c = ch 'r' then some 13
  else if c = ch 't' then some 9
  else none

def nibble (b : UInt8) : Option Nat :=
  if 48 ≤ b ∧ b ≤ 57 then some (b.toNat - 48)
  else if 97 ≤ b ∧ b ≤ 102 then some (b.toNat - 87)
  else none

/-- The rest of a string, after its opening quote. -/
def readString : Bytes → Option (Bytes × Bytes)
  | [] => none
  | b :: rest =>
    if b = 34 then some ([], rest)
    else if b = 92 then
      match rest with
      | [] => none
      | c :: rest =>
        if c = ch 'u' then
          match rest with
          | _ :: _ :: x :: y :: rest => do
            let hi ← nibble x
            let lo ← nibble y
            (readString rest).map fun p => (UInt8.ofNat (hi * 16 + lo) :: p.1, p.2)
          | _ => none
        else do
          let b ← unescape c
          (readString rest).map fun p => (b :: p.1, p.2)
    else if b < 32 then none
    else (readString rest).map fun p => (b :: p.1, p.2)
termination_by structural s => s

def isDigit (b : UInt8) : Bool := 48 ≤ b && b ≤ 57

def readNat (s : Bytes) : Option (Nat × Bytes) :=
  match s.takeWhile isDigit with
  | [] => none
  | digits =>
    some (Nat.ofDigitChars 10 (digits.map fun b => Char.ofNat b.toNat) 0, s.dropWhile isDigit)

def readInt (s : Bytes) : Option (Int × Bytes) :=
  match s with
  | 45 :: rest => (readNat rest).map fun (n, rest) => (-(n : Int), rest)
  | _ => (readNat s).map fun (n, rest) => ((n : Int), rest)

def expect (b : UInt8) (s : Bytes) : Option Bytes :=
  match s with
  | c :: rest => if c = b then some rest else none
  | [] => none

def word (w : Bytes) (j : Json) (s : Bytes) : Option (Json × Bytes) :=
  if w.isPrefixOf s then some (j, s.drop w.length) else none

mutual

def readValue : Nat → Bytes → Option (Json × Bytes)
  | 0, _ => none
  | _ + 1, [] => none
  | fuel + 1, c :: rest =>
    if c = 34 then (readString rest).map fun (s, rest) => (str s, rest)
    else if c = ch '[' then (readItems fuel rest).map fun (js, rest) => (arr js, rest)
    else if c = ch '{' then (readMembers fuel rest).map fun (ms, rest) => (obj ms, rest)
    else if c = ch 'n' then word (ascii "null") null (c :: rest)
    else if c = ch 't' then word (ascii "true") (bool true) (c :: rest)
    else if c = ch 'f' then word (ascii "false") (bool false) (c :: rest)
    else (readInt (c :: rest)).map fun (i, rest) => (int i, rest)

def readItems : Nat → Bytes → Option (List Json × Bytes)
  | 0, _ => none
  | fuel + 1, s =>
    match expect (ch ']') s with
    | some rest => some ([], rest)
    | none => do
      let (j, rest) ← readValue fuel s
      let (js, rest) ← readMoreItems fuel rest
      some (j :: js, rest)

def readMoreItems : Nat → Bytes → Option (List Json × Bytes)
  | 0, _ => none
  | fuel + 1, s =>
    match expect (ch ']') s with
    | some rest => some ([], rest)
    | none => do
      let rest ← expect (ch ',') s
      let (j, rest) ← readValue fuel rest
      let (js, rest) ← readMoreItems fuel rest
      some (j :: js, rest)

def readMembers : Nat → Bytes → Option (List (Bytes × Json) × Bytes)
  | 0, _ => none
  | fuel + 1, s =>
    match expect (ch '}') s with
    | some rest => some ([], rest)
    | none => do
      let (m, rest) ← readMember fuel s
      let (ms, rest) ← readMoreMembers fuel rest
      some (m :: ms, rest)

def readMoreMembers : Nat → Bytes → Option (List (Bytes × Json) × Bytes)
  | 0, _ => none
  | fuel + 1, s =>
    match expect (ch '}') s with
    | some rest => some ([], rest)
    | none => do
      let rest ← expect (ch ',') s
      let (m, rest) ← readMember fuel rest
      let (ms, rest) ← readMoreMembers fuel rest
      some (m :: ms, rest)

def readMember : Nat → Bytes → Option ((Bytes × Json) × Bytes)
  | 0, _ => none
  | fuel + 1, s => do
    let rest ← expect 34 s
    let (key, rest) ← readString rest
    let rest ← expect (ch ':') rest
    let (j, rest) ← readValue fuel rest
    some ((key, j), rest)

end

/-- A value and nothing after it. Each level of the reader takes a byte, so the length is fuel
enough. -/
def read (s : Bytes) : Option Json :=
  match readValue (2 * s.length + 1) s with
  | some (j, []) => some j
  | _ => none

end Euxis.Json
