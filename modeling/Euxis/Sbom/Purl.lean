import Mathlib.Data.List.AList
import Euxis.Bytes

/-!
# Package URLs: `libs/sbom/src/purl.cpp`
-/

namespace Euxis.Sbom

/-! ## Percent encoding -/

def isUnreserved (c : UInt8) : Bool :=
  Bytes.isAlnum c || c = ch '-' || c = ch '.' || c = ch '_' || c = ch '~'

def hexChar (v : Nat) : UInt8 :=
  if v < 10 then UInt8.ofNat (48 + v) else UInt8.ofNat (65 + (v - 10))

/-- `none` stands for `-1`. -/
def fromHex (c : UInt8) : Option Nat :=
  if ch '0' ≤ c ∧ c ≤ ch '9' then some (c.toNat - 48)
  else if ch 'a' ≤ c ∧ c ≤ ch 'f' then some (10 + (c.toNat - 97))
  else if ch 'A' ≤ c ∧ c ≤ ch 'F' then some (10 + (c.toNat - 65))
  else none

def percentEncodeByte (c : UInt8) : Bytes :=
  if isUnreserved c then [c] else [ch '%', hexChar (c.toNat / 16), hexChar (c.toNat % 16)]

def percentEncodeSegment (s : Bytes) : Bytes := s.flatMap percentEncodeByte

/-- A `%` that two hex digits do not follow is copied. -/
def percentDecodeSegment : Bytes → Bytes
  | c :: h :: l :: more =>
    if c = ch '%' then
      match fromHex h, fromHex l with
      | some hi, some lo => UInt8.ofNat (hi * 16 + lo) :: percentDecodeSegment more
      | _, _ => c :: percentDecodeSegment (h :: l :: more)
    else c :: percentDecodeSegment (h :: l :: more)
  | short => short

/-- Each segment on its own: the slashes stay. -/
def encodePath (s : Bytes) : Bytes :=
  Bytes.join (ch '/') ((s.splitOn (ch '/')).map percentEncodeSegment)

def decodePath (s : Bytes) : Bytes :=
  Bytes.join (ch '/') ((s.splitOn (ch '/')).map percentDecodeSegment)

/-! ## Purls -/

inductive PurlType where
  | npm
  | pypi
  | cargo
  | golang
  | maven
  | gem
  | nuget
  | composer
  | hex
  | conan
  | conda
  | github
  | generic
  deriving DecidableEq, Repr

def purlTypeStr : PurlType → Bytes
  | .npm => ascii "npm"
  | .pypi => ascii "pypi"
  | .cargo => ascii "cargo"
  | .golang => ascii "golang"
  | .maven => ascii "maven"
  | .gem => ascii "gem"
  | .nuget => ascii "nuget"
  | .composer => ascii "composer"
  | .hex => ascii "hex"
  | .conan => ascii "conan"
  | .conda => ascii "conda"
  | .github => ascii "github"
  | .generic => ascii "generic"

/-- The entries of `qualifiers` stand in the order in which the map is iterated. -/
structure Purl where
  type : Bytes := []
  ns : Bytes := []
  name : Bytes := []
  version : Bytes := []
  qualifiers : AList fun _ : Bytes => Bytes := ∅
  subpath : Bytes := []

/-- `std::map::emplace`: a key that is there keeps its value. -/
def emplace (k v : Bytes) : List (Bytes × Bytes) → List (Bytes × Bytes)
  | [] => [(k, v)]
  | (k', v') :: rest =>
    if k < k' then (k, v) :: (k', v') :: rest
    else if k = k' then (k', v') :: rest
    else (k', v') :: emplace k v rest

namespace Purl

def sortedQualifiers (p : Purl) : List (Bytes × Bytes) :=
  p.qualifiers.entries.foldl (fun sorted e =>
    if e.1 = [] ∨ e.2 = [] then sorted else emplace (Bytes.lower e.1) e.2 sorted) []

def qualifierText (q : Bytes × Bytes) : Bytes := q.1 ++ ch '=' :: percentEncodeSegment q.2

def toString (p : Purl) : Bytes :=
  ascii "pkg:" ++ p.type.lower ++ ch '/' ::
    ((if p.ns = [] then [] else encodePath p.ns ++ [ch '/']) ++
      percentEncodeSegment p.name ++
      (if p.version = [] then [] else ch '@' :: percentEncodeSegment p.version) ++
      (if p.sortedQualifiers = [] then []
        else ch '?' :: Bytes.join (ch '&') (p.sortedQualifiers.map qualifierText)) ++
      (if p.subpath = [] then [] else ch '#' :: encodePath p.subpath))

def build (type : PurlType) (name version ns : Bytes) : Purl :=
  { type := purlTypeStr type, name, version, ns }

end Purl

structure PurlError where
  message : Bytes
  position : Nat
  deriving DecidableEq, Repr

def parseQualifier (qualifiers : AList fun _ : Bytes => Bytes) (kv : Bytes) : AList fun _ :
    Bytes => Bytes :=
  match Bytes.cut (ch '=') kv with
  | some (k, v) => qualifiers.insert k.lower (percentDecodeSegment v)
  | none => qualifiers

def parseQualifiers (s : Bytes) : AList fun _ : Bytes => Bytes :=
  (s.splitOn (ch '&')).foldl parseQualifier ∅

/-- The part before the first `c` and the part after it, which is empty when there is no `c`. -/
def splitOff (c : UInt8) (s : Bytes) : Bytes × Bytes := (Bytes.cut c s).getD (s, [])

def splitOffLast (c : UInt8) (s : Bytes) : Bytes × Bytes := (Bytes.cutLast c s).getD (s, [])

/-- The namespace, which the last slash ends, and the name. Each segment of the namespace is decoded
on its own. -/
def splitName (s : Bytes) : Bytes × Bytes :=
  match Bytes.cutLast (ch '/') s with
  | none => ([], percentDecodeSegment s)
  | some (ns, name) => (decodePath ns, percentDecodeSegment name)

/-- What follows the type. -/
def parseRest (type rest : Bytes) : Purl :=
  let (rest, subpath) := splitOff (ch '#') rest
  let (rest, qualifiers) := splitOff (ch '?') rest
  let (rest, version) := splitOffLast (ch '@') rest
  { type := type.lower
    ns := (splitName rest).1
    name := (splitName rest).2
    version := percentDecodeSegment version
    qualifiers := parseQualifiers qualifiers
    subpath := percentDecodeSegment subpath }

def parsePurl (s : Bytes) : Except PurlError Purl :=
  if (ascii "pkg:").isPrefixOf s then
    match Bytes.cut (ch '/') ((s.drop 4).dropWhile (· = ch '/')) with
    | none => .error { message := ascii "purl missing type/name separator", position := 4 }
    | some (type, rest) =>
      let p := parseRest type rest
      if p.type = [] ∨ p.name = [] then
        .error { message := ascii "purl type and name must be non-empty", position := 0 }
      else .ok p
  else .error { message := ascii "Missing 'pkg:' scheme", position := 0 }

end Euxis.Sbom
