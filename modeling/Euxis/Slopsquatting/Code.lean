import Mathlib.Data.Finset.Insert
import Euxis.Sbom.Purl

/-!
# The corpus of hallucinated packages: `libs/slopsquatting/src/guard.cpp`

A set of names for each ecosystem that has a bucket of its own, and one more bucket for all the
others. A file is what can be read of it, or nothing. The seed corpus goes through the same loop as
a file.
-/

namespace Euxis.Slopsquatting

open Sbom

/-! ## Texts -/

def isBlank (b : UInt8) : Bool := b = ch ' ' || b = ch '\t'

def trim (s : Bytes) : Bytes :=
  ((s.dropWhile isBlank).reverse.dropWhile fun b => isBlank b || b = ch '\r' || b = ch '\n').reverse

def parsePurlType (s : Bytes) : PurlType :=
  if s = ascii "npm" then .npm
  else if s = ascii "pypi" then .pypi
  else if s = ascii "cargo" then .cargo
  else if s = ascii "golang" then .golang
  else if s = ascii "go" then .golang
  else if s = ascii "maven" then .maven
  else if s = ascii "gem" then .gem
  else .generic

def normaliseByte (b : UInt8) : UInt8 :=
  let b := Bytes.lowerByte b
  if b = ch '_' ∨ b = ch '.' then ch '-' else b

/-- Runs of hyphens become one. -/
def collapse (lastHyphen : Bool) : Bytes → Bytes
  | [] => []
  | b :: rest =>
    if b = ch '-' then if lastHyphen then collapse true rest else ch '-' :: collapse true rest
    else b :: collapse false rest

def pypiNormalise (s : Bytes) : Bytes := collapse false (s.map normaliseByte)

/-! ## The guard -/

structure EcosystemBucket where
  names : Finset Bytes := ∅
  normalisedNames : Finset Bytes := ∅
  nearest : List (Bytes × Bytes) := []

structure Guard where
  npm : EcosystemBucket := {}
  pypi : EcosystemBucket := {}
  cargo : EcosystemBucket := {}
  golang : EcosystemBucket := {}
  maven : EcosystemBucket := {}
  gem : EcosystemBucket := {}
  generic : EcosystemBucket := {}

namespace Guard

def bucketFor (g : Guard) : PurlType → EcosystemBucket
  | .npm => g.npm
  | .pypi => g.pypi
  | .cargo => g.cargo
  | .golang => g.golang
  | .maven => g.maven
  | .gem => g.gem
  | _ => g.generic

/-- An assignment through the reference that `bucket_for` returns. -/
def setBucket (g : Guard) (e : PurlType) (bucket : EcosystemBucket) : Guard :=
  match e with
  | .npm => { g with npm := bucket }
  | .pypi => { g with pypi := bucket }
  | .cargo => { g with cargo := bucket }
  | .golang => { g with golang := bucket }
  | .maven => { g with maven := bucket }
  | .gem => { g with gem := bucket }
  | _ => { g with generic := bucket }

def contains (g : Guard) (name : Bytes) (ecosystem : PurlType) : Bool :=
  let bucket := g.bucketFor ecosystem
  if ecosystem = .pypi then pypiNormalise name ∈ bucket.normalisedNames else name ∈ bucket.names

/-- The name, and for PyPI its normal form as well. -/
def insertName (ecosystem : PurlType) (name : Bytes) (bucket : EcosystemBucket) : EcosystemBucket :=
  { bucket with
    names := insert name bucket.names
    normalisedNames :=
      if ecosystem = .pypi then insert (pypiNormalise name) bucket.normalisedNames
      else bucket.normalisedNames }

def addName (ecosystem : PurlType) (g : Guard) (name : Bytes) : Guard :=
  if name = [] then g else g.setBucket ecosystem (insertName ecosystem name (g.bucketFor ecosystem))

def add (g : Guard) (ecosystem : PurlType) (names : List Bytes) : Guard :=
  names.foldl (addName ecosystem) g

def addWithNearest (g : Guard) (ecosystem : PurlType) (name nearest : Bytes) : Guard :=
  if name = [] then g
  else
    let bucket := insertName ecosystem name (g.bucketFor ecosystem)
    g.setBucket ecosystem
      (if nearest = [] then bucket
        else { bucket with nearest := bucket.nearest ++ [(name, nearest)] })

end Guard

/-! ## Corpus files -/

structure Entry where
  ecosystem : PurlType
  name : Bytes
  nearest : Bytes

/-- The ecosystem of a line and what follows its prefix. A prefix that names no ecosystem belongs to
the name. -/
def splitPrefix (line : Bytes) : PurlType × Bytes :=
  match Bytes.cut (ch ':') line with
  | none => (.generic, line)
  | some (before, after) =>
    let resolved := parsePurlType (trim before)
    if resolved ≠ .generic ∨ trim before = ascii "generic" then (resolved, trim after)
    else (.generic, line)

/-- The name and the nearest legitimate one. -/
def splitNearest (body : Bytes) : Bytes × Bytes :=
  match Bytes.cut (ch '=') body with
  | none => (body, [])
  | some (before, after) => (trim before, trim after)

def parseLine (raw : Bytes) : Option Entry :=
  let line := trim raw
  if line = [] ∨ line.head? = some (ch '#') then none
  else
    let (ecosystem, body) := splitPrefix line
    let (name, nearest) := splitNearest body
    if name = [] then none else some { ecosystem, name, nearest }

structure CorpusError where
  message : Bytes
  file : Bytes

namespace Guard

/-- One line of a corpus. -/
def loadLine (state : Guard × Nat) (raw : Bytes) : Guard × Nat :=
  match parseLine raw with
  | none => state
  | some e => (state.1.addWithNearest e.ecosystem e.name e.nearest, state.2 + 1)

/-- The loop over the lines, with the number of entries added. A line feed at the end leaves an
empty line, which has no entry. -/
def loadLines (g : Guard) (content : Bytes) : Guard × Nat :=
  (content.splitOn (ch '\n')).foldl loadLine (g, 0)

def loadCorpusFile (g : Guard) (path : Bytes) (content : Option Bytes) :
    Except CorpusError Nat × Guard :=
  match content with
  | none => (.error { message := ascii "Cannot open file", file := path }, g)
  | some content =>
    let r := g.loadLines content
    (.ok r.2, r.1)

end Guard

/-! ## Operations -/

inductive Op where
  | add (ecosystem : PurlType) (names : List Bytes)
  | addWithNearest (ecosystem : PurlType) (name nearest : Bytes)
  | loadCorpusFile (path : Bytes) (content : Option Bytes)

def Op.apply (g : Guard) : Op → Guard
  | .add ecosystem names => g.add ecosystem names
  | .addWithNearest ecosystem name nearest => g.addWithNearest ecosystem name nearest
  | .loadCorpusFile path content => (g.loadCorpusFile path content).2

/-- The guard after a sequence of operations. -/
def build (ops : List Op) : Guard := ops.foldl Op.apply {}

end Euxis.Slopsquatting
