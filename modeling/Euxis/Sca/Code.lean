import Euxis.Parse
import Euxis.Sbom.Purl
import Euxis.Sbom.Types

/-!
# From lockfiles to an SBOM: `libs/sca/src/manifest.cpp` and `libs/sca/src/scanner.cpp`

The errors of a scan are left out, and so are the file and the root entry of a manifest where the
document does not depend on them: the parsers of lockfiles return them.
-/

namespace Euxis.Sca

open Sbom

/-! ## Manifests -/

inductive Ecosystem where
  | cargo
  | npm
  | pypi
  | golang
  | maven
  | gem
  | composer
  deriving DecidableEq, Repr

def ecosystemStr : Ecosystem → Bytes
  | .cargo => ascii "cargo"
  | .npm => ascii "npm"
  | .pypi => ascii "pypi"
  | .golang => ascii "golang"
  | .maven => ascii "maven"
  | .gem => ascii "gem"
  | .composer => ascii "composer"

def purlTypeFor : Ecosystem → PurlType
  | .cargo => .cargo
  | .npm => .npm
  | .pypi => .pypi
  | .golang => .golang
  | .maven => .maven
  | .gem => .gem
  | .composer => .composer

structure ManifestEntry where
  name : Bytes
  version : Bytes
  ns : Bytes := []
  hash : Option Hash := none
  isDirect : Bool := false
  isDev : Bool := false
  source : Bytes := []
  dependsOn : List Bytes := []
  deriving DecidableEq, Repr

structure ParsedManifest where
  ecosystem : Ecosystem
  entries : List ManifestEntry

/-- What the parser of a lockfile returns. -/
structure LockManifest extends ParsedManifest where
  sourceFile : Bytes
  root : Option ManifestEntry := none

structure ParseError where
  message : Bytes
  file : Bytes
  line : Nat := 0
  deriving DecidableEq, Repr

structure ScanResult where
  manifests : List ParsedManifest

def toPurl (entry : ManifestEntry) (ecosystem : Ecosystem) : Bytes :=
  (Purl.build (purlTypeFor ecosystem) entry.name entry.version entry.ns).toString

def toComponent (entry : ManifestEntry) (ecosystem : Ecosystem) : Component :=
  { name := entry.name
    version := entry.version
    purl := toPurl entry ecosystem
    bomRef := toPurl entry ecosystem
    type := .library
    supplier := entry.source
    hashes := entry.hash.toList
    properties :=
      (if entry.isDirect then [(ascii "euxis:direct", ascii "true")] else []) ++
      (if entry.isDev then [(ascii "euxis:dev", ascii "true")] else []) ++
      [(ascii "euxis:ecosystem", ecosystemStr ecosystem)] }

/-! ## The document -/

/-- `local_name_to_purl` of a manifest. -/
def localNameToPurl (m : ParsedManifest) : AList fun _ : Bytes => Bytes :=
  m.entries.foldl (fun names e => names.insert e.name (toPurl e m.ecosystem)) ∅

/-- The document so far, and the 1-based position of each purl among the components. The map
`name_to_purl` is written and never read. -/
structure Builder where
  components : List Component := []
  dependencies : List Dependency := []
  purlToIndex : AList fun _ : Bytes => Nat := ∅

def addComponent (b : Builder) (comp : Component) : Builder :=
  let idx := (b.purlToIndex.lookup comp.purl).getD 0
  if idx = 0 ∧ (b.components = [] ∨ b.components.head?.map (·.purl) ≠ some comp.purl) then
    { b with
      components := b.components ++ [comp]
      purlToIndex := b.purlToIndex.insert comp.purl (b.components.length + 1) }
  else { b with purlToIndex := b.purlToIndex.insert comp.purl idx }

/-- The edges of an entry. A name that the map does not hold is dropped. -/
def edgesOf (names : AList fun _ : Bytes => Bytes) (e : ManifestEntry) : Option Dependency :=
  let targets := e.dependsOn.filterMap names.lookup
  if targets = [] then none else some { ref := (names.lookup e.name).getD [], dependsOn := targets }

def addEntry (m : ParsedManifest) (b : Builder) (e : ManifestEntry) : Builder :=
  let b := addComponent b (toComponent e m.ecosystem)
  { b with dependencies := b.dependencies ++ (edgesOf (localNameToPurl m) e).toList }

def addManifest (b : Builder) (m : ParsedManifest) : Builder := m.entries.foldl (addEntry m) b

def toSbomDocument (scan : ScanResult) (projectRoot : Bytes) (createdAt : Int) : SbomDocument :=
  let b := scan.manifests.foldl addManifest {}
  { tools := [{ vendor := ascii "euxis.co", name := ascii "euxis-cli", version := ascii "0.1.0" }]
    root := some
      { bomRef := ascii "euxis:scan-root"
        name := if Parse.filename projectRoot = [] then projectRoot else Parse.filename projectRoot
        type := .application }
    components := b.components
    dependencies := b.dependencies
    createdAt
    properties := [(ascii "euxis:scan-root", projectRoot),
      (ascii "euxis:manifest-count", Bytes.decimal scan.manifests.length)] }

end Euxis.Sca
