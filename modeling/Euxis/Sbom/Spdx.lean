import Euxis.Clock
import Euxis.Json.Value
import Euxis.Sbom.Types

/-!
# The SPDX 3.0.1 emitter: `libs/sbom/src/spdx.cpp`

`generate_serial_number` draws a random number, so its result is the parameter `serial`.
-/

namespace Euxis.Sbom

def spdxByte (c : UInt8) : UInt8 := if Bytes.isAlnum c ∨ c = ch '.' ∨ c = ch '-' then c else ch '-'

def spdxid (bomRef : Bytes) : Bytes := ascii "SPDXRef-" ++ bomRef.map spdxByte

/-- What the identifier of a package is made from. -/
def Component.elementRef (c : Component) : Bytes :=
  if c.bomRef = [] then (if c.purl = [] then c.name else c.purl) else c.bomRef

/-- `if (!s.empty()) node[key] = v` -/
def setUnlessEmpty (j : Json) (s : Bytes) (key : Bytes) (v : Json) : Json :=
  if s = [] then j else j.set key v

def organization (name : Bytes) : Json :=
  Json.object [(ascii "@type", .str (ascii "Organization")), (ascii "name", .str name)]

def purlIdentifier (purl : Bytes) : Json :=
  Json.object [(ascii "@type", .str (ascii "ExternalIdentifier")),
    (ascii "externalIdentifierType", .str (ascii "purl")), (ascii "identifier", .str purl)]

def hashToNode (h : Hash) : Json :=
  Json.object [(ascii "@type", .str (ascii "Hash")),
    (ascii "checksumAlgorithm", .str (hashAlgSpdx h.algorithm)),
    (ascii "checksumValue", .str h.value)]

def packageToNode (c : Component) : Json :=
  let node := Json.null.set (ascii "@type") (.str (ascii "Package"))
  let node := node.set (ascii "spdxId") (.str (spdxid c.elementRef))
  let node := node.set (ascii "name") (.str c.name)
  let node := setUnlessEmpty node c.version (ascii "packageVersion") (.str c.version)
  let node := setUnlessEmpty node c.supplier (ascii "supplier") (organization c.supplier)
  let node := setUnlessEmpty node c.publisher (ascii "originator") (organization c.publisher)
  let node := setUnlessEmpty node c.description (ascii "description") (.str c.description)
  let node := setUnlessEmpty node c.purl (ascii "externalIdentifier") (.arr [purlIdentifier c.purl])
  let node := if c.hashes = [] then node
    else node.set (ascii "verifiedUsing") (.arr (c.hashes.map hashToNode))
  match c.licenses with
  | [] => node
  | l :: _ => setUnlessEmpty node l (ascii "concludedLicense") (.str l)

def toolToNode (t : Tool) : Json :=
  Json.object [(ascii "@type", .str (ascii "Tool")), (ascii "name", .str t.name),
    (ascii "toolVersion", .str t.version), (ascii "creatorVendor", .str t.vendor)]

def creationToNode (doc : SbomDocument) : Json :=
  let creation := Json.null.set (ascii "@type") (.str (ascii "CreationInfo"))
  let creation := creation.set (ascii "spdxId") (.str (ascii "_:creationinfo"))
  let creation := creation.set (ascii "created") (.str (Clock.isoTime doc.createdAt))
  let creation := creation.set (ascii "specVersion") (.str (ascii "3.0.1"))
  if doc.tools = [] then creation
  else creation.set (ascii "createdUsing") (.arr (doc.tools.map toolToNode))

def documentToNode (serial : Bytes) (doc : SbomDocument) : Json :=
  let document := Json.null.set (ascii "@type") (.str (ascii "SpdxDocument"))
  let document := document.set (ascii "spdxId")
    (.str (doc.documentNamespace ++ ascii "/" ++ (if doc.serialNumber = [] then serial
      else doc.serialNumber)))
  let document := document.set (ascii "name")
    (.str ((doc.root.map (·.name)).getD (ascii "euxis-scan")))
  let document := document.set (ascii "dataLicense") (.str (ascii "CC0-1.0"))
  document.set (ascii "creationInfo") (.str (ascii "_:creationinfo"))

def relationshipToNode (fromRef toRef : Bytes) : Json :=
  Json.object [(ascii "@type", .str (ascii "Relationship")),
    (ascii "relationshipType", .str (ascii "dependsOn")),
    (ascii "from", .str (spdxid fromRef)), (ascii "to", .arr [.str (spdxid toRef)])]

/-- The pairs of references that the relationship loops visit. -/
def SbomDocument.edges (doc : SbomDocument) : List (Bytes × Bytes) :=
  doc.dependencies.flatMap fun d => d.dependsOn.map fun t => (d.ref, t)

def toSpdx301 (serial : Bytes) (doc : SbomDocument) : Json :=
  let out := Json.null.set (ascii "@context")
    (.arr [.str (ascii "https://spdx.org/rdf/3.0.1/spdx-context.jsonld")])
  let graph := creationToNode doc :: documentToNode serial doc ::
    ((doc.root.toList ++ doc.components).map packageToNode ++
    doc.edges.map fun e => relationshipToNode e.1 e.2)
  out.set (ascii "@graph") (.arr graph)

end Euxis.Sbom
