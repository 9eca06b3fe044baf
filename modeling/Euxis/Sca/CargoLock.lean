import Euxis.Sca.GoSum

/-!
# Cargo.lock: `libs/sca/src/cargo_lock.cpp`

A scanner that goes through the file line by line: it knows whether it is in a package and whether
it is in an array of dependencies.
-/

namespace Euxis.Sca.CargoLock

open Sbom

/-! ## Texts -/

/-- The same blanks as in `go_sum.cpp`. -/
def trim (s : Bytes) : Bytes := GoSum.trim s

def stripQuotes (s : Bytes) : Bytes :=
  if 2 ≤ s.length ∧ (s.head? = some (ch '"') ∨ s.head? = some (ch '\'')) ∧ s.head? = s.getLast? then
    s.tail.dropLast
  else s

def extractDepName (s : Bytes) : Bytes :=
  let s := trim s
  let s := if s.getLast? = some (ch ',') then s.dropLast else s
  let stripped := stripQuotes (trim s)
  match Bytes.cut (ch ' ') stripped with
  | none => stripped
  | some (name, _) => name

/-- A comment starts at the first `#`, unless the quotes in front of it do not pair up. -/
def stripComment (line : Bytes) : Bytes :=
  match Bytes.cut (ch '#') line with
  | none => line
  | some (before, _) => if before.count (ch '"') % 2 = 0 then before else line

def lineView (line : Bytes) : Bytes := trim (stripComment line)

/-- What the loop over the commas visits: an empty text behind the last one is not visited. -/
def arrayParts (inner : Bytes) : List Bytes :=
  let parts := inner.splitOn (ch ',')
  if parts.getLast? = some [] then parts.dropLast else parts

/-! ## The scanner -/

def noEntry : ManifestEntry := { name := [], version := [] }

structure State where
  entries : List ManifestEntry := []
  inPackage : Bool := false
  inDependenciesArray : Bool := false
  current : ManifestEntry := noEntry
  deriving DecidableEq, Repr

def flush (s : State) : State :=
  { entries := if s.inPackage = true ∧ s.current.name ≠ [] then s.entries ++ [s.current] else s.entries }

def push (s : State) (names : List Bytes) : State :=
  { s with current := { s.current with dependsOn := s.current.dependsOn ++ names } }

def packageHeader : Bytes := ascii "[[package]]"

def setDependencies (s : State) (value : Bytes) : State :=
  if value = ascii "[]" then s
  else if ascii "[" <+: value then
    match Bytes.cut (ch ']') value with
    | none => { s with inDependenciesArray := true }
    | some (opened, _) => push s ((arrayParts (opened.drop 1)).map extractDepName)
  else s

/-- `key = value` in a package. -/
def setField (s : State) (key value : Bytes) : State :=
  if key = ascii "name" then { s with current := { s.current with name := stripQuotes value } }
  else if key = ascii "version" then
    { s with current := { s.current with version := stripQuotes value } }
  else if key = ascii "source" then
    { s with current := { s.current with source := stripQuotes value } }
  else if key = ascii "checksum" then
    { s with
        current := { s.current with
            hash := some { algorithm := .sha256, value := stripQuotes value } } }
  else if key = ascii "dependencies" then setDependencies s value
  else s

def scanView (s : State) (view : Bytes) : State :=
  if view = [] then s
  else if view = packageHeader then { flush s with inPackage := true }
  else if view.head? = some (ch '[') ∧ view.getLast? = some (ch ']') then flush s
  else if s.inDependenciesArray = true then
    if ascii "]" <+: view then { s with inDependenciesArray := false }
    else push s [extractDepName view]
  else if s.inPackage = false then s
  else
    match Bytes.cut (ch '=') view with
    | none => s
    | some (key, value) => setField s (trim key) (trim value)

def scan (s : State) (line : Bytes) : State := scanView s (lineView line)

def parseCargoLock (contents source : Bytes) : Except ParseError LockManifest :=
  let lines := Audit.getLines contents
  let entries := (flush (lines.foldl scan {})).entries
  if entries = [] then
    .error { message := ascii "No [[package]] blocks found in Cargo.lock", file := source,
             line := lines.length }
  else .ok { ecosystem := .cargo, entries, sourceFile := source,
             root := entries.find? fun e => e.source = [] }

end Euxis.Sca.CargoLock
