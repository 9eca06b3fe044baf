import Euxis.Json.Access
import Euxis.Json.RoundTrip
import Euxis.Sca.Code

/-!
# package-lock.json: `libs/sca/src/npm_lock.cpp`

The lockfile is parsed under a `try` that catches parse errors. The members are read behind it: the
library throws on a member of another type than its default, and nothing catches that.
-/

namespace Euxis.Sca.NpmLock

open Sbom
open Json (hasType isString isBoolean isArithmetic isObject)
open Outcome (Returns)

/-! ## Texts -/

structure NameParts where
  ns : Bytes := []
  name : Bytes := []
  deriving DecidableEq, Repr

/-- What follows the last place where `marker` stands: `rfind` and `substr`. -/
def afterLast (marker : Bytes) : Bytes → Option Bytes
  | [] => none
  | b :: rest =>
    match afterLast marker rest with
    | some after => some after
    | none => if marker.isPrefixOf (b :: rest) then some ((b :: rest).drop marker.length) else none

def splitPackagePath (path : Bytes) : NameParts :=
  match afterLast (ascii "node_modules/") path with
  | none => {}
  | some rest =>
    if rest.head? = some (ch '@') then
      match Bytes.cut (ch '/') rest with
      | none => { ns := rest }
      | some (ns, name) => { ns, name }
    else { name := rest }

/-- The digest stays base64, and an unknown algorithm counts as `sha256`. -/
def parseIntegrity (integrity : Bytes) : Option Hash :=
  match Bytes.cut (ch '-') integrity with
  | none => none
  | some (alg, digest) =>
    let algorithm :=
      if alg = ascii "sha384" then .sha384
      else if alg = ascii "sha512" then .sha512
      else if alg = ascii "md5" then .md5
      else .sha256
    some { algorithm, value := digest }

/-! ## The parser -/

/-- How `json::parse` ends. A number that no `double` holds is no parse error. -/
inductive ReadResult where
  | value (root : Json)
  | parseError (what : Bytes)
  | outOfRange

/-- The exceptions that leave the parser. -/
inductive Thrown where
  | json (e : JsonError)
  | outOfRange
  deriving DecidableEq, Repr

/-- The keys of a member that is an object. -/
def keysAt (j : Json) (key : Bytes) : List Bytes :=
  match j.find key with
  | some (.obj members) => members.map (·.1)
  | _ => []

def readRoot (root rootPkg : Json) : Except JsonError ManifestEntry := do
  let rootName ← root.valueStr (ascii "name") []
  let name ← rootPkg.valueStr (ascii "name") rootName
  let rootVersion ← root.valueStr (ascii "version") []
  let version ← rootPkg.valueStr (ascii "version") rootVersion
  return { name, version, isDirect := true }

/-- The packages that the loop skips: the root, what is no object and what has no name. -/
def skipped (path : Bytes) (body : Json) : Bool :=
  path = [] || !body.isObject || (splitPackagePath path).name = []

def readPackage (directProd directDev : List Bytes) (path : Bytes) (body : Json) :
    Except JsonError ManifestEntry := do
  let parts := splitPackagePath path
  let nmForRootCheck := if parts.ns = [] then parts.name else parts.ns ++ ch '/' :: parts.name
  let version ← body.valueStr (ascii "version") []
  let source ← body.valueStr (ascii "resolved") []
  let isDev ← body.valueBool (ascii "dev") false
  return {
    ns := parts.ns
    name := parts.name
    version, source
    hash := (body.findStr (ascii "integrity")).bind parseIntegrity
    isDirect := nmForRootCheck ∈ directProd ∨ nmForRootCheck ∈ directDev
    isDev := isDev ∨ nmForRootCheck ∈ directDev
    dependsOn := keysAt body (ascii "dependencies") }

variable (truncate : Bytes → Int)

def lockfileVersion (root : Json) : Except JsonError Int :=
  Json.valueInt32 truncate root (ascii "lockfileVersion") 0

/-- The package with the empty path, when it is an object. -/
def readRootPackage (root : Json) (packages : List (Bytes × Json)) :
    Except JsonError (Option ManifestEntry) :=
  match packages.lookup [] with
  | some (.obj members) => (readRoot root (.obj members)).map some
  | _ => .ok none

/-- The names under `key` in the root package. -/
def directNames (packages : List (Bytes × Json)) (key : Bytes) : List Bytes :=
  keysAt ((packages.lookup []).getD .null) key

def readPackages (root : Json) (packages : List (Bytes × Json)) :
    Except JsonError (Option ManifestEntry × List ManifestEntry) := do
  let rootEntry ← readRootPackage root packages
  let directProd := directNames packages (ascii "dependencies")
  let directDev := directNames packages (ascii "devDependencies")
  let entries ← (packages.filter fun p => !skipped p.1 p.2).mapM fun p =>
    readPackage directProd directDev p.1 p.2
  return (rootEntry, entries)

def readLock (source : Bytes) (root : Json) : Except JsonError (Except ParseError LockManifest) :=
  if root.isObject then do
    let version ← lockfileVersion truncate root
    if version < 2 ∨ 3 < version then
      return .error {
        message := ascii "Only lockfileVersion 2/3 are supported (got " ++
          Bytes.decimalInt version ++ ascii ")"
        file := source }
    else
      match root.find (ascii "packages") with
      | some (.obj packages) => do
        let (rootEntry, entries) ← readPackages root packages
        if entries = [] ∧ rootEntry = none then
          return .error { message := ascii "No packages found in package-lock.json",
                          file := source }
        else return .ok { ecosystem := .npm, entries, sourceFile := source, root := rootEntry }
      | _ =>
        return .error { message := ascii "Missing or non-object `packages` member", file := source }
  else .ok (.error { message := ascii "Top-level JSON value is not an object", file := source })

variable (read : Bytes → ReadResult)

def parseNpmLock (contents source : Bytes) : Except Thrown (Except ParseError LockManifest) :=
  match read contents with
  | .parseError what => .ok (.error { message := ascii "JSON parse: " ++ what, file := source })
  | .outOfRange => .error .outOfRange
  | .value root => (readLock truncate source root).mapError .json

/-! ## Types -/

def rootTyped (root rootPkg : Json) : Bool :=
  hasType isString root (ascii "name") && hasType isString root (ascii "version") &&
    hasType isString rootPkg (ascii "name") && hasType isString rootPkg (ascii "version")

def packageTyped (body : Json) : Bool :=
  hasType isString body (ascii "version") && hasType isString body (ascii "resolved") &&
    hasType isBoolean body (ascii "dev")

def rootPackageTyped (root : Json) (packages : List (Bytes × Json)) : Bool :=
  match packages.lookup [] with
  | some (.obj members) => rootTyped root (.obj members)
  | _ => true

def packagesTyped (root : Json) (packages : List (Bytes × Json)) : Bool :=
  rootPackageTyped root packages && packages.all fun p => skipped p.1 p.2 || packageTyped p.2

/-- The packages count only when the version is one that is read. -/
def lockTyped (root : Json) : Bool :=
  hasType isArithmetic root (ascii "lockfileVersion") &&
    match lockfileVersion truncate root, root.find (ascii "packages") with
    | .ok version, some (.obj packages) => version < 2 || 3 < version || packagesTyped root packages
    | _, _ => true

def contentsTyped (contents : Bytes) : Bool :=
  match read contents with
  | .parseError _ => true
  | .outOfRange => false
  | .value root => !root.isObject || lockTyped truncate root

/-! ## When the parser returns -/

theorem readRoot_returns_iff (root rootPkg : Json) (hroot : root.IsObject)
    (hpkg : rootPkg.IsObject) :
    Returns (readRoot root rootPkg) ↔ rootTyped root rootPkg = true := by
  -- A read that goes on whatever it finds adds its own condition and no more.
  have hversion : ∀ name, Returns (do
      let rootVersion ← root.valueStr (ascii "version") []
      let version ← rootPkg.valueStr (ascii "version") rootVersion
      return ({ name, version, isDirect := true } : ManifestEntry)) ↔
        hasType isString root (ascii "version") = true ∧
        hasType isString rootPkg (ascii "version") = true := by
    intro name
    rw [← Json.valueStr_returns_of_object root (ascii "version") [] hroot]
    apply Outcome.returns_bind_const
    intro rootVersion
    rw [← Json.valueStr_returns_of_object rootPkg (ascii "version") rootVersion hpkg]
    exact Outcome.returns_bind_pure _
  have hname : Returns (readRoot root rootPkg) ↔ hasType isString root (ascii "name") = true ∧
      hasType isString rootPkg (ascii "name") = true ∧
        hasType isString root (ascii "version") = true ∧
        hasType isString rootPkg (ascii "version") = true := by
    rw [← Json.valueStr_returns_of_object root (ascii "name") [] hroot]
    apply Outcome.returns_bind_const
    intro rootName
    rw [← Json.valueStr_returns_of_object rootPkg (ascii "name") rootName hpkg]
    exact Outcome.returns_bind_const hversion
  rw [hname]
  simp only [rootTyped, Bool.and_eq_true]
  constructor
  · rintro ⟨hn, hpn, hv, hpv⟩
    exact ⟨⟨⟨hn, hv⟩, hpn⟩, hpv⟩
  · rintro ⟨⟨⟨hn, hv⟩, hpn⟩, hpv⟩
    exact ⟨hn, hpn, hv, hpv⟩

theorem readRootPackage_returns_iff (root : Json) (packages : List (Bytes × Json))
    (hroot : root.IsObject) :
    Returns (readRootPackage root packages) ↔ rootPackageTyped root packages = true := by
  unfold readRootPackage rootPackageTyped
  split
  · rename_i members _
    rw [Outcome.returns_map_iff]
    exact readRoot_returns_iff root (.obj members) hroot trivial
  · simp

theorem readPackage_returns_iff (directProd directDev : List Bytes) (path : Bytes) (body : Json)
    (h : body.IsObject) :
    Returns (readPackage directProd directDev path body) ↔ packageTyped body = true := by
  unfold readPackage packageTyped
  rw [Bool.and_eq_true, Bool.and_eq_true, and_assoc,
    ← Json.valueStr_returns_of_object body (ascii "version") [] h,
    ← Json.valueStr_returns_of_object body (ascii "resolved") [] h]
  apply Outcome.returns_bind_const
  intro version
  apply Outcome.returns_bind_const
  intro source
  rw [Outcome.returns_bind_pure, Json.valueBool_returns_iff, and_iff_right h]

theorem readPackages_returns_iff (root : Json) (packages : List (Bytes × Json))
    (hroot : root.IsObject) :
    Returns (readPackages root packages) ↔ packagesTyped root packages = true := by
  unfold readPackages packagesTyped
  rw [Bool.and_eq_true, ← readRootPackage_returns_iff root packages hroot]
  apply Outcome.returns_bind_const
  intro rootEntry
  rw [Outcome.returns_bind_pure, Outcome.returns_mapM_iff, List.all_eq_true]
  simp only [List.mem_filter, Bool.not_eq_true', Bool.or_eq_true, and_imp]
  apply forall_congr'
  intro p
  apply imp_congr_right
  intro _
  cases hskip : skipped p.1 p.2 with
  | true => simp
  | false =>
    have hobj : p.2.IsObject := by
      simp only [skipped, Bool.or_eq_false_iff, Bool.not_eq_false'] at hskip
      exact (Json.isObject_iff p.2).mp hskip.1.2
    simp only [true_implies, Bool.false_eq_true, false_or]
    exact readPackage_returns_iff _ _ p.1 p.2 hobj

theorem lockfileVersion_returns_iff (root : Json) (h : root.IsObject) :
    Returns (lockfileVersion truncate root) ↔
      hasType isArithmetic root (ascii "lockfileVersion") = true := by
  rw [lockfileVersion, Json.valueInt32_returns_iff]
  exact and_iff_right h

theorem readLock_returns_iff (source : Bytes) (root : Json) :
    Returns (readLock truncate source root) ↔
      (!root.isObject || lockTyped truncate root) = true := by
  unfold readLock
  split
  · rename_i hobj
    have hroot := (Json.isObject_iff root).mp hobj
    rw [hobj, Bool.not_true, Bool.false_or, lockTyped, Bool.and_eq_true,
      ← lockfileVersion_returns_iff truncate root hroot]
    cases lockfileVersion truncate root with
    | error e => simp
    | ok version =>
      simp only [Outcome.ok_bind, Outcome.returns_ok, true_and]
      -- An unsupported version returns before the packages are read.
      by_cases hversion : version < 2 ∨ 3 < version
      · rw [if_pos hversion]
        refine iff_of_true (Outcome.returns_ok _) ?_
        split
        · rename_i version' packages heq _
          rw [← Except.ok.inj heq]
          simpa [or_assoc] using Or.inl hversion
        · rfl
      · rw [if_neg hversion]
        obtain ⟨hlow, hhigh⟩ := not_or.mp hversion
        cases root.find (ascii "packages") with
        | none => exact iff_of_true (Outcome.returns_ok _) rfl
        | some v =>
          cases v with
          | obj packages =>
            simp only [hlow, hhigh, decide_false, Bool.false_or]
            rw [Outcome.returns_bind_const (p := True),
              readPackages_returns_iff root packages hroot]
            · exact and_iff_left trivial
            · intro entries
              split <;> simp [pure, Except.pure]
          | _ => exact iff_of_true (Outcome.returns_ok _) rfl
  · rename_i hobj
    simp [hobj]

/-- **package-lock.json.** The parser returns entries or an error of its own, if and only if the
library can hold the numbers of the file and the members that are read with a default have its
type. -/
theorem npm_lock_returns_iff (truncate : Bytes → Int) (read : Bytes → ReadResult)
    (contents source : Bytes) :
    (∃ r, parseNpmLock truncate read contents source = .ok r) ↔
      contentsTyped truncate read contents = true := by
  change Returns (parseNpmLock truncate read contents source) ↔ _
  unfold parseNpmLock contentsTyped
  split
  · simp
  · simp
  · rename_i root _
    rw [Outcome.returns_mapError_iff]
    exact readLock_returns_iff truncate source root

/-- The library on the texts that its writer makes. -/
def textRead (contents : Bytes) : ReadResult :=
  match Json.read contents with
  | some root => .value root
  | none => .parseError []

/-- A lockfile whose version is a text. -/
def textVersionLock : Bytes :=
  Json.write (.obj [(ascii "lockfileVersion", .str (ascii "3")), (ascii "packages", .obj [])])

theorem textRead_textVersionLock : textRead textVersionLock =
    .value (.obj [(ascii "lockfileVersion", .str (ascii "3")), (ascii "packages", .obj [])]) := by
  rw [textRead, textVersionLock, Json.read_write _ rfl]

theorem text_version_throws :
    parseNpmLock (fun _ => 0) textRead textVersionLock [] = .error (.json .typeError) ∧
      ¬ ∃ r, parseNpmLock (fun _ => 0) textRead textVersionLock [] = .ok r := by
  have hthrows : parseNpmLock (fun _ => 0) textRead textVersionLock [] =
      .error (.json .typeError) := by
    rw [parseNpmLock, textRead_textVersionLock]
    rfl
  refine ⟨hthrows, ?_⟩
  rw [hthrows]
  rintro ⟨r, h⟩
  cases h

end Euxis.Sca.NpmLock
