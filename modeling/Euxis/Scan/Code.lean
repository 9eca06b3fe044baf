import Euxis.Json.Value
import Euxis.Reach.Code
import Euxis.Scan.Engine
import Euxis.Taint.BuiltinSpecs

/-!
# Scanning one file: `apps/cli/src/cmd/scan.cpp`

The scan cache, the hash of the rule set and `scan_file_compute`. The arguments that only the
surrounding command reads, such as the target and the output file, are left out.
-/

namespace Euxis.Scan

open Cpg Security

structure ScanArgs where
  languageFilter : Option Parse.Language := none
  runTaint : Bool := true
  runReach : Bool := true
  runEnsemble : Bool := false
  useCache : Bool := true

/-- What the scanner uses and the repository does not hold: the files, tree-sitter, libsodium and
the JSON library. A digest is written as hex digits, so it is never empty. -/
structure World where
  readFile : Bytes → Option Bytes
  parse : Parse.Language → Bytes → Option Parse.Ast
  digest : Bytes → Bytes
  digest_ne_nil : ∀ data, digest data ≠ []
  codec : JsonCodec
  truncate : Bytes → Int

/-! ## The cached form of findings -/

def serializeLocation (loc : SourceLocation) : Json :=
  ((((Json.null.set (ascii "path") (.str loc.path)).set (ascii "start_row")
    (.int loc.startLine)).set (ascii "start_column") (.int loc.startColumn)).set (ascii "end_row")
      (.int loc.endLine)).set
    (ascii "end_column") (.int loc.endColumn)

def serializeFinding (f : Finding) : Json :=
  let item := Json.null.set (ascii "rule_id") (.str f.ruleId)
  let item := item.set (ascii "message") (.str f.message)
  let item := item.set (ascii "severity") (.int f.severity.code)
  let item := item.set (ascii "confidence") (.int f.confidence.code)
  let item := item.set (ascii "stable_fingerprint") (.str f.stableFingerprint)
  let item := item.set (ascii "primary_location") (serializeLocation f.primaryLocation)
  let item := match f.cwe with
    | some cwe => item.set (ascii "cwe") (.str cwe.id)
    | none => item
  let item := item.set (ascii "owasp") (.int f.owasp.code)
  item.set (ascii "compliance_taxa") (.arr (f.complianceTaxa.map .str))

def findingsDocument (findings : List Finding) : Json :=
  Json.null.set (ascii "findings") (.arr (findings.map serializeFinding))

/-- `dump` throws on a string that is not UTF-8. -/
def serializeFindings (w : World) (findings : List Finding) : Option Bytes :=
  w.codec.dump (findingsDocument findings)

def restoreLocation (w : World) (loc : Json) : Except JsonError SourceLocation := do
  return {
    path := ← loc.valueStr (ascii "path") []
    startLine := ← loc.valueInt w.truncate (ascii "start_row") 0
    startColumn := ← loc.valueInt w.truncate (ascii "start_column") 0
    endLine := ← loc.valueInt w.truncate (ascii "end_row") 0
    endColumn := ← loc.valueInt w.truncate (ascii "end_column") 0 }

def restoreFinding (w : World) (item : Json) : Except JsonError Finding := do
  let ruleId ← item.valueStr (ascii "rule_id") []
  let message ← item.valueStr (ascii "message") []
  let severity ← item.valueInt w.truncate (ascii "severity") Severity.medium.code
  let confidence ← item.valueInt w.truncate (ascii "confidence") Confidence.probable.code
  let stableFingerprint ← item.valueStr (ascii "stable_fingerprint") []
  let cwe : Option CweRef := match item.find (ascii "cwe") with
    | some (.str id) => some { id }
    | _ => none
  let owasp ← item.valueInt w.truncate (ascii "owasp") OwaspCategory.none.code
  let primaryLocation ← match item.find (ascii "primary_location") with
    | some (.obj members) => restoreLocation w (.obj members)
    | _ => .ok {}
  let complianceTaxa := match item.find (ascii "compliance_taxa") with
    | some (.arr taxa) => taxa.filterMap fun t => match t with
      | .str s => some s
      | _ => none
    | _ => []
  return {
    ruleId, message, severity := .ofCode severity, confidence := .ofCode confidence,
    stableFingerprint, cwe, owasp := .ofCode owasp, primaryLocation, complianceTaxa }

/-- An item that throws ends the loop, and what was restored before it stays. -/
def restoreFindings (w : World) : List Json → List Finding
  | [] => []
  | .obj members :: rest =>
    match restoreFinding w (.obj members) with
    | .ok f => f :: restoreFindings w rest
    | .error _ => []
  | _ :: rest => restoreFindings w rest

def deserializeFindings (w : World) (text : Bytes) : List Finding :=
  match w.codec.parse text with
  | none => []
  | some doc =>
    match doc.find (ascii "findings") with
    | some (.arr items) => restoreFindings w items
    | _ => []

/-! ## Keys -/

def ruleBytes (rule : Rule) : Bytes := rule.id ++ rule.message ++ rule.pattern.text

def packBytes (pack : RulePack) : Bytes := pack.name ++ pack.rules.flatMap ruleBytes

def filterBytes (args : ScanArgs) : Bytes := (args.languageFilter.map Parse.languageStr).getD []

def flagBytes (args : ScanArgs) : Bytes :=
  ascii "v0.0.3" ++ (if args.runTaint then ascii "taint" else ascii "no-taint") ++
    (if args.runReach then ascii "reach" else ascii "no-reach") ++
    (if args.runEnsemble then ascii "ensemble" else ascii "no-ensemble")

/-- All that `compute_ruleset_hash` feeds to the hasher, one update after the other. -/
def rulesetBytes (args : ScanArgs) (packs : List RulePack) : Bytes :=
  flagBytes args ++ filterBytes args ++ packs.flatMap packBytes

def computeRulesetHash (w : World) (args : ScanArgs) (packs : List RulePack) : Bytes :=
  w.digest (rulesetBytes args packs)

structure KeyInputs where
  file : Bytes
  contentHash : Bytes
  rulesetHash : Bytes
  toolVersion : Bytes

def composeKey (w : World) (inputs : KeyInputs) : Bytes :=
  w.digest (inputs.file ++ [0] ++ inputs.contentHash ++ [0] ++ inputs.rulesetHash ++ [0] ++
    inputs.toolVersion)

def hashFile (w : World) (file : Bytes) : Option Bytes := (w.readFile file).map w.digest

/-! ## One file -/

inductive Outcome where
  | scanned
  | skipped
  | parseFailure
  | cacheHit
  deriving DecidableEq, Repr

structure FileScanResult where
  outcome : Outcome := .skipped
  findings : List Finding := []
  ruleFindings : Nat := 0
  taintFindings : Nat := 0
  taintFlows : Nat := 0
  deriving DecidableEq, Repr

/-- The store of the cache: the text under each key. -/
abbrev Store := Bytes → Option Bytes

inductive ScanFault where
  | endless
  | unserializable
  deriving DecidableEq, Repr

def keyOf (w : World) (file contentHash rulesetHash : Bytes) : Bytes :=
  composeKey w { file, contentHash, rulesetHash, toolVersion := ascii "0.0.3" }

/-- The language a file is scanned in. -/
def languageFor (args : ScanArgs) (file : Bytes) : Option Parse.Language :=
  match Parse.detectLanguage file with
  | none => none
  | some lang =>
    match args.languageFilter with
    | none => some lang
    | some wanted => if lang ≠ wanted then none else some lang

/-- More rounds than a loop over a built graph takes. -/
def fuelFor (g : Graph) : Nat := g.nodeCount + 3

def runRules (packs : List RulePack) (ast : Parse.Ast) (g : Graph) (file : Bytes)
    (out : FileScanResult) : Option FileScanResult :=
  packs.foldlM (fun out pack => do
    let result ← applyRules pack ast g file
    return { out with
      findings := out.findings ++ result.findings
      ruleFindings := out.ruleFindings + result.findings.length }) out

/-- The graph comes back with its data dependences. -/
def runTaintAnalyzer (args : ScanArgs) (ast : Parse.Ast) (g : Graph) (file : Bytes)
    (out : FileScanResult) : Option (Graph × FileScanResult) :=
  if args.runTaint then do
    let (g', _) ← buildDdg (fuelFor g) g {}
    let result ← Taint.analyze (fuelFor g') g' ast Taint.builtinSpecs
    let findings := Taint.flowsToFindings result g' file
    return (g', { out with
      findings := out.findings ++ findings
      taintFindings := out.taintFindings + findings.length
      taintFlows := out.taintFlows + result.stats.flowsEmitted })
  else some (g, out)

def runReachability (args : ScanArgs) (ast : Parse.Ast) (g : Graph) (out : FileScanResult) :
    Option FileScanResult :=
  if args.runReach ∧ out.findings ≠ [] then do
    let cg ← Reach.buildCallGraph (fuelFor g) g ast
    let reach ← Reach.computeReachable (fuelFor g) g cg.edges {}
    return { out with findings := Reach.annotateFindings g reach out.findings }
  else some out

/-- The real work on a parsed file. -/
def scanAst (args : ScanArgs) (packs : List RulePack) (ast : Parse.Ast) (file : Bytes) :
    Option FileScanResult := do
  let out ← runRules packs ast (build ast) file { outcome := .scanned }
  let (g, out) ← runTaintAnalyzer args ast (build ast) file out
  runReachability args ast g out

def parseFile (w : World) (lang : Parse.Language) (file : Bytes) : Option Parse.Ast :=
  (w.readFile file).bind (w.parse lang)

def cachedEntry (w : World) (file : Bytes) (args : ScanArgs) (rulesetHash : Bytes)
    (cache : Option Store) : Option Bytes :=
  if args.useCache then do
    let store ← cache
    let contentHash ← hashFile w file
    store (keyOf w file contentHash rulesetHash)
  else none

def storeEntry (w : World) (file : Bytes) (args : ScanArgs) (rulesetHash : Bytes)
    (cache : Option Store) (out : FileScanResult) : Except ScanFault (Option Store) :=
  let contentHash := (hashFile w file).getD []
  match cache with
  | none => .ok none
  | some store =>
    if args.useCache = false ∨ contentHash = [] then .ok (some store)
    else
      match serializeFindings w out.findings with
      | none => .error .unserializable
      | some text =>
        .ok (some fun k => if k = keyOf w file contentHash rulesetHash then some text else store k)

def scanFileCompute (w : World) (file : Bytes) (args : ScanArgs) (packs : List RulePack)
    (rulesetHash : Bytes) (cache : Option Store) :
    Except ScanFault (FileScanResult × Option Store) :=
  match languageFor args file with
  | none => .ok ({}, cache)
  | some lang =>
    match cachedEntry w file args rulesetHash cache with
    | some text => .ok ({ outcome := .cacheHit, findings := deserializeFindings w text }, cache)
    | none =>
      match parseFile w lang file with
      | none => .ok ({ outcome := .parseFailure }, cache)
      | some ast =>
        match scanAst args packs ast file with
        | none => .error .endless
        | some out => (storeEntry w file args rulesetHash cache out).map fun cache => (out, cache)

end Euxis.Scan
