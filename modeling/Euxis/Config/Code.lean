import Euxis.Config.Yaml
import Euxis.Gateway.Code
import Euxis.Security.Finding

/-!
# The configuration: `libs/runtime/src/config.cpp`

How `.euxis.yaml` files are read, merged and overridden by the environment.
-/

namespace Euxis.Config

open Gateway Security

/-- `parse_severity` of `libs/security/src/finding.cpp`. -/
def parseSeverity (s : Bytes) : Severity :=
  let lower := Bytes.lower s
  if lower = ascii "critical" then .critical
  else if lower = ascii "high" then .high
  else if lower = ascii "medium" then .medium
  else if lower = ascii "low" then .low
  else if lower = ascii "info" then .info
  else .none

/-- A severity that is no misspelling. -/
def knownSeverity (text : Bytes) : Option Severity :=
  let s := parseSeverity text
  if s = .none ∧ text ≠ ascii "none" then none else some s

def foundSeverity (node : Option Yaml) (key : Bytes) : Option Severity :=
  match Yaml.get node key with
  | some (.scalar text) => knownSeverity text
  | _ => none

def getSeverity (node : Option Yaml) (key : Bytes) (fallback : Severity) : Severity :=
  (foundSeverity node key).getD fallback

/-! ## The structs -/

inductive ScanMode where
  | triage
  | check
  | review
  | forensic
  deriving DecidableEq, Repr

inductive SigningMode where
  | off
  | keylessOidc
  | keyBacked
  deriving DecidableEq, Repr

structure ProjectConfig where
  name : Bytes := []
  owner : Bytes := []
  languages : List Bytes := []
  deriving DecidableEq, Repr

structure ScanConfig where
  mode : ScanMode := .check
  target : Bytes := ascii "."
  includes : List Bytes := []
  excludes : List Bytes :=
  [ascii "build/**", ascii "node_modules/**", ascii "vendor/**", ascii ".venv/**",
    ascii "target/**", ascii "dist/**", ascii "*.min.*"]
  maxFileSizeKb : Int := 4096
  followSymlinks : Bool := false
  respectGitignore : Bool := true
  deriving DecidableEq, Repr

structure CacheConfig where
  enabled : Bool := true
  path : Bytes := ascii "~/.cache/euxis/scan-cache.sqlite"
  ttlDays : Int := 30
  deriving DecidableEq, Repr

structure CustomRule where
  id : Bytes
  pattern : Bytes
  message : Bytes
  severity : Severity
  languages : List Bytes
  cwe : Bytes
  deriving DecidableEq, Repr

structure RulesConfig where
  packs : List Bytes := [ascii "euxis/core", ascii "euxis/cwe-top-25", ascii "euxis/owasp-top-10",
    ascii "euxis/cnsa-2.0", ascii "euxis/slopsquatting"]
  custom : List CustomRule := []
  severityOverrides : List (Bytes × Severity) := []
  deriving DecidableEq, Repr

structure BaselineConfig where
  path : Bytes := ascii ".euxis-baseline.json"
  failOnNewOnly : Bool := true
  deriving DecidableEq, Repr

/-- `maxRuntime` counts seconds. -/
structure GatesConfig where
  advisoryThreshold : Severity := .medium
  blockingThreshold : Severity := .high
  maxRuntime : Int := 180
  deriving DecidableEq, Repr

structure EnsembleConfig where
  providers : List Bytes := [ascii "claude", ascii "openai"]
  quorum : Int := 2
  sendSourceCode : Bool := false
  deriving DecidableEq, Repr

structure TriageConfig where
  enabled : Bool := true
  ensemble : EnsembleConfig := {}
  deriving DecidableEq, Repr

structure EvidenceConfig where
  emit : Bool := true
  sarif : Bool := true
  cyclonedx : Bool := true
  spdx : Bool := true
  openvex : Bool := true
  signing : SigningMode := .keylessOidc
  rekorUpload : Bool := true
  frameworks : List Bytes := [ascii "owasp-top-10-2025"]
  deriving DecidableEq, Repr

structure VerifyCommand where
  name : Bytes
  command : List Bytes
  deriving DecidableEq, Repr

structure ProviderRouting where
  research : Option Bytes := none
  coding : Option Bytes := none
  security : Option Bytes := none
  deriving DecidableEq, Repr

/-- `verify` is the list of its commands. -/
structure RuntimeConfig where
  schemaVersion : Bytes := ascii "1"
  project : ProjectConfig := {}
  scan : ScanConfig := {}
  cache : CacheConfig := {}
  rules : RulesConfig := {}
  baseline : BaselineConfig := {}
  gates : GatesConfig := {}
  triage : TriageConfig := {}
  evidence : EvidenceConfig := {}
  providers : ProviderRouting := {}
  verify : List VerifyCommand := []
  sources : List Bytes := []
  deriving DecidableEq, Repr

structure ConfigError where
  message : Bytes
  file : Bytes
  line : Nat := 0
  deriving DecidableEq, Repr

def defaultConfig : RuntimeConfig := {}

/-! ## Reading one file -/

def parseScanMode (s : Bytes) : ScanMode :=
  let lower := Bytes.lower s
  if lower = ascii "triage" then .triage
  else if lower = ascii "review" then .review
  else if lower = ascii "forensic" then .forensic
  else .check

def scanModeStr : ScanMode → Bytes
  | .triage => ascii "triage"
  | .check => ascii "check"
  | .review => ascii "review"
  | .forensic => ascii "forensic"

/-- The guard of the section parsers. -/
def isSection (node : Option Yaml) : Bool := (node.map Yaml.isMap).getD false

open Yaml

def parseProject (node : Option Yaml) (cfg : ProjectConfig) : ProjectConfig :=
  if ¬ isSection node then cfg
  else
    { name := getOr asString node (ascii "name") cfg.name
      owner := getOr asString node (ascii "owner") cfg.owner
      languages := getVector node (ascii "languages") cfg.languages }

def parseScan (lib : YamlLib) (node : Option Yaml) (cfg : ScanConfig) : ScanConfig :=
  if ¬ isSection node then cfg
  else
    { mode := parseScanMode (getOr asString node (ascii "mode") (scanModeStr cfg.mode))
      target := getOr asString node (ascii "target") cfg.target
      includes := getVector node (ascii "include") cfg.includes
      excludes := getVector node (ascii "exclude") cfg.excludes
      maxFileSizeKb := getOr (asInt lib) node (ascii "max_file_size_kb") cfg.maxFileSizeKb
      followSymlinks := getOr (asBool lib) node (ascii "follow_symlinks") cfg.followSymlinks
      respectGitignore := getOr (asBool lib) node (ascii "respect_gitignore") cfg.respectGitignore }

def parseCache (lib : YamlLib) (node : Option Yaml) (cfg : CacheConfig) : CacheConfig :=
  if ¬ isSection node then cfg
  else
    { enabled := getOr (asBool lib) node (ascii "enabled") cfg.enabled
      path := getOr asString node (ascii "path") cfg.path
      ttlDays := getOr (asInt lib) node (ascii "ttl_days") cfg.ttlDays }

def parseCustomRule (cr : Yaml) : Option CustomRule :=
  if ¬ cr.isMap then none
  else
    let node := some cr
    let r : CustomRule :=
      { id := getOr asString node (ascii "id") []
        pattern := getOr asString node (ascii "pattern") []
        message := getOr asString node (ascii "message") []
        severity := getSeverity node (ascii "severity") .medium
        languages := getVector node (ascii "languages") []
        cwe := getOr asString node (ascii "cwe") [] }
    if r.id ≠ [] ∧ r.pattern ≠ [] then some r else none

/-- `m[key] = value` of an unordered map, as the list of its entries. -/
def setOverride (overrides : List (Bytes × Severity)) (key : Bytes) (value : Severity) :
    List (Bytes × Severity) :=
  match overrides with
  | [] => [(key, value)]
  | (k, v) :: rest => if k = key then (key, value) :: rest else (k, v) :: setOverride rest key value

def addOverride (overrides : List (Bytes × Severity)) : Yaml × Yaml → List (Bytes × Severity)
  | (.scalar key, .scalar text) => setOverride overrides key (parseSeverity text)
  | _ => overrides

def foundCustom (node : Option Yaml) : Option (List CustomRule) :=
  match get node (ascii "custom") with
  | some (.seq items) => some (items.filterMap parseCustomRule)
  | _ => none

def foundOverrides (node : Option Yaml) : Option (List (Bytes × Severity)) :=
  match get node (ascii "severity_overrides") with
  | some (.map members) => some (members.foldl addOverride [])
  | _ => none

def parseRules (node : Option Yaml) (cfg : RulesConfig) : RulesConfig :=
  if ¬ isSection node then cfg
  else
    { packs := getVector node (ascii "packs") cfg.packs
      custom := (foundCustom node).getD cfg.custom
      severityOverrides := (foundOverrides node).getD cfg.severityOverrides }

def parseBaseline (lib : YamlLib) (node : Option Yaml) (cfg : BaselineConfig) : BaselineConfig :=
  if ¬ isSection node then cfg
  else
    { path := getOr asString node (ascii "path") cfg.path
      failOnNewOnly := getOr (asBool lib) node (ascii "fail_on_new_only") cfg.failOnNewOnly }

def parseGates (lib : YamlLib) (node : Option Yaml) (cfg : GatesConfig) : GatesConfig :=
  if ¬ isSection node then cfg
  else
    let secs := getOr (asInt lib) node (ascii "max_runtime_seconds") cfg.maxRuntime
    { advisoryThreshold := getSeverity node (ascii "advisory_threshold") cfg.advisoryThreshold
      blockingThreshold := getSeverity node (ascii "blocking_threshold") cfg.blockingThreshold
      maxRuntime := if secs > 0 then secs else cfg.maxRuntime }

def parseTriage (lib : YamlLib) (node : Option Yaml) (cfg : TriageConfig) : TriageConfig :=
  if ¬ isSection node then cfg
  else
    { enabled := getOr (asBool lib) node (ascii "enabled") cfg.enabled
      ensemble :=
        let en := get node (ascii "ensemble")
        if ¬ isSection en then cfg.ensemble
        else
          { providers := getVector en (ascii "providers") cfg.ensemble.providers
            quorum := getOr (asInt lib) en (ascii "quorum") cfg.ensemble.quorum
            sendSourceCode := getOr (asBool lib) en (ascii "send_source_code")
              cfg.ensemble.sendSourceCode } }

def parseSigning (s : Bytes) : SigningMode :=
  if s = ascii "off" then .off else if s = ascii "key-backed" then .keyBacked else .keylessOidc

def parseEvidence (lib : YamlLib) (node : Option Yaml) (cfg : EvidenceConfig) : EvidenceConfig :=
  if ¬ isSection node then cfg
  else
    { emit := getOr (asBool lib) node (ascii "emit") cfg.emit
      sarif := getOr (asBool lib) node (ascii "sarif") cfg.sarif
      cyclonedx := getOr (asBool lib) node (ascii "cyclonedx") cfg.cyclonedx
      spdx := getOr (asBool lib) node (ascii "spdx") cfg.spdx
      openvex := getOr (asBool lib) node (ascii "openvex") cfg.openvex
      rekorUpload := getOr (asBool lib) node (ascii "rekor_upload") cfg.rekorUpload
      signing := parseSigning (getOr asString node (ascii "signing") (ascii "keyless-oidc"))
      frameworks := getVector node (ascii "frameworks") cfg.frameworks }

def parseVerifyCommand (item : Yaml) : Option VerifyCommand :=
  if ¬ item.isMap then none
  else
    let vc : VerifyCommand :=
      { name := getOr asString (some item) (ascii "name") []
        command := getVector (some item) (ascii "command") [] }
    if vc.name ≠ [] ∧ vc.command ≠ [] then some vc else none

def parseVerify (node : Option Yaml) (cfg : List VerifyCommand) : List VerifyCommand :=
  match node with
  | some (.seq items) => cfg ++ items.filterMap parseVerifyCommand
  | _ => cfg

def foundScalar (node : Option Yaml) (key : Bytes) : Option Bytes :=
  match get node key with
  | some (.scalar text) => some text
  | _ => none

def parseProviders (node : Option Yaml) (cfg : ProviderRouting) : ProviderRouting :=
  if ¬ isSection node then cfg
  else
    { research := (foundScalar node (ascii "research")).or cfg.research
      coding := (foundScalar node (ascii "coding")).or cfg.coding
      security := (foundScalar node (ascii "security")).or cfg.security }

/-- `std::getenv`. -/
abbrev Env := Bytes → Option Bytes

def expandHome (env : Env) (path : Bytes) : Bytes :=
  match path with
  | b :: rest => if b = ch '~' then ((env (ascii "HOME")).map (· ++ rest)).getD path else path
  | [] => path

/-- The sections of a document, over the defaults. -/
def parseRoot (lib : YamlLib) (env : Env) (root : Yaml) (version path : Bytes) : RuntimeConfig :=
  let node := some root
  let cfg := defaultConfig
  let cache := parseCache lib (get node (ascii "cache")) cfg.cache
  { schemaVersion := version
    project := parseProject (get node (ascii "project")) cfg.project
    scan := parseScan lib (get node (ascii "scan")) cfg.scan
    cache := { cache with path := expandHome env cache.path }
    rules := parseRules (get node (ascii "rules")) cfg.rules
    baseline := parseBaseline lib (get node (ascii "baseline")) cfg.baseline
    gates := parseGates lib (get node (ascii "gates")) cfg.gates
    triage := parseTriage lib (get node (ascii "triage")) cfg.triage
    evidence := parseEvidence lib (get node (ascii "evidence")) cfg.evidence
    providers := parseProviders (get node (ascii "providers")) cfg.providers
    verify := parseVerify (get node (ascii "verify")) cfg.verify
    sources := [path] }

/-- `load_yaml_file` of a file that exists. -/
def loadYamlFile (lib : YamlLib) (env : Env) (path content : Bytes) :
    Except ConfigError RuntimeConfig :=
  match lib.load content with
  | .error (what, line) =>
    .error { message := ascii "YAML parse error: " ++ what, file := path, line := line + 1 }
  | .ok root =>
    if ¬ root.isMap then
      .error { message := ascii "Top-level YAML node is not a map", file := path }
    else
      let version := getOr asString (some root) (ascii "version") (ascii "1")
      if version ≠ ascii "1" then
        .error { message := ascii "Unsupported schema version: " ++ version, file := path }
      else .ok (parseRoot lib env root version path)

/-! ## Layers -/

def applyEnvOverrides (env : Env) (config : RuntimeConfig) : RuntimeConfig :=
  { config with
    providers :=
      { research := (env (ascii "EUXIS_DEFAULT_RESEARCH_PROVIDER")).or config.providers.research
        coding := (env (ascii "EUXIS_DEFAULT_CODING_PROVIDER")).or config.providers.coding
        security := (env (ascii "EUXIS_DEFAULT_SECURITY_PROVIDER")).or config.providers.security }
    scan := { config.scan with
      mode := ((env (ascii "EUXIS_SCAN_MODE")).map parseScanMode).getD config.scan.mode }
    cache := { config.cache with
      enabled := ((env (ascii "EUXIS_CACHE_ENABLED")).map fun v =>
        decide (v = ascii "1" ∨ v = ascii "true" ∨ v = ascii "TRUE")).getD config.cache.enabled }
    gates := { config.gates with
      blockingThreshold :=
        ((env (ascii "EUXIS_GATES_BLOCKING")).bind knownSeverity).getD
          config.gates.blockingThreshold } }

/-- A field that is taken over when it differs from the default. -/
def changed {α : Type} [DecidableEq α] (base overlay zero : α) : α :=
  if overlay ≠ zero then overlay else base

def mergeInto (base overlay : RuntimeConfig) : RuntimeConfig :=
  let zero : RuntimeConfig := {}
  { schemaVersion := base.schemaVersion
    project :=
      { name := changed base.project.name overlay.project.name zero.project.name
        owner := changed base.project.owner overlay.project.owner zero.project.owner
        languages := if overlay.project.languages ≠ [] then overlay.project.languages
          else base.project.languages }
    scan :=
      { mode := changed base.scan.mode overlay.scan.mode zero.scan.mode
        target := changed base.scan.target overlay.scan.target zero.scan.target
        includes := if overlay.scan.includes ≠ [] then overlay.scan.includes else base.scan.includes
        excludes := changed base.scan.excludes overlay.scan.excludes zero.scan.excludes
        maxFileSizeKb := overlay.scan.maxFileSizeKb
        followSymlinks := overlay.scan.followSymlinks
        respectGitignore := overlay.scan.respectGitignore }
    cache := overlay.cache
    rules :=
      { packs := changed base.rules.packs overlay.rules.packs zero.rules.packs
        custom := if overlay.rules.custom ≠ [] then overlay.rules.custom else base.rules.custom
        severityOverrides :=
          if overlay.rules.severityOverrides ≠ [] then overlay.rules.severityOverrides
          else base.rules.severityOverrides }
    baseline := overlay.baseline
    gates := overlay.gates
    triage := overlay.triage
    evidence := overlay.evidence
    providers :=
      { research := overlay.providers.research.or base.providers.research
        coding := overlay.providers.coding.or base.providers.coding
        security := overlay.providers.security.or base.providers.security }
    verify := if overlay.verify ≠ [] then overlay.verify else base.verify
    sources := base.sources ++ overlay.sources }

/-- The files that exist, by path. -/
abbrev Files := Bytes → Option Bytes

def userFile (env : Env) (userHome : Bytes) : Option Bytes :=
  let home := if userHome = [] then (env (ascii "HOME")).getD [] else userHome
  if home = [] then none
  else some (appendPath (appendPath home (ascii ".euxis")) (ascii "config.yaml"))

def projectFiles (projectRoot : Bytes) : List Bytes :=
  if projectRoot = [] then []
  else [appendPath projectRoot (ascii ".euxis.yaml"), appendPath projectRoot (ascii ".euxis.yml")]

/-- The first of the paths that exists, with its content. -/
def firstFile (files : Files) (paths : List Bytes) : Option (Bytes × Bytes) :=
  paths.findSome? fun path => (files path).map (path, ·)

def mergeFile (lib : YamlLib) (env : Env) (config : RuntimeConfig) (file : Option (Bytes × Bytes)) :
    Except ConfigError RuntimeConfig :=
  match file with
  | none => .ok config
  | some (path, content) => (loadYamlFile lib env path content).map (mergeInto config)

def resolveConfig (lib : YamlLib) (env : Env) (files : Files) (projectRoot userHome : Bytes) :
    Except ConfigError RuntimeConfig := do
  let effective ← mergeFile lib env defaultConfig (firstFile files (userFile env userHome).toList)
  let effective ← mergeFile lib env effective (firstFile files (projectFiles projectRoot))
  .ok (applyEnvOverrides env effective)

end Euxis.Config
