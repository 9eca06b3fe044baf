import Euxis.Config.Code

/-!
# The fields of the configuration, and what each layer says of them

The specification: a field has the value of the environment, of the project file, of the user file
or the default, in this order. `sources` is not a field: it lists the files that were read.
-/

namespace Euxis.Config

open Security Yaml

/-! ## Fields -/

inductive Field where
  | schemaVersion
  | projectName
  | projectOwner
  | projectLanguages
  | scanMode
  | scanTarget
  | scanInclude
  | scanExclude
  | scanMaxFileSizeKb
  | scanFollowSymlinks
  | scanRespectGitignore
  | cacheEnabled
  | cachePath
  | cacheTtlDays
  | rulesPacks
  | rulesCustom
  | rulesSeverityOverrides
  | baselinePath
  | baselineFailOnNewOnly
  | gatesAdvisoryThreshold
  | gatesBlockingThreshold
  | gatesMaxRuntime
  | triageEnabled
  | ensembleProviders
  | ensembleQuorum
  | ensembleSendSourceCode
  | evidenceEmit
  | evidenceSarif
  | evidenceCyclonedx
  | evidenceSpdx
  | evidenceOpenvex
  | evidenceSigning
  | evidenceRekorUpload
  | evidenceFrameworks
  | providersResearch
  | providersCoding
  | providersSecurity
  | verify
  deriving DecidableEq, Repr

@[reducible] def Field.Value : Field → Type
  | .schemaVersion | .projectName | .projectOwner | .scanTarget | .cachePath | .baselinePath =>
    Bytes
  | .projectLanguages | .scanInclude | .scanExclude | .rulesPacks | .ensembleProviders | .evidenceFrameworks => List Bytes
  | .scanMode => ScanMode
  | .scanMaxFileSizeKb | .cacheTtlDays | .gatesMaxRuntime | .ensembleQuorum => Int
  | .scanFollowSymlinks | .scanRespectGitignore | .cacheEnabled | .baselineFailOnNewOnly | .triageEnabled
  | .ensembleSendSourceCode | .evidenceEmit | .evidenceSarif | .evidenceCyclonedx | .evidenceSpdx
  | .evidenceOpenvex | .evidenceRekorUpload => Bool
  | .rulesCustom => List CustomRule
  | .rulesSeverityOverrides => List (Bytes × Severity)
  | .gatesAdvisoryThreshold | .gatesBlockingThreshold => Severity
  | .evidenceSigning => SigningMode
  | .providersResearch | .providersCoding | .providersSecurity => Option Bytes
  | .verify => List VerifyCommand

def RuntimeConfig.get (cfg : RuntimeConfig) : (f : Field) → f.Value
  | .schemaVersion => cfg.schemaVersion
  | .projectName => cfg.project.name
  | .projectOwner => cfg.project.owner
  | .projectLanguages => cfg.project.languages
  | .scanMode => cfg.scan.mode
  | .scanTarget => cfg.scan.target
  | .scanInclude => cfg.scan.includes
  | .scanExclude => cfg.scan.excludes
  | .scanMaxFileSizeKb => cfg.scan.maxFileSizeKb
  | .scanFollowSymlinks => cfg.scan.followSymlinks
  | .scanRespectGitignore => cfg.scan.respectGitignore
  | .cacheEnabled => cfg.cache.enabled
  | .cachePath => cfg.cache.path
  | .cacheTtlDays => cfg.cache.ttlDays
  | .rulesPacks => cfg.rules.packs
  | .rulesCustom => cfg.rules.custom
  | .rulesSeverityOverrides => cfg.rules.severityOverrides
  | .baselinePath => cfg.baseline.path
  | .baselineFailOnNewOnly => cfg.baseline.failOnNewOnly
  | .gatesAdvisoryThreshold => cfg.gates.advisoryThreshold
  | .gatesBlockingThreshold => cfg.gates.blockingThreshold
  | .gatesMaxRuntime => cfg.gates.maxRuntime
  | .triageEnabled => cfg.triage.enabled
  | .ensembleProviders => cfg.triage.ensemble.providers
  | .ensembleQuorum => cfg.triage.ensemble.quorum
  | .ensembleSendSourceCode => cfg.triage.ensemble.sendSourceCode
  | .evidenceEmit => cfg.evidence.emit
  | .evidenceSarif => cfg.evidence.sarif
  | .evidenceCyclonedx => cfg.evidence.cyclonedx
  | .evidenceSpdx => cfg.evidence.spdx
  | .evidenceOpenvex => cfg.evidence.openvex
  | .evidenceSigning => cfg.evidence.signing
  | .evidenceRekorUpload => cfg.evidence.rekorUpload
  | .evidenceFrameworks => cfg.evidence.frameworks
  | .providersResearch => cfg.providers.research
  | .providersCoding => cfg.providers.coding
  | .providersSecurity => cfg.providers.security
  | .verify => cfg.verify

/-! ## What a file sets -/

def foundVerify (node : Option Yaml) : Option (List VerifyCommand) :=
  match node with
  | some (.seq items) => some (items.filterMap parseVerifyCommand)
  | _ => none

/-- The value that a document gives to a field, if it has a usable one. -/
def sets (lib : YamlLib) (env : Env) (root : Yaml) : (f : Field) → Option f.Value
  | .schemaVersion => found asString (some root) (ascii "version")
  | .projectName => found asString (part root "project") (ascii "name")
  | .projectOwner => found asString (part root "project") (ascii "owner")
  | .projectLanguages => foundVector (part root "project") (ascii "languages")
  | .scanMode => (found asString (part root "scan") (ascii "mode")).map parseScanMode
  | .scanTarget => found asString (part root "scan") (ascii "target")
  | .scanInclude => foundVector (part root "scan") (ascii "include")
  | .scanExclude => foundVector (part root "scan") (ascii "exclude")
  | .scanMaxFileSizeKb => found (asInt lib) (part root "scan") (ascii "max_file_size_kb")
  | .scanFollowSymlinks => found (asBool lib) (part root "scan") (ascii "follow_symlinks")
  | .scanRespectGitignore => found (asBool lib) (part root "scan") (ascii "respect_gitignore")
  | .cacheEnabled => found (asBool lib) (part root "cache") (ascii "enabled")
  | .cachePath => (found asString (part root "cache") (ascii "path")).map (expandHome env)
  | .cacheTtlDays => found (asInt lib) (part root "cache") (ascii "ttl_days")
  | .rulesPacks => foundVector (part root "rules") (ascii "packs")
  | .rulesCustom => foundCustom (part root "rules")
  | .rulesSeverityOverrides => foundOverrides (part root "rules")
  | .baselinePath => found asString (part root "baseline") (ascii "path")
  | .baselineFailOnNewOnly => found (asBool lib) (part root "baseline") (ascii "fail_on_new_only")
  | .gatesAdvisoryThreshold => foundSeverity (part root "gates") (ascii "advisory_threshold")
  | .gatesBlockingThreshold => foundSeverity (part root "gates") (ascii "blocking_threshold")
  | .gatesMaxRuntime =>
    (found (asInt lib) (part root "gates") (ascii "max_runtime_seconds")).filter (0 < ·)
  | .triageEnabled => found (asBool lib) (part root "triage") (ascii "enabled")
  | .ensembleProviders =>
    foundVector (Yaml.get (part root "triage") (ascii "ensemble")) (ascii "providers")
  | .ensembleQuorum =>
    found (asInt lib) (Yaml.get (part root "triage") (ascii "ensemble")) (ascii "quorum")
  | .ensembleSendSourceCode =>
    found (asBool lib) (Yaml.get (part root "triage") (ascii "ensemble")) (ascii "send_source_code")
  | .evidenceEmit => found (asBool lib) (part root "evidence") (ascii "emit")
  | .evidenceSarif => found (asBool lib) (part root "evidence") (ascii "sarif")
  | .evidenceCyclonedx => found (asBool lib) (part root "evidence") (ascii "cyclonedx")
  | .evidenceSpdx => found (asBool lib) (part root "evidence") (ascii "spdx")
  | .evidenceOpenvex => found (asBool lib) (part root "evidence") (ascii "openvex")
  | .evidenceSigning => (found asString (part root "evidence") (ascii "signing")).map parseSigning
  | .evidenceRekorUpload => found (asBool lib) (part root "evidence") (ascii "rekor_upload")
  | .evidenceFrameworks => foundVector (part root "evidence") (ascii "frameworks")
  | .providersResearch => (foundScalar (part root "providers") (ascii "research")).map some
  | .providersCoding => (foundScalar (part root "providers") (ascii "coding")).map some
  | .providersSecurity => (foundScalar (part root "providers") (ascii "security")).map some
  | .verify => foundVerify (part root "verify")
where
  /-- A section of the document. -/
  part (root : Yaml) (name : String) : Option Yaml := Yaml.get (some root) (ascii name)

/-- The value that the environment gives to a field. -/
def envValue (env : Env) : (f : Field) → Option f.Value
  | .providersResearch => (env (ascii "EUXIS_DEFAULT_RESEARCH_PROVIDER")).map some
  | .providersCoding => (env (ascii "EUXIS_DEFAULT_CODING_PROVIDER")).map some
  | .providersSecurity => (env (ascii "EUXIS_DEFAULT_SECURITY_PROVIDER")).map some
  | .scanMode => (env (ascii "EUXIS_SCAN_MODE")).map parseScanMode
  | .cacheEnabled => (env (ascii "EUXIS_CACHE_ENABLED")).map fun v =>
    decide (v = ascii "1" ∨ v = ascii "true" ∨ v = ascii "TRUE")
  | .gatesBlockingThreshold => (env (ascii "EUXIS_GATES_BLOCKING")).bind knownSeverity
  | _ => none

/-! ## Layering -/

section

variable (lib : YamlLib) (env : Env) (user project : Option Yaml) (f : Field)

/-- The user file's value, or the default. -/
def below : f.Value := (user.bind (sets lib env · f)).getD (defaultConfig.get f)

def layered : f.Value :=
  (envValue env f).getD ((project.bind (sets lib env · f)).getD (below lib env user f))

end

/-! ## Merging -/

/-- What `merge_into` does with a field. -/
inductive Rule where
  /-- The overlay is not read. -/
  | kept
  /-- The overlay is taken when it differs from the default. -/
  | compared
  /-- The overlay is always taken. -/
  | copied
  deriving DecidableEq, Repr

def Field.rule : Field → Rule
  | .schemaVersion => .kept
  | .projectName | .projectOwner | .projectLanguages | .scanMode | .scanTarget | .scanInclude | .scanExclude
  | .rulesPacks | .rulesCustom | .rulesSeverityOverrides | .providersResearch | .providersCoding
  | .providersSecurity | .verify => .compared
  | _ => .copied

/-- What a file that sets nothing is read as: the path of the cache has its `~` expanded. -/
def blank (env : Env) : RuntimeConfig :=
  { defaultConfig with
    cache := { defaultConfig.cache with path := expandHome env defaultConfig.cache.path } }

/-- The last file there is sets the field, or would read as the value below it. -/
def CarriedCopy (lib : YamlLib) (env : Env) (user project : Option Yaml) (f : Field) : Prop :=
  match project with
  | some p => (sets lib env p f).isSome ∨ below lib env user f = (blank env).get f
  | none => ∀ u ∈ user, (sets lib env u f).isSome ∨ defaultConfig.get f = (blank env).get f

/-- When merging gives a field the value of its layers. -/
def Carried (lib : YamlLib) (env : Env) (user project : Option Yaml) (f : Field) : Prop :=
  (envValue env f).isSome ∨
    match f.rule with
    | .kept => True
    | .compared => ∀ p ∈ project, sets lib env p f = some (defaultConfig.get f) →
        below lib env user f = defaultConfig.get f
    | .copied => CarriedCopy lib env user project f

end Euxis.Config
