import Euxis.Config.Fields

/-!
# When layering is field-wise

What a loaded file holds in each field, what merging takes over, and what the effective
configuration has.
-/

namespace Euxis.Config

open Security Yaml

/-! ## Reading a section -/

theorem get_of_not_section (node : Option Yaml) (key : Bytes) (h : isSection node = false) :
    Yaml.get node key = none := by
  cases node with
  | none => rfl
  | some y =>
    cases y with
    | map members => exact absurd h (by simp [isSection, isMap])
    | _ => rfl

theorem found_of_not_section {α : Type} (as : Yaml → Option α) (node : Option Yaml) (key : Bytes)
    (h : isSection node = false) : found as node key = none := by
  unfold found
  rw [get_of_not_section node key h]

theorem foundVector_of_not_section (node : Option Yaml) (key : Bytes) (h : isSection node = false) :
    foundVector node key = none := by
  unfold foundVector
  rw [get_of_not_section node key h]

theorem foundSeverity_of_not_section (node : Option Yaml) (key : Bytes)
    (h : isSection node = false) : foundSeverity node key = none := by
  unfold foundSeverity
  rw [get_of_not_section node key h]

theorem foundScalar_of_not_section (node : Option Yaml) (key : Bytes) (h : isSection node = false) :
    foundScalar node key = none := by
  unfold foundScalar
  rw [get_of_not_section node key h]

theorem parseScanMode_str (m : ScanMode) : parseScanMode (scanModeStr m) = m := by
  cases m <;> decide

theorem parseSigning_default : parseSigning (ascii "keyless-oidc") = .keylessOidc := by decide

section

variable (lib : YamlLib) (node : Option Yaml)

theorem parseProject_eq (cfg : ProjectConfig) :
    parseProject node cfg =
      { name := (found asString node (ascii "name")).getD cfg.name
        owner := (found asString node (ascii "owner")).getD cfg.owner
        languages := (foundVector node (ascii "languages")).getD cfg.languages } := by
  unfold parseProject
  cases h : isSection node with
  | true => simp [getOr, getVector]
  | false => simp [found_of_not_section, foundVector_of_not_section, h]

theorem parseScan_eq (cfg : ScanConfig) :
    parseScan lib node cfg =
      { mode := ((found asString node (ascii "mode")).map parseScanMode).getD cfg.mode
        target := (found asString node (ascii "target")).getD cfg.target
        includes := (foundVector node (ascii "include")).getD cfg.includes
        excludes := (foundVector node (ascii "exclude")).getD cfg.excludes
        maxFileSizeKb := (found (asInt lib) node (ascii "max_file_size_kb")).getD cfg.maxFileSizeKb
        followSymlinks := (found (asBool lib) node (ascii "follow_symlinks")).getD
          cfg.followSymlinks
        respectGitignore :=
          (found (asBool lib) node (ascii "respect_gitignore")).getD cfg.respectGitignore } := by
  have hmode : parseScanMode ((found asString node (ascii "mode")).getD (scanModeStr cfg.mode)) =
      ((found asString node (ascii "mode")).map parseScanMode).getD cfg.mode := by
    cases found asString node (ascii "mode") with
    | none => exact parseScanMode_str cfg.mode
    | some text => rfl
  unfold parseScan
  cases h : isSection node with
  | true => simp [getOr, getVector, hmode]
  | false => simp [found_of_not_section, foundVector_of_not_section, h]

theorem parseCache_eq (cfg : CacheConfig) :
    parseCache lib node cfg =
      { enabled := (found (asBool lib) node (ascii "enabled")).getD cfg.enabled
        path := (found asString node (ascii "path")).getD cfg.path
        ttlDays := (found (asInt lib) node (ascii "ttl_days")).getD cfg.ttlDays } := by
  unfold parseCache
  cases h : isSection node with
  | true => simp [getOr]
  | false => simp [found_of_not_section, h]

theorem parseRules_eq (cfg : RulesConfig) :
    parseRules node cfg =
      { packs := (foundVector node (ascii "packs")).getD cfg.packs
        custom := (foundCustom node).getD cfg.custom
        severityOverrides := (foundOverrides node).getD cfg.severityOverrides } := by
  unfold parseRules
  cases h : isSection node with
  | true => simp [getVector]
  | false =>
    simp [foundVector_of_not_section, foundCustom, foundOverrides, get_of_not_section, h]

theorem parseBaseline_eq (cfg : BaselineConfig) :
    parseBaseline lib node cfg =
      { path := (found asString node (ascii "path")).getD cfg.path
        failOnNewOnly := (found (asBool lib) node (ascii "fail_on_new_only")).getD
          cfg.failOnNewOnly } := by
  unfold parseBaseline
  cases h : isSection node with
  | true => simp [getOr]
  | false => simp [found_of_not_section, h]

theorem parseGates_eq (cfg : GatesConfig) (hpos : 0 < cfg.maxRuntime) :
    parseGates lib node cfg =
      { advisoryThreshold := (foundSeverity node (ascii "advisory_threshold")).getD cfg.advisoryThreshold
        blockingThreshold :=
          (foundSeverity node (ascii "blocking_threshold")).getD cfg.blockingThreshold
        maxRuntime :=
          ((found (asInt lib) node (ascii "max_runtime_seconds")).filter (0 < ·)).getD
            cfg.maxRuntime } := by
  have hsecs : (if (found (asInt lib) node (ascii "max_runtime_seconds")).getD cfg.maxRuntime > 0
      then (found (asInt lib) node (ascii "max_runtime_seconds")).getD cfg.maxRuntime
        else cfg.maxRuntime) =
      ((found (asInt lib) node (ascii "max_runtime_seconds")).filter (0 < ·)).getD
        cfg.maxRuntime := by
    cases found (asInt lib) node (ascii "max_runtime_seconds") with
    | none => simp [hpos]
    | some n => by_cases hn : 0 < n <;> simp [hn, Option.filter]
  unfold parseGates
  cases h : isSection node with
  | true => simp [getOr, getSeverity, hsecs]
  | false => simp [found_of_not_section, foundSeverity_of_not_section, h]

theorem parseTriage_eq (cfg : TriageConfig) :
    parseTriage lib node cfg =
      { enabled := (found (asBool lib) node (ascii "enabled")).getD cfg.enabled
        ensemble :=
          let en := Yaml.get node (ascii "ensemble")
          { providers := (foundVector en (ascii "providers")).getD cfg.ensemble.providers
            quorum := (found (asInt lib) en (ascii "quorum")).getD cfg.ensemble.quorum
            sendSourceCode := (found (asBool lib) en (ascii "send_source_code")).getD
              cfg.ensemble.sendSourceCode } } := by
  unfold parseTriage
  cases h : isSection node with
  | true =>
    cases hen : isSection (Yaml.get node (ascii "ensemble")) with
    | true => simp [getOr, getVector, hen]
    | false => simp [getOr, found_of_not_section, foundVector_of_not_section, hen]
  | false =>
    have hen : isSection (Yaml.get node (ascii "ensemble")) = false := by
      rw [get_of_not_section node _ h]
      rfl
    simp [found_of_not_section, foundVector_of_not_section, h, hen]

theorem parseEvidence_eq (cfg : EvidenceConfig) (hsigning : cfg.signing = .keylessOidc) :
    parseEvidence lib node cfg =
      { emit := (found (asBool lib) node (ascii "emit")).getD cfg.emit
        sarif := (found (asBool lib) node (ascii "sarif")).getD cfg.sarif
        cyclonedx := (found (asBool lib) node (ascii "cyclonedx")).getD cfg.cyclonedx
        spdx := (found (asBool lib) node (ascii "spdx")).getD cfg.spdx
        openvex := (found (asBool lib) node (ascii "openvex")).getD cfg.openvex
        rekorUpload := (found (asBool lib) node (ascii "rekor_upload")).getD cfg.rekorUpload
        signing := ((found asString node (ascii "signing")).map parseSigning).getD cfg.signing
        frameworks := (foundVector node (ascii "frameworks")).getD cfg.frameworks } := by
  have hsign : parseSigning ((found asString node (ascii "signing")).getD (ascii "keyless-oidc")) =
      ((found asString node (ascii "signing")).map parseSigning).getD cfg.signing := by
    cases found asString node (ascii "signing") with
    | none => exact parseSigning_default.trans hsigning.symm
    | some text => rfl
  unfold parseEvidence
  cases h : isSection node with
  | true => simp [getOr, getVector, hsign]
  | false => simp [found_of_not_section, foundVector_of_not_section, h]

theorem parseVerify_eq : parseVerify node [] = (foundVerify node).getD [] := by
  unfold parseVerify foundVerify
  split <;> simp

theorem parseProviders_eq (cfg : ProviderRouting) :
    parseProviders node cfg =
      { research := ((foundScalar node (ascii "research")).map some).getD cfg.research
        coding := ((foundScalar node (ascii "coding")).map some).getD cfg.coding
        security := ((foundScalar node (ascii "security")).map some).getD cfg.security } := by
  have hor : ∀ a b : Option Bytes, a.or b = (a.map some).getD b := by
    intro a b
    cases a <;> rfl
  unfold parseProviders
  cases h : isSection node with
  | true => simp [hor]
  | false => simp [foundScalar_of_not_section, h]

end

/-! ## A loaded file -/

section

variable (lib : YamlLib) (env : Env)

theorem get_parseRoot (root : Yaml) (path : Bytes) (f : Field) :
    (parseRoot lib env root (getOr asString (some root) (ascii "version") (ascii "1")) path).get f =
      (sets lib env root f).getD ((blank env).get f) := by
  unfold parseRoot
  dsimp only
  rw [parseCache_eq, parseProject_eq, parseScan_eq, parseRules_eq, parseBaseline_eq,
    parseGates_eq _ _ _ (by decide), parseTriage_eq, parseEvidence_eq _ _ _ rfl, parseProviders_eq]
  cases f with
  | verify => exact parseVerify_eq _
  | cachePath =>
    simp only [RuntimeConfig.get, sets, sets.part, blank]
    cases found asString (Yaml.get (some root) (ascii "cache")) (ascii "path") <;> rfl
  | _ => rfl

theorem loadYamlFile_ok (path content : Bytes) (cfg : RuntimeConfig)
    (h : loadYamlFile lib env path content = .ok cfg) :
    ∃ root, lib.load content = .ok root ∧
      getOr asString (some root) (ascii "version") (ascii "1") = ascii "1" ∧
      ∀ f, cfg.get f = (sets lib env root f).getD ((blank env).get f) := by
  unfold loadYamlFile at h
  split at h
  · cases h
  · rename_i root hload
    split at h
    · cases h
    · dsimp only at h
      split at h
      · cases h
      · rename_i hversion
        cases h
        exact ⟨root, hload, not_not.mp hversion, get_parseRoot lib env root path⟩

end

/-! ## Merging -/

theorem get_blank (env : Env) (f : Field) (h : f.rule ≠ .copied) :
    (blank env).get f = defaultConfig.get f := by
  cases f <;> first | rfl | exact absurd rfl h

theorem get_mergeInto_kept (base overlay : RuntimeConfig) (f : Field) (h : f.rule = .kept) :
    (mergeInto base overlay).get f = base.get f := by
  cases f <;> first | rfl | cases h

theorem get_mergeInto_copied (base overlay : RuntimeConfig) (f : Field) (h : f.rule = .copied) :
    (mergeInto base overlay).get f = overlay.get f := by
  cases f <;> first | rfl | cases h

theorem get_mergeInto_default (base overlay : RuntimeConfig) (f : Field) (h : f.rule = .compared)
    (heq : overlay.get f = defaultConfig.get f) : (mergeInto base overlay).get f = base.get f := by
  cases f <;> cases h
  all_goals
    simp only [RuntimeConfig.get, defaultConfig] at heq
    simp [RuntimeConfig.get, mergeInto, changed, heq]

theorem get_mergeInto_changed (base overlay : RuntimeConfig) (f : Field) (h : f.rule = .compared)
    (hne : overlay.get f ≠ defaultConfig.get f) :
    (mergeInto base overlay).get f = overlay.get f := by
  cases f <;> cases h
  case providersResearch | providersCoding | providersSecurity =>
    obtain ⟨v, hv⟩ := Option.ne_none_iff_exists'.mp hne
    simp only [RuntimeConfig.get] at hv
    simp [RuntimeConfig.get, mergeInto, hv]
  all_goals
    simp only [RuntimeConfig.get, defaultConfig, ne_eq] at hne
    simp [RuntimeConfig.get, mergeInto, changed, hne]

theorem get_applyEnv (env : Env) (cfg : RuntimeConfig) (f : Field) :
    (applyEnvOverrides env cfg).get f = (envValue env f).getD (cfg.get f) := by
  have hor : ∀ a b : Option Bytes, a.or b = (a.map some).getD b := by
    intro a b
    cases a <;> rfl
  cases f <;> first | rfl | exact hor _ _

/-! ## The effective configuration -/

/-- The document in a file. -/
def document (lib : YamlLib) (file : Option (Bytes × Bytes)) : Option Yaml :=
  file.bind fun f => (lib.load f.2).toOption

section

variable {lib : YamlLib} {env : Env}

/-- A file was merged, if there was one. -/
inductive Merged (lib : YamlLib) (env : Env) (base : RuntimeConfig) :
    Option Yaml → RuntimeConfig → Prop where
  | absent : Merged lib env base none base
  | present (root : Yaml) (loaded : RuntimeConfig)
      (version : getOr asString (some root) (ascii "version") (ascii "1") = ascii "1")
      (get_loaded : ∀ f, loaded.get f = (sets lib env root f).getD ((blank env).get f)) :
      Merged lib env base (some root) (mergeInto base loaded)

theorem mergeFile_ok (base cfg : RuntimeConfig) (file : Option (Bytes × Bytes))
    (h : mergeFile lib env base file = .ok cfg) : Merged lib env base (document lib file) cfg := by
  cases file with
  | none =>
    cases h
    exact .absent
  | some file =>
    obtain ⟨path, content⟩ := file
    unfold mergeFile at h
    dsimp only at h
    cases hl : loadYamlFile lib env path content with
    | error e =>
      rw [hl] at h
      cases h
    | ok loaded =>
      rw [hl] at h
      cases h
      obtain ⟨root, hload, hversion, hget⟩ := loadYamlFile_ok lib env path content loaded hl
      have hdoc : document lib (some (path, content)) = some root := by
        unfold document
        rw [Option.bind_some, hload]
        rfl
      rw [hdoc]
      exact .present root loaded hversion hget

variable {doc user project : Option Yaml} {base first second : RuntimeConfig}

theorem merged_version (h : Merged lib env base doc first) :
    (doc.bind (sets lib env · .schemaVersion)).getD (ascii "1") = ascii "1" := by
  cases h with
  | absent => rfl
  | present root loaded hversion _ => exact hversion

/-- The value of a file for a field that is compared with its default. -/
def given (lib : YamlLib) (env : Env) (doc : Option Yaml) (f : Field) : f.Value :=
  (doc.bind (sets lib env · f)).getD (defaultConfig.get f)

theorem merged_unchanged (h : Merged lib env base doc first) (f : Field) (hr : f.rule = .compared)
    (hgiven : given lib env doc f = defaultConfig.get f) : first.get f = base.get f := by
  cases h with
  | absent => rfl
  | present root loaded _ hget =>
    apply get_mergeInto_default _ _ f hr
    rw [hget, get_blank env f (by simp [hr])]
    exact hgiven

theorem merged_changed (h : Merged lib env base doc first) (f : Field) (hr : f.rule = .compared)
    (hgiven : given lib env doc f ≠ defaultConfig.get f) : first.get f = given lib env doc f := by
  cases h with
  | absent => exact absurd rfl hgiven
  | present root loaded _ hget =>
    have hloaded : loaded.get f = given lib env (some root) f := by
      rw [hget, get_blank env f (by simp [hr])]
      rfl
    rw [get_mergeInto_changed _ _ f hr (by rw [hloaded]; exact hgiven), hloaded]

theorem merged_copied (h : Merged lib env base doc first) (f : Field) (hr : f.rule = .copied) :
    first.get f = (doc.map fun d => (sets lib env d f).getD ((blank env).get f)).getD
      (base.get f) := by
  cases h with
  | absent => rfl
  | present root loaded _ hget =>
    rw [get_mergeInto_copied _ _ f hr, hget]
    rfl

theorem merged_kept (h : Merged lib env base doc first) (f : Field) (hr : f.rule = .kept) :
    first.get f = base.get f := by
  cases h with
  | absent => rfl
  | present root loaded _ _ => exact get_mergeInto_kept _ _ f hr

/-! ### One field at a time -/

variable (hfirst : Merged lib env defaultConfig user first)
  (hsecond : Merged lib env first project second)

include hfirst hsecond

theorem second_kept (f : Field) (hr : f.rule = .kept) :
    second.get f = (project.bind (sets lib env · f)).getD (below lib env user f) := by
  rw [merged_kept hsecond f hr, merged_kept hfirst f hr]
  cases f <;> cases hr
  have hbelow : below lib env user .schemaVersion = ascii "1" := merged_version hfirst
  rw [hbelow]
  exact (merged_version hsecond).symm

theorem second_compared_iff (f : Field) (hr : f.rule = .compared) :
    second.get f = (project.bind (sets lib env · f)).getD (below lib env user f) ↔
      ∀ p ∈ project, sets lib env p f = some (defaultConfig.get f) →
        below lib env user f = defaultConfig.get f := by
  have hbelow : first.get f = below lib env user f := by
    by_cases hu : given lib env user f = defaultConfig.get f
    · rw [merged_unchanged hfirst f hr hu]
      exact hu.symm
    · exact merged_changed hfirst f hr hu
  cases project with
  | none =>
    rw [merged_unchanged hsecond f hr rfl, hbelow]
    simp
  | some p =>
    simp only [Option.bind_some, Option.mem_def, Option.some.injEq, forall_eq']
    cases hp : sets lib env p f with
    | none =>
      have hgiven : given lib env (some p) f = defaultConfig.get f := by simp [given, hp]
      rw [merged_unchanged hsecond f hr hgiven, hbelow]
      simp
    | some v =>
      have hgiven : given lib env (some p) f = v := by simp [given, hp]
      -- A value that is set but equal to the default looks like one that is not set.
      by_cases hv : v = defaultConfig.get f
      · rw [merged_unchanged hsecond f hr (hgiven.trans hv), hbelow, hv]
        simp
      · rw [merged_changed hsecond f hr (by rw [hgiven]; exact hv), hgiven]
        simp [hv]

theorem second_copied_iff (f : Field) (hr : f.rule = .copied) :
    second.get f = (project.bind (sets lib env · f)).getD (below lib env user f) ↔
      CarriedCopy lib env user project f := by
  have hgetD : ∀ (o : Option f.Value) (a b : f.Value), o.getD a = o.getD b ↔ o.isSome ∨ b = a := by
    intro o a b
    cases o <;> simp [eq_comm]
  rw [merged_copied hsecond f hr]
  cases project with
  | some p => exact hgetD (sets lib env p f) _ _
  | none =>
    have hbase := merged_copied hfirst f hr
    simp only [Option.map_none, Option.getD_none, Option.bind_none]
    rw [hbase]
    cases user with
    | none => simp [below, CarriedCopy]
    | some u =>
      simp only [CarriedCopy, Option.mem_def, Option.some.injEq, forall_eq']
      exact hgetD (sets lib env u f) _ _

end

/-- A field of the effective configuration has the value of its layers exactly when merging carries
it. -/
theorem resolveConfig_layered_iff (lib : YamlLib) (env : Env) (files : Files)
    (projectRoot userHome : Bytes) (effective : RuntimeConfig)
    (h : resolveConfig lib env files projectRoot userHome = .ok effective) (f : Field) :
    let user := document lib (firstFile files (userFile env userHome).toList)
    let project := document lib (firstFile files (projectFiles projectRoot))
    effective.get f = layered lib env user project f ↔ Carried lib env user project f := by
  intro user project
  unfold resolveConfig at h
  cases hfirst : mergeFile lib env defaultConfig (firstFile files (userFile env userHome).toList)
    with
  | error e =>
    rw [hfirst] at h
    cases h
  | ok first =>
    rw [hfirst] at h
    cases hsecond : mergeFile lib env first (firstFile files (projectFiles projectRoot)) with
    | error e =>
      simp only [Except.bind, bind, hsecond] at h
      cases h
    | ok second =>
      simp only [Except.bind, bind, hsecond] at h
      cases h
      have hm1 : Merged lib env defaultConfig user first := mergeFile_ok _ _ _ hfirst
      have hm2 : Merged lib env first project second := mergeFile_ok _ _ _ hsecond
      rw [get_applyEnv]
      unfold layered Carried
      cases envValue env f with
      | some v => simp
      | none =>
        simp only [Option.getD_none, Option.isSome_none, Bool.false_eq_true, false_or]
        -- The environment comes last and wins. Below it, the kind of the field decides.
        cases hr : f.rule with
        | kept => simp [second_kept hm1 hm2 f hr]
        | compared => exact second_compared_iff hm1 hm2 f hr
        | copied => exact second_copied_iff hm1 hm2 f hr

/-! ## Two files -/

def userText : Bytes := ascii "version: \"1\"\ngates:\n  blocking_threshold: low\n"

def userDoc : Yaml :=
  .map [(.scalar (ascii "version"), .scalar (ascii "1")),
    (.scalar (ascii "gates"), .map [(.scalar (ascii "blocking_threshold"), .scalar (ascii "low"))])]

def projectText : Bytes := ascii "version: \"1\"\nscan:\n  mode: forensic\n"

def projectDoc : Yaml :=
  .map [(.scalar (ascii "version"), .scalar (ascii "1")),
    (.scalar (ascii "scan"), .map [(.scalar (ascii "mode"), .scalar (ascii "forensic"))])]

/-- The library on these two texts, which hold no number and no flag. -/
def sampleLib : YamlLib where
  load content :=
    if content = userText then .ok userDoc
    else if content = projectText then .ok projectDoc
    else .error (ascii "bad file", 0)
  asInt _ := none
  asBool _ := none

def sampleFiles : Files := fun path =>
  if path = ascii "/h/.euxis/config.yaml" then some userText
  else if path = ascii "/p/.euxis.yaml" then some projectText
  else none

def sampleEnv : Env := fun _ => none

def sampleConfig : RuntimeConfig :=
  applyEnvOverrides sampleEnv
    (mergeInto (mergeInto defaultConfig
      (parseRoot sampleLib sampleEnv userDoc (ascii "1") (ascii "/h/.euxis/config.yaml")))
      (parseRoot sampleLib sampleEnv projectDoc (ascii "1") (ascii "/p/.euxis.yaml")))

theorem resolve_sample :
    resolveConfig sampleLib sampleEnv sampleFiles (ascii "/p") (ascii "/h") = .ok sampleConfig := by
  rfl

theorem document_user :
    document sampleLib (firstFile sampleFiles (userFile sampleEnv (ascii "/h")).toList) =
      some userDoc :=
  rfl

theorem document_project :
    document sampleLib (firstFile sampleFiles (projectFiles (ascii "/p"))) = some projectDoc := rfl

theorem mode_of_project :
    sampleConfig.get .scanMode = layered sampleLib sampleEnv (some userDoc) (some projectDoc)
      .scanMode := by
  have h := resolveConfig_layered_iff sampleLib sampleEnv sampleFiles (ascii "/p") (ascii "/h")
    sampleConfig
    resolve_sample .scanMode
  dsimp only at h
  rw [document_user, document_project] at h
  apply h.mpr
  right
  intro p hp hset
  have hmode : sets sampleLib sampleEnv projectDoc .scanMode = some .forensic := rfl
  rw [← Option.some.inj hp, hmode] at hset
  cases hset

theorem threshold_of_user_lost :
    ¬ ∀ (lib : YamlLib) (env : Env) (files : Files) (projectRoot userHome : Bytes) (effective :
      RuntimeConfig), resolveConfig lib env files projectRoot userHome = .ok effective →
      ∀ f, effective.get f =
        layered lib env (document lib (firstFile files (userFile env userHome).toList))
        (document lib (firstFile files (projectFiles projectRoot))) f := by
  -- The project file says nothing of the gates, and still resets the threshold of the user file.
  intro hclaim
  have h := hclaim sampleLib sampleEnv sampleFiles (ascii "/p") (ascii "/h") sampleConfig
    resolve_sample
    .gatesBlockingThreshold
  rw [document_user, document_project] at h
  have heffective : sampleConfig.get .gatesBlockingThreshold = .high := rfl
  have hlayered : layered sampleLib sampleEnv (some userDoc) (some projectDoc)
      .gatesBlockingThreshold = .low := rfl
  rw [heffective, hlayered] at h
  cases h

end Euxis.Config
