import Euxis.Json.Value
import Mathlib.Data.Rat.Defs

/-!
# Choosing a provider: `apps/cli/src/provider_router.cpp`, `libs/core/src/router.cpp`

The environment, the programs on the path and the configuration files are a `World`. What a
selection is estimated to cost is left out, since nothing reads it here. A read of a configuration
value can throw.
-/

namespace Euxis.Router

/-! ## Tiers -/

inductive Tier where
  | routine
  | data
  | code
  | reason
  deriving DecidableEq, Repr

def tierLabel : Tier → Bytes
  | .routine => ascii "routine"
  | .data => ascii "data"
  | .code => ascii "code"
  | .reason => ascii "reason"

def parseTier (s : Bytes) : Tier :=
  if s = ascii "routine" then .routine
  else if s = ascii "data" then .data
  else if s = ascii "reason" ∨ s = ascii "core" then .reason
  else .code

def Tier.rank : Tier → Nat
  | .routine => 0
  | .data => 1
  | .code => 2
  | .reason => 3

def maxTier (a b : Tier) : Tier := if a.rank < b.rank then b else a

def reasonKeywords : List Bytes :=
  [ascii "architect", ascii "design", ascii "plan", ascii "strategy", ascii "complex",
    ascii "critical",
   ascii "security", ascii "audit", ascii "review"]

def codeKeywords : List Bytes :=
  [ascii "code", ascii "implement", ascii "refactor", ascii "debug", ascii "test", ascii "build",
    ascii "fix",
   ascii "optimize", ascii "develop"]

def dataKeywords : List Bytes :=
  [ascii "data", ascii "analyze", ascii "summarize", ascii "report", ascii "aggregate",
    ascii "query",
   ascii "extract", ascii "parse", ascii "transform"]

def analyzeTaskTier (task : Bytes) : Tier :=
  let lower := Bytes.lower task
  if reasonKeywords.any lower.contains then .reason
  else if codeKeywords.any lower.contains then .code
  else if dataKeywords.any lower.contains then .data
  else .routine

/-! ## The cost-aware router -/

structure ProviderMetrics where
  name : Bytes
  costPer1kTokens : Rat
  avgLatencyMs : Int
  reliabilityScore : Rat

def initialProviders : List ProviderMetrics :=
  [⟨ascii "ollama", 0, 150, 95 / 100⟩, ⟨ascii "claude", 15 / 1000, 800, 99 / 100⟩,
   ⟨ascii "gemini", 5 / 1000, 400, 98 / 100⟩]

/-- The doubles of the code, as exact numbers. -/
def score (p : ProviderMetrics) : Rat :=
  p.reliabilityScore * 10 - p.costPer1kTokens * 500 - (p.avgLatencyMs : Rat) / 500

/-- The scoring loop: a later entry wins only when it is strictly better. -/
def bestBy (key : ProviderMetrics → Rat) : List ProviderMetrics → Bytes → Rat → Bytes
  | [], best, _ => best
  | p :: rest, best, bestKey =>
    if bestKey < key p then bestBy key rest p.name (key p) else bestBy key rest best bestKey

/-- `std::min_element`: the first of the smallest. -/
def minBy (key : ProviderMetrics → Rat) : List ProviderMetrics → Bytes
  | [] => []
  | p :: rest => bestBy (fun q => -key q) rest p.name (-key p)

/-- `select_provider`, with the round-robin counter after the call. -/
def selectProvider (rrCounter : Nat) (taskComplexity priority : Bytes) : Bytes × Nat :=
  if taskComplexity = ascii "low" then (ascii "ollama", rrCounter)
  else if priority = ascii "swarm" then
    (((initialProviders[rrCounter % initialProviders.length]?).map (·.name)).getD [],
      (rrCounter + 1) % 2 ^ 64)
  else if priority = ascii "speed" then
    (minBy (fun p => p.avgLatencyMs) initialProviders, rrCounter)
  else if priority = ascii "cost" then
    (minBy (fun p => p.costPer1kTokens) initialProviders, rrCounter)
  else (bestBy score initialProviders (ascii "ollama") (-1000000), rrCounter)

/-! ## The state of the router -/

structure ModelSelection where
  provider : Bytes
  model : Bytes
  tier : Tier
  routeReason : Bytes
  taskClass : Bytes
  deriving DecidableEq, Repr

structure RouteOptions where
  providerOverride : Bytes := []
  localOnly : Bool := false

structure TaskClassRoute where
  primary : Bytes
  fallback : List Bytes

structure TierModels where
  routine : Bytes
  data : Bytes
  code : Bytes
  reason : Bytes

structure ModeOverride where
  provider : Bytes
  model : Bytes
  cost : Number

/-- What is read from the two configuration files. -/
structure Config where
  models : TierModels
  flashOverrides : List (Bytes × ModeOverride)
  standardOverrides : List (Bytes × ModeOverride)
  forensicOverrides : List (Bytes × ModeOverride)
  strategyConfig : Json
  strategyDefaults : List (Bytes × TaskClassRoute)
  agentClassHints : List (Bytes × Bytes)
  classificationKeywords : List (Bytes × List Bytes)

structure ProviderRouter where
  config : Config
  rrCounter : Nat

inductive ConfigFile where
  | absent
  | malformed
  | parsed (j : Json)

structure World where
  getenv : Bytes → Option Bytes
  available : Bytes → Bool
  filesChanged : Bool
  routerJson : ConfigFile
  strategyJson : ConfigFile

/-! ## Reloading -/

def readStr (j : Json) (key fallback : Bytes) : Except JsonError Bytes :=
  match j.find key with
  | none => .ok fallback
  | some v => v.getStr

def readModels (j : Json) (defaults : TierModels) : Except JsonError TierModels :=
  match j.find (ascii "models") with
  | none => .ok defaults
  | some m => do
    let routine ← readStr m (ascii "routine") defaults.routine
    let data ← readStr m (ascii "data") defaults.data
    let code ← readStr m (ascii "code") defaults.code
    let reason ← readStr m (ascii "reason") defaults.reason
    return { routine, data, code, reason }

/-- One of the three override maps, with the model and the cost it falls back to. -/
def readOverrides (j : Json) (key defaultModel : Bytes) (defaultCost : Number) :
    Except JsonError (List (Bytes × ModeOverride)) :=
  match j.find key with
  | none => .ok []
  | some overrides => overrides.items.mapM fun (agentId, ovr) => do
    let provider ← ovr.valueStr (ascii "provider") (ascii "claude")
    let model ← ovr.valueStr (ascii "model") defaultModel
    let cost ← ovr.valueNumber (ascii "cost") defaultCost
    return (agentId, { provider, model, cost })

def readRoutes (j : Json) : Except JsonError (List (Bytes × TaskClassRoute)) :=
  match j.find (ascii "defaults") with
  | none => .ok []
  | some defaults => defaults.items.mapM fun (taskClass, route) => do
    let primary ← route.valueStr (ascii "primary") (ascii "claude")
    let fallback ←
      match route.find (ascii "fallback") with
      | none => .ok []
      | some fb => fb.elements.mapM Json.getStr
    return (taskClass, { primary, fallback })

def readHints (j : Json) : Except JsonError (List (Bytes × Bytes)) :=
  match j.find (ascii "agent_class_hints") with
  | none => .ok []
  | some hints => hints.items.mapM fun (agent, cls) => return (agent, ← cls.getStr)

def readKeywords (j : Json) : Except JsonError (List (Bytes × List Bytes)) :=
  match j.find (ascii "classification_keywords") with
  | none => .ok []
  | some keywords =>
    keywords.items.mapM fun (cls, kws) => return (cls, ← kws.elements.mapM Json.getStr)

def ConfigFile.content : ConfigFile → Except JsonError Json
  | .absent => .ok .null
  | .malformed => .error .parseError
  | .parsed j => .ok j

def reloadDefaults : TierModels :=
  { routine := ascii "gemini-2.5-flash-lite", data := ascii "gemini-2.5-flash",
    code := ascii "claude-sonnet-4-6",
    reason := ascii "claude-opus-4-6" }

/-- The two files, read into temporaries. -/
def readConfig (world : World) : Except JsonError Config := do
  let j ← world.routerJson.content
  let models ← readModels j reloadDefaults
  let flashOverrides ← readOverrides j (ascii "flash_overrides") (ascii "claude-haiku-4-5") (.int 1)
  let standardOverrides ← readOverrides j (ascii "standard_overrides") (ascii "claude-sonnet-4-6")
    (.int 3)
  let forensicOverrides ← readOverrides j (ascii "forensic_overrides") (ascii "claude-opus-4-6")
    (.int 15)
  let strategyConfig ← world.strategyJson.content
  let strategyDefaults ← readRoutes strategyConfig
  let agentClassHints ← readHints strategyConfig
  let classificationKeywords ← readKeywords strategyConfig
  return { models, flashOverrides, standardOverrides, forensicOverrides, strategyConfig, strategyDefaults,
           agentClassHints, classificationKeywords }

/-- `reload_config`: an error in either file leaves everything as it was. -/
def reloadConfig (world : World) (router : ProviderRouter) : ProviderRouter :=
  match readConfig world with
  | .ok config => { router with config }
  | .error _ => router

def checkAndReload (world : World) (router : ProviderRouter) : ProviderRouter :=
  if world.filesChanged then reloadConfig world router else router

/-! ## Routing by tier -/

def tierModel (models : TierModels) (provider : Bytes) (effective : Tier) : Bytes :=
  if provider = ascii "claude" then
    match effective with
    | .routine => ascii "claude-haiku-4-5"
    | .data | .code => models.code
    | .reason => models.reason
  else if provider = ascii "gemini" then
    match effective with
    | .routine => models.routine
    | .data | .code => ascii "gemini-2.5-flash"
    | .reason => ascii "gemini-2.5-pro"
  else if provider = ascii "ollama" then ascii "qwen2.5-coder:7b"
  else provider ++ ascii "-default"

def route (world : World) (router : ProviderRouter) (agentTier task priority : Bytes) :
    ModelSelection × ProviderRouter :=
  let router := checkAndReload world router
  let effective := maxTier (parseTier agentTier) (analyzeTaskTier task)
  let (provider, rrCounter) := selectProvider router.rrCounter (tierLabel effective) priority
  ({ provider, model := tierModel router.config.models provider effective, tier := effective,
     routeReason := ascii "tier-based: " ++ tierLabel effective, taskClass := [] },
   { router with rrCounter })

/-- The body of `route_flash`, `route_standard` and `route_forensic`. -/
def routeMode (overrides : List (Bytes × ModeOverride)) (tier : Tier) (label : Bytes)
    (world : World) (router : ProviderRouter) (agentId agentTier prompt : Bytes) :
    ModelSelection × ProviderRouter :=
  match overrides.lookup agentId with
  | some ovr =>
    ({ provider := ovr.provider, model := ovr.model, tier, routeReason := label ++ agentId,
       taskClass := [] }, router)
  | none => route world router agentTier prompt (ascii "swarm")

def routeFlash (world : World) (router : ProviderRouter) (agentId agentTier prompt : Bytes) :
    ModelSelection × ProviderRouter :=
  routeMode router.config.flashOverrides .code (ascii "flash override for ") world router agentId
    agentTier prompt

def routeStandard (world : World) (router : ProviderRouter) (agentId agentTier prompt : Bytes) :
    ModelSelection × ProviderRouter :=
  routeMode router.config.standardOverrides .code (ascii "standard override for ") world router
    agentId agentTier prompt

def routeForensic (world : World) (router : ProviderRouter) (agentId agentTier prompt : Bytes) :
    ModelSelection × ProviderRouter :=
  routeMode router.config.forensicOverrides .reason (ascii "forensic override for ") world router
    agentId agentTier
    prompt

/-! ## Routing by strategy -/

def apiProviderUsable (world : World) (provider : Bytes) : Bool :=
  if provider = ascii "claude" ∨ provider = ascii "anthropic" then
    (world.getenv (ascii "ANTHROPIC_API_KEY")).isSome
  else if provider = ascii "openai" ∨ provider = ascii "codex" then
    (world.getenv (ascii "OPENAI_API_KEY")).isSome
  else if provider = ascii "gemini" then
    (world.getenv (ascii "GEMINI_API_KEY")).isSome || (world.getenv (ascii "GOOGLE_API_KEY")).isSome
  else if provider = ascii "ollama" then world.available (ascii "ollama")
  else false

def isTool (provider : Bytes) : Bool :=
  provider = ascii "aider" || provider = ascii "kiro" || provider = ascii "shellgpt"

/-- `EUXIS_LOCAL_ONLY` is `true` or `1`. -/
def localOnlyEnv (world : World) : Bool :=
  world.getenv (ascii "EUXIS_LOCAL_ONLY") = some (ascii "true") ||
    world.getenv (ascii "EUXIS_LOCAL_ONLY") = some (ascii "1")

def classPriority : List Bytes :=
  [ascii "surgical_edit", ascii "terminal_automation", ascii "private_coding",
    ascii "multilingual_analysis",
   ascii "policy_synthesis", ascii "security", ascii "deep_research", ascii "architecture",
   ascii "audit",
   ascii "research", ascii "coding"]

def pillarClass (pillar : Bytes) : Option Bytes :=
  if pillar = ascii "security" ∨ pillar = ascii "supply-chain" then some (ascii "security")
  else if pillar = ascii "docs" ∨ pillar = ascii "documentation" then some (ascii "research")
  else if pillar = ascii "architecture" ∨ pillar = ascii "design" then some (ascii "architecture")
  else if pillar = ascii "testing" ∨ pillar = ascii "execution" then some (ascii "coding")
  else if pillar = ascii "review" ∨ pillar = ascii "audit" then some (ascii "audit")
  else none

def keywordClass (config : Config) (task : Bytes) : Option Bytes :=
  classPriority.find? fun cls => ((config.classificationKeywords.lookup cls).getD []).any
    (Bytes.lower task).contains

def classifyTaskClass (world : World) (config : Config) (task agentId pillar : Bytes) : Bytes :=
  if localOnlyEnv world then ascii "private_coding"
  else
    match if agentId = [] then none else config.agentClassHints.lookup agentId with
    | some cls => cls
    | none =>
      match pillarClass pillar with
      | some cls => cls
      | none =>
        match keywordClass config task with
        | some cls => cls
        | none =>
          match analyzeTaskTier task with
          | .reason => ascii "architecture"
          | .code => ascii "coding"
          | .data => ascii "research"
          | .routine => ascii "coding"

def strategyModel (config : Config) (provider taskClass : Bytes) : Except JsonError Bytes :=
  match config.strategyConfig.find (ascii "models") with
  | none => .ok []
  | some models =>
    match models.find provider with
    | none => .ok []
    | some pm =>
      match pm.find taskClass with
      | some m => m.getStr
      | none =>
        match pm.find (ascii "default") with
        | some m => m.getStr
        | none => .ok []

def classEnvVar (taskClass : Bytes) : Option Bytes :=
  if taskClass = ascii "research" ∨ taskClass = ascii "multilingual_analysis" ∨
      taskClass = ascii "policy_synthesis" ∨ taskClass = ascii "deep_research" then
    some (ascii "EUXIS_DEFAULT_RESEARCH_PROVIDER")
  else if taskClass = ascii "coding" ∨ taskClass = ascii "architecture" ∨
    taskClass = ascii "audit" ∨
      taskClass = ascii "private_coding" ∨ taskClass = ascii "surgical_edit" ∨
      taskClass = ascii "terminal_automation" then
    some (ascii "EUXIS_DEFAULT_CODING_PROVIDER")
  else if taskClass = ascii "security" then some (ascii "EUXIS_DEFAULT_SECURITY_PROVIDER")
  else none

def envProviderForClass (world : World) (taskClass : Bytes) : Bytes :=
  ((classEnvVar taskClass).bind world.getenv).getD []

def orElse (model fallback : Bytes) : Bytes := if model = [] then fallback else model

/-- The model of a primary provider that the strategy names no model for. -/
def primaryModel (config : Config) (primary : Bytes) (tier : Tier) : Bytes :=
  if primary = ascii "claude" then
    match tier with
    | .routine => ascii "claude-haiku-4-5"
    | .data | .code => config.models.code
    | .reason => config.models.reason
  else if primary = ascii "openai" then ascii "gpt-5.4"
  else if primary = ascii "gemini" then ascii "gemini-2.5-pro"
  else if primary = ascii "ollama" then ascii "llama4:maverick"
  else primary ++ ascii "-default"

def fallbackModel (config : Config) (fb : Bytes) : Bytes :=
  if fb = ascii "claude" then config.models.code
  else if fb = ascii "openai" then ascii "gpt-5.4"
  else if fb = ascii "gemini" then ascii "gemini-2.5-pro"
  else if fb = ascii "ollama" then ascii "llama4:maverick"
  else fb

/-- A provider of the strategy is usable: a tool is on the path, an API has its key. -/
def usable (world : World) (provider : Bytes) : Bool :=
  if isTool provider then world.available provider else apiProviderUsable world provider

/-- The lookup in the strategy table. -/
def routeByTable (world : World) (config : Config) (table : TaskClassRoute)
    (taskClass agentTier prompt : Bytes) : Except JsonError (Option ModelSelection) :=
  let tier := maxTier (parseTier agentTier) (analyzeTaskTier prompt)
  if usable world table.primary then do
    let model ← strategyModel config table.primary taskClass
    if isTool table.primary then
      return some { provider := table.primary, model := orElse model table.primary,
                    tier := parseTier agentTier,
                    routeReason := taskClass ++ ascii " task; " ++ table.primary ++
                      ascii " preferred (tool available)",
                    taskClass }
    else
      return some { provider := table.primary,
                    model := orElse model (primaryModel config table.primary tier), tier,
                    routeReason := taskClass ++ ascii " task; " ++ table.primary ++
                      ascii " preferred for " ++ taskClass,
                    taskClass }
  else
    match table.fallback.find? (usable world) with
    | none => .ok none
    | some fb => do
      let model ← strategyModel config fb taskClass
      return some { provider := fb, model := orElse model (fallbackModel config fb), tier,
                    routeReason := taskClass ++ ascii " task; " ++ fb ++ ascii " (fallback, " ++
                      table.primary ++ ascii " unavailable)",
                    taskClass }

def routeByStrategy (world : World) (router : ProviderRouter) (taskClass agentTier prompt : Bytes)
    (opts : RouteOptions) : Except JsonError (ModelSelection × ProviderRouter) :=
  let config := router.config
  let envProvider := envProviderForClass world taskClass
  if opts.providerOverride ≠ [] then do
    let model ← strategyModel config opts.providerOverride taskClass
    return ({ provider := opts.providerOverride,
              model := orElse model (opts.providerOverride ++ ascii "-default"),
              tier := maxTier (parseTier agentTier) (analyzeTaskTier prompt),
              routeReason := ascii "explicit --provider override: " ++ opts.providerOverride,
              taskClass }, router)
  else if opts.localOnly then do
    let model ← strategyModel config (ascii "ollama") taskClass
    return ({ provider := ascii "ollama",
              model := (world.getenv (ascii "EUXIS_LOCAL_MODEL")).getD
                (orElse model (ascii "llama4:maverick")),
              tier := parseTier agentTier,
              routeReason := ascii "local-only mode; all routes forced to Ollama",
              taskClass := ascii "private_coding" }, router)
  else if envProvider ≠ [] then do
    let model ← strategyModel config envProvider taskClass
    return ({ provider := envProvider, model := orElse model (envProvider ++ ascii "-default"),
              tier := parseTier agentTier,
              routeReason := ascii "env override for " ++ taskClass ++ ascii ": " ++ envProvider,
              taskClass }, router)
  else do
    let byTable ←
      match config.strategyDefaults.lookup taskClass with
      | some table => routeByTable world config table taskClass agentTier prompt
      | none => .ok none
    match byTable with
    | some sel => return (sel, router)
    | none =>
      let (sel, router) := route world router agentTier prompt []
      return ({ sel with
                routeReason := ascii "tier fallback (no strategy match for class '" ++
                  taskClass ++ ascii "')",
                taskClass }, router)

def routeWithPolicy (world : World) (router : ProviderRouter)
    (task agentId agentTier pillar : Bytes) (opts : RouteOptions) :
    Except JsonError (ModelSelection × ProviderRouter) :=
  routeByStrategy world router (classifyTaskClass world router.config task agentId pillar)
    agentTier task opts

end Euxis.Router
