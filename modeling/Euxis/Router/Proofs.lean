import Euxis.Router.Code
import Mathlib.Tactic.NormNum

/-!
# When a route stays local

Only `classify_task_class` reads `EUXIS_LOCAL_ONLY` on the way to a selection, so each entry point
stays with Ollama only under a condition of its own.
-/

namespace Euxis.Router

def ollama : Bytes := ascii "ollama"

/-! ## The cost-aware router -/

theorem tierLabel_ne_low (t : Tier) : tierLabel t ≠ ascii "low" := by
  cases t <;> decide

theorem best_is_ollama : bestBy score initialProviders (ascii "ollama") (-1000000) = ollama := by
  norm_num [bestBy, initialProviders, score, ollama]

theorem cheapest_is_ollama : minBy (fun p => p.costPer1kTokens) initialProviders = ollama := by
  norm_num [minBy, bestBy, initialProviders, ollama]

theorem fastest_is_ollama : minBy (fun p => p.avgLatencyMs) initialProviders = ollama := by
  norm_num [minBy, bestBy, initialProviders, ollama]

theorem selectProvider_ollama_iff (rrCounter : Nat) (t : Tier) (priority : Bytes) :
    (selectProvider rrCounter (tierLabel t) priority).1 = ollama ↔
      (priority = ascii "swarm" → rrCounter % 3 = 0) := by
  unfold selectProvider
  rw [if_neg (tierLabel_ne_low t)]
  by_cases hswarm : priority = ascii "swarm"
  · rw [if_pos hswarm]
    simp only [hswarm, true_implies]
    have hlen : initialProviders.length = 3 := rfl
    rw [hlen]
    have hlt : rrCounter % 3 < 3 := Nat.mod_lt _ (by omega)
    interval_cases h : rrCounter % 3
    · simp [initialProviders, ollama]
    · simp only [initialProviders, ollama]
      decide
    · simp only [initialProviders, ollama]
      decide
  · rw [if_neg hswarm]
    simp only [hswarm, false_implies, iff_true]
    split_ifs
    · exact fastest_is_ollama
    · exact cheapest_is_ollama
    · exact best_is_ollama

/-! ## Routing by tier -/

theorem checkAndReload_rrCounter (world : World) (router : ProviderRouter) :
    (checkAndReload world router).rrCounter = router.rrCounter := by
  unfold checkAndReload reloadConfig
  split
  · split
    · rfl
    · rfl
  · rfl

theorem route_ollama_iff (world : World) (router : ProviderRouter)
    (agentTier task priority : Bytes) :
    (route world router agentTier task priority).1.provider = ollama ↔
      (priority = ascii "swarm" → router.rrCounter % 3 = 0) := by
  rw [← checkAndReload_rrCounter world router]
  exact selectProvider_ollama_iff _ _ _

/-- An override of this agent must name Ollama. Without one it is the turn of Ollama in the
rotation. -/
def ModeStaysLocal (overrides : List (Bytes × ModeOverride)) (router : ProviderRouter)
    (agentId : Bytes) : Prop :=
  match overrides.lookup agentId with
  | some ovr => ovr.provider = ollama
  | none => router.rrCounter % 3 = 0

theorem routeMode_ollama_iff (overrides : List (Bytes × ModeOverride)) (tier : Tier) (label : Bytes)
    (world : World) (router : ProviderRouter) (agentId agentTier prompt : Bytes) :
    (routeMode overrides tier label world router agentId agentTier prompt).1.provider = ollama ↔
      ModeStaysLocal overrides router agentId := by
  unfold routeMode ModeStaysLocal
  cases overrides.lookup agentId with
  | some ovr => exact Iff.rfl
  | none =>
    rw [route_ollama_iff]
    simp

/-! ## Routing by strategy -/

/-- The call returns a selection of Ollama. -/
def SelectsOllama (result : Except JsonError (ModelSelection × ProviderRouter)) : Prop :=
  ∃ sel router, result = .ok (sel, router) ∧ sel.provider = ollama

/-- The model table has no value of a wrong type where this provider and class are looked up. -/
def ModelReadable (config : Config) (provider taskClass : Bytes) : Prop :=
  ∃ model, strategyModel config provider taskClass = .ok model

/-- The table offers nothing usable, or Ollama is the first of what it offers. -/
def TableStaysLocal (world : World) (config : Config) (table : TaskClassRoute) (taskClass : Bytes) :
    Prop :=
  match (table.primary :: table.fallback).find? (usable world) with
  | none => True
  | some provider => provider = ollama ∧ ModelReadable config provider taskClass

/-- What must hold of the inputs for a route of a task class to stay with Ollama: the option, or the
variable of the class, or else the strategy table. -/
def StrategyStaysLocal (world : World) (config : Config) (taskClass : Bytes) (opts : RouteOptions) :
    Prop :=
  if opts.localOnly then ModelReadable config ollama taskClass
  else if envProviderForClass world taskClass ≠ [] then
    envProviderForClass world taskClass = ollama ∧ ModelReadable config ollama taskClass
  else
    match config.strategyDefaults.lookup taskClass with
    | some table => TableStaysLocal world config table taskClass
    | none => True

theorem routeByTable_eq (world : World) (config : Config) (table : TaskClassRoute)
    (taskClass agentTier prompt : Bytes) :
    match (table.primary :: table.fallback).find? (usable world) with
    | none => routeByTable world config table taskClass agentTier prompt = .ok none
    | some provider =>
      (∀ e, strategyModel config provider taskClass = .error e →
        routeByTable world config table taskClass agentTier prompt = .error e) ∧
      ∀ m, strategyModel config provider taskClass = .ok m →
        ∃ sel, routeByTable world config table taskClass agentTier prompt = .ok (some sel) ∧
          sel.provider = provider := by
  unfold routeByTable
  by_cases hprimary : usable world table.primary = true
  · rw [List.find?_cons_of_pos hprimary]
    simp only [hprimary, if_true]
    constructor
    · intro e he
      rw [he]
      rfl
    · intro m hm
      rw [hm]
      -- A tool gets its model in another way, and the provider is the same.
      by_cases htool : isTool table.primary = true
      · simp only [htool, if_true]
        exact ⟨_, rfl, rfl⟩
      · simp only [htool, Bool.false_eq_true, if_false]
        exact ⟨_, rfl, rfl⟩
  · rw [List.find?_cons_of_neg hprimary]
    simp only [hprimary, Bool.false_eq_true, if_false]
    cases table.fallback.find? (usable world) with
    | none => rfl
    | some fb =>
      constructor
      · intro e he
        simp only [he]
        rfl
      · intro m hm
        simp only [hm]
        exact ⟨_, rfl, rfl⟩

@[simp] theorem selectsOllama_error (e : JsonError) : ¬ SelectsOllama (.error e) := by
  rintro ⟨s, r, h, -⟩
  cases h

@[simp] theorem selectsOllama_ok (sel : ModelSelection) (router : ProviderRouter) :
    SelectsOllama (.ok (sel, router)) ↔ sel.provider = ollama := by
  constructor
  · rintro ⟨s, r, h, hs⟩
    obtain ⟨rfl, rfl⟩ := Prod.mk.inj (Except.ok.inj h)
    exact hs
  · intro h
    exact ⟨sel, router, rfl, h⟩

theorem selectsOllama_bind (config : Config) (provider taskClass : Bytes) (router : ProviderRouter)
    (sel : Bytes → ModelSelection) (hsel : ∀ m, (sel m).provider = provider) :
    SelectsOllama (strategyModel config provider taskClass >>= fun m => pure (sel m, router)) ↔
      provider = ollama ∧ ModelReadable config provider taskClass := by
  unfold ModelReadable
  cases hm : strategyModel config provider taskClass with
  | error e =>
    constructor
    · intro h
      exact absurd h (selectsOllama_error e)
    · rintro ⟨-, m, h⟩
      cases h
  | ok m =>
    refine (selectsOllama_ok (sel m) router).trans ?_
    rw [hsel]
    simp

theorem selectsOllama_table (world : World) (config : Config) (table : TaskClassRoute)
    (taskClass agentTier prompt : Bytes) (router : ProviderRouter)
    (after : Option ModelSelection → Except JsonError (ModelSelection × ProviderRouter))
    (hsome : ∀ sel, after (some sel) = .ok (sel, router)) (hnone : SelectsOllama (after none)) :
    SelectsOllama (routeByTable world config table taskClass agentTier prompt >>= after) ↔
      TableStaysLocal world config table taskClass := by
  have htable := routeByTable_eq world config table taskClass agentTier prompt
  unfold TableStaysLocal
  cases hfind : (table.primary :: table.fallback).find? (usable world) with
  | none =>
    rw [hfind] at htable
    simp only at htable
    rw [htable]
    simp only [iff_true]
    exact hnone
  | some provider =>
    rw [hfind] at htable
    obtain ⟨herror, hok⟩ := htable
    unfold ModelReadable
    cases hm : strategyModel config provider taskClass with
    -- A model that cannot be read ends the route with an exception, so it selects nothing.
    | error e =>
      rw [herror e hm]
      constructor
      · intro h
        exact absurd h (selectsOllama_error e)
      · rintro ⟨-, m, h⟩
        rw [hm] at h
        cases h
    | ok m =>
      obtain ⟨sel, hsel, hprov⟩ := hok m hm
      rw [hsel]
      have hafter : (Except.ok (some sel) >>= after) = .ok (sel, router) := hsome sel
      rw [hafter, selectsOllama_ok, hprov]
      simp [hm]

theorem routeByStrategy_ollama_iff (world : World) (router : ProviderRouter)
    (taskClass agentTier prompt : Bytes) (opts : RouteOptions)
    (hopts : opts.providerOverride = []) :
    SelectsOllama (routeByStrategy world router taskClass agentTier prompt opts) ↔
      StrategyStaysLocal world router.config taskClass opts := by
  unfold routeByStrategy StrategyStaysLocal
  rw [if_neg (not_not.mpr hopts)]
  by_cases hlocal : opts.localOnly = true
  · rw [if_pos hlocal, if_pos hlocal]
    refine (selectsOllama_bind router.config (ascii "ollama") taskClass router _ ?_).trans ?_
    · exact fun _ => rfl
    · exact and_iff_right rfl
  · rw [if_neg hlocal, if_neg hlocal]
    by_cases henv : envProviderForClass world taskClass ≠ []
    · rw [if_pos henv, if_pos henv]
      refine (selectsOllama_bind router.config (envProviderForClass world taskClass) taskClass
        router _ ?_).trans ?_
      · exact fun _ => rfl
      · constructor
        · rintro ⟨heq, hread⟩
          exact ⟨heq, heq ▸ hread⟩
        · rintro ⟨heq, hread⟩
          exact ⟨heq, heq ▸ hread⟩
    · rw [if_neg henv, if_neg henv]
      -- The tier fallback has an empty priority and so never leaves Ollama.
      have htier : (route world router agentTier prompt []).1.provider = ollama := by
        rw [route_ollama_iff]
        intro h
        exact absurd h (by decide)
      cases config : router.config.strategyDefaults.lookup taskClass with
      | none =>
        simp only [iff_true]
        exact ⟨_, _, rfl, htier⟩
      | some table =>
        apply selectsOllama_table world router.config table taskClass agentTier prompt router
        · intro sel
          rfl
        · exact ⟨_, _, rfl, htier⟩

theorem classifyTaskClass_local (world : World) (config : Config) (task agentId pillar : Bytes)
    (hlocal : localOnlyEnv world = true) :
    classifyTaskClass world config task agentId pillar = ascii "private_coding" := by
  unfold classifyTaskClass
  rw [if_pos hlocal]

/-! ## Local-only mode -/

/-- **Local-only mode, entry point by entry point.** -/
theorem local_only_iff (world : World) (router : ProviderRouter)
    (hlocal : localOnlyEnv world = true) (agentId agentTier task pillar taskClass priority : Bytes)
    (opts : RouteOptions) (hopts : opts.providerOverride = []) :
    ((route world router agentTier task priority).1.provider = ollama ↔
      (priority = ascii "swarm" → router.rrCounter % 3 = 0)) ∧
    ((routeFlash world router agentId agentTier task).1.provider = ollama ↔
      ModeStaysLocal router.config.flashOverrides router agentId) ∧
    ((routeStandard world router agentId agentTier task).1.provider = ollama ↔
      ModeStaysLocal router.config.standardOverrides router agentId) ∧
    ((routeForensic world router agentId agentTier task).1.provider = ollama ↔
      ModeStaysLocal router.config.forensicOverrides router agentId) ∧
    (SelectsOllama (routeByStrategy world router taskClass agentTier task opts) ↔
      StrategyStaysLocal world router.config taskClass opts) ∧
    (SelectsOllama (routeWithPolicy world router task agentId agentTier pillar opts) ↔
      StrategyStaysLocal world router.config (ascii "private_coding") opts) := by
  refine ⟨route_ollama_iff .., routeMode_ollama_iff .., routeMode_ollama_iff ..,
    routeMode_ollama_iff .., routeByStrategy_ollama_iff _ _ _ _ _ _ hopts, ?_⟩
  unfold routeWithPolicy
  rw [classifyTaskClass_local world router.config task agentId pillar hlocal]
  exact routeByStrategy_ollama_iff _ _ _ _ _ _ hopts

/-- A machine with the variable set, Ollama on the path and no configuration files. -/
def localWorld : World where
  getenv name := if name = ascii "EUXIS_LOCAL_ONLY" then some (ascii "1") else none
  available name := name = ascii "ollama"
  filesChanged := false
  routerJson := .absent
  strategyJson := .absent

/-- The same, with a provider for coding tasks. -/
def codingWorld : World :=
  { localWorld with
    getenv := fun name =>
      if name = ascii "EUXIS_DEFAULT_CODING_PROVIDER" then some (ascii "claude")
      else localWorld.getenv name }

def bareRouter (rrCounter : Nat) : ProviderRouter where
  config :=
    { models := reloadDefaults, flashOverrides := [], standardOverrides := [],
      forensicOverrides := [], strategyConfig := .null, strategyDefaults := [],
      agentClassHints := [], classificationKeywords := [] }
  rrCounter := rrCounter

theorem local_only_kept :
    SelectsOllama (routeWithPolicy localWorld (bareRouter 1) (ascii "fix the parser")
      (ascii "coder") (ascii "code") [] {}) :=
  ((local_only_iff localWorld (bareRouter 1) (by decide) (ascii "coder") (ascii "code")
    (ascii "fix the parser") [] (ascii "coding") [] {} rfl).2.2.2.2.2).mpr (by
      unfold StrategyStaysLocal
      rw [if_neg (by decide), if_neg (by decide)]
      trivial)

theorem local_only_left :
    localOnlyEnv localWorld = true ∧ localOnlyEnv codingWorld = true ∧
    (routeFlash localWorld (bareRouter 1) (ascii "coder") (ascii "code")
      (ascii "fix the parser")).1.provider = ascii "claude" ∧
    ¬ SelectsOllama (routeWithPolicy codingWorld (bareRouter 0) (ascii "fix the parser")
      (ascii "coder") (ascii "code") [] {}) := by
  -- The second agent of a flash run, and any coding task under a coding provider.
  refine ⟨by decide, by decide, by decide, ?_⟩
  rintro ⟨sel, router, h, hsel⟩
  have hres : routeWithPolicy codingWorld (bareRouter 0) (ascii "fix the parser") (ascii "coder")
      (ascii "code") [] {} =
      .ok ({ provider := ascii "claude", model := ascii "claude-default", tier := .code,
             routeReason := ascii "env override for private_coding: claude",
             taskClass := ascii "private_coding" },
           bareRouter 0) := by
    rfl
  rw [hres] at h
  obtain ⟨rfl, -⟩ := Prod.mk.inj (Except.ok.inj h)
  exact absurd hsel (by decide)

end Euxis.Router
