import Euxis.Outcome
import Euxis.Router.Code

/-!
# A hot reload against a fresh start

The constructor fills the members of the router in place, `reload_config` fills temporaries and
swaps them in. The two have their own texts and their own defaults.
-/

namespace Euxis.Router

/-! ## The constructor -/

/-- A loader changes the configuration as it goes: what it has changed stays changed when it
throws. -/
abbrev Loader := ExceptT JsonError (StateM Config)

/-- The exception is logged, and the router goes on with what was loaded. -/
def attempt (loader : Loader Unit) (config : Config) : Config := (loader.run.run config).2

def constructorDefaults : TierModels :=
  { routine := ascii "claude-haiku-4-5", data := ascii "claude-haiku-4-5",
    code := ascii "claude-sonnet-4-6",
    reason := ascii "claude-opus-4-6" }

def loadModel (m : Json) (key : Bytes) (store : Bytes → TierModels → TierModels) : Loader Unit :=
  match m.find key with
  | none => return
  | some v => do
    let model ← ofExcept v.getStr
    modify fun c => { c with models := store model c.models }

def loadModels (j : Json) : Loader Unit :=
  match j.find (ascii "models") with
  | none => return
  | some m => do
    loadModel m (ascii "routine") fun model models => { models with routine := model }
    loadModel m (ascii "data") fun model models => { models with data := model }
    loadModel m (ascii "code") fun model models => { models with code := model }
    loadModel m (ascii "reason") fun model models => { models with reason := model }

/-- A loop over the items of a section: each entry is read and stored before the next one. The keys
of the items are distinct and the maps empty at first, so an assignment is an append. -/
def loadEach {α β : Type} (read : α → Except JsonError β) (store : β → Config → Config) :
    List α → Loader Unit
  | [] => return
  | a :: rest => do
    let b ← ofExcept (read a)
    modify (store b)
    loadEach read store rest

/-- One section of a file, item by item. -/
def loadSection {β : Type} (j : Json) (key : Bytes) (read : Bytes × Json → Except JsonError β)
    (store : β → Config → Config) : Loader Unit :=
  match j.find key with
  | none => return
  | some entries => loadEach read store entries.items

def readOverride (defaultModel : Bytes) (defaultCost : Number) (item : Bytes × Json) :
    Except JsonError (Bytes × ModeOverride) := do
  let provider ← item.2.valueStr (ascii "provider") (ascii "claude")
  let model ← item.2.valueStr (ascii "model") defaultModel
  let cost ← item.2.valueNumber (ascii "cost") defaultCost
  return (item.1, { provider, model, cost })

def loadOverrides (j : Json) (key defaultModel : Bytes) (defaultCost : Number)
    (store : Bytes × ModeOverride → Config → Config) : Loader Unit :=
  loadSection j key (readOverride defaultModel defaultCost) store

def loadConfig (file : ConfigFile) : Loader Unit :=
  match file with
  | .absent => return
  | .malformed => throw .parseError
  | .parsed j => do
    loadModels j
    loadOverrides j (ascii "flash_overrides") (ascii "claude-haiku-4-5") (.int 1) fun o c =>
      { c with flashOverrides := c.flashOverrides ++ [o] }
    loadOverrides j (ascii "standard_overrides") (ascii "claude-sonnet-4-6") (.int 3) fun o c =>
      { c with standardOverrides := c.standardOverrides ++ [o] }
    loadOverrides j (ascii "forensic_overrides") (ascii "claude-opus-4-6") (.int 15) fun o c =>
      { c with forensicOverrides := c.forensicOverrides ++ [o] }

def readRoute (item : Bytes × Json) : Except JsonError (Bytes × TaskClassRoute) := do
  let primary ← item.2.valueStr (ascii "primary") (ascii "claude")
  let fallback ←
    match item.2.find (ascii "fallback") with
    | none => .ok []
    | some fb => fb.elements.mapM Json.getStr
  return (item.1, { primary, fallback })

def readHint (item : Bytes × Json) : Except JsonError (Bytes × Bytes) :=
  return (item.1, ← item.2.getStr)

def readKeyword (item : Bytes × Json) : Except JsonError (Bytes × List Bytes) :=
  return (item.1, ← item.2.elements.mapM Json.getStr)

def loadStrategyConfig (file : ConfigFile) : Loader Unit :=
  match file with
  | .absent => return
  | .malformed => throw .parseError
  | .parsed j => do
    modify fun c => { c with strategyConfig := j }
    loadSection j (ascii "defaults") readRoute fun r c =>
      { c with strategyDefaults := c.strategyDefaults ++ [r] }
    loadSection j (ascii "agent_class_hints") readHint fun h c =>
      { c with agentClassHints := c.agentClassHints ++ [h] }
    loadSection j (ascii "classification_keywords") readKeyword fun k c =>
      { c with classificationKeywords := c.classificationKeywords ++ [k] }

def initialConfig : Config :=
  { models := constructorDefaults, flashOverrides := [], standardOverrides := [],
    forensicOverrides := [], strategyConfig := .null, strategyDefaults := [],
    agentClassHints := [], classificationKeywords := [] }

/-- `ProviderRouter::ProviderRouter`. -/
def freshRouter (world : World) : ProviderRouter :=
  { config := attempt (loadStrategyConfig world.strategyJson) (attempt (loadConfig world.routerJson) initialConfig)
    rrCounter := 0 }

/-! ## Loaders that do not throw -/

/-- The loader runs through and leaves the configuration `c'`. -/
def Loads (loader : Loader Unit) (c c' : Config) : Prop := loader.run.run c = (.ok (), c')

theorem Loads.attempt {loader : Loader Unit} {c c' : Config} (h : Loads loader c c') :
    attempt loader c = c' := by
  unfold Router.attempt
  rw [h]

theorem loads_pure (c : Config) : Loads (pure ()) c c := rfl

theorem loads_modify (f : Config → Config) (c : Config) : Loads (modify f) c (f c) := rfl

theorem Loads.bind {first second : Loader Unit} {c c' c'' : Config} (h : Loads first c c')
    (h' : Loads second c' c'') : Loads (first >>= fun _ => second) c c'' := by
  unfold Loads at h h' ⊢
  simp only [ExceptT.run_bind, StateT.run_bind, h]
  exact h'

theorem loadEach_loads {α β : Type} (read : α → Except JsonError β) (store : β → Config → Config)
    (entries : List α) (out : List β) (c : Config) (h : entries.mapM read = .ok out) :
    Loads (loadEach read store entries) c (out.foldl (fun c b => store b c) c) := by
  induction entries generalizing out c with
  | nil =>
    simp only [List.mapM_nil] at h
    obtain rfl := Except.ok.inj h
    exact loads_pure c
  | cons a rest ih =>
    rw [List.mapM_cons] at h
    obtain ⟨b, hread, h⟩ := Outcome.ok_of_bind h
    obtain ⟨bs, hrest, h⟩ := Outcome.ok_of_bind h
    obtain rfl := Except.ok.inj h
    unfold loadEach
    rw [hread]
    exact (loads_modify (store b) c).bind (ih bs (store b c) hrest)

/-- A section as a list, with nothing stored. -/
def readSection {β : Type} (j : Json) (key : Bytes) (read : Bytes × Json → Except JsonError β) :
    Except JsonError (List β) :=
  match j.find key with
  | none => .ok []
  | some entries => entries.items.mapM read

theorem loadSection_loads {β : Type} (j : Json) (key : Bytes)
    (read : Bytes × Json → Except JsonError β) (store : β → Config → Config) (out : List β)
    (c : Config) (h : readSection j key read = .ok out) :
    Loads (loadSection j key read store) c (out.foldl (fun c b => store b c) c) := by
  unfold readSection at h
  unfold loadSection
  split at h
  · obtain rfl := Except.ok.inj h
    exact loads_pure c
  · rename_i entries _
    exact loadEach_loads read store entries.items out c h

theorem foldl_append_single {β γ : Type} (get : γ → List β) (set : List β → γ → γ)
    (hset : ∀ l l' c, set l (set l' c) = set l c) (hget : ∀ l c, get (set l c) = l)
    (hself : ∀ c, set (get c) c = c) (out : List β) (c : γ) :
    out.foldl (fun c b => set (get c ++ [b]) c) c = set (get c ++ out) c := by
  induction out generalizing c with
  | nil => simp [hself]
  | cons b out ih =>
    rw [List.foldl_cons, ih, hget, hset]
    simp

theorem loadModel_loads (m : Json) (key : Bytes) (store : Bytes → TierModels → TierModels)
    (fallback model : Bytes) (c : Config) (hfallback : store fallback c.models = c.models)
    (h : readStr m key fallback = .ok model) :
    Loads (loadModel m key store) c { c with models := store model c.models } := by
  unfold readStr at h
  unfold loadModel
  cases hfind : m.find key with
  | none =>
    rw [hfind] at h
    obtain rfl := Except.ok.inj h
    rw [hfallback]
    exact loads_pure c
  | some v =>
    rw [hfind] at h
    dsimp only at h ⊢
    rw [h]
    exact loads_modify _ c

theorem readModels_some {j m : Json} {defaults models : TierModels}
    (hfind : j.find (ascii "models") = some m) (h : readModels j defaults = .ok models) :
    readStr m (ascii "routine") defaults.routine = .ok models.routine ∧
      readStr m (ascii "data") defaults.data = .ok models.data ∧
      readStr m (ascii "code") defaults.code = .ok models.code ∧
      readStr m (ascii "reason") defaults.reason = .ok models.reason := by
  unfold readModels at h
  rw [hfind] at h
  obtain ⟨routine, hroutine, h⟩ := Outcome.ok_of_bind h
  obtain ⟨data, hdata, h⟩ := Outcome.ok_of_bind h
  obtain ⟨code, hcode, h⟩ := Outcome.ok_of_bind h
  obtain ⟨reason, hreason, h⟩ := Outcome.ok_of_bind h
  obtain rfl := Except.ok.inj h
  exact ⟨hroutine, hdata, hcode, hreason⟩

theorem loadModels_loads (j : Json) (models : TierModels) (c : Config)
    (h : readModels j c.models = .ok models) : Loads (loadModels j) c { c with models } := by
  unfold loadModels
  cases hfind : j.find (ascii "models") with
  | none =>
    rw [readModels, hfind] at h
    obtain rfl := Except.ok.inj h
    exact loads_pure c
  | some m =>
    obtain ⟨hroutine, hdata, hcode, hreason⟩ := readModels_some hfind h
    refine Loads.bind (loadModel_loads m _ _ c.models.routine models.routine c ?_ hroutine) ?_
    · rfl
    refine Loads.bind (loadModel_loads m _ _ c.models.data models.data _ ?_ hdata) ?_
    · rfl
    refine Loads.bind (loadModel_loads m _ _ c.models.code models.code _ ?_ hcode) ?_
    · rfl
    refine loadModel_loads m _ _ c.models.reason models.reason _ ?_ hreason
    rfl

theorem loadSection_appends {β : Type} (j : Json) (key : Bytes)
    (read : Bytes × Json → Except JsonError β) (get : Config → List β)
    (set : List β → Config → Config) (hset : ∀ l l' c, set l (set l' c) = set l c)
    (hget : ∀ l c, get (set l c) = l) (hself : ∀ c, set (get c) c = c) (out : List β) (c : Config)
    (h : readSection j key read = .ok out) :
    Loads (loadSection j key read fun b c => set (get c ++ [b]) c) c (set (get c ++ out) c) := by
  rw [← foldl_append_single get set hset hget hself]
  exact loadSection_loads j key read _ out c h

/-- What the two readers have to agree on for the router file. -/
structure RouterRead (file : ConfigFile) (defaults models : TierModels)
    (flash standard forensic : List (Bytes × ModeOverride)) (j : Json) : Prop where
  content : file.content = .ok j
  models : readModels j defaults = .ok models
  flash : readOverrides j (ascii "flash_overrides") (ascii "claude-haiku-4-5") (.int 1) = .ok flash
  standard : readOverrides j (ascii "standard_overrides") (ascii "claude-sonnet-4-6") (.int 3) =
    .ok standard
  forensic : readOverrides j (ascii "forensic_overrides") (ascii "claude-opus-4-6") (.int 15) =
    .ok forensic

theorem loadConfig_loads {file : ConfigFile} {models : TierModels}
    {flash standard forensic : List (Bytes × ModeOverride)} {j : Json} (c : Config)
    (h : RouterRead file c.models models flash standard forensic j) :
    Loads (loadConfig file) c
      { c with
        models
        flashOverrides := c.flashOverrides ++ flash
        standardOverrides := c.standardOverrides ++ standard
        forensicOverrides := c.forensicOverrides ++ forensic } := by
  cases file with
  | absent =>
    obtain rfl := Except.ok.inj h.content
    obtain rfl := Except.ok.inj h.models
    obtain rfl := Except.ok.inj h.flash
    obtain rfl := Except.ok.inj h.standard
    obtain rfl := Except.ok.inj h.forensic
    simp only [List.append_nil]
    exact loads_pure c
  | malformed => exact absurd h.content (by simp [ConfigFile.content])
  | parsed j' =>
    obtain rfl := Except.ok.inj h.content
    -- Section by section; each one appends to a list of its own and leaves the others alone.
    refine (loadModels_loads _ models c h.models).bind ?_
    refine (loadSection_appends _ _ _ (·.flashOverrides) (fun l c => { c with flashOverrides := l })
      (fun _ _ _ => rfl) (fun _ _ => rfl) (fun _ => rfl) flash _ h.flash).bind ?_
    refine (loadSection_appends _ _ _ (·.standardOverrides)
      (fun l c => { c with standardOverrides := l })
      (fun _ _ _ => rfl) (fun _ _ => rfl) (fun _ => rfl) standard _ h.standard).bind ?_
    exact loadSection_appends _ _ _ (·.forensicOverrides)
      (fun l c => { c with forensicOverrides := l })
      (fun _ _ _ => rfl) (fun _ _ => rfl) (fun _ => rfl) forensic _ h.forensic

/-- The same for the strategy file. -/
structure StrategyRead (file : ConfigFile) (routes : List (Bytes × TaskClassRoute))
    (hints : List (Bytes × Bytes)) (keywords : List (Bytes × List Bytes)) (j : Json) : Prop where
  content : file.content = .ok j
  routes : readRoutes j = .ok routes
  hints : readHints j = .ok hints
  keywords : readKeywords j = .ok keywords

theorem loadStrategyConfig_loads {file : ConfigFile} {routes : List (Bytes × TaskClassRoute)}
    {hints : List (Bytes × Bytes)} {keywords : List (Bytes × List Bytes)} {j : Json} (c : Config)
    (hnull : c.strategyConfig = .null) (h : StrategyRead file routes hints keywords j) :
    Loads (loadStrategyConfig file) c
      { c with
        strategyConfig := j
        strategyDefaults := c.strategyDefaults ++ routes
        agentClassHints := c.agentClassHints ++ hints
        classificationKeywords := c.classificationKeywords ++ keywords } := by
  cases file with
  | absent =>
    obtain rfl := Except.ok.inj h.content
    obtain rfl := Except.ok.inj h.routes
    obtain rfl := Except.ok.inj h.hints
    obtain rfl := Except.ok.inj h.keywords
    simp only [List.append_nil, ← hnull]
    exact loads_pure c
  | malformed => exact absurd h.content (by simp [ConfigFile.content])
  | parsed j' =>
    obtain rfl := Except.ok.inj h.content
    refine (loads_modify (fun c => { c with strategyConfig := j' }) c).bind ?_
    refine (loadSection_appends _ _ _ (·.strategyDefaults)
      (fun l c => { c with strategyDefaults := l })
      (fun _ _ _ => rfl) (fun _ _ => rfl) (fun _ => rfl) routes _ h.routes).bind ?_
    refine (loadSection_appends _ _ _ (·.agentClassHints)
      (fun l c => { c with agentClassHints := l })
      (fun _ _ _ => rfl) (fun _ _ => rfl) (fun _ => rfl) hints _ h.hints).bind ?_
    exact loadSection_appends _ _ _ (·.classificationKeywords)
      (fun l c => { c with classificationKeywords := l })
      (fun _ _ _ => rfl) (fun _ _ => rfl) (fun _ => rfl) keywords _ h.keywords

/-! ## The defaults -/

/-- The file names a model for both of the tiers whose defaults differ. -/
def NamesModels (file : ConfigFile) : Prop :=
  ∃ j m, file = .parsed j ∧ j.find (ascii "models") = some m ∧ (m.find (ascii "routine")).isSome ∧
    (m.find (ascii "data")).isSome

theorem readStr_default (m : Json) (key : Bytes) {fallback fallback' model : Bytes}
    (hne : fallback ≠ fallback') (h : readStr m key fallback = .ok model) :
    ∃ model', readStr m key fallback' = .ok model' ∧ (model = model' ↔ (m.find key).isSome) := by
  unfold readStr at h ⊢
  cases hfind : m.find key with
  | none =>
    rw [hfind] at h
    obtain rfl := Except.ok.inj h
    exact ⟨fallback', rfl, by simp [hne]⟩
  | some v =>
    rw [hfind] at h
    exact ⟨model, h, by simp⟩

theorem parsed_of_find {file : ConfigFile} {j m : Json} {key : Bytes}
    (hcontent : file.content = .ok j) (hfind : j.find key = some m) : file = .parsed j := by
  cases file with
  | absent =>
    obtain rfl := Except.ok.inj hcontent
    exact absurd hfind (by simp [Json.find])
  | malformed => exact absurd hcontent (by simp [ConfigFile.content])
  | parsed j' => rw [Except.ok.inj hcontent]

theorem readModels_defaults (file : ConfigFile) (j : Json) (models : TierModels)
    (hcontent : file.content = .ok j) (h : readModels j reloadDefaults = .ok models) :
    ∃ models', readModels j constructorDefaults = .ok models' ∧
      (models = models' ↔ NamesModels file) := by
  unfold readModels
  cases hfind : j.find (ascii "models") with
  | none =>
    rw [readModels, hfind] at h
    obtain rfl := Except.ok.inj h
    refine ⟨constructorDefaults, rfl, ?_⟩
    constructor
    · intro heq
      -- Without a models section both sets of defaults stay, and they differ at the first tier.
      exact absurd (congrArg TierModels.routine heq) (by decide)
    · rintro ⟨j', m, rfl, hm, _⟩
      obtain rfl := Except.ok.inj hcontent
      rw [hfind] at hm
      exact absurd hm (by simp)
  | some m =>
    obtain ⟨hroutine, hdata, hcode, hreason⟩ := readModels_some hfind h
    obtain ⟨routine, hroutine', hroutine_iff⟩ :=
      readStr_default m _ (by decide : _ ≠ constructorDefaults.routine) hroutine
    obtain ⟨data, hdata', hdata_iff⟩ :=
      readStr_default m _ (by decide : _ ≠ constructorDefaults.data) hdata
    have hcode' : readStr m (ascii "code") constructorDefaults.code = .ok models.code := hcode
    have hreason' : readStr m (ascii "reason") constructorDefaults.reason = .ok models.reason :=
      hreason
    have hfile := parsed_of_find hcontent hfind
    refine ⟨{ models with routine, data }, ?_, ?_⟩
    · simp only [hroutine', hdata', hcode', hreason']
      rfl
    · constructor
      · intro heq
        exact ⟨j, m, hfile, hfind, hroutine_iff.mp (congrArg TierModels.routine heq),
          hdata_iff.mp (congrArg TierModels.data heq)⟩
      · rintro ⟨j', m', hfile', hfind', hsome, hsome'⟩
        rw [hfile, ConfigFile.parsed.injEq] at hfile'
        rw [← hfile', hfind, Option.some.injEq] at hfind'
        rw [← hfind'] at hsome hsome'
        rw [← hroutine_iff.mpr hsome, ← hdata_iff.mpr hsome']

/-! ## Reload and fresh start -/

/-- Both files can be read without an error. -/
def Readable (world : World) : Prop := ∃ config, readConfig world = .ok config

theorem freshRouter_config (world : World) (config : Config) (h : readConfig world = .ok config) :
    ∃ models', (freshRouter world).config = { config with models := models' } ∧
      (config.models = models' ↔ NamesModels world.routerJson) := by
  unfold readConfig at h
  obtain ⟨j, hcontent, h⟩ := Outcome.ok_of_bind h
  obtain ⟨models, hmodels, h⟩ := Outcome.ok_of_bind h
  obtain ⟨flash, hflash, h⟩ := Outcome.ok_of_bind h
  obtain ⟨standard, hstandard, h⟩ := Outcome.ok_of_bind h
  obtain ⟨forensic, hforensic, h⟩ := Outcome.ok_of_bind h
  obtain ⟨strategy, hstrategy, h⟩ := Outcome.ok_of_bind h
  obtain ⟨routes, hroutes, h⟩ := Outcome.ok_of_bind h
  obtain ⟨hints, hhints, h⟩ := Outcome.ok_of_bind h
  obtain ⟨keywords, hkeywords, h⟩ := Outcome.ok_of_bind h
  obtain rfl := Except.ok.inj h
  obtain ⟨models', hmodels', hiff⟩ := readModels_defaults world.routerJson j models hcontent hmodels
  refine ⟨models', ?_, hiff⟩
  have hrouter := loadConfig_loads initialConfig ⟨hcontent, hmodels', hflash, hstandard, hforensic⟩
  have hrest := fun c hnull => loadStrategyConfig_loads c hnull ⟨hstrategy, hroutes,
    hhints, hkeywords⟩
  unfold freshRouter
  rw [hrouter.attempt, (hrest _ rfl).attempt]
  rfl

/-- Whatever the router was before: a reload gives what a fresh start on the same files gives, or
leaves the router as it is when a file cannot be read, exactly when readable files name both
models. -/
theorem reload_fresh_iff (world : World) :
    ((Readable world → ∀ router, (reloadConfig world router).config = (freshRouter world).config) ∧
      (¬ Readable world → ∀ router, (reloadConfig world router).config = router.config)) ↔
        (Readable world → NamesModels world.routerJson) := by
  constructor
  · rintro ⟨hreload, _⟩ hread
    obtain ⟨config, hconfig⟩ := hread
    obtain ⟨models', hfresh, hiff⟩ := freshRouter_config world config hconfig
    have heq := hreload ⟨config, hconfig⟩ (freshRouter world)
    rw [reloadConfig, hconfig, hfresh] at heq
    exact hiff.mp (congrArg Config.models heq)
  · intro hnames
    refine ⟨?_, ?_⟩
    · intro hread router
      obtain ⟨config, hconfig⟩ := hread
      obtain ⟨models', hfresh, hiff⟩ := freshRouter_config world config hconfig
      rw [reloadConfig, hconfig, hfresh, ← hiff.mpr (hnames ⟨config, hconfig⟩)]
    · intro hread router
      unfold reloadConfig
      cases hconfig : readConfig world with
      | ok config => exact absurd ⟨config, hconfig⟩ hread
      | error e => rfl

/-- A machine without configuration files. -/
def unconfigured : World where
  getenv _ := none
  available _ := false
  filesChanged := false
  routerJson := .absent
  strategyJson := .absent

theorem reload_of_no_files : ¬ ∀ (world : World) (router : ProviderRouter),
    (Readable world → (reloadConfig world router).config = (freshRouter world).config) ∧
      (¬ Readable world → (reloadConfig world router).config = router.config) := by
  intro h
  have hread : Readable unconfigured := ⟨_, rfl⟩
  have heq := (h unconfigured (freshRouter unconfigured)).1 hread
  have hroutine : (reloadConfig unconfigured (freshRouter unconfigured)).config.models.routine =
      (freshRouter unconfigured).config.models.routine := by
    rw [heq]
  exact absurd hroutine (by decide)

end Euxis.Router
