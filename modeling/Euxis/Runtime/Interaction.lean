import Euxis.Bytes
import Mathlib.Algebra.Notation.Defs

/-!
# Interactions of several agents

Sessions with a provider and the orchestrations built from them
(`libs/runtime/src/agent_session.cpp`, `interaction.cpp`). A `double` is of any type with a zero and
an addition.
-/

namespace Euxis.Runtime

/-! ## Sessions -/

structure ModelSpec where
  provider : Bytes
  model : Bytes
  tier : Bytes

structure ProviderResponse (δ : Type) where
  success : Bool
  output : Bytes
  error : Bytes
  durationMs : δ

/-- `IProvider`. It may keep a state of its own, so what it does depends on how many sessions came
before. -/
structure Provider (δ : Type) where
  route : Nat → Bytes → Bytes → ModelSpec
  execute : Nat → ModelSpec → Bytes → ProviderResponse δ

inductive Role
  | user | assistant | system
  deriving DecidableEq

structure ConversationMessage (δ : Type) where
  role : Role
  content : Bytes
  agentId : Bytes
  model : Bytes
  durationMs : δ

structure AgentSession (δ : Type) where
  sessionId : Bytes
  agentId : Bytes
  systemPrompt : Bytes
  systemContext : Bytes
  /-- Name and description of each tool. -/
  tools : List (Bytes × Bytes)
  currentModel : ModelSpec
  messages : List (ConversationMessage δ)

def Role.label : Role → Bytes
  | .user => ascii "User: "
  | .assistant => ascii "Assistant: "
  | .system => ascii "System: "

variable {δ : Type} [Zero δ] [Add δ]

namespace AgentSession

/-- The constructor. -/
def new (provider : Provider δ) (n : Nat) (sessionId agentId : Bytes) : AgentSession δ where
  sessionId := sessionId
  agentId := agentId
  systemPrompt := []
  systemContext := []
  tools := []
  currentModel := provider.route n (ascii "code") (ascii "general")
  messages := []

def buildContext (s : AgentSession δ) : Bytes :=
  (if s.systemPrompt = [] then [] else s.systemPrompt ++ ascii "\n\n")
    ++ (if s.systemContext = [] then [] else s.systemContext ++ ascii "\n\n")
    ++ (if s.tools = [] then [] else
      ascii "Available tools:\n"
        ++ s.tools.flatMap (fun t => ascii "- " ++ t.1 ++ ascii ": " ++ t.2 ++ ascii "\n") ++
          ascii "\n")
    ++ s.messages.flatMap fun m => m.role.label ++ m.content ++ ascii "\n\n"

def send (provider : Provider δ) (n : Nat) (s : AgentSession δ) (message : Bytes) :
    ProviderResponse δ × AgentSession δ :=
  let asked : AgentSession δ :=
    { s with messages := s.messages ++ [⟨.user, message, s.agentId, [], 0⟩] }
  let result := provider.execute n s.currentModel asked.buildContext
  (result,
    { asked with
      messages := asked.messages ++
        [⟨.assistant, result.output, s.agentId, s.currentModel.model, result.durationMs⟩] })

end AgentSession

/-- A session of its own for one message, as each orchestration opens them. -/
def ask (provider : Provider δ) (n : Nat) (sessionId agentId message : Bytes) :
    ProviderResponse δ :=
  (AgentSession.send provider n (AgentSession.new provider n sessionId agentId) message).1

/-! ## Orchestrations -/

structure InteractionResult (δ : Type) where
  success : Bool
  output : Bytes
  agentOutputs : List Bytes
  totalDurationMs : δ
  rounds : Nat

def InteractionResult.initial : InteractionResult δ := ⟨false, [], [], 0, 0⟩

/-- The loop over the agents in `run_parallel` and `run_supervisor_worker`: the session's name
starts with `tag`, and each agent counts `rounds`. -/
def sendEach (provider : Provider δ) (tag message : Bytes) (rounds : Nat) :
    Nat → List Bytes → InteractionResult δ → InteractionResult δ
  | _, [], result => result
  | n, agentId :: rest, result =>
    let response := ask provider n (tag ++ agentId) agentId message
    sendEach provider tag message rounds (n + 1) rest
      { result with
        rounds := result.rounds + rounds
        totalDurationMs := result.totalDurationMs + response.durationMs
        agentOutputs := result.agentOutputs ++ [response.output]
        success := if !response.success then false else result.success }

def runParallel (provider : Provider δ) (agentIds : List Bytes) (task : Bytes) :
    InteractionResult δ :=
  let start : InteractionResult δ := { InteractionResult.initial with success := true, rounds := 1 }
  let result := sendEach provider (ascii "par-") task 0 0 agentIds start
  { result with output := (ascii "\n---\n").intercalate result.agentOutputs }

structure SupervisorConfig where
  supervisorAgentId : Bytes
  workerAgentIds : List Bytes
  decompositionPrompt : Bytes
  aggregationPrompt : Bytes

/-- `agg_input`. -/
def aggInput (aggregationPrompt : Bytes) (outputs : List Bytes) : Bytes :=
  aggregationPrompt ++ ascii "\n\nWorker outputs:\n"
    ++ (outputs.mapIdx fun i out => ascii "--- Worker " ++ Bytes.decimal i ++ ascii " ---\n" ++
      out ++ ascii "\n").flatten

/-- The supervisor's first session. -/
def decomposition (provider : Provider δ) (config : SupervisorConfig) (task : Bytes) :
    ProviderResponse δ :=
  ask provider 0 (ascii "sv-decompose") config.supervisorAgentId (config.decompositionPrompt ++
    ascii "\n\nTask: " ++ task)

def runSupervisorWorker (provider : Provider δ) (config : SupervisorConfig) (task : Bytes) :
    InteractionResult δ :=
  let decomp := decomposition provider config task
  let blank : InteractionResult δ := .initial
  let start := { blank with totalDurationMs := blank.totalDurationMs + decomp.durationMs,
                            rounds := blank.rounds + 1 }
  if !decomp.success then { start with success := false, output := decomp.error }
  else
    let result := sendEach provider (ascii "sv-worker-") decomp.output 1 1 config.workerAgentIds
      start
    let agg := ask provider (config.workerAgentIds.length + 1) (ascii "sv-aggregate")
      config.supervisorAgentId
      (aggInput config.aggregationPrompt result.agentOutputs)
    { result with
      totalDurationMs := result.totalDurationMs + agg.durationMs
      rounds := result.rounds + 1
      success := agg.success
      output := agg.output }

/-! ## The outcomes of the sessions -/

/-- What the agents answer, from the `n`-th session on. -/
def outcomes (provider : Provider δ) (tag message : Bytes) (n : Nat) (agentIds : List Bytes) :
    List (ProviderResponse δ) :=
  agentIds.mapIdx fun i agentId => ask provider (n + i) (tag ++ agentId) agentId message

omit [Add δ] in
theorem outcomes_cons (provider : Provider δ) (tag message : Bytes) (n : Nat) (agentId : Bytes)
    (rest : List Bytes) :
    outcomes provider tag message n (agentId :: rest) =
      ask provider n (tag ++ agentId) agentId message ::
        outcomes provider tag message (n + 1) rest := by
  simp [outcomes, List.mapIdx_cons, Nat.add_right_comm, Nat.add_assoc]

theorem sendEach_agentOutputs (provider : Provider δ) (tag message : Bytes) (rounds n : Nat)
    (agentIds : List Bytes) (result : InteractionResult δ) :
    (sendEach provider tag message rounds n agentIds result).agentOutputs =
      result.agentOutputs ++ (outcomes provider tag message n agentIds).map (·.output) := by
  induction agentIds generalizing n result with
  | nil => simp [sendEach, outcomes]
  | cons agentId rest ih =>
    rw [sendEach, ih, outcomes_cons]
    simp

theorem sendEach_success (provider : Provider δ) (tag message : Bytes) (rounds n : Nat)
    (agentIds : List Bytes) (result : InteractionResult δ) :
    (sendEach provider tag message rounds n agentIds result).success = true ↔
      result.success = true ∧ ∀ w ∈ outcomes provider tag message n agentIds, w.success = true := by
  induction agentIds generalizing n result with
  | nil => simp [sendEach, outcomes]
  | cons agentId rest ih =>
    rw [sendEach, ih, outcomes_cons, List.forall_mem_cons]
    cases (ask provider n (tag ++ agentId) agentId message).success <;> simp

theorem runParallel_success (provider : Provider δ) (agentIds : List Bytes) (task : Bytes) :
    (runParallel provider agentIds task).success = true ↔
      ∀ w ∈ outcomes provider (ascii "par-") task 0 agentIds, w.success = true := by
  simp [runParallel, sendEach_success]

section Supervisor

variable (provider : Provider δ) (config : SupervisorConfig) (task : Bytes)

def workerOutcomes : List (ProviderResponse δ) :=
  outcomes provider (ascii "sv-worker-") (decomposition provider config task).output 1
    config.workerAgentIds

def aggregation : ProviderResponse δ :=
  ask provider (config.workerAgentIds.length + 1) (ascii "sv-aggregate") config.supervisorAgentId
    (aggInput config.aggregationPrompt ((workerOutcomes provider config task).map (·.output)))

structure AllSucceeded : Prop where
  decomposed : (decomposition provider config task).success = true
  worked : ∀ w ∈ workerOutcomes provider config task, w.success = true
  aggregated : (aggregation provider config task).success = true

theorem runSupervisorWorker_success :
    (runSupervisorWorker provider config task).success = true ↔
      (decomposition provider config task).success = true ∧
      (aggregation provider config task).success = true := by
  unfold runSupervisorWorker
  cases h : (decomposition provider config task).success with
  | false => simp [h]
  | true => simp [h, aggregation, workerOutcomes, sendEach_agentOutputs, InteractionResult.initial]

theorem supervisor_reports_failures_iff :
    ((runSupervisorWorker provider config task).success = true →
      AllSucceeded provider config task) ↔
      ((∀ w ∈ workerOutcomes provider config task, w.success = true) ∨
        (decomposition provider config task).success = false ∨
        (aggregation provider config task).success = false) := by
  rw [runSupervisorWorker_success]
  constructor
  · intro hreports
    by_cases hsupervisor : (decomposition provider config task).success = true ∧
        (aggregation provider config task).success = true
    · exact Or.inl (hreports hsupervisor).worked
    · rw [not_and_or, Bool.not_eq_true, Bool.not_eq_true] at hsupervisor
      exact Or.inr hsupervisor
  · rintro hcond ⟨hdecomp, hagg⟩
    refine ⟨hdecomp, ?_, hagg⟩
    rcases hcond with hworked | hfailed | hfailed
    · exact hworked
    · exact absurd hdecomp (by simp [hfailed])
    · exact absurd hagg (by simp [hfailed])

end Supervisor

/-- The provider fails in its second session only, which is that of the worker. -/
def secondSessionFails : Provider Nat where
  route _ _ _ := ⟨ascii "ollama", ascii "qwen", ascii "code"⟩
  execute n _ _ := if n = 1 then ⟨false, [], ascii "timeout", 30⟩ else ⟨true, ascii "done", [], 5⟩

theorem failed_worker_reported_as_success :
    let config : SupervisorConfig :=
      ⟨ascii "boss", [ascii "w1"], ascii "break it down", ascii "put it together"⟩
    (runSupervisorWorker secondSessionFails config (ascii "big task")).success = true ∧
      ¬ AllSucceeded secondSessionFails config (ascii "big task") := by
  intro config
  refine ⟨rfl, ?_⟩
  intro hall
  have hfailed := hall.worked ⟨false, [], ascii "timeout", 30⟩ (List.mem_singleton.mpr rfl)
  exact absurd hfailed (by decide)

end Euxis.Runtime
