import Euxis.Playbook.Evidence
import Euxis.Replace

/-!
# Evidence collection: the scheduler loop of `cmd_playbook`

The main thread reads the loop guard without the lock and runs each loop body under it. An agent
thread takes the lock three times: for its context, for the failover flag and, after the provider
has answered, for its result. Each of these is one atomic step, and they interleave freely. A second
attempt of an agent only writes the reflexion log and is left out.
-/

namespace Euxis.Playbook

/-! ## Plans -/

/-- The members of a manifest step that are read for the plan. -/
structure ManifestStep where
  name : Option Bytes
  agent : Option Bytes
  pillar : Option Bytes
  depends : List Bytes

structure Phase where
  name : Option Bytes
  gate : Option Bytes
  delegates : List ManifestStep

inductive Manifest where
  | steps (steps : List ManifestStep)
  | phases (phases : List Phase)

def Phase.step (phase : Phase) (d : ManifestStep) : ManifestStep :=
  { d with
    pillar := some (phase.gate.getD (ascii "execution"))
    name := some (phase.name.getD (ascii "Phase") ++ ascii " / " ++ d.agent.getD []) }

/-- `all_steps_json`. -/
def Manifest.allSteps : Manifest → List ManifestStep
  | .steps all => all
  | .phases all => all.flatMap fun phase => phase.delegates.map phase.step

structure StepPlan where
  name : Bytes
  agentId : Bytes
  pillar : Bytes
  depends : List Bytes
  provider : Bytes
  deriving DecidableEq, Repr

/-- The arguments of a run. `route` stands for the router: the provider it picks for a step in a
mode. -/
structure Job where
  manifest : Manifest
  mode : Mode
  ciMode : Bool
  route : Mode → ManifestStep → Bytes

namespace Job

def steps (job : Job) : List ManifestStep := job.manifest.allSteps

def buildStepPlan (job : Job) (mode : Mode) (step : ManifestStep) : StepPlan :=
  { name := step.name.getD (ascii "step")
    agentId := step.agent.getD (ascii "code-agent")
    pillar := canonicalizePillar (step.pillar.getD (ascii "execution"))
    depends := step.depends
    provider := job.route mode step }

def activeSteps (job : Job) : List ManifestStep :=
  match job.mode with
  | .flash => [0, 10].filterMap fun i => job.steps[i]?
  | .standard => [0, 3, 4, 8, 10].filterMap fun i => job.steps[i]?
  | .forensic => job.steps

end Job

/-! ## The state -/

/-- A plan and its `started` flag. -/
structure Planned where
  plan : StepPlan
  started : Bool

/-- What an agent thread does next: read its context, read the failover flag, or deliver its
result. -/
inductive Stage where
  | context
  | failover
  | executing (isDegraded : Bool)
  deriving DecidableEq, Repr

structure AgentThread where
  plan : StepPlan
  weight : Int
  agentTimeout : Int
  stage : Stage

/-- What the main thread does next. -/
inductive Main where
  | guard
  | body
  | waiting
  | joining
  | done
  deriving DecidableEq, Repr

inductive EscalationReason where
  | disagreement
  | reviewerFail
  | noDecisiveVerdict
  deriving DecidableEq, Repr

structure State where
  main : Main
  plans : List Planned
  threads : List AgentThread
  usedSlots : Int
  completedCount : Nat
  completed : List Bytes
  stepOutputs : AList fun _ : Bytes => Bytes
  stepVerdicts : StepVerdicts
  evidenceLog : List AgentEvidence
  sessionFailover : Bool
  mode : Mode
  escalated : Bool
  escalationSuppressed : Bool
  escalationReason : Option EscalationReason
  triageAnyDecisive : Bool
  earlyStopped : Bool
  agentsSkipped : Int
  budgetExceeded : Bool

def start (job : Job) : State :=
  { main := .guard
    plans := job.activeSteps.map fun step =>
      { plan := job.buildStepPlan job.mode step, started := false }
    threads := []
    usedSlots := 0
    completedCount := 0
    completed := []
    stepOutputs := ∅
    stepVerdicts := ∅
    evidenceLog := []
    sessionFailover := false
    mode := job.mode
    escalated := false
    escalationSuppressed := false
    escalationReason := none
    triageAnyDecisive := false
    earlyStopped := false
    agentsSkipped := 0
    budgetExceeded := false }

def totalSlots : Int := 8

/-! ## The loop body -/

/-- The plans that have not been started. -/
def State.unstarted (s : State) : List Planned := s.plans.filter fun p => !p.started

/-- Every plan that has not been started counts as completed. -/
def skipRest (s : State) : State :=
  { s with
    plans := s.plans.map fun p => { p with started := true }
    completedCount := s.completedCount + s.unstarted.length
    completed := s.completed ++ s.unstarted.map (·.plan.name) }

def stopOnBudget (s : State) : State :=
  { skipRest s with
    budgetExceeded := true
    agentsSkipped := s.agentsSkipped + s.unstarted.length
    main := .joining }

def stopEarly (s : State) : State :=
  { skipRest s with
    earlyStopped := true
    agentsSkipped := (s.plans.length : Int) - s.completedCount
    main := .joining }

def anyDecisive (verdicts : StepVerdicts) : Bool := 0 < verdicts.positives + verdicts.negatives

def disagreement (verdicts : StepVerdicts) : Bool := 0 < verdicts.positives ∧ 0 < verdicts.negatives

def reviewerFail (log : List AgentEvidence) : Bool :=
  log.any fun ev => ev.agentId = ascii "reviewer" ∧ ev.rawVerdict = .fail

/-- The first of the three triggers that applies. -/
def escalationTrigger (verdicts : StepVerdicts) (log : List AgentEvidence) :
    Option EscalationReason :=
  if disagreement verdicts then some .disagreement
  else if reviewerFail log then some .reviewerFail
  else if anyDecisive verdicts then none
  else some .noDecisiveVerdict

def escalationPlan (job : Job) (s : State) (step : ManifestStep) : StepPlan :=
  { job.buildStepPlan .standard step with
    name := ascii "Escalation / " ++ step.agent.getD []
    depends := step.depends.filter fun d => d ∈ s.stepOutputs }

def injectStep (job : Job) (s : State) (plans : List Planned) (idx : Nat) : List Planned :=
  match job.steps[idx]? with
  | none => plans
  | some step =>
    if plans.any fun p => p.plan.agentId = step.agent.getD [] then plans
    else plans ++ [{ plan := escalationPlan job s step, started := false }]

def escalate (job : Job) (s : State) : State :=
  if job.mode = .flash ∧ ¬ s.escalated ∧ ¬ s.escalationSuppressed ∧
    s.plans.length ≤ s.completedCount then
    let decided := disagreement s.stepVerdicts || reviewerFail s.evidenceLog
    let s := { s with
      triageAnyDecisive := anyDecisive s.stepVerdicts || (decided && s.triageAnyDecisive) }
    match escalationTrigger s.stepVerdicts s.evidenceLog with
    | none => s
    | some reason =>
      if job.ciMode then { s with escalationReason := some reason, escalationSuppressed := true }
      else
        { s with
          escalationReason := some reason
          escalated := true
          mode := .standard
          plans := [1, 3, 4, 8].foldl (injectStep job s) s.plans }
  else s

def weight (plan : StepPlan) : Int :=
  if plan.provider = ascii "claude" ∨ plan.provider = ascii "gemini" then 4 else 1

def agentTimeout (sla : ModeSla) (elapsedMs : Rat) : Int :=
  min sla.agentTimeoutS (max 1 (trunc ((sla.budgetMs - elapsedMs) / 1000)))

def launchable (completed : List Bytes) (usedSlots : Int) (p : Planned) : Bool :=
  !p.started && p.plan.depends.all (fun d => d ∈ completed) && usedSlots +
    weight p.plan ≤ totalSlots

def threadOf (sla : ModeSla) (elapsedMs : Rat) (plan : StepPlan) : AgentThread :=
  { plan, weight := weight plan, agentTimeout := agentTimeout sla elapsedMs, stage := .context }

/-- The launch loop from plan `i` on: the plans with their flags, the new threads and the used
slots. `clock i` is the time since the start when plan `i` is launched. -/
def launchFrom (completed : List Bytes) (sla : ModeSla) (clock : Nat → Rat) :
    Nat → Int → List Planned → List Planned × List AgentThread × Int
  | _, usedSlots, [] => ([], [], usedSlots)
  | i, usedSlots, p :: rest =>
    if launchable completed usedSlots p then
      let r := launchFrom completed sla clock (i + 1) (usedSlots + weight p.plan) rest
      ({ p with started := true } :: r.1, threadOf sla (clock i) p.plan :: r.2.1, r.2.2)
    else
      let r := launchFrom completed sla clock (i + 1) usedSlots rest
      (p :: r.1, r.2.1, r.2.2)

def launch (clock : Nat → Rat) (s : State) : State :=
  let r := launchFrom s.completed (getModeSla s.mode) clock 0 s.usedSlots s.plans
  { s with
    plans := r.1
    threads := s.threads ++ r.2.1
    usedSlots := r.2.2
    -- Nothing was launched: the loop waits for a completion.
    main := if r.2.1 = [] ∧ s.completedCount < r.1.length then .waiting else .guard }

def overBudget (job : Job) (wallMs : Rat) (s : State) : Bool :=
  (getModeSla s.mode).budgetMs < wallMs ∧ job.mode = .flash

def converged (job : Job) (s : State) : Bool :=
  job.mode = .flash ∧ s.escalated ∧ ¬ s.earlyStopped ∧ 5 ≤ s.completedCount ∧
    verdictConverged s.stepVerdicts 4

def loopBody (job : Job) (wallMs : Rat) (clock : Nat → Rat) (s : State) : State :=
  if overBudget job wallMs s then stopOnBudget s
  else if converged job s then stopEarly s
  else launch clock (escalate job s)

/-! ## Agent threads -/

/-- Reading `step_outputs[d]` leaves an empty output where there was none. -/
def touchOutput (outputs : AList fun _ : Bytes => Bytes) (d : Bytes) : AList fun _ :
    Bytes => Bytes :=
  if d ∈ outputs then outputs else outputs.insert d []

def readContext (i : Nat) (t : AgentThread) (s : State) : State :=
  { s with
    stepOutputs := t.plan.depends.foldl touchOutput s.stepOutputs
    threads := s.threads.set i { t with stage := .failover } }

def readFailover (i : Nat) (t : AgentThread) (s : State) : State :=
  { s with threads := s.threads.set i { t with stage := .executing s.sessionFailover } }

/-- The answer counts: the provider succeeded or the agent ran into its time limit. -/
def Response.counts (response : Response) (agentTimeout : Int) : Bool :=
  response.success || response.timedOut agentTimeout

def statusOf (t : AgentThread) (isDegraded : Bool) (response : Response) : Status :=
  classifyAgentStatus (classifyRawVerdict response.output) (response.timedOut t.agentTimeout)
    isDegraded
    response.durationMs ((t.agentTimeout : Rat) * 1000)

def evidenceOf (t : AgentThread) (isDegraded : Bool) (response : Response) : AgentEvidence :=
  let depth := parseEvidenceDepth response.output
  { agentName := t.plan.name
    agentId := t.plan.agentId
    verdict := statusOf t isDegraded response
    pillar := t.plan.pillar
    executionBacked := depth.execBacked
    inferred := depth.inferred
    totalClaims := depth.total
    degraded := isDegraded
    rawVerdict := classifyRawVerdict response.output }

/-- The entry of an agent that could not be executed. -/
def failureOf (t : AgentThread) (isDegraded : Bool) : AgentEvidence :=
  { agentName := t.plan.name
    agentId := t.plan.agentId
    verdict := .failed
    pillar := t.plan.pillar
    executionBacked := 0
    inferred := 0
    totalClaims := 0
    degraded := isDegraded
    rawVerdict := .fail }

def record (t : AgentThread) (isDegraded : Bool) (response : Response) (s : State) : State :=
  if response.counts t.agentTimeout then
    { s with
      stepOutputs := s.stepOutputs.insert t.plan.name response.output
      stepVerdicts := s.stepVerdicts.insert t.plan.name (statusOf t isDegraded response)
      evidenceLog := s.evidenceLog ++ [evidenceOf t isDegraded response] }
  else
    { s with
      sessionFailover := s.sessionFailover || response.exitCode = 137 || response.exitCode = 143
      evidenceLog := s.evidenceLog ++ [failureOf t isDegraded] }

/-- The locked block at the end of an agent thread. -/
def complete (i : Nat) (t : AgentThread) (isDegraded : Bool) (response : Response) (s : State) :
    State :=
  let s := record t isDegraded response s
  { s with
    completed := s.completed ++ [t.plan.name]
    completedCount := s.completedCount + 1
    usedSlots := s.usedSlots - t.weight
    threads := s.threads.eraseIdx i }

/-! ## Steps -/

inductive Event where
  | guard
  | body (wallMs : Rat) (clock : Nat → Rat)
  | wake
  | context (i : Nat)
  | failover (i : Nat)
  | complete (i : Nat) (response : Response)
  | join

def step (job : Job) (s : State) : Event → Option State
  | .guard =>
    if s.main = .guard then
      some { s with main := if s.completedCount < s.plans.length then .body else .joining }
    else none
  | .body wallMs clock => if s.main = .body then some (loopBody job wallMs clock s) else none
  | .wake =>
    if s.main = .waiting ∧ (s.plans.length ≤ s.completedCount ∨ s.usedSlots < totalSlots) then
      some { s with main := .guard }
    else none
  | .context i =>
    match s.threads[i]? with
    | some t => if t.stage = .context then some (readContext i t s) else none
    | none => none
  | .failover i =>
    match s.threads[i]? with
    | some t => if t.stage = .failover then some (readFailover i t s) else none
    | none => none
  | .complete i response =>
    match s.threads[i]? with
    | some t =>
      match t.stage with
      | .executing isDegraded => some (complete i t isDegraded response s)
      | _ => none
    | none => none
  | .join => if s.main = .joining ∧ s.threads = [] then some { s with main := .done } else none

/-! ## The goal in a task

`execute_phase` of `libs/core/src/swarm.cpp` and `build_step_plan` of `apps/cli/src/cmd/fleet.cpp`
fill the goal into the template of a task with the same loop. It edits the text that it searches,
and goes on behind the goal that it has put in.
-/

def placeholder : Bytes := ascii "$\x7bgoal\x7d"

/-- The loop of both functions: nothing when the fuel is used up before it ends. -/
def substituteGoal (fuel : Nat) (template goal : Bytes) : Option Bytes :=
  (Loop.run (Replace.step placeholder goal) fuel (template, 0)).map (·.1)

/-- **The goal.** The loop ends, and its result is the template with the goal for each placeholder,
whatever the goal holds: what stands between the placeholders of the template, joined with the
goal. -/
theorem goal_substitution_exact (template goal : Bytes) :
    ∃ fuel, substituteGoal fuel template goal =
      some (goal.intercalate (Replace.pieces placeholder template)) ∧
      placeholder.intercalate (Replace.pieces placeholder template) = template := by
  have hplaceholder : placeholder ≠ [] := by decide
  obtain ⟨fuel, pos, hrun⟩ := Replace.run_step hplaceholder goal [] template
  refine ⟨fuel, ?_, Replace.intercalate_pieces hplaceholder template⟩
  rw [substituteGoal]
  exact congrArg (Option.map (·.1)) hrun

-- A goal that holds the placeholder, and one that completes it with what follows.
example : substituteGoal 4 (ascii "do $\x7bgoal\x7d now") (ascii "a $\x7bgoal\x7d") =
    some (ascii "do a $\x7bgoal\x7d now") := by
  decide +kernel
example : substituteGoal 4 (ascii "$\x7bgoal\x7doal\x7d") (ascii "$\x7bg") =
    some (ascii "$\x7bgoal\x7d") := by
  decide +kernel

end Euxis.Playbook
