import Euxis.Runtime.Budget
import Euxis.Session.Code

/-!
# The agent loop

`libs/runtime/src/agent_loop.cpp`: one turn takes an iteration from the budget, asks the context
engine for a plan, and calls the provider. Any engine will do.
-/

namespace Euxis.Runtime.AgentLoop

open Session (SessionMessage)

/-! ## Compaction -/

structure CompactionPlan where
  keepHead : Nat := 0
  keepTail : Nat := 0
  compactStart : Nat := 0
  compactEnd : Nat := 0
  summaryRole : Bytes := ascii "system"

def CompactionPlan.isEmpty (p : CompactionPlan) : Bool := decide (p.compactEnd ≤ p.compactStart)

/-- `IContextEngine::plan`: the messages, the estimated tokens and the context window. -/
abbrev Engine := List SessionMessage → Nat → Nat → CompactionPlan

def estimateTokens (messages : List SessionMessage) : Nat :=
  (messages.map fun m => m.content.length).sum / 4

/-! ## Turns -/

structure ProviderResponse where
  success : Bool := false
  output : Bytes := []
  error : Bytes := []
  inputTokens : Int := 0
  outputTokens : Int := 0
  durationMs : Bytes := ascii "0.0"

structure TurnResult where
  providerResponse : ProviderResponse := {}
  budgetConsumed : Bool := false
  compactionRecommended : Bool := false
  compactionPlan : CompactionPlan := {}
  messagesAfter : Nat := 0

/-- `remaining` is the counter of the budget, which starts at `budgetMax`. -/
structure Harness where
  budgetMax : Nat
  contextWindow : Nat
  engine : Engine
  remaining : Nat
  messages : List SessionMessage

def new (budgetMax contextWindow : Nat) (engine : Engine) : Harness where
  budgetMax := budgetMax
  contextWindow := contextWindow
  engine := engine
  remaining := budgetMax
  messages := []

def addMessage (h : Harness) (msg : SessionMessage) : Harness :=
  { h with messages := h.messages ++ [msg] }

def tryConsumeBudget (h : Harness) : Harness × Bool :=
  match Budget.next h.budgetMax .tryConsume h.remaining with
  | some remaining => ({ h with remaining }, true)
  | none => (h, false)

def checkCompaction (h : Harness) : CompactionPlan :=
  h.engine h.messages (estimateTokens h.messages) h.contextWindow

variable {ω : Type}

/-- What a provider answers and does to the world outside. -/
abbrev ProviderCall (ω : Type) := ω → ProviderResponse × ω

/-- `provider_call` may be empty. -/
def runTurn (h : Harness) (providerCall : Option (ProviderCall ω)) (world : ω) :
    Harness × ω × TurnResult :=
  let (h, consumed) := tryConsumeBudget h
  if !consumed then
    (h, world, { providerResponse := { error := ascii "budget exhausted" },
                 messagesAfter := h.messages.length })
  else
    let plan := checkCompaction h
    let (response, world) := match providerCall with
      | some call => call world
      | none => ({ error := ascii "no provider_call supplied" }, world)
    (h, world,
      { providerResponse := response
        budgetConsumed := true
        compactionRecommended := !plan.isEmpty
        compactionPlan := if plan.isEmpty then {} else plan
        messagesAfter := h.messages.length })

/-! ## Runs -/

inductive Command (ω : Type) where
  | addMessage (msg : SessionMessage)
  | tryConsumeBudget
  | runTurn (providerCall : Option (ProviderCall ω))

inductive Output where
  | added
  | consumed (ok : Bool)
  | turn (result : TurnResult)

def step (h : Harness) (world : ω) : Command ω → Harness × ω × Output
  | .addMessage msg => (addMessage h msg, world, .added)
  | .tryConsumeBudget =>
    let (h, ok) := tryConsumeBudget h
    (h, world, .consumed ok)
  | .runTurn providerCall =>
    let (h, world, result) := runTurn h providerCall world
    (h, world, .turn result)

def run (h : Harness) (world : ω) : List (Command ω) → Harness × ω × List Output
  | [] => (h, world, [])
  | c :: rest =>
    let (h, world, out) := step h world c
    let (h, world, outs) := run h world rest
    (h, world, out :: outs)

/-! ## What the commands ask for -/

def Command.consumes : Command ω → Bool
  | .addMessage _ => false
  | _ => true

def Command.added : Command ω → Option SessionMessage
  | .addMessage msg => some msg
  | _ => none

/-- What the command does outside when it is let through. -/
def Command.act (world : ω) : Command ω → ω
  | .runTurn (some call) => (call world).2
  | _ => world

/-- Whether the output is that of a command that asked for an iteration, and if it got one. -/
def Output.granted : Output → Option Bool
  | .added => none
  | .consumed ok => some ok
  | .turn result => some result.budgetConsumed

/-! ## Every run keeps to the budget -/

theorem tryConsumeBudget_some (h : Harness) (hr : 0 < h.remaining) :
    tryConsumeBudget h = ({ h with remaining := h.remaining - 1 }, true) := by
  rw [tryConsumeBudget, Budget.next, if_pos hr]

theorem tryConsumeBudget_none (h : Harness) (hr : h.remaining = 0) :
    tryConsumeBudget h = (h, false) := by
  rw [tryConsumeBudget, Budget.next, if_neg (by omega)]

theorem step_some (h : Harness) (world : ω) (c : Command ω) (hc : c.consumes = true)
    (hr : 0 < h.remaining) :
    ∃ out, step h world c = ({ h with remaining := h.remaining - 1 }, c.act world, out) ∧
      out.granted = some true := by
  cases c with
  | addMessage msg => exact absurd hc (by simp [Command.consumes])
  | tryConsumeBudget => exact ⟨.consumed true, by rw [step, tryConsumeBudget_some h hr]; rfl, rfl⟩
  | runTurn providerCall =>
    simp only [step, runTurn, tryConsumeBudget_some h hr]
    cases providerCall with
    | none => exact ⟨_, rfl, rfl⟩
    | some call => exact ⟨_, rfl, rfl⟩

theorem step_none (h : Harness) (world : ω) (c : Command ω) (hc : c.consumes = true)
    (hr : h.remaining = 0) :
    ∃ out, step h world c = (h, world, out) ∧ out.granted = some false := by
  cases c with
  | addMessage msg => exact absurd hc (by simp [Command.consumes])
  | tryConsumeBudget => exact ⟨.consumed false, by rw [step, tryConsumeBudget_none h hr], rfl⟩
  | runTurn providerCall =>
    simp only [step, runTurn, tryConsumeBudget_none h hr]
    exact ⟨_, rfl, rfl⟩

/-- What a run leaves: as many commands as the budget allows got their iteration, the first ones;
nothing else was done outside; and the conversation is what was added to it. -/
structure Metered (h : Harness) (world : ω) (commands : List (Command ω))
    (r : Harness × ω × List Output) : Prop where
  granted : r.2.2.filterMap Output.granted =
    List.replicate (min (commands.countP Command.consumes) h.remaining) true ++
      List.replicate (commands.countP Command.consumes - h.remaining) false
  world : r.2.1 = ((commands.filter Command.consumes).take h.remaining).foldl Command.act world
  messages : r.1.messages = h.messages ++ commands.filterMap Command.added
  remaining : r.1.remaining = h.remaining - commands.countP Command.consumes

theorem Metered.add {h : Harness} {world : ω} {msg : SessionMessage} {commands : List (Command ω)}
    {r : Harness × ω × List Output} (ih : Metered (addMessage h msg) world commands r) :
    Metered h world (.addMessage msg :: commands) (r.1, r.2.1, .added :: r.2.2) := by
  constructor
  · simpa [addMessage, Command.consumes, Output.granted, List.filterMap_cons] using ih.granted
  · simpa [addMessage, Command.consumes] using ih.world
  · simpa [addMessage, Command.added] using ih.messages
  · simpa [addMessage, Command.consumes] using ih.remaining

theorem Metered.grant {h : Harness} {world : ω} {c : Command ω} {commands : List (Command ω)}
    {out : Output} {r : Harness × ω × List Output} (hc : c.consumes = true) (hr : 0 < h.remaining)
    (hout : out.granted = some true)
    (ih : Metered { h with remaining := h.remaining - 1 } (c.act world) commands r) :
    Metered h world (c :: commands) (r.1, r.2.1, out :: r.2.2) := by
  have hadded : c.added = none := by cases c <;> simp_all [Command.consumes, Command.added]
  obtain ⟨n, hn⟩ : ∃ n, h.remaining = n + 1 := ⟨h.remaining - 1, by omega⟩
  obtain ⟨hgranted, hworld, hmessages, hremaining⟩ := ih
  simp only [hn, Nat.add_sub_cancel] at hgranted hworld hremaining
  constructor
  · rw [List.filterMap_cons_some hout, hgranted, List.countP_cons_of_pos hc, hn,
      Nat.add_min_add_right, Nat.add_sub_add_right]
    rfl
  · rw [hworld, List.filter_cons_of_pos hc, hn]
    rfl
  · rw [hmessages, List.filterMap_cons_none hadded]
  · rw [hremaining, List.countP_cons_of_pos hc]
    omega

theorem Metered.refuse {h : Harness} {world : ω} {c : Command ω} {commands : List (Command ω)}
    {out : Output} {r : Harness × ω × List Output} (hc : c.consumes = true) (hr : h.remaining = 0)
    (hout : out.granted = some false) (ih : Metered h world commands r) :
    Metered h world (c :: commands) (r.1, r.2.1, out :: r.2.2) := by
  have hadded : c.added = none := by cases c <;> simp_all [Command.consumes, Command.added]
  obtain ⟨hgranted, hworld, hmessages, hremaining⟩ := ih
  rw [hr] at hgranted hworld hremaining
  constructor
  · rw [List.filterMap_cons_some hout, hgranted, List.countP_cons_of_pos hc, hr]
    simp [List.replicate_succ]
  · rw [hworld, hr]
    rfl
  · rw [hmessages, List.filterMap_cons_none hadded]
  · rw [hremaining, hr]
    omega

/-- Whatever is asked of a harness, in any order. -/
theorem run_metered (h : Harness) (world : ω) (commands : List (Command ω)) :
    Metered h world commands (run h world commands) := by
  induction commands generalizing h world with
  | nil => constructor <;> simp [run]
  | cons c rest ih =>
    by_cases hc : c.consumes = true
    · by_cases hr : 0 < h.remaining
      · obtain ⟨out, hstep, hout⟩ := step_some h world c hc hr
        rw [run, hstep]
        exact (ih _ _).grant hc hr hout
      · have hzero : h.remaining = 0 := by omega
        obtain ⟨out, hstep, hout⟩ := step_none h world c hc hzero
        rw [run, hstep]
        exact (ih _ _).refuse hc hzero hout
    · cases c with
      | addMessage msg => exact (ih _ _).add
      | tryConsumeBudget => exact absurd rfl hc
      | runTurn providerCall => exact absurd rfl hc

end Euxis.Runtime.AgentLoop
