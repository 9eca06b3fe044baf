import Mathlib.Data.List.Dedup
import Euxis.Playbook.Consistency

/-!
# The agreement analysis counts the agents

The tally goes over the step verdicts, a map under step names, and the evidence log has one entry
for each agent. The two agree when every agent that was executed has an entry of its own in both.
-/

namespace Euxis.Playbook

open Trace

/-! ## Deliveries -/

/-- An agent thread that delivers its result. -/
structure Delivery where
  thread : AgentThread
  response : Response

namespace Delivery

def name (d : Delivery) : Bytes := d.thread.plan.name

def agentId (d : Delivery) : Bytes := d.thread.plan.agentId

def counts (d : Delivery) : Bool := d.response.counts d.thread.agentTimeout

end Delivery

def delivery (s : State) : Event → List Delivery
  | .complete i response => (s.threads[i]?.map fun thread => { thread, response }).toList
  | _ => []

/-- The agents that were executed, in the order of their results. -/
def deliveries (job : Job) (es : List Event) : List Delivery :=
  seen (step job) delivery (start job) es

/-- What the state keeps of the results so far. -/
structure Kept (s : State) (ds : List Delivery) : Prop where
  log : s.evidenceLog.map (·.agentId) = ds.map Delivery.agentId
  verdicts : ∀ name, name ∈ s.stepVerdicts ↔ name ∈ (ds.filter Delivery.counts).map Delivery.name

theorem record_kept (t : AgentThread) (isDegraded : Bool) (response : Response) (s : State)
    (ds : List Delivery) (h : Kept s ds) :
    Kept (record t isDegraded response s) (ds ++ [{ thread := t, response }]) := by
  unfold record
  split
  · rename_i hcounts
    constructor
    · simp [h.log, evidenceOf, Delivery.agentId]
    · intro name
      have hcounts : Delivery.counts { thread := t, response } = true := hcounts
      simp [AList.mem_insert, h.verdicts, List.filter_append, hcounts, Delivery.name, or_comm]
  · rename_i hcounts
    constructor
    · simp [h.log, failureOf, Delivery.agentId]
    · intro name
      have hcounts : ¬ Delivery.counts { thread := t, response } = true := hcounts
      simp [h.verdicts, List.filter_append, hcounts]

theorem step_kept (job : Job) (s : State) (e : Event) (s' : State) (ds : List Delivery)
    (h : Kept s ds) (hstep : step job s e = some s') : Kept s' (ds ++ delivery s e) := by
  cases step_move hstep with
  | body wallMs clock _ =>
    obtain ⟨hlog, hverdicts⟩ := loopBody_same job wallMs clock s
    change Kept _ (ds ++ [])
    rw [List.append_nil]
    refine ⟨?_, ?_⟩
    · rw [hlog, h.log]
    · rw [hverdicts]
      exact h.verdicts
  | complete i response t isDegraded ht _ =>
    have hdelivery : delivery s (.complete i response) =
        [{ thread := t, response }] := by simp [delivery, ht]
    rw [hdelivery]
    obtain ⟨hlog, hverdicts⟩ := record_kept t isDegraded response s ds h
    exact ⟨hlog, hverdicts⟩
  | _ =>
    change Kept _ (ds ++ [])
    rw [List.append_nil]
    exact ⟨h.log, h.verdicts⟩

theorem run_kept (job : Job) (es : List Event) (s : State)
    (h : run (step job) (fun _ _ => True) (start job) es = some s) :
    Kept s (deliveries job es) := by
  have hstart : Kept (start job) [] := ⟨rfl, by simp [start]⟩
  exact run_seen Kept (step_kept job) es (start job) s [] hstart h

/-! ## The two counts -/

theorem totalAgents_eq (verdicts : StepVerdicts) (log : List AgentEvidence) :
    (tally verdicts log).totalAgents = verdicts.entries.length := by
  unfold tally Tally.totalAgents StepVerdicts.positives StepVerdicts.negatives StepVerdicts.count
  dsimp only
  induction verdicts.entries with
  | nil => rfl
  | cons entry rest ih =>
    obtain ⟨name, status⟩ := entry
    simp only [List.countP_cons, List.length_cons]
    cases status <;> simp <;> omega

/-- The entries that are neither builtin nor of the claim verifier. -/
def agentEntries (log : List AgentEvidence) : Nat := log.countP fun ev => !isInfraId ev.agentId

theorem agentEntries_finalLog (checks : Checks) (log : List AgentEvidence) :
    agentEntries (finalLog checks log) = agentEntries log := by
  obtain ⟨f, own, heq, hf, hown⟩ := finalLog_split checks log
  have hzero : own.countP (fun ev => !isInfraId ev.agentId) = 0 := by
    rw [List.countP_eq_zero]
    intro ev hev
    simp [(hown ev hev).2]
  unfold agentEntries
  rw [heq, List.countP_append, hzero, List.countP_map, Nat.add_zero]
  congr 1
  funext ev
  simp [(hf ev).1]

section Counts

variable {s : State} {ds : List Delivery} (h : Kept s ds)

include h

theorem Kept.length_verdicts :
    s.stepVerdicts.entries.length =
      ((ds.filter Delivery.counts).map Delivery.name).dedup.length := by
  have hperm : s.stepVerdicts.keys.Perm ((ds.filter Delivery.counts).map Delivery.name).dedup := by
    rw [List.perm_ext_iff_of_nodup (AList.keys_nodup _) (List.nodup_dedup _)]
    intro name
    rw [List.mem_dedup]
    exact h.verdicts name
  rw [← hperm.length_eq]
  simp [AList.keys, List.keys]

theorem Kept.verdicts_full_iff : s.stepVerdicts.entries.length = ds.length ↔
    (∀ d ∈ ds, d.counts = true) ∧ (ds.map Delivery.name).Nodup := by
  rw [h.length_verdicts]
  constructor
  · intro heq
    have hfilter := List.length_filter_le Delivery.counts ds
    have hdedup := (List.dedup_sublist ((ds.filter Delivery.counts).map Delivery.name)).length_le
    rw [List.length_map] at hdedup
    have hall : ds.filter Delivery.counts = ds := List.filter_sublist.eq_of_length (by omega)
    refine ⟨List.filter_eq_self.mp hall, ?_⟩
    rw [hall] at heq
    rw [← List.dedup_eq_self]
    exact (List.dedup_sublist _).eq_of_length (by rw [heq, List.length_map])
  · rintro ⟨hall, hnodup⟩
    rw [List.filter_eq_self.mpr hall, hnodup.dedup, List.length_map]

theorem Kept.agentEntries_eq :
    agentEntries s.evidenceLog = ds.countP fun d => !isInfraId d.agentId := by
  have hmap : agentEntries s.evidenceLog = (s.evidenceLog.map (·.agentId)).countP fun id =>
      !isInfraId id := by
    rw [List.countP_map]
    rfl
  rw [hmap, h.log, List.countP_map]
  rfl

end Counts

/-- The tally counts so many agents, and so many entries of the log are of agents. -/
def CountsAgents (o : Outcome) (n : Nat) : Prop :=
  o.tally.passes + o.tally.fails + o.tally.partialCount + o.tally.timeoutCount = n ∧
    agentEntries o.evidenceLog = n

/-- **Every executed agent counts once.** The run keeps the two counts equal to the number of
executed agents exactly when every result counts, no two agents have a step name in common, and no
agent goes under the name of a check. -/
theorem agreement_counts_iff (job : Job) (es : List Event) (s : State)
    (h : run (step job) (fun _ _ => True) (start job) es = some s) (checks : Checks) :
    CountsAgents (conclude checks s) (deliveries job es).length ↔
      (∀ d ∈ deliveries job es, d.counts = true) ∧ ((deliveries job es).map Delivery.name).Nodup ∧
        ∀ d ∈ deliveries job es, ¬ isInfraId d.agentId = true := by
  have hkept := run_kept job es s h
  have htotal : (conclude checks s).tally.passes + (conclude checks s).tally.fails +
      (conclude checks s).tally.partialCount +
      (conclude checks s).tally.timeoutCount = s.stepVerdicts.entries.length :=
    totalAgents_eq s.stepVerdicts _
  have hentries : agentEntries (conclude checks s).evidenceLog = (deliveries job es).countP fun d =>
      !isInfraId d.agentId :=
    (agentEntries_finalLog checks s.evidenceLog).trans hkept.agentEntries_eq
  unfold CountsAgents
  rw [htotal, hkept.verdicts_full_iff, hentries, List.countP_eq_length, and_assoc]
  simp

theorem agreement_counts_two :
    ∃ s, run (step twoAgents) (fun _ _ => True) (start twoAgents) (answers passing failing) =
      some s ∧
    s.main = .done ∧ CountsAgents (conclude rustChecks s) 2 := by
  have hrun : (run (step twoAgents) (fun _ _ => True) (start twoAgents)
      (answers passing failing)).map
      (fun s => decide (s.main = .done)) = some true := by
    decide +kernel
  have hds : (deliveries twoAgents (answers passing failing)).length = 2 ∧
      (∀ d ∈ deliveries twoAgents (answers passing failing), d.counts = true) ∧
      ((deliveries twoAgents (answers passing failing)).map Delivery.name).Nodup ∧
      ∀ d ∈ deliveries twoAgents (answers passing failing), ¬ isInfraId d.agentId = true := by
    decide +kernel
  obtain ⟨s, hs, hend⟩ := Option.map_eq_some_iff.mp hrun
  have hcounts := (agreement_counts_iff twoAgents (answers passing failing) s hs rustChecks).mpr
    hds.2
  rw [hds.1] at hcounts
  exact ⟨s, hs, of_decide_eq_true hend, hcounts⟩

theorem broken_agent_uncounted : ¬ ∀ (job : Job) (es : List Event) (s : State) (checks : Checks),
    run (step job) (fun _ _ => True) (start job) es = some s → s.main = .done →
      (conclude checks s).tally.passes + (conclude checks s).tally.fails +
        (conclude checks s).tally.partialCount +
        (conclude checks s).tally.timeoutCount = agentEntries (conclude checks s).evidenceLog := by
  -- The sentinel could not be executed: two agents and two entries, and the tally counts one.
  intro h
  have hrun : (run (step twoAgents) (fun _ _ => True) (start twoAgents)
      (answers passing broken)).map
      (fun s => decide (s.main = .done ∧ (conclude rustChecks s).tally.totalAgents = 1 ∧
        agentEntries (conclude rustChecks s).evidenceLog = 2)) = some true := by
    decide +kernel
  obtain ⟨s, hs, hend⟩ := Option.map_eq_some_iff.mp hrun
  obtain ⟨hdone, hone, htwo⟩ := of_decide_eq_true hend
  have heq := h twoAgents (answers passing broken) s rustChecks hs hdone
  rw [htwo] at heq
  have : (conclude rustChecks s).tally.totalAgents = 2 := heq
  omega

end Euxis.Playbook
