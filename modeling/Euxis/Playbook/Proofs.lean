import Euxis.Trace
import Euxis.Playbook.Verdict

/-!
# The playbook verdict fails closed

A failed agent is seen by the verdict through its step verdict alone. So the runs that fail closed
are those in which every failure reaches the step verdicts and stays there.
-/

namespace Euxis.Playbook

open Trace

/-! ## Moves -/

/-- The step function, one constructor for each event. -/
inductive Move (job : Job) (s : State) : Event → State → Prop where
  | guard : s.main = .guard →
      Move job s .guard { s with
          main := if s.completedCount < s.plans.length then .body else .joining }
  | body (wallMs : Rat) (clock : Nat → Rat) : s.main = .body →
      Move job s (.body wallMs clock) (loopBody job wallMs clock s)
  | wake : s.main = .waiting → Move job s .wake { s with main := .guard }
  | context (i : Nat) (t : AgentThread) : s.threads[i]? = some t →
      Move job s (.context i) (readContext i t s)
  | failover (i : Nat) (t : AgentThread) : s.threads[i]? = some t →
      Move job s (.failover i) (readFailover i t s)
  | complete (i : Nat) (response : Response) (t : AgentThread) (isDegraded : Bool) :
      s.threads[i]? = some t →
      t.stage = .executing isDegraded →
      Move job s (.complete i response) (complete i t isDegraded response s)
  | join : s.main = .joining → Move job s .join { s with main := .done }

theorem step_move {job : Job} {s s' : State} {e : Event} (h : step job s e = some s') :
    Move job s e s' := by
  cases e with
  | guard =>
    simp only [step, Option.ite_none_right_eq_some, Option.some.injEq] at h
    obtain ⟨hmain, rfl⟩ := h
    exact .guard hmain
  | body wallMs clock =>
    simp only [step, Option.ite_none_right_eq_some, Option.some.injEq] at h
    obtain ⟨hmain, rfl⟩ := h
    exact .body wallMs clock hmain
  | wake =>
    simp only [step, Option.ite_none_right_eq_some, Option.some.injEq] at h
    obtain ⟨hmain, rfl⟩ := h
    exact .wake hmain.1
  | context i =>
    simp only [step] at h
    split at h
    · rename_i t ht
      simp only [Option.ite_none_right_eq_some, Option.some.injEq] at h
      obtain ⟨_, rfl⟩ := h
      exact .context i t ht
    · exact absurd h (by simp)
  | failover i =>
    simp only [step] at h
    split at h
    · rename_i t ht
      simp only [Option.ite_none_right_eq_some, Option.some.injEq] at h
      obtain ⟨_, rfl⟩ := h
      exact .failover i t ht
    · exact absurd h (by simp)
  | complete i response =>
    simp only [step] at h
    split at h
    · rename_i t ht
      split at h
      · rename_i isDegraded hstage
        rw [Option.some.injEq] at h
        subst h
        exact .complete i response t isDegraded ht hstage
      · exact absurd h (by simp)
    · exact absurd h (by simp)
  | join =>
    simp only [step, Option.ite_none_right_eq_some, Option.some.injEq] at h
    obtain ⟨hmain, rfl⟩ := h
    exact .join hmain.1

/-! ## The escalation -/

theorem injectStep_foldl (job : Job) (s : State) (idxs : List Nat) (plans : List Planned) :
    ∃ extra, idxs.foldl (injectStep job s) plans = plans ++ extra ∧
      ∀ p ∈ extra, p.started = false ∧ ∀ d ∈ p.plan.depends, d ∈ s.stepOutputs := by
  induction idxs generalizing plans with
  | nil => exact ⟨[], by simp, by simp⟩
  | cons idx idxs ih =>
    obtain ⟨extra, heq, hextra⟩ := ih (injectStep job s plans idx)
    rw [List.foldl_cons, heq]
    unfold injectStep
    split
    · exact ⟨extra, rfl, hextra⟩
    · split
      · exact ⟨extra, rfl, hextra⟩
      · rename_i step _ _
        refine ⟨{ plan := escalationPlan job s step, started := false } :: extra, by simp, ?_⟩
        intro p hp
        rcases List.mem_cons.mp hp with rfl | hp
        · refine ⟨rfl, fun d hd => ?_⟩
          simpa [escalationPlan] using (List.mem_filter.mp hd).2
        · exact hextra p hp

theorem escalate_cases (job : Job) (s : State) :
    (∃ decisive, escalate job s = { s with triageAnyDecisive := decisive }) ∨
    (∃ decisive reason, escalate job s =
      { s with triageAnyDecisive := decisive, escalationReason := some reason,
               escalationSuppressed := true }) ∨
    ∃ decisive reason extra,
      (∀ p ∈ extra, p.started = false ∧ ∀ d ∈ p.plan.depends, d ∈ s.stepOutputs) ∧
      escalate job s =
        { s with
          triageAnyDecisive := decisive, escalationReason := some reason, escalated := true,
          mode := .standard
          plans := s.plans ++ extra } := by
  unfold escalate
  split
  · dsimp only
    split
    · exact Or.inl ⟨_, rfl⟩
    · rename_i reason _
      split
      · exact Or.inr (Or.inl ⟨_, reason, rfl⟩)
      · obtain ⟨extra, hplans, hextra⟩ := injectStep_foldl job _ [1, 3, 4, 8] s.plans
        rw [hplans]
        exact Or.inr (Or.inr ⟨_, reason, extra, hextra, rfl⟩)
  · exact Or.inl ⟨s.triageAnyDecisive, rfl⟩

/-! ## What a step can do to the evidence -/

/-- The part of the state that the verdict is read from. -/
def SameEvidence (s s' : State) : Prop :=
  s'.evidenceLog = s.evidenceLog ∧ s'.stepVerdicts = s.stepVerdicts

theorem escalate_same (job : Job) (s : State) : SameEvidence s (escalate job s) := by
  obtain ⟨_, h⟩ | ⟨_, _, h⟩ | ⟨_, _, _, _, h⟩ := escalate_cases job s
  all_goals
    rw [h]
    exact ⟨rfl, rfl⟩

theorem loopBody_same (job : Job) (wallMs : Rat) (clock : Nat → Rat) (s : State) :
    SameEvidence s (loopBody job wallMs clock s) := by
  unfold loopBody
  split
  · exact ⟨rfl, rfl⟩
  · split
    · exact ⟨rfl, rfl⟩
    · exact escalate_same job s

theorem step_evidence (job : Job) (s s' : State) (e : Event) (h : step job s e = some s') :
    SameEvidence s s' ∨
      ∃ i response t isDegraded, e = .complete i response ∧ s.threads[i]? = some t ∧
        t.stage = .executing isDegraded ∧ s' = complete i t isDegraded response s := by
  cases step_move h with
  | body wallMs clock _ => exact Or.inl (loopBody_same job wallMs clock s)
  | complete i response t isDegraded ht hstage =>
    exact Or.inr ⟨i, response, t, isDegraded, rfl, ht, hstage, rfl⟩
  | _ => exact Or.inl ⟨rfl, rfl⟩

/-! ## The condition on a run -/

/-- The completion of an agent loses no failure: an answer that counts does not replace a recorded
`FAILED` by something else, and no agent of the manifest fails to execute. -/
def keepsFailures (s : State) (t : AgentThread) (isDegraded : Bool) (response : Response) : Bool :=
  if response.counts t.agentTimeout then
    s.stepVerdicts.lookup t.plan.name ≠ some .failed ∨ statusOf t isDegraded response = .failed
  else isInfraId t.plan.agentId

def eventKeepsFailures (s : State) : Event → Bool
  | .complete i response =>
    match s.threads[i]? with
    | some t =>
      match t.stage with
      | .executing isDegraded => keepsFailures s t isDegraded response
      | _ => true
    | none => true
  | _ => true

/-- The runs in which every completion keeps the failures. -/
abbrev FailureKeeping (job : Job) : State → Prop :=
  Reaches (step job) (fun s e => eventKeepsFailures s e) (start job)

/-- Every failure in the log is one the verdict takes into account. -/
def Accounted (verdicts : StepVerdicts) (log : List AgentEvidence) : Prop :=
  ∀ ev ∈ log, ev.verdict = .failed → isInfraId ev.agentId ∨
    verdicts.lookup ev.agentName = some .failed

theorem record_accounted (t : AgentThread) (isDegraded : Bool) (response : Response) (s : State)
    (hs : Accounted s.stepVerdicts s.evidenceLog) (hk : keepsFailures s t isDegraded response) :
    Accounted (record t isDegraded response s).stepVerdicts
      (record t isDegraded response s).evidenceLog := by
  unfold keepsFailures at hk
  unfold record
  split at hk
  · rename_i hcounts
    rw [if_pos hcounts]
    simp only [decide_eq_true_eq] at hk
    intro ev hev hfailed
    simp only [List.mem_append, List.mem_singleton] at hev
    rcases hev with hev | rfl
    · rcases hs ev hev hfailed with hinfra | hlookup
      · exact Or.inl hinfra
      · refine Or.inr ?_
        -- The new state goes under the step's name: a failure recorded there before is overwritten.
        by_cases hname : ev.agentName = t.plan.name
        · rw [hname] at hlookup ⊢
          rw [AList.lookup_insert, hk.resolve_left (not_not_intro hlookup)]
        · rw [AList.lookup_insert_ne hname]
          exact hlookup
    · refine Or.inr ?_
      simp only [evidenceOf] at hfailed ⊢
      rw [AList.lookup_insert, hfailed]
  · rename_i hcounts
    rw [if_neg hcounts]
    intro ev hev hfailed
    simp only [List.mem_append, List.mem_singleton] at hev
    rcases hev with hev | rfl
    · exact hs ev hev hfailed
    · exact Or.inl hk

theorem step_accounted (job : Job) (s : State) (e : Event) (s' : State)
    (hs : Accounted s.stepVerdicts s.evidenceLog) (hk : eventKeepsFailures s e)
    (h : step job s e = some s') : Accounted s'.stepVerdicts s'.evidenceLog := by
  rcases step_evidence job s s' e h with ⟨hlog, hverdicts⟩ | ⟨i, response, t, isDegraded, rfl, ht,
    hstage, rfl⟩
  · rw [hlog, hverdicts]
    exact hs
  · simp only [eventKeepsFailures, ht, hstage] at hk
    exact record_accounted t isDegraded response s hs hk

theorem reaches_accounted (job : Job) (s : State) (h : FailureKeeping job s) :
    Accounted s.stepVerdicts s.evidenceLog := by
  apply h.keeps (fun s => Accounted s.stepVerdicts s.evidenceLog)
  · intro ev hev
    exact absurd hev (by simp [start])
  · intro s e s' hs hk hstep
    exact step_accounted job s e s' hs hk hstep

/-! ## From the log to the verdict -/

theorem mem_upgradeClaims (n : Int) (log : List AgentEvidence) (ev : AgentEvidence)
    (h : ev ∈ upgradeClaims n log) :
    ∃ ev' ∈ log, ev.agentName = ev'.agentName ∧ ev.agentId = ev'.agentId ∧
      ev.verdict = ev'.verdict := by
  unfold upgradeClaims at h
  split at h
  · obtain ⟨ev', hev', rfl⟩ := List.mem_map.mp h
    exact ⟨ev', hev', rfl, rfl, rfl⟩
  · exact ⟨ev, h, rfl, rfl, rfl⟩

theorem isInfraId_checks : isInfraId (ascii "claim-verifier") ∧
    isInfraId (ascii "builtin-testing") ∧ isInfraId (ascii "builtin-security") := by
  decide

theorem withVerifiers_accounted (verdicts : StepVerdicts) (verifications : List VerificationResult)
    (log : List AgentEvidence) (h : Accounted verdicts log) :
    Accounted verdicts (withVerifiers verifications log) := by
  unfold withVerifiers
  split
  · exact h
  · intro ev hev hfailed
    simp only [List.mem_append] at hev
    rcases hev with hev | hev
    · obtain ⟨ev', hev', hname, hid, hverdict⟩ := mem_upgradeClaims _ log ev hev
      rw [hname, hid]
      exact h ev' hev' (hverdict ▸ hfailed)
    · obtain ⟨vr, _, rfl⟩ := List.mem_map.mp hev
      exact Or.inl isInfraId_checks.1

theorem withBuiltins_accounted (verdicts : StepVerdicts) (checks : Checks)
    (log : List AgentEvidence) (h : Accounted verdicts log) :
    Accounted verdicts (withBuiltins checks log) := by
  unfold withBuiltins
  split
  · intro ev hev hfailed
    simp only [List.mem_append, List.mem_map] at hev
    rcases hev with (hev | ⟨check, _, rfl⟩) | ⟨check, _, rfl⟩
    · exact h ev hev hfailed
    · exact Or.inl isInfraId_checks.2.1
    · exact Or.inl isInfraId_checks.2.2
  · exact h

theorem finalLog_accounted (verdicts : StepVerdicts) (checks : Checks) (log : List AgentEvidence)
    (h : Accounted verdicts log) : Accounted verdicts (finalLog checks log) :=
  withBuiltins_accounted verdicts checks _
    (withVerifiers_accounted verdicts checks.verifications log h)

theorem negatives_pos (verdicts : StepVerdicts) (name : Bytes)
    (h : verdicts.lookup name = some .failed) : 0 < verdicts.negatives := by
  unfold StepVerdicts.negatives StepVerdicts.count
  rw [List.countP_pos_iff]
  exact ⟨⟨name, .failed⟩, AList.mem_lookup_iff.mp h, by simp⟩

/-- A negative signal: a failure, or a time-out of an agent that had emitted `FAIL`. -/
def AgentEvidence.negative (ev : AgentEvidence) : Bool :=
  ev.verdict = .failed ∨ (ev.verdict = .timeout ∧ ev.rawVerdict = .fail)

theorem effectiveFails_pos (verdicts : StepVerdicts) (log : List AgentEvidence)
    (h : Accounted verdicts log) (ev : AgentEvidence) (hev : ev ∈ log) (hneg : ev.negative) :
    0 < (tally verdicts log).effectiveFails := by
  unfold Tally.effectiveFails tally
  simp only
  simp only [AgentEvidence.negative, decide_eq_true_eq] at hneg
  rcases hneg with hfailed | ⟨htimeout, hraw⟩
  · rcases h ev hev hfailed with hinfra | hlookup
    · have : 0 < log.countP fun ev => isInfraId ev.agentId ∧ ev.verdict = .failed := by
        rw [List.countP_pos_iff]
        exact ⟨ev, hev, by simp [hinfra, hfailed]⟩
      omega
    · have := negatives_pos verdicts ev.agentName hlookup
      omega
  · have : 0 < log.countP fun ev => ev.rawVerdict = .fail ∧ ev.verdict ≠ .failed := by
      rw [List.countP_pos_iff]
      exact ⟨ev, hev, by simp [htimeout, hraw]⟩
    omega

theorem verdictText_of_fails (t : Tally) (c : Int) (h : 0 < t.effectiveFails) :
    verdictText t c = .inconclusive ∨ verdictText t c = .blocked := by
  unfold verdictText Tally.hasContradiction
  by_cases hp : 0 < t.passes
  · left
    rw [if_pos (by simp [hp, h])]
  · right
    rw [if_neg (by simp [hp]), if_pos ⟨h, by omega⟩]

theorem conclude_of_fails (checks : Checks) (s : State)
    (h : 0 < (conclude checks s).tally.effectiveFails) :
    (conclude checks s).verdictText = .inconclusive ∨
      (conclude checks s).verdictText = .blocked := by
  unfold conclude concludeWith at h ⊢
  simp only at h ⊢
  rcases verdictText_of_fails _ _ h with hv | hv
  · left
    rw [hv]
    simp [suppressedCap, consistencyCap, Verdict.positive]
  · right
    rw [hv]
    simp [suppressedCap, consistencyCap, Verdict.positive]

theorem exitCode_ne_zero (gate : HumanGate) (policyViolated : Bool) (o : Outcome) (h : o.negative) :
    exitCode gate policyViolated o ≠ 0 := by
  have hv : verdictCode policyViolated o ≠ 0 := by
    unfold verdictCode
    split
    · simp
    · simp
  unfold exitCode
  split
  · simp
  · simp
  · exact hv

/-! ## Fail closed -/

/-- In a run that keeps the failures, a negative entry of the final log leaves neither a positive
verdict nor the exit code 0. -/
theorem verdict_fails_closed (job : Job) (s : State) (h : FailureKeeping job s) (checks : Checks)
    (gate : HumanGate) (policyViolated : Bool)
    (hneg : ∃ ev ∈ (conclude checks s).evidenceLog, ev.negative) :
    (conclude checks s).verdictText ≠ .trusted ∧
      (conclude checks s).verdictText ≠ .trustedWithGaps ∧
      exitCode gate policyViolated (conclude checks s) ≠ 0 := by
  obtain ⟨ev, hev, hev_neg⟩ := hneg
  have hacc := finalLog_accounted s.stepVerdicts checks s.evidenceLog (reaches_accounted job s h)
  have hfails : 0 < (conclude checks s).tally.effectiveFails :=
    effectiveFails_pos s.stepVerdicts _ hacc ev hev hev_neg
  have hcode : exitCode gate policyViolated (conclude checks s) ≠ 0 := by
    apply exitCode_ne_zero
    simp [Outcome.negative, hfails]
  rcases conclude_of_fails checks s hfails with hv | hv
  · rw [hv]
    exact ⟨by simp, by simp, hcode⟩
  · rw [hv]
    exact ⟨by simp, by simp, hcode⟩

/-- An architect and a sentinel, both on a local provider. -/
def twoAgents : Job :=
  { manifest := .steps
      [{ name := some (ascii "Structure"), agent := some (ascii "architect"),
         pillar := some (ascii "structure"),
         depends := [] },
       { name := some (ascii "Runtime safety"), agent := some (ascii "sentinel"),
         pillar := some (ascii "safety"), depends := [] }]
    mode := .forensic
    ciMode := false
    route := fun _ _ => ascii "ollama" }

def passing : Response :=
  { success := true, output := ascii "all tests passed\nVERDICT: PASS", exitCode := 0,
    durationMs := 1000 }

def failing : Response :=
  { success := true, output := ascii "secrets in the test log\nVERDICT: FAIL", exitCode := 0,
    durationMs := 1000 }

/-- The provider could not be started. -/
def broken : Response := { success := false, output := [], exitCode := 1, durationMs := 500 }

/-- Both agents are launched, the architect passes, and the sentinel answers with `response`. -/
def schedule (response : Response) : List Event :=
  [.guard, .body 0 fun _ => 0, .context 0, .failover 0, .complete 0 passing, .context 0,
    .failover 0, .complete 0 response, .guard, .join]

/-- A Rust project whose build and tests pass. -/
def rustChecks : Checks :=
  { verifications := [{ checkName := ascii "cargo-check", success := true },
      { checkName := ascii "cargo-test", success := true }]
    testing := [{ name := ascii "test-infrastructure", status := .detected, claims := 1,
                  executionBacked := 1 },
      { name := ascii "test-file-count", status := .detected, claims := 1, executionBacked := 1 }]
    security := [{ name := ascii "secret-scan", status := .passing, claims := 1,
                   executionBacked := 1 }] }

theorem verdict_fails_closed_failing : ∃ s, FailureKeeping twoAgents s ∧ s.main = .done ∧
    (∃ ev ∈ (conclude rustChecks s).evidenceLog, ev.negative) ∧
    (conclude rustChecks s).verdictText ≠ .trusted ∧
    (conclude rustChecks s).verdictText ≠ .trustedWithGaps ∧
      exitCode .notAsked false (conclude rustChecks s) ≠ 0 := by
  have hrun : (run (step twoAgents) (fun s e => eventKeepsFailures s e) (start twoAgents)
      (schedule failing)).map (fun s => decide (s.main = .done ∧
        ∃ ev ∈ (conclude rustChecks s).evidenceLog, ev.negative)) = some true := by
    decide +kernel
  obtain ⟨s, hs, hend⟩ := Option.map_eq_some_iff.mp hrun
  obtain ⟨hdone, hneg⟩ := of_decide_eq_true hend
  have hreach : FailureKeeping twoAgents s := Reaches.of_run (schedule failing) .start hs
  exact ⟨s, hreach, hdone, hneg,
    verdict_fails_closed twoAgents s hreach rustChecks .notAsked false hneg⟩

theorem broken_agent_trusted : ¬ ∀ (job : Job) (s : State) (checks : Checks) (gate : HumanGate)
    (policyViolated : Bool), Reaches (step job) (fun _ _ => True) (start job) s → s.main = .done →
      (∃ ev ∈ (conclude checks s).evidenceLog, ev.negative) →
      (conclude checks s).verdictText ≠ .trusted ∧
      (conclude checks s).verdictText ≠ .trustedWithGaps ∧
        exitCode gate policyViolated (conclude checks s) ≠ 0 := by
  -- The sentinel could not be executed: the log says `FAILED`, and the exit code is 0.
  intro h
  have hrun : (run (step twoAgents) (fun _ _ => True) (start twoAgents) (schedule broken)).map
      (fun s => decide (s.main = .done ∧ (∃ ev ∈ (conclude rustChecks s).evidenceLog, ev.negative) ∧
        exitCode .notAsked false (conclude rustChecks s) = 0)) = some true := by
    decide +kernel
  obtain ⟨s, hs, hend⟩ := Option.map_eq_some_iff.mp hrun
  obtain ⟨hdone, hneg, hcode⟩ := of_decide_eq_true hend
  have hreach : Reaches (step twoAgents) (fun _ _ => True) (start twoAgents) s :=
    Reaches.of_run (schedule broken) .start hs
  exact (h twoAgents s rustChecks .notAsked false hreach hdone hneg).2.2 hcode

end Euxis.Playbook
