import Euxis.Playbook.Proofs

/-!
# The trust engine and its own checker

The engine counts step verdicts, the checker entries of the log. They disagree on what a check of
the tool adds to the passes, and on the agents that could not be executed, which no step verdict
knows of.
-/

namespace Euxis.Playbook

open Trace

/-! ## The log of a run -/

/-- What the engine relies on: a failed step verdict comes from a failed entry, and an agent that
emitted `FAIL` failed or ran out of time. -/
structure Sound (verdicts : StepVerdicts) (log : List AgentEvidence) : Prop where
  failed : 0 < verdicts.negatives → ∃ ev ∈ log, ev.verdict = .failed
  raw : ∀ ev ∈ log, ev.rawVerdict = .fail → ev.verdict ≠ .failed → ev.verdict = .timeout

theorem classifyAgentStatus_fail (timedOut isDegraded : Bool) (durationMs budgetMs : Rat)
    (h : classifyAgentStatus .fail timedOut isDegraded durationMs budgetMs ≠ .failed) :
    classifyAgentStatus .fail timedOut isDegraded durationMs budgetMs = .timeout := by
  unfold classifyAgentStatus at h ⊢
  split
  · rfl
  · rename_i htime
    rw [if_neg htime] at h
    exact absurd rfl h

theorem negatives_insert (verdicts : StepVerdicts) (name : Bytes) (status : Status)
    (h : 0 < StepVerdicts.negatives (verdicts.insert name status)) :
    status = .failed ∨ 0 < verdicts.negatives := by
  unfold StepVerdicts.negatives StepVerdicts.count at h
  obtain ⟨⟨n, v⟩, hmem, hv⟩ := List.countP_pos_iff.mp h
  simp only [decide_eq_true_eq] at hv
  subst hv
  have hlookup := AList.mem_lookup_iff.mpr hmem
  by_cases hname : n = name
  · subst hname
    rw [AList.lookup_insert, Option.mem_some_iff] at hlookup
    exact Or.inl hlookup
  · rw [AList.lookup_insert_ne hname] at hlookup
    exact Or.inr (negatives_pos verdicts n hlookup)

theorem record_sound (t : AgentThread) (isDegraded : Bool) (response : Response) (s : State)
    (hs : Sound s.stepVerdicts s.evidenceLog) :
    Sound (record t isDegraded response s).stepVerdicts
      (record t isDegraded response s).evidenceLog := by
  unfold record
  split
  · constructor
    · intro h
      simp only [List.mem_append, List.mem_singleton]
      rcases negatives_insert _ _ _ h with hstatus | hneg
      · exact ⟨evidenceOf t isDegraded response, Or.inr rfl, hstatus⟩
      · obtain ⟨ev, hev, hfailed⟩ := hs.failed hneg
        exact ⟨ev, Or.inl hev, hfailed⟩
    · intro ev hev hraw hne
      simp only [List.mem_append, List.mem_singleton] at hev
      rcases hev with hev | rfl
      · exact hs.raw ev hev hraw hne
      · simp only [evidenceOf, statusOf] at hraw hne ⊢
        rw [hraw] at hne ⊢
        -- A raw `FAIL` that is not recorded as failed was a timeout.
        exact classifyAgentStatus_fail _ _ _ _ hne
  · constructor
    · intro h
      obtain ⟨ev, hev, hfailed⟩ := hs.failed h
      exact ⟨ev, List.mem_append_left _ hev, hfailed⟩
    · intro ev hev hraw hne
      simp only [List.mem_append, List.mem_singleton] at hev
      rcases hev with hev | rfl
      · exact hs.raw ev hev hraw hne
      · exact absurd rfl hne

theorem step_sound (job : Job) (s : State) (e : Event) (s' : State)
    (hs : Sound s.stepVerdicts s.evidenceLog) (h : step job s e = some s') :
    Sound s'.stepVerdicts s'.evidenceLog := by
  rcases step_evidence job s s' e h with ⟨hlog, hverdicts⟩ | ⟨i, response, t, isDegraded,
    _, _, _, rfl⟩
  · rw [hlog, hverdicts]
    exact hs
  · exact record_sound t isDegraded response s hs

theorem reaches_sound (job : Job) (s : State)
    (h : Reaches (step job) (fun _ _ => True) (start job) s) :
    Sound s.stepVerdicts s.evidenceLog := by
  apply h.keeps (fun s => Sound s.stepVerdicts s.evidenceLog)
  · refine ⟨?_, ?_⟩
    · intro hneg
      exact absurd hneg (by simp [start, StepVerdicts.negatives, StepVerdicts.count])
    · intro ev hev
      exact absurd hev (by simp [start])
  · intro s e s' hs _ hstep
    exact step_sound job s e s' hs hstep

/-! ## The checks of the tool -/

theorem upgradeClaims_map (n : Int) (log : List AgentEvidence) :
    ∃ f : AgentEvidence → AgentEvidence, upgradeClaims n log = log.map f ∧
      ∀ ev, (f ev).agentId = ev.agentId ∧ (f ev).verdict = ev.verdict ∧
        (f ev).rawVerdict = ev.rawVerdict := by
  unfold upgradeClaims
  split
  · exact ⟨_, rfl, fun _ => ⟨rfl, rfl, rfl⟩⟩
  · exact ⟨id, by simp, fun _ => ⟨rfl, rfl, rfl⟩⟩

theorem asRaw_ne_fail (status : Status) : status.asRaw ≠ .fail := by
  cases status <;> simp [Status.asRaw]

theorem finalLog_split (checks : Checks) (log : List AgentEvidence) :
    ∃ (f : AgentEvidence → AgentEvidence) (own : List AgentEvidence),
      finalLog checks log = log.map f ++ own ∧
      (∀ ev, (f ev).agentId = ev.agentId ∧ (f ev).verdict = ev.verdict ∧
        (f ev).rawVerdict = ev.rawVerdict) ∧
      ∀ ev ∈ own, ev.rawVerdict ≠ .fail ∧ isInfraId ev.agentId := by
  -- The verifiers upgrade claims in place and add entries of their own behind.
  have hverifiers : ∃ (f : AgentEvidence → AgentEvidence) (own : List AgentEvidence),
      withVerifiers checks.verifications log = log.map f ++ own ∧
      (∀ ev, (f ev).agentId = ev.agentId ∧ (f ev).verdict = ev.verdict ∧
        (f ev).rawVerdict = ev.rawVerdict) ∧
      ∀ ev ∈ own, ev.rawVerdict ≠ .fail ∧ isInfraId ev.agentId := by
    unfold withVerifiers
    split
    · exact ⟨id, [], by simp, fun _ => ⟨rfl, rfl, rfl⟩, by simp⟩
    · dsimp only
      obtain ⟨f, hmap, hf⟩ := upgradeClaims_map
        ((checks.verifications.filter (·.success)).map (·.claimsUpgraded)).sum log
      refine ⟨f, _, by rw [hmap], hf, ?_⟩
      intro ev hev
      obtain ⟨vr, _, rfl⟩ := List.mem_map.mp hev
      exact ⟨asRaw_ne_fail _, isInfraId_checks.1⟩
  obtain ⟨f, own, heq, hf, hown⟩ := hverifiers
  unfold finalLog withBuiltins
  split
  · refine ⟨f, own ++ (checks.testing.map testingEntry ++ checks.security.map securityEntry), ?_,
      hf, ?_⟩
    · rw [heq]
      simp only [List.append_assoc]
    · intro ev hev
      simp only [List.mem_append, List.mem_map] at hev
      rcases hev with hev | ⟨check, _, rfl⟩ | ⟨check, _, rfl⟩
      · exact hown ev hev
      · exact ⟨asRaw_ne_fail _, isInfraId_checks.2.1⟩
      · exact ⟨asRaw_ne_fail _, isInfraId_checks.2.2⟩
  · exact ⟨f, own, heq, hf, hown⟩

theorem finalLog_sound (verdicts : StepVerdicts) (checks : Checks) (log : List AgentEvidence)
    (h : Sound verdicts log) : Sound verdicts (finalLog checks log) := by
  obtain ⟨f, own, heq, hf, hown⟩ := finalLog_split checks log
  rw [heq]
  constructor
  · intro hneg
    obtain ⟨ev, hev, hfailed⟩ := h.failed hneg
    refine ⟨f ev, List.mem_append_left _ (List.mem_map_of_mem hev), ?_⟩
    rw [(hf ev).2.1]
    exact hfailed
  · intro ev hev hraw hne
    rcases List.mem_append.mp hev with hev | hev
    · obtain ⟨ev', hev', rfl⟩ := List.mem_map.mp hev
      rw [(hf ev').2.2] at hraw
      rw [(hf ev').2.1] at hne ⊢
      exact h.raw ev' hev' hraw hne
    · exact absurd hraw (hown ev hev).1

/-! ## The rules of the checker -/

/-- The failures that the checker counts. -/
def checkedFails (log : List AgentEvidence) : Nat :=
  log.countP (fun ev => ev.verdict = .failed) +
    log.countP fun ev => ev.verdict = .timeout ∧ ev.rawVerdict = .fail

theorem violationIf_nil (p : Bool) (rule detail : String) :
    violationIf p rule detail = [] ↔ p = false := by
  unfold violationIf
  cases p <;> simp

theorem consistent_blocked (log : List AgentEvidence) (c : Int) (n : Nat) :
    verifyVerdictConsistency .blocked log c n = [] ↔
      0 < checkedFails log ∧ ¬ ∃ ev ∈ log, ev.verdict = .pass := by
  have hpasses : (log.countP fun ev => ev.verdict = .pass) = 0 ↔ ¬ ∃ ev ∈ log,
      ev.verdict = .pass := by
    simp [List.countP_eq_zero]
  rw [← hpasses, Nat.pos_iff_ne_zero, ← Nat.le_zero, ← not_lt, ← not_or]
  unfold checkedFails verifyVerdictConsistency
  simp [violationIf_nil, Verdict.positive, -List.countP_eq_zero, -List.countP_pos_iff,
    -Nat.add_eq_zero_iff]

theorem consistent_inconclusive (log : List AgentEvidence) (c : Int) (n : Nat) :
    verifyVerdictConsistency .inconclusive log c n = [] ↔ n ≠ 0 := by
  simp [verifyVerdictConsistency, violationIf_nil, Verdict.positive]

theorem consistent_caution (log : List AgentEvidence) (c : Int) (n : Nat) :
    verifyVerdictConsistency .caution log c n = [] := by
  simp [verifyVerdictConsistency, violationIf_nil, Verdict.positive]

theorem consistent_trustedWithGaps (log : List AgentEvidence) (c : Int) (n : Nat) :
    verifyVerdictConsistency .trustedWithGaps log c n = [] ↔ checkedFails log ≤ log.length / 2 := by
  cases log with
  | nil => simp [verifyVerdictConsistency, violationIf_nil, checkedFails]
  | cons ev log => simp [verifyVerdictConsistency, violationIf_nil, Verdict.positive, checkedFails]

theorem consistent_trusted (log : List AgentEvidence) (c : Int) (n : Nat)
    (h : verifyVerdictConsistency .trusted log c n = []) :
    verifyVerdictConsistency .trustedWithGaps log c n = [] := by
  unfold verifyVerdictConsistency at h ⊢
  simp only [List.append_eq_nil_iff, violationIf_nil] at h ⊢
  simpa [Verdict.positive] using h.2

/-! ## The engine against the checker -/

theorem contradictions_ne_nil (t : Tally) (log : List AgentEvidence) (h : t.hasContradiction) :
    (contradictions t log).length ≠ 0 := by
  unfold contradictions
  rw [if_pos h]
  split
  · simp
  · rename_i hne
    simpa using hne

theorem checkedFails_pos (verdicts : StepVerdicts) (log : List AgentEvidence)
    (hs : Sound verdicts log) (h : 0 < (tally verdicts log).effectiveFails) :
    0 < checkedFails log := by
  have hfailed : (∃ ev ∈ log, ev.verdict = .failed) → 0 < checkedFails log := by
    rintro ⟨ev, hev, hv⟩
    have : 0 < log.countP fun ev => ev.verdict = .failed := by
      rw [List.countP_pos_iff]
      exact ⟨ev, hev, by simp [hv]⟩
    unfold checkedFails
    omega
  unfold Tally.effectiveFails tally at h
  simp only at h
  -- The engine's failures are of three kinds, and the checker sees each of them in the log.
  by_cases hneg : 0 < verdicts.negatives
  · exact hfailed (hs.failed hneg)
  by_cases hinfra : 0 < log.countP fun ev => isInfraId ev.agentId ∧ ev.verdict = .failed
  · obtain ⟨ev, hev, hv⟩ := List.countP_pos_iff.mp hinfra
    simp only [decide_eq_true_eq] at hv
    exact hfailed ⟨ev, hev, hv.2⟩
  have hraw : 0 < log.countP fun ev => ev.rawVerdict = .fail ∧ ev.verdict ≠ .failed := by omega
  obtain ⟨ev, hev, hv⟩ := List.countP_pos_iff.mp hraw
  simp only [decide_eq_true_eq] at hv
  have : 0 < log.countP fun ev => ev.verdict = .timeout ∧ ev.rawVerdict = .fail := by
    rw [List.countP_pos_iff]
    exact ⟨ev, hev, by simp [hs.raw ev hev hv.1 hv.2, hv.1]⟩
  unfold checkedFails
  omega

/-- The verdict that is left breaks no rule. -/
def Outcome.consistent (o : Outcome) : Prop :=
  verifyVerdictConsistency o.verdictText o.evidenceLog o.confidence o.contradictions.length = []

instance (o : Outcome) : Decidable o.consistent :=
  decidable_of_iff ((verifyVerdictConsistency o.verdictText o.evidenceLog o.confidence
    o.contradictions.length).isEmpty) List.isEmpty_iff

theorem hasContradiction_of_no_fails (t : Tally) (h : t.effectiveFails = 0) :
    t.hasContradiction = false := by
  simp [Tally.hasContradiction, h]

theorem verdictText_of_no_fails (t : Tally) (c : Int) (h : t.effectiveFails = 0) :
    (60 ≤ c ∧ (verdictText t c).positive) ∨ (c < 60 ∧ verdictText t c = .caution) := by
  unfold verdictText
  rw [hasContradiction_of_no_fails t h, if_neg (by simp), if_neg (by omega)]
  by_cases h60 : 60 ≤ c
  · refine Or.inl ⟨h60, ?_⟩
    split
    · rfl
    · rw [if_pos ⟨h60, h⟩]
      rfl
  · refine Or.inr ⟨by omega, ?_⟩
    rw [if_neg (by omega), if_neg (by omega)]

theorem consistent_capped (v : Verdict) (hv : v.positive) (log : List AgentEvidence)
    (c : Int) (n : Nat) :
    verifyVerdictConsistency (consistencyCap (verifyVerdictConsistency v log c n) v) log c n = [] ↔
      checkedFails log ≤ log.length / 2 := by
  rw [← consistent_trustedWithGaps log c n]
  simp only [Verdict.positive, Bool.or_eq_true, decide_eq_true_eq] at hv
  unfold consistencyCap
  rcases hv with rfl | rfl
  · by_cases hnil : verifyVerdictConsistency .trusted log c n = []
    · rw [if_neg (by simp [hnil])]
      exact ⟨consistent_trusted log c n, fun _ => hnil⟩
    · rw [if_pos ⟨by simpa using hnil, rfl⟩]
  · rw [if_neg (by simp)]

section Concluded

variable (c : Int) (checks : Checks) (s : State)

theorem concludeWith_evidenceLog :
    (concludeWith c checks s).evidenceLog = finalLog checks s.evidenceLog := rfl

theorem concludeWith_verdictText :
    (concludeWith c checks s).verdictText = consistencyCap
      (verifyVerdictConsistency
        (suppressedCap s.escalationSuppressed (verdictText (concludeWith c checks s).tally c))
        (concludeWith c checks s).evidenceLog c (concludeWith c checks s).contradictions.length)
      (suppressedCap s.escalationSuppressed (verdictText (concludeWith c checks s).tally c)) := by
  simp only [concludeWith]

theorem consistent_of_no_fails (h : (concludeWith c checks s).tally.effectiveFails = 0)
    (hchecked : checkedFails (concludeWith c checks s).evidenceLog = 0) :
    (concludeWith c checks s).consistent := by
  have hle : checkedFails (concludeWith c checks s).evidenceLog ≤
      (concludeWith c checks s).evidenceLog.length / 2 := by
    rw [hchecked]
    exact Nat.zero_le _
  have hconf : (concludeWith c checks s).confidence = c := rfl
  unfold Outcome.consistent
  rw [concludeWith_verdictText, hconf]
  generalize hv : suppressedCap s.escalationSuppressed
    (verdictText (concludeWith c checks s).tally c) = v
  unfold suppressedCap at hv
  rcases verdictText_of_no_fails _ c h with ⟨-, hpos⟩ | ⟨-, hcaution⟩
  · split at hv
    · rw [← hv, consistencyCap, if_neg (by simp)]
      exact consistent_caution _ _ _
    · rw [← hv]
      exact (consistent_capped _ hpos _ _ _).mpr hle
  · rw [hcaution, if_neg (by simp [Verdict.positive])] at hv
    rw [← hv, consistencyCap, if_neg (by simp)]
    exact consistent_caution _ _ _

theorem consistent_of_fails (hs : Sound s.stepVerdicts (concludeWith c checks s).evidenceLog)
    (h : 0 < (concludeWith c checks s).tally.effectiveFails) :
    (concludeWith c checks s).consistent ↔
      ¬ (s.stepVerdicts.positives = 0 ∧ ∃ ev ∈ (concludeWith c checks s).evidenceLog,
        ev.verdict = .pass) := by
  unfold Outcome.consistent
  -- Without a pass the verdict is `BLOCKED`, with one it is a contradiction.
  by_cases hpasses : s.stepVerdicts.positives = 0
  · have hblocked : verdictText (concludeWith c checks s).tally c = .blocked := by
      have hzero : (concludeWith c checks s).tally.passes = 0 := hpasses
      unfold verdictText Tally.hasContradiction
      rw [if_neg (by simp [hzero]), if_pos ⟨h, hzero⟩]
    have hlast : (concludeWith c checks s).verdictText = .blocked := by
      rw [concludeWith_verdictText, hblocked]
      simp [suppressedCap, consistencyCap, Verdict.positive]
    rw [hlast, consistent_blocked]
    simp only [hpasses, true_and]
    exact and_iff_right (checkedFails_pos s.stepVerdicts _ hs h)
  · have hcontra : (concludeWith c checks s).tally.hasContradiction := by
      have hpos : 0 < (concludeWith c checks s).tally.passes := Nat.pos_of_ne_zero hpasses
      simp [Tally.hasContradiction, hpos, h]
    have hlast : (concludeWith c checks s).verdictText = .inconclusive := by
      rw [concludeWith_verdictText, verdictText, if_pos hcontra]
      simp [suppressedCap, consistencyCap, Verdict.positive]
    rw [hlast, consistent_inconclusive]
    simp only [hpasses, false_and, not_false_eq_true, iff_true]
    exact contradictions_ne_nil _ _ hcontra

end Concluded

/-! ## Runs that keep what the agents said -/

/-- `PASS`, or `DEGRADED`, which the engine counts as a pass. -/
def Status.passes (status : Status) : Bool := status = .pass || status = .degraded

/-- The completion of an agent loses no failure, and its answer does not replace a recorded pass by
something else. -/
def keepsOutcomes (s : State) (t : AgentThread) (isDegraded : Bool) (response : Response) : Bool :=
  keepsFailures s t isDegraded response &&
    (!response.counts t.agentTimeout || !(s.stepVerdicts.lookup t.plan.name).any Status.passes ||
      (statusOf t isDegraded response).passes)

def eventKeepsOutcomes (s : State) : Event → Bool
  | .complete i response =>
    match s.threads[i]? with
    | some t =>
      match t.stage with
      | .executing isDegraded => keepsOutcomes s t isDegraded response
      | _ => true
    | none => true
  | _ => true

/-- The runs in which every completion keeps the outcomes. -/
abbrev OutcomeKeeping (job : Job) : State → Prop :=
  Reaches (step job) (fun s e => eventKeepsOutcomes s e) (start job)

theorem eventKeepsFailures_of_outcomes (s : State) (e : Event) (h : eventKeepsOutcomes s e = true) :
    eventKeepsFailures s e = true := by
  unfold eventKeepsOutcomes at h
  unfold eventKeepsFailures
  cases e with
  | complete i response =>
    dsimp only at h ⊢
    cases ht : s.threads[i]? with
    | none => rfl
    | some t =>
      rw [ht] at h
      dsimp only at h ⊢
      cases hstage : t.stage with
      | executing isDegraded =>
        rw [hstage] at h
        simp only [keepsOutcomes, Bool.and_eq_true] at h
        exact h.1
      | _ => rfl
  | _ => rfl

/-- The step verdicts have a pass for each one in the log, and the other way round. -/
structure Passed (verdicts : StepVerdicts) (log : List AgentEvidence) : Prop where
  recorded : ∀ ev ∈ log, ev.verdict.passes → (verdicts.lookup ev.agentName).any Status.passes
  logged : 0 < verdicts.positives → ∃ ev ∈ log, ev.verdict.passes

theorem positives_pos_iff (verdicts : StepVerdicts) :
    0 < verdicts.positives ↔ ∃ name, (verdicts.lookup name).any Status.passes := by
  unfold StepVerdicts.positives StepVerdicts.count
  rw [List.countP_pos_iff]
  constructor
  · rintro ⟨⟨name, v⟩, hmem, hv⟩
    refine ⟨name, ?_⟩
    rw [AList.mem_lookup_iff.mpr hmem]
    exact hv
  · rintro ⟨name, h⟩
    obtain ⟨v, hv, hpass⟩ := (Option.any_eq_true _ _).mp h
    exact ⟨⟨name, v⟩, AList.mem_lookup_iff.mp hv, hpass⟩

theorem record_passed (t : AgentThread) (isDegraded : Bool) (response : Response) (s : State)
    (hs : Passed s.stepVerdicts s.evidenceLog) (hk : keepsOutcomes s t isDegraded response) :
    Passed (record t isDegraded response s).stepVerdicts
      (record t isDegraded response s).evidenceLog := by
  unfold record
  split
  · rename_i hcounts
    -- By the condition on the answers the insertion does not overwrite a pass.
    have hkept : (s.stepVerdicts.lookup t.plan.name).any Status.passes = true →
        (statusOf t isDegraded response).passes = true := by
      intro hany
      have hboth : keepsFailures s t isDegraded response = true ∧
          (statusOf t isDegraded response).passes = true := by
        simpa [keepsOutcomes, hcounts, hany] using hk
      exact hboth.2
    constructor
    · intro ev hev hpass
      rcases List.mem_append.mp hev with hev | hev
      · have hold := hs.recorded ev hev hpass
        by_cases hname : ev.agentName = t.plan.name
        · rw [hname] at hold ⊢
          rw [AList.lookup_insert]
          exact hkept hold
        · rw [AList.lookup_insert_ne hname]
          exact hold
      · obtain rfl := List.mem_singleton.mp hev
        simp only [evidenceOf] at hpass ⊢
        rw [AList.lookup_insert]
        exact hpass
    · intro hpos
      obtain ⟨name, hany⟩ := (positives_pos_iff _).mp hpos
      by_cases hname : name = t.plan.name
      · rw [hname, AList.lookup_insert] at hany
        exact ⟨evidenceOf t isDegraded response, by simp, hany⟩
      · rw [AList.lookup_insert_ne hname] at hany
        obtain ⟨ev, hev, hpass⟩ := hs.logged ((positives_pos_iff _).mpr ⟨name, hany⟩)
        exact ⟨ev, List.mem_append_left _ hev, hpass⟩
  · constructor
    · intro ev hev hpass
      rcases List.mem_append.mp hev with hev | hev
      · exact hs.recorded ev hev hpass
      · obtain rfl := List.mem_singleton.mp hev
        cases hpass
    · intro hpos
      obtain ⟨ev, hev, hpass⟩ := hs.logged hpos
      exact ⟨ev, List.mem_append_left _ hev, hpass⟩

theorem step_passed (job : Job) (s : State) (e : Event) (s' : State)
    (hs : Passed s.stepVerdicts s.evidenceLog) (hk : eventKeepsOutcomes s e)
    (h : step job s e = some s') : Passed s'.stepVerdicts s'.evidenceLog := by
  rcases step_evidence job s s' e h with ⟨hlog, hverdicts⟩ | ⟨i, response, t, isDegraded, rfl, ht,
    hstage, rfl⟩
  · rw [hlog, hverdicts]
    exact hs
  · simp only [eventKeepsOutcomes, ht, hstage] at hk
    exact record_passed t isDegraded response s hs hk

theorem reaches_passed (job : Job) (s : State) (h : OutcomeKeeping job s) :
    Passed s.stepVerdicts s.evidenceLog := by
  apply h.keeps (fun s => Passed s.stepVerdicts s.evidenceLog)
  · refine ⟨?_, ?_⟩
    · intro ev hev
      exact absurd hev (by simp [start])
    · intro hpos
      exact absurd hpos (by simp [start, StepVerdicts.positives, StepVerdicts.count])
  · intro s e s' hs hk hstep
    exact step_passed job s e s' hs hk hstep

/-! ## The condition at the end of a run -/

/-- Something in the log failed and something in it passed, but none of the agents. -/
def BlockedOverCheck (agents log : List AgentEvidence) : Prop :=
  (∃ ev ∈ log, ev.negative) ∧ (∀ ev ∈ agents, ev.verdict ≠ .pass ∧ ev.verdict ≠ .degraded) ∧
    ∃ ev ∈ log, ev.verdict = .pass

theorem checkedFails_pos_iff (log : List AgentEvidence) :
    0 < checkedFails log ↔ ∃ ev ∈ log, ev.negative := by
  unfold checkedFails AgentEvidence.negative
  rw [Nat.add_pos_iff_pos_or_pos, List.countP_pos_iff, List.countP_pos_iff]
  simp only [decide_eq_true_eq]
  constructor
  · rintro (⟨ev, hev, h⟩ | ⟨ev, hev, h⟩)
    · exact ⟨ev, hev, Or.inl h⟩
    · exact ⟨ev, hev, Or.inr h⟩
  · rintro ⟨ev, hev, h | h⟩
    · exact Or.inl ⟨ev, hev, h⟩
    · exact Or.inr ⟨ev, hev, h⟩

theorem positives_eq_zero_iff {verdicts : StepVerdicts} {agents : List AgentEvidence}
    (h : Passed verdicts agents) :
    verdicts.positives = 0 ↔ ∀ ev ∈ agents, ev.verdict ≠ .pass ∧ ev.verdict ≠ .degraded := by
  constructor
  · intro hzero ev hev
    rw [← not_or]
    intro hpass
    have hany := h.recorded ev hev (by simpa [Status.passes] using hpass)
    have hpos := (positives_pos_iff verdicts).mpr ⟨_, hany⟩
    omega
  · intro hnone
    by_contra hne
    obtain ⟨ev, hev, hpass⟩ := h.logged (Nat.pos_of_ne_zero hne)
    have hneither := hnone ev hev
    simp [Status.passes, hneither.1, hneither.2] at hpass

/-- **The engine and its checker.** In every run that keeps what the agents said, whatever the tool
checks and whatever confidence it computes, the verdict that is left breaks no rule, unless a check
has passed where no agent has and something failed. -/
theorem verdict_consistent_iff (job : Job) (s : State) (h : OutcomeKeeping job s)
    (checks : Checks) (c : Int) :
    (concludeWith c checks s).consistent ↔
      ¬ BlockedOverCheck s.evidenceLog (finalLog checks s.evidenceLog) := by
  have hs : Sound s.stepVerdicts (concludeWith c checks s).evidenceLog :=
    finalLog_sound s.stepVerdicts checks s.evidenceLog
      (reaches_sound job s (h.mono fun _ _ _ => trivial))
  have hacc : Accounted s.stepVerdicts (finalLog checks s.evidenceLog) :=
    finalLog_accounted s.stepVerdicts checks s.evidenceLog
      (reaches_accounted job s (h.mono fun s e hk => eventKeepsFailures_of_outcomes s e hk))
  have hpasses := positives_eq_zero_iff (reaches_passed job s h)
  -- The engine sees a failure exactly when the checker does.
  have hfails : 0 < (concludeWith c checks s).tally.effectiveFails ↔
      ∃ ev ∈ finalLog checks s.evidenceLog, ev.negative := by
    constructor
    · intro hpos
      exact (checkedFails_pos_iff _).mp (checkedFails_pos s.stepVerdicts _ hs hpos)
    · rintro ⟨ev, hev, hneg⟩
      exact effectiveFails_pos s.stepVerdicts _ hacc ev hev hneg
  unfold BlockedOverCheck
  rcases Nat.eq_zero_or_pos (concludeWith c checks s).tally.effectiveFails with hzero | hpos
  · have hnone : ¬ ∃ ev ∈ finalLog checks s.evidenceLog, ev.negative := by
      rw [← hfails]
      omega
    have hchecked : checkedFails (concludeWith c checks s).evidenceLog = 0 :=
      Nat.eq_zero_of_not_pos fun hgt => hnone ((checkedFails_pos_iff _).mp hgt)
    exact iff_of_true (consistent_of_no_fails c checks s hzero hchecked) fun hblocked =>
      hnone hblocked.1
  · rw [consistent_of_fails c checks s hs hpos, hpasses, concludeWith_evidenceLog]
    simp only [hfails.mp hpos, true_and]

/-- Both agents are launched, the architect answers with `first` and the sentinel with `second`. -/
def answers (first second : Response) : List Event :=
  [.guard, .body 0 fun _ => 0, .context 0, .failover 0, .complete 0 first, .context 0, .failover 0,
    .complete 0 second, .guard, .join]

theorem disagreement_consistent : ∃ s, OutcomeKeeping twoAgents s ∧ s.main = .done ∧
    ¬ BlockedOverCheck s.evidenceLog (finalLog rustChecks s.evidenceLog) ∧
      ∀ c, (concludeWith c rustChecks s).consistent := by
  have hrun : (run (step twoAgents) (fun s e => eventKeepsOutcomes s e) (start twoAgents)
      (answers passing failing)).map
      (fun s => decide (s.main = .done ∧ ∃ ev ∈ s.evidenceLog, ev.verdict = .pass)) =
        some true := by
    decide +kernel
  obtain ⟨s, hs, hend⟩ := Option.map_eq_some_iff.mp hrun
  obtain ⟨hdone, ev, hev, hpass⟩ := of_decide_eq_true hend
  have hreach : OutcomeKeeping twoAgents s := Reaches.of_run (answers passing failing) .start hs
  have hcond : ¬ BlockedOverCheck s.evidenceLog (finalLog rustChecks s.evidenceLog) :=
    fun ⟨_, hnone, _⟩ => (hnone ev hev).1 hpass
  exact ⟨s, hreach, hdone, hcond,
    fun c => (verdict_consistent_iff twoAgents s hreach rustChecks c).mpr hcond⟩

theorem blocked_over_build : ¬ ∀ (job : Job) (s : State) (checks : Checks),
    Reaches (step job) (fun _ _ => True) (start job) s → s.main = .done →
      ∃ c, (concludeWith c checks s).consistent := by
  -- The verdict is `BLOCKED`, which the checker refuses because of the passed build.
  intro h
  have hrun : (run (step twoAgents) (fun _ _ => True) (start twoAgents)
      (answers failing failing)).map
      (fun s => decide (s.main = .done ∧ s.stepVerdicts.positives = 0 ∧
        0 < (tally s.stepVerdicts (finalLog rustChecks s.evidenceLog)).effectiveFails ∧
        ∃ ev ∈ finalLog rustChecks s.evidenceLog, ev.verdict = .pass)) = some true := by
    decide +kernel
  obtain ⟨s, hs, hend⟩ := Option.map_eq_some_iff.mp hrun
  obtain ⟨hdone, hpasses, hfails, hpass⟩ := of_decide_eq_true hend
  have hreach : Reaches (step twoAgents) (fun _ _ => True) (start twoAgents) s :=
    Reaches.of_run (answers failing failing) .start hs
  obtain ⟨c, hconsistent⟩ := h twoAgents s rustChecks hreach hdone
  have hsound := finalLog_sound s.stepVerdicts rustChecks s.evidenceLog
    (reaches_sound twoAgents s hreach)
  exact (consistent_of_fails c rustChecks s hsound hfails).mp hconsistent ⟨hpasses, hpass⟩

end Euxis.Playbook
