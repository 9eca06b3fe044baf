import Euxis.Playbook.Schedule

/-!
# Flash escalation and the timing of the last triage agent

The escalation is decided inside the loop, and only once every plan is finished. But the loop ends
as soon as its guard sees that every plan is finished. So the decision is made only if the last
agent finishes after the guard was read and before the body takes the lock.
-/

namespace Euxis.Playbook

open Trace

/-! ## What later steps keep -/

/-- Neither a flag nor a plan is ever taken back. -/
structure Grows (s s' : State) : Prop where
  escalated : s.escalated = true → s'.escalated = true
  suppressed : s.escalationSuppressed = true → s'.escalationSuppressed = true
  plans : s.plans.map (·.plan) ⊆ s'.plans.map (·.plan)

theorem Grows.trans {s s' s'' : State} (h : Grows s s') (h' : Grows s' s'') : Grows s s'' :=
  ⟨h'.escalated ∘ h.escalated, h'.suppressed ∘ h.suppressed, List.Subset.trans h.plans h'.plans⟩

theorem skipRest_plans (s : State) : (skipRest s).plans.map (·.plan) = s.plans.map (·.plan) := by
  simp [skipRest, Function.comp_def]

theorem launch_grows (clock : Nat → Rat) (s : State) : Grows s (launch clock s) := by
  obtain ⟨r, hl, hlaunch⟩ := launch_spec clock s
  rw [hlaunch]
  refine ⟨id, id, ?_⟩
  rw [hl.kept]
  exact List.Subset.refl _

theorem escalate_grows (job : Job) (s : State) : Grows s (escalate job s) := by
  obtain ⟨_, h⟩ | ⟨_, _, h⟩ | ⟨_, _, extra, _, h⟩ := escalate_cases job s
  · rw [h]
    exact ⟨id, id, List.Subset.refl _⟩
  · rw [h]
    exact ⟨id, fun _ => rfl, List.Subset.refl _⟩
  · rw [h]
    refine ⟨fun _ => rfl, id, ?_⟩
    rw [List.map_append]
    exact List.subset_append_left _ _

theorem loopBody_grows (job : Job) (wallMs : Rat) (clock : Nat → Rat) (s : State) :
    Grows s (loopBody job wallMs clock s) := by
  have hskip : s.plans.map (·.plan) ⊆ (skipRest s).plans.map (·.plan) := by
    rw [skipRest_plans]
    exact List.Subset.refl _
  unfold loopBody
  split
  · exact ⟨id, id, hskip⟩
  · split
    · exact ⟨id, id, hskip⟩
    · exact (escalate_grows job s).trans (launch_grows clock _)

theorem step_grows {job : Job} {s s' : State} {e : Event} (h : step job s e = some s') :
    Grows s s' := by
  cases step_move h with
  | guard _ => exact ⟨id, id, List.Subset.refl _⟩
  | body wallMs clock _ => exact loopBody_grows job wallMs clock s
  | wake _ => exact ⟨id, id, List.Subset.refl _⟩
  | context i t _ => exact ⟨id, id, List.Subset.refl _⟩
  | failover i t _ => exact ⟨id, id, List.Subset.refl _⟩
  | complete i response t isDegraded _ _ =>
    obtain ⟨_, _, _, _, hplans, _⟩ := record_rest t isDegraded response s
    obtain ⟨_, hescalated, hsuppressed, _⟩ := record_loop t isDegraded response s
    unfold complete
    dsimp only
    refine ⟨?_, ?_, ?_⟩
    · rw [hescalated]
      exact id
    · rw [hsuppressed]
      exact id
    · rw [hplans]
      exact List.Subset.refl _
  | join _ => exact ⟨id, id, List.Subset.refl _⟩

/-! ## The decision -/

/-- The standard agents that the escalation adds. -/
def standardIdxs : List Nat := [1, 3, 4, 8]

/-- The plans hold the agent of a standard step: it was planned before, or the escalation has added
it. -/
def Covers (job : Job) (s : State) (plans : List StepPlan) (step : ManifestStep) : Prop :=
  ∃ plan ∈ plans, plan.agentId = step.agent.getD [] ∨ plan = escalationPlan job s step

/-- What a trigger of the triage in `s` leads to by the state `s'`: the standard agents are planned,
or in CI mode the escalation is marked as suppressed. -/
def Escalated (job : Job) (s s' : State) : Prop :=
  if job.ciMode then s'.escalationSuppressed = true
  else s'.escalated = true ∧ ∀ idx ∈ standardIdxs, ∀ step, job.steps[idx]? = some step →
    Covers job s (s'.plans.map (·.plan)) step

theorem Escalated.grows {job : Job} {s s' s'' : State} (h : Escalated job s s')
    (hg : Grows s' s'') : Escalated job s s'' := by
  unfold Escalated at h ⊢
  split at h
  · rename_i hci
    rw [if_pos hci]
    exact hg.suppressed h
  · rename_i hci
    rw [if_neg hci]
    refine ⟨hg.escalated h.1, fun idx hidx step hstep => ?_⟩
    obtain ⟨plan, hplan, hcovers⟩ := h.2 idx hidx step hstep
    exact ⟨plan, hg.plans hplan, hcovers⟩

theorem injectStep_prefix (job : Job) (s : State) (idxs : List Nat) (plans : List Planned) :
    plans.map (·.plan) ⊆ (idxs.foldl (injectStep job s) plans).map (·.plan) := by
  obtain ⟨extra, heq, _⟩ := injectStep_foldl job s idxs plans
  rw [heq, List.map_append]
  exact List.subset_append_left _ _

theorem injectStep_covers (job : Job) (s : State) (plans : List Planned) (idx : Nat)
    (step : ManifestStep) (h : job.steps[idx]? = some step) :
    Covers job s ((injectStep job s plans idx).map (·.plan)) step := by
  unfold injectStep
  rw [h]
  dsimp only
  split
  · rename_i hany
    obtain ⟨p, hp, hid⟩ := List.any_eq_true.mp hany
    exact ⟨p.plan, List.mem_map_of_mem hp, Or.inl (by simpa using hid)⟩
  · exact ⟨escalationPlan job s step, by simp, Or.inr rfl⟩

theorem foldl_covers (job : Job) (s : State) (idxs : List Nat) (plans : List Planned) (idx : Nat)
    (hidx : idx ∈ idxs) (step : ManifestStep) (h : job.steps[idx]? = some step) :
    Covers job s ((idxs.foldl (injectStep job s) plans).map (·.plan)) step := by
  induction idxs generalizing plans with
  | nil => exact absurd hidx (by simp)
  | cons i idxs ih =>
    rw [List.foldl_cons]
    rcases List.mem_cons.mp hidx with rfl | hidx
    · obtain ⟨plan, hplan, hcovers⟩ := injectStep_covers job s plans idx step h
      exact ⟨plan, injectStep_prefix job s idxs _ hplan, hcovers⟩
    · exact ih _ hidx

/-- The triage is over and the escalation has not been decided. -/
structure Triaged (job : Job) (s : State) : Prop where
  flash : job.mode = .flash
  finished : s.plans.length ≤ s.completedCount
  escalated : s.escalated = false
  suppressed : s.escalationSuppressed = false
  trigger : (escalationTrigger s.stepVerdicts s.evidenceLog).isSome

theorem escalate_triaged {job : Job} {s : State} (h : Triaged job s) :
    Escalated job s (escalate job s) := by
  obtain ⟨reason, htrigger⟩ := Option.isSome_iff_exists.mp h.trigger
  have hcond : job.mode = .flash ∧ ¬ s.escalated ∧ ¬ s.escalationSuppressed ∧
      s.plans.length ≤ s.completedCount := by
    simp [h.flash, h.escalated, h.suppressed, h.finished]
  unfold Escalated escalate
  rw [if_pos hcond]
  dsimp only
  rw [htrigger]
  dsimp only
  split
  · rfl
  · exact ⟨rfl, fun idx hidx step hstep => foldl_covers job _ standardIdxs s.plans idx
      hidx step hstep⟩

/-! ## Before and after the guard -/

/-- Until the escalation the body finds the time within the budget. -/
def InBudget (job : Job) (s : State) : Event → Bool
  | .body wallMs _ => s.escalated || !overBudget job wallMs s
  | _ => true

theorem Triaged.no_threads {job : Job} {s : State} (h : Triaged job s) (hb : Booked job s) :
    s.threads = [] := by
  have hle : s.plans.countP (·.started) ≤ s.plans.length := List.countP_le_length
  have := h.finished
  have := hb.count
  exact List.eq_nil_of_length_eq_zero (by omega)

theorem escalated_of_body {job : Job} {s s' : State} (h : Triaged job s) (hb : Booked job s)
    (hbody : s.main = .body) (hs' : Reaches (step job) (fun s e => InBudget job s e) s s') :
    s' = s ∨ Escalated job s s' := by
  have hnone := h.no_threads hb
  apply hs'.keeps (fun s' => s' = s ∨ Escalated job s s')
  · exact Or.inl rfl
  · rintro x e x' (rfl | hx) hok hstep
    · right
      cases step_move hstep with
      | guard hmain => exact absurd (hmain.symm.trans hbody) (by simp)
      | body wallMs clock _ =>
        have hbudget : ¬ overBudget job wallMs x := by
          simpa [InBudget, h.escalated] using hok
        have hconv : ¬ converged job x := by
          simp [converged, h.escalated]
        rw [loopBody, if_neg hbudget, if_neg hconv]
        exact (escalate_triaged h).grows (launch_grows clock _)
      | wake hmain => exact absurd (hmain.symm.trans hbody) (by simp)
      | context i t ht => simp [hnone] at ht
      | failover i t ht => simp [hnone] at ht
      | complete i response t isDegraded ht _ => simp [hnone] at ht
      | join hmain => exact absurd (hmain.symm.trans hbody) (by simp)
    · exact Or.inr (hx.grows (step_grows hstep))

/-- The loop is past its last chance to escalate. -/
structure Missed (s : State) : Prop where
  main : s.main ≠ .body
  finished : s.plans.length ≤ s.completedCount
  escalated : s.escalated = false
  suppressed : s.escalationSuppressed = false

theorem step_missed {job : Job} {s s' : State} {e : Event} (h : Missed s)
    (hstep : step job s e = some s') : Missed s' := by
  cases step_move hstep with
  | guard _ =>
    refine ⟨?_, h.finished, h.escalated, h.suppressed⟩
    rw [if_neg (Nat.not_lt.mpr h.finished)]
    simp
  | body wallMs clock hmain => exact absurd hmain h.main
  | wake _ => exact ⟨by simp, h.finished, h.escalated, h.suppressed⟩
  | context i t _ => exact ⟨h.main, h.finished, h.escalated, h.suppressed⟩
  | failover i t _ => exact ⟨h.main, h.finished, h.escalated, h.suppressed⟩
  | complete i response t isDegraded _ _ =>
    obtain ⟨_, _, hcount, _, hplans, _⟩ := record_rest t isDegraded response s
    obtain ⟨hmain, hescalated, hsuppressed, _⟩ := record_loop t isDegraded response s
    refine ⟨?_, ?_, hescalated.trans h.escalated, hsuppressed.trans h.suppressed⟩
    · exact fun hbody => h.main (hmain.symm.trans hbody)
    · have := h.finished
      simp only [complete, hcount, hplans]
      omega
  | join _ => exact ⟨by simp, h.finished, h.escalated, h.suppressed⟩

/-- Whatever the interleaving: when the triage agents are all done and a trigger applies, the loop
ends escalated exactly when the main thread had read its guard before the last of them finished and
not yet run its body. -/
theorem flash_escalation_iff (job : Job) (s : State)
    (hs : Reaches (step job) (fun s e => InBudget job s e) (start job) s) (h : Triaged job s)
    (s' : State) (hs' : Reaches (step job) (fun s e => InBudget job s e) s s')
    (hend : s'.main = .joining ∨ s'.main = .done) : Escalated job s s' ↔ s.main = .body := by
  constructor
  · intro hesc
    by_contra hmain
    have hmissed : Missed s' := by
      apply hs'.keeps Missed ⟨hmain, h.finished, h.escalated, h.suppressed⟩
      intro x e x' hx _ hstep
      exact step_missed hx hstep
    unfold Escalated at hesc
    split at hesc
    · exact absurd hesc (by simp [hmissed.suppressed])
    · exact absurd hesc.1 (by simp [hmissed.escalated])
  · intro hbody
    rcases escalated_of_body h (reaches_booked hs) hbody hs' with rfl | hesc
    · rw [hbody] at hend
      exact absurd hend (by simp)
    · exact hesc

/-- The steps of `droppedDependency` in flash mode: the librarian is the only triage agent. -/
def loneTriage : Job := { droppedDependency with mode := .flash }

/-- An answer without a verdict line. -/
def undecided : Response :=
  { success := true, output := ascii "no opinion", exitCode := 0, durationMs := 1000 }

instance (job : Job) (s : State) : Decidable (Triaged job s) :=
  decidable_of_iff (job.mode = .flash ∧ s.plans.length ≤ s.completedCount ∧ s.escalated = false ∧
      s.escalationSuppressed = false ∧ (escalationTrigger s.stepVerdicts s.evidenceLog).isSome)
    ⟨fun ⟨h1, h2, h3, h4, h5⟩ => ⟨h1, h2, h3, h4, h5⟩,
      fun h => ⟨h.flash, h.finished, h.escalated, h.suppressed, h.trigger⟩⟩

theorem escalation_between : ∃ s s', Triaged loneTriage s ∧ s.main = .body ∧ s'.main = .done ∧
    s'.plans.length = 3 ∧ Escalated loneTriage s s' := by
  have hrun : (run (step loneTriage) (fun s e => InBudget loneTriage s e) (start loneTriage)
      [.guard, .body 0 fun _ => 0, .context 0, .failover 0, .guard, .complete 0 undecided]).map
      (fun s => decide (Triaged loneTriage s ∧ s.main = .body ∧
        (run (step loneTriage) (fun s e => InBudget loneTriage s e) s
          [.body 0 fun _ => 0, .context 0, .failover 0, .complete 0 passing, .context 0,
            .failover 0, .complete 0 passing, .guard, .join]).map
          (fun s' => decide (s'.main = .done ∧ s'.plans.length = 3)) = some true)) = some true := by
    decide +kernel
  obtain ⟨s, hs, hend⟩ := Option.map_eq_some_iff.mp hrun
  obtain ⟨htriaged, hbody, hrest⟩ := of_decide_eq_true hend
  obtain ⟨s', hs', hend'⟩ := Option.map_eq_some_iff.mp hrest
  obtain ⟨hdone, hplans⟩ := of_decide_eq_true hend'
  have hreach := Reaches.of_run _ .start hs
  have hreach' := Reaches.of_run _ .start hs'
  exact ⟨s, s', htriaged, hbody, hdone, hplans,
    (flash_escalation_iff loneTriage s hreach htriaged s' hreach' (Or.inr hdone)).mpr hbody⟩

theorem escalation_missed : ¬ ∀ (job : Job) (s : State),
    Reaches (step job) (fun s e => InBudget job s e) (start job) s → Triaged job s → ∀ s',
      Reaches (step job) (fun s e => InBudget job s e) s s' → s'.main = .joining ∨ s'.main = .done →
      Escalated job s s' := by
  -- The librarian finishes before the guard is read: the loop ends without the escalation.
  intro h
  have hrun : (run (step loneTriage) (fun s e => InBudget loneTriage s e) (start loneTriage)
      [.guard, .body 0 fun _ => 0, .context 0, .failover 0, .complete 0 undecided]).map
      (fun s => decide (Triaged loneTriage s ∧
        (run (step loneTriage) (fun s e => InBudget loneTriage s e) s [.guard, .join]).map
          (fun s' => decide (s'.main = .done ∧ s'.escalated = false)) = some true)) =
            some true := by
    decide +kernel
  obtain ⟨s, hs, hend⟩ := Option.map_eq_some_iff.mp hrun
  obtain ⟨htriaged, hrest⟩ := of_decide_eq_true hend
  obtain ⟨s', hs', hend'⟩ := Option.map_eq_some_iff.mp hrest
  obtain ⟨hdone, hflag⟩ := of_decide_eq_true hend'
  have hesc := h loneTriage s (Reaches.of_run _ .start hs) htriaged s' (Reaches.of_run _ .start hs')
    (Or.inr hdone)
  unfold Escalated at hesc
  rw [if_neg (by decide)] at hesc
  rw [hesc.1] at hflag
  exact absurd hflag (by simp)

end Euxis.Playbook
