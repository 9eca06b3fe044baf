import Mathlib.Algebra.BigOperators.Group.List.Basic
import Mathlib.Algebra.Order.BigOperators.Group.List
import Mathlib.Data.List.Perm.Basic
import Euxis.Playbook.Proofs

/-!
# The scheduler of the evidence collection

The slots add up in every run. Progress is another matter: a step keeps the names it depends on when
its mode drops the steps of these names. So a run cannot get stuck exactly when the dependencies of
the selected steps can be resolved among themselves.
-/

namespace Euxis.Playbook

open Trace

/-! ## The launch loop -/

theorem weight_pos (plan : StepPlan) : 0 < weight plan := by
  unfold weight
  split <;> omega

theorem weight_le (plan : StepPlan) : weight plan ≤ totalSlots := by
  unfold weight totalSlots
  split <;> omega

theorem launchable_iff (completed : List Bytes) (usedSlots : Int) (p : Planned) :
    launchable completed usedSlots p ↔
      p.started = false ∧ (∀ d ∈ p.plan.depends, d ∈ completed) ∧
      usedSlots + weight p.plan ≤ totalSlots := by
  simp [launchable, and_assoc]

/-- What the launch loop makes of the plans: `r` holds the plans, the new threads and the used
slots. -/
structure Launched (completed : List Bytes) (usedSlots : Int) (plans : List Planned)
    (r : List Planned × List AgentThread × Int) : Prop where
  kept : r.1.map (·.plan) = plans.map (·.plan)
  slots : r.2.2 = usedSlots + (r.2.1.map (·.weight)).sum
  bound : usedSlots ≤ totalSlots → r.2.2 ≤ totalSlots
  count : r.1.countP (·.started) = plans.countP (·.started) + r.2.1.length
  threads : ∀ t ∈ r.2.1, t.weight = weight t.plan ∧ (∀ d ∈ t.plan.depends, d ∈ completed) ∧
    (∃ p ∈ r.1, p.started ∧ p.plan = t.plan) ∧ ∃ p ∈ plans, p.started = false ∧ p.plan = t.plan
  old : ∀ p ∈ plans, p.started → p ∈ r.1
  started : ∀ p ∈ r.1, p.started → p ∈ plans ∨ ∃ t ∈ r.2.1, t.plan = p.plan
  waiting : ∀ p ∈ r.1, p.started = false → p ∈ plans

theorem Launched.keep {completed : List Bytes} {usedSlots : Int} {rest : List Planned}
    {r : List Planned × List AgentThread × Int} (h : Launched completed usedSlots rest r)
    (p : Planned) : Launched completed usedSlots (p :: rest) (p :: r.1, r.2.1, r.2.2) := by
  constructor
  · simp [h.kept]
  · exact h.slots
  · exact h.bound
  · simp [List.countP_cons, h.count]
    omega
  · intro t ht
    obtain ⟨hw, hd, ⟨q, hq, hqs⟩, ⟨q', hq', hqs'⟩⟩ := h.threads t ht
    exact ⟨hw, hd, ⟨q, List.mem_cons_of_mem _ hq, hqs⟩, ⟨q', List.mem_cons_of_mem _ hq', hqs'⟩⟩
  · intro q hq hstarted
    rcases List.mem_cons.mp hq with rfl | hq
    · exact List.mem_cons_self
    · exact List.mem_cons_of_mem _ (h.old q hq hstarted)
  · intro q hq hstarted
    rcases List.mem_cons.mp hq with rfl | hq
    · exact Or.inl List.mem_cons_self
    · exact (h.started q hq hstarted).imp_left (List.mem_cons_of_mem _)
  · intro q hq hidle
    rcases List.mem_cons.mp hq with rfl | hq
    · exact List.mem_cons_self
    · exact List.mem_cons_of_mem _ (h.waiting q hq hidle)

theorem Launched.add {completed : List Bytes} {usedSlots : Int} {rest : List Planned}
    {r : List Planned × List AgentThread × Int} {p : Planned}
    (h : Launched completed (usedSlots + weight p.plan) rest r)
    (hlaunch : launchable completed usedSlots p) (sla : ModeSla) (elapsedMs : Rat) :
    Launched completed usedSlots (p :: rest)
      ({ p with started := true } :: r.1, threadOf sla elapsedMs p.plan :: r.2.1, r.2.2) := by
  obtain ⟨hidle, hdeps, hfits⟩ := (launchable_iff completed usedSlots p).mp hlaunch
  constructor
  · simp [h.kept]
  · simp only [List.map_cons, List.sum_cons, h.slots]
    simp only [threadOf]
    omega
  · intro _
    exact h.bound hfits
  · simp [h.count, hidle]
    omega
  · intro t ht
    rcases List.mem_cons.mp ht with rfl | ht
    · exact ⟨rfl, hdeps, ⟨_, List.mem_cons_self, rfl, rfl⟩, ⟨p, List.mem_cons_self, hidle, rfl⟩⟩
    · obtain ⟨hw, hd, ⟨q, hq, hqs⟩, ⟨q', hq', hqs'⟩⟩ := h.threads t ht
      exact ⟨hw, hd, ⟨q, List.mem_cons_of_mem _ hq, hqs⟩, ⟨q', List.mem_cons_of_mem _ hq', hqs'⟩⟩
  · intro q hq hstarted
    rcases List.mem_cons.mp hq with rfl | hq
    · exact absurd hstarted (by simp [hidle])
    · exact List.mem_cons_of_mem _ (h.old q hq hstarted)
  -- A plan that is started now was started before, or it has a thread of this round.
  · intro q hq hstarted
    rcases List.mem_cons.mp hq with rfl | hq
    · exact Or.inr ⟨_, List.mem_cons_self, rfl⟩
    · rcases h.started q hq hstarted with hq | ⟨t, ht, htq⟩
      · exact Or.inl (List.mem_cons_of_mem _ hq)
      · exact Or.inr ⟨t, List.mem_cons_of_mem _ ht, htq⟩
  · intro q hq hidle
    rcases List.mem_cons.mp hq with rfl | hq
    · exact absurd hidle (by simp)
    · exact List.mem_cons_of_mem _ (h.waiting q hq hidle)

theorem launchFrom_launched (completed : List Bytes) (sla : ModeSla) (clock : Nat → Rat)
    (plans : List Planned) :
    ∀ (i : Nat) (usedSlots : Int),
      Launched completed usedSlots plans (launchFrom completed sla clock i usedSlots plans) := by
  induction plans with
  | nil =>
    intro i usedSlots
    constructor <;> simp [launchFrom]
  | cons p rest ih =>
    intro i usedSlots
    unfold launchFrom
    split
    · rename_i hlaunch
      exact (ih (i + 1) (usedSlots + weight p.plan)).add hlaunch sla (clock i)
    · exact (ih (i + 1) usedSlots).keep p

theorem launch_spec (clock : Nat → Rat) (s : State) :
    ∃ r, Launched s.completed s.usedSlots s.plans r ∧
      launch clock s = { s with
        plans := r.1
        threads := s.threads ++ r.2.1
        usedSlots := r.2.2
        main := if r.2.1 = [] ∧ s.completedCount < r.1.length then .waiting else .guard } :=
  ⟨_, launchFrom_launched s.completed (getModeSla s.mode) clock s.plans 0 s.usedSlots, rfl⟩

theorem launchFrom_first (completed : List Bytes) (sla : ModeSla) (clock : Nat → Rat) (p : Planned)
    (plans : List Planned) :
    ∀ (i : Nat) (usedSlots : Int), plans.find? (launchable completed usedSlots) = some p →
      ∃ t ∈ (launchFrom completed sla clock i usedSlots plans).2.1, t.plan = p.plan := by
  induction plans with
  | nil =>
    intro i usedSlots hfind
    exact absurd hfind (by simp)
  | cons q rest ih =>
    intro i usedSlots hfind
    rw [List.find?_cons] at hfind
    unfold launchFrom
    split at hfind
    · rename_i hlaunch
      rw [Option.some.injEq] at hfind
      subst hfind
      rw [if_pos hlaunch]
      exact ⟨_, List.mem_cons_self, rfl⟩
    · rename_i hlaunch
      rw [if_neg (by simp [hlaunch])]
      exact ih (i + 1) usedSlots hfind

/-! ## The bookkeeping of a run -/

/-- The plans that the mode selects from the manifest. -/
def Job.selected (job : Job) : List StepPlan := job.activeSteps.map (job.buildStepPlan job.mode)

/-- What the loop and the threads keep in order. A started plan is finished or has a thread; outputs
and the dependencies of a running agent belong to finished plans; and a plan that waits was selected
by the mode, or was added by the escalation and depends on finished plans alone. -/
structure Booked (job : Job) (s : State) : Prop where
  slots : s.usedSlots = (s.threads.map (·.weight)).sum
  bound : s.usedSlots ≤ totalSlots
  weights : ∀ t ∈ s.threads, t.weight = weight t.plan
  count : s.completedCount + s.threads.length = s.plans.countP (·.started)
  finished : ∀ p ∈ s.plans, p.started → p.plan.name ∈ s.completed ∨ ∃ t ∈ s.threads,
    t.plan.name = p.plan.name
  outputs : ∀ d ∈ s.stepOutputs, d ∈ s.completed
  ready : ∀ t ∈ s.threads, ∀ d ∈ t.plan.depends, d ∈ s.completed
  kept : ∀ plan ∈ job.selected, ∃ p ∈ s.plans, p.plan = plan
  origin : ∀ p ∈ s.plans, p.started = false → p.plan ∈ job.selected ∨ ∀ d ∈ p.plan.depends,
    d ∈ s.completed

theorem start_booked (job : Job) : Booked job (start job) := by
  constructor
  · rfl
  · simp [start, totalSlots]
  · simp [start]
  · symm
    apply List.countP_eq_zero.mpr
    intro p hp
    obtain ⟨step, _, rfl⟩ := List.mem_map.mp hp
    simp
  · simp [start]
  · simp [start]
  · simp [start]
  · intro plan hplan
    obtain ⟨step, hstep, rfl⟩ := List.mem_map.mp hplan
    exact ⟨_, List.mem_map_of_mem hstep, rfl⟩
  · intro p hp _
    obtain ⟨step, hstep, rfl⟩ := List.mem_map.mp hp
    exact Or.inl (List.mem_map_of_mem hstep)

theorem Booked.withMain {job : Job} {s : State} (h : Booked job s) (m : Main) :
    Booked job { s with main := m } :=
  ⟨h.slots, h.bound, h.weights, h.count, h.finished, h.outputs, h.ready, h.kept, h.origin⟩

theorem skipRest_booked {job : Job} {s : State} (h : Booked job s) : Booked job (skipRest s) := by
  have hstarted : ∀ p ∈ (skipRest s).plans, p.started = true := by
    intro p hp
    obtain ⟨q, _, rfl⟩ := List.mem_map.mp hp
    rfl
  constructor
  · exact h.slots
  · exact h.bound
  · exact h.weights
  · have hall : (skipRest s).plans.countP (·.started) = s.plans.length := by
      rw [List.countP_eq_length.mpr hstarted]
      simp [skipRest]
    have hsplit := s.plans.length_eq_countP_add_countP (·.started)
    have hcount := h.count
    -- The plans that were not started count as completed, so the sum of the three kinds stays.
    have hrest : s.unstarted.length = s.plans.countP fun p => decide ¬ p.started = true := by
      simp [State.unstarted, ← List.countP_eq_length_filter]
    rw [hall]
    simp only [skipRest]
    omega
  · intro p hp _
    obtain ⟨q, hq, rfl⟩ := List.mem_map.mp hp
    cases hs : q.started with
    | true => exact (h.finished q hq hs).imp_left (List.mem_append_left _)
    | false =>
      have hrest : q ∈ s.unstarted := List.mem_filter.mpr ⟨hq, by simp [hs]⟩
      exact Or.inl (List.mem_append_right _ (List.mem_map.mpr ⟨q, hrest, rfl⟩))
  · intro d hd
    exact List.mem_append_left _ (h.outputs d hd)
  · intro t ht d hd
    exact List.mem_append_left _ (h.ready t ht d hd)
  · intro plan hplan
    obtain ⟨p, hp, rfl⟩ := h.kept plan hplan
    exact ⟨_, List.mem_map_of_mem hp, rfl⟩
  · intro p hp hidle
    rw [hstarted p hp] at hidle
    exact absurd hidle (by simp)

theorem escalate_plans (job : Job) (s : State) :
    ∃ extra, (escalate job s).plans = s.plans ++ extra ∧
      ∀ p ∈ extra, p.started = false ∧ ∀ d ∈ p.plan.depends, d ∈ s.stepOutputs := by
  obtain ⟨_, h⟩ | ⟨_, _, h⟩ | ⟨_, _, extra, hextra, h⟩ := escalate_cases job s
  · exact ⟨[], by simp [h], by simp⟩
  · exact ⟨[], by simp [h], by simp⟩
  · exact ⟨extra, by rw [h], hextra⟩

theorem escalate_rest (job : Job) (s : State) :
    (escalate job s).threads = s.threads ∧ (escalate job s).usedSlots = s.usedSlots ∧
      (escalate job s).completedCount = s.completedCount ∧
      (escalate job s).completed = s.completed ∧
      (escalate job s).stepOutputs = s.stepOutputs := by
  obtain ⟨_, h⟩ | ⟨_, _, h⟩ | ⟨_, _, _, _, h⟩ := escalate_cases job s
  all_goals
    rw [h]
    exact ⟨rfl, rfl, rfl, rfl, rfl⟩

theorem escalate_booked {job : Job} {s : State} (h : Booked job s) :
    Booked job (escalate job s) := by
  obtain ⟨extra, hplans, hextra⟩ := escalate_plans job s
  obtain ⟨hthreads, hused, hcount, hcompleted, houtputs⟩ := escalate_rest job s
  constructor
  · rw [hthreads, hused]
    exact h.slots
  · rw [hused]
    exact h.bound
  · rw [hthreads]
    exact h.weights
  -- The new plans are added idle and depend on outputs that are there.
  · have hidle : extra.countP (·.started) = 0 := by
      apply List.countP_eq_zero.mpr
      intro p hp
      simp [(hextra p hp).1]
    rw [hthreads, hcount, hplans, List.countP_append, hidle]
    exact h.count
  · rw [hthreads, hcompleted, hplans]
    intro p hp hstarted
    rcases List.mem_append.mp hp with hp | hp
    · exact h.finished p hp hstarted
    · exact absurd hstarted (by simp [(hextra p hp).1])
  · rw [houtputs, hcompleted]
    exact h.outputs
  · rw [hthreads, hcompleted]
    exact h.ready
  · intro plan hplan
    obtain ⟨p, hp, hpp⟩ := h.kept plan hplan
    rw [hplans]
    exact ⟨p, List.mem_append_left _ hp, hpp⟩
  · rw [hcompleted, hplans]
    intro p hp hidle
    rcases List.mem_append.mp hp with hp | hp
    · exact h.origin p hp hidle
    · exact Or.inr fun d hd => h.outputs d ((hextra p hp).2 d hd)

theorem launch_booked {job : Job} {s : State} (h : Booked job s) (clock : Nat → Rat) :
    Booked job (launch clock s) := by
  obtain ⟨r, hl, hlaunch⟩ := launch_spec clock s
  rw [hlaunch]
  constructor
  · simp only [List.map_append, List.sum_append]
    rw [hl.slots, h.slots]
  · exact hl.bound h.bound
  · intro t ht
    rcases List.mem_append.mp ht with ht | ht
    · exact h.weights t ht
    · exact (hl.threads t ht).1
  · have := h.count
    have := hl.count
    simp only [List.length_append]
    omega
  · intro p hp hstarted
    rcases hl.started p hp hstarted with hp | ⟨t, ht, htp⟩
    · rcases h.finished p hp hstarted with hdone | ⟨t, ht, htp⟩
      · exact Or.inl hdone
      · exact Or.inr ⟨t, List.mem_append_left _ ht, htp⟩
    · exact Or.inr ⟨t, List.mem_append_right _ ht, by rw [htp]⟩
  · exact h.outputs
  · intro t ht
    rcases List.mem_append.mp ht with ht | ht
    · exact h.ready t ht
    · exact (hl.threads t ht).2.1
  · intro plan hplan
    obtain ⟨p, hp, rfl⟩ := h.kept plan hplan
    have hmem : p.plan ∈ r.1.map (·.plan) := by
      rw [hl.kept]
      exact List.mem_map_of_mem hp
    obtain ⟨q, hq, hqp⟩ := List.mem_map.mp hmem
    exact ⟨q, hq, hqp⟩
  · intro p hp hidle
    exact h.origin p (hl.waiting p hp hidle) hidle

theorem loopBody_booked {job : Job} {s : State} (h : Booked job s) (wallMs : Rat)
    (clock : Nat → Rat) : Booked job (loopBody job wallMs clock s) := by
  unfold loopBody
  split
  · have hb := skipRest_booked h
    exact ⟨hb.slots, hb.bound, hb.weights, hb.count, hb.finished, hb.outputs, hb.ready,
      hb.kept, hb.origin⟩
  · split
    · have hb := skipRest_booked h
      exact ⟨hb.slots, hb.bound, hb.weights, hb.count, hb.finished, hb.outputs, hb.ready,
        hb.kept, hb.origin⟩
    · exact launch_booked (escalate_booked h) clock

theorem mem_touchOutput (outputs : AList fun _ : Bytes => Bytes) (depends : List Bytes) (d : Bytes)
    (h : d ∈ depends.foldl touchOutput outputs) : d ∈ outputs ∨ d ∈ depends := by
  induction depends generalizing outputs with
  | nil => exact Or.inl h
  | cons d' depends ih =>
    rw [List.foldl_cons] at h
    rcases ih _ h with h | h
    · unfold touchOutput at h
      split at h
      · exact Or.inl h
      · rcases (AList.mem_insert _).mp h with rfl | h
        · exact Or.inr List.mem_cons_self
        · exact Or.inl h
    · exact Or.inr (List.mem_cons_of_mem _ h)

theorem map_set_stage (threads : List AgentThread) (i : Nat) (t : AgentThread)
    (ht : threads[i]? = some t) (stage : Stage) :
    (threads.set i { t with stage }).map (fun t => (t.plan, t.weight)) =
      threads.map fun t => (t.plan, t.weight) := by
  rw [List.map_set]
  apply List.ext_getElem?
  intro j
  rw [List.getElem?_set]
  split
  · rename_i hij
    subst hij
    simp [ht]
    exact (List.getElem?_eq_some_iff.mp ht).1
  · rfl

theorem Booked.withThreads {job : Job} {s : State} (h : Booked job s) (threads : List AgentThread)
    (hmap : threads.map (fun t => (t.plan, t.weight)) = s.threads.map fun t => (t.plan, t.weight)) :
    Booked job { s with threads } := by
  have hmem : ∀ t ∈ threads, ∃ t' ∈ s.threads, t'.plan = t.plan ∧ t'.weight = t.weight := by
    intro t ht
    have hpair : (t.plan, t.weight) ∈ s.threads.map fun t => (t.plan, t.weight) := by
      rw [← hmap]
      exact List.mem_map_of_mem ht
    obtain ⟨t', ht', heq⟩ := List.mem_map.mp hpair
    exact ⟨t', ht', (Prod.mk.inj heq).1, (Prod.mk.inj heq).2⟩
  have hweights : threads.map (·.weight) = s.threads.map (·.weight) := by
    have := congrArg (List.map Prod.snd) hmap
    simpa [Function.comp_def] using this
  have hlength : threads.length = s.threads.length := by
    have := congrArg List.length hmap
    simpa using this
  constructor
  · simp only [hweights]
    exact h.slots
  · exact h.bound
  · intro t ht
    obtain ⟨t', ht', hplan, hweight⟩ := hmem t ht
    rw [← hplan, ← hweight]
    exact h.weights t' ht'
  · simp only [hlength]
    exact h.count
  · intro p hp hstarted
    rcases h.finished p hp hstarted with hdone | ⟨t, ht, htp⟩
    · exact Or.inl hdone
    -- A running plan still has a thread, in its new stage.
    · have hpair : (t.plan, t.weight) ∈ threads.map fun t => (t.plan, t.weight) := by
        rw [hmap]
        exact List.mem_map_of_mem ht
      obtain ⟨t', ht', heq⟩ := List.mem_map.mp hpair
      refine Or.inr ⟨t', ht', ?_⟩
      rw [(Prod.mk.inj heq).1]
      exact htp
  · exact h.outputs
  · intro t ht
    obtain ⟨t', ht', hplan, _⟩ := hmem t ht
    rw [← hplan]
    exact h.ready t' ht'
  · exact h.kept
  · exact h.origin

theorem readContext_booked {job : Job} {s : State} (h : Booked job s) {i : Nat} {t : AgentThread}
    (ht : s.threads[i]? = some t) : Booked job (readContext i t s) := by
  have hb := h.withThreads _ (map_set_stage s.threads i t ht .failover)
  refine ⟨hb.slots, hb.bound, hb.weights, hb.count, hb.finished, ?_, hb.ready, hb.kept, hb.origin⟩
  intro d hd
  rcases mem_touchOutput s.stepOutputs t.plan.depends d hd with hd | hd
  · exact h.outputs d hd
  · exact h.ready t (List.mem_of_getElem? ht) d hd

theorem record_rest (t : AgentThread) (isDegraded : Bool) (response : Response) (s : State) :
    let s' := record t isDegraded response s
    s'.threads = s.threads ∧ s'.usedSlots = s.usedSlots ∧ s'.completedCount = s.completedCount ∧
      s'.completed = s.completed ∧ s'.plans = s.plans ∧
      ∀ d ∈ s'.stepOutputs, d ∈ s.stepOutputs ∨ d = t.plan.name := by
  unfold record
  split
  · refine ⟨rfl, rfl, rfl, rfl, rfl, fun d hd => ?_⟩
    exact ((AList.mem_insert _).mp hd).symm
  · exact ⟨rfl, rfl, rfl, rfl, rfl, fun d hd => Or.inl hd⟩

theorem record_loop (t : AgentThread) (isDegraded : Bool) (response : Response) (s : State) :
    let s' := record t isDegraded response s
    s'.main = s.main ∧ s'.escalated = s.escalated ∧
      s'.escalationSuppressed = s.escalationSuppressed ∧ s'.budgetExceeded = s.budgetExceeded := by
  unfold record
  split <;> exact ⟨rfl, rfl, rfl, rfl⟩

theorem complete_booked {job : Job} {s : State} (h : Booked job s) {i : Nat} {t : AgentThread}
    (ht : s.threads[i]? = some t) (isDegraded : Bool) (response : Response) :
    Booked job (complete i t isDegraded response s) := by
  obtain ⟨hthreads, hused, hcount, hcompleted, hplans, houtputs⟩ :=
    record_rest t isDegraded response s
  obtain ⟨hlt, hget⟩ := List.getElem?_eq_some_iff.mp ht
  -- The thread that is done leaves the list, and its slots and its plan move over with it.
  have hperm : (t :: s.threads.eraseIdx i).Perm s.threads := by
    rw [← hget]
    exact List.getElem_cons_eraseIdx_perm hlt
  unfold complete
  dsimp only
  rw [hthreads, hused, hcount, hcompleted, hplans]
  constructor
  · have hsum := (hperm.map (·.weight)).sum_eq
    simp only [List.map_cons, List.sum_cons] at hsum
    have := h.slots
    dsimp only
    omega
  · have := h.bound
    have := weight_pos t.plan
    have := h.weights t (List.mem_of_getElem? ht)
    dsimp only
    omega
  · intro t' ht'
    exact h.weights t' (List.mem_of_mem_eraseIdx ht')
  · have hlength := hperm.length_eq
    simp only [List.length_cons] at hlength
    have := h.count
    dsimp only
    omega
  · intro p hp hstarted
    rcases h.finished p hp hstarted with hdone | ⟨t', ht', htp⟩
    · exact Or.inl (List.mem_append_left _ hdone)
    · rcases List.mem_cons.mp (hperm.mem_iff.mpr ht') with rfl | ht'
      · exact Or.inl (List.mem_append_right _ (by simp [htp]))
      · exact Or.inr ⟨t', ht', htp⟩
  · intro d hd
    rcases houtputs d hd with hd | rfl
    · exact List.mem_append_left _ (h.outputs d hd)
    · exact List.mem_append_right _ (by simp)
  · intro t' ht' d hd
    exact List.mem_append_left _ (h.ready t' (List.mem_of_mem_eraseIdx ht') d hd)
  · exact h.kept
  · intro p hp hidle
    exact (h.origin p hp hidle).imp_right fun hdeps d hd => List.mem_append_left _ (hdeps d hd)

theorem step_booked (job : Job) (s : State) (e : Event) (s' : State) (h : Booked job s)
    (hstep : step job s e = some s') : Booked job s' := by
  cases step_move hstep with
  | guard _ => exact h.withMain _
  | body wallMs clock _ => exact loopBody_booked h wallMs clock
  | wake _ => exact h.withMain _
  | context i t ht => exact readContext_booked h ht
  | failover i t ht => exact h.withThreads _ (map_set_stage s.threads i t ht _)
  | complete i response t isDegraded ht _ => exact complete_booked h ht isDegraded response
  | join _ => exact h.withMain _

theorem reaches_booked {job : Job} {s : State} {ok : State → Event → Prop}
    (h : Reaches (step job) ok (start job) s) : Booked job s := by
  apply h.keeps (Booked job) (start_booked job)
  intro s e s' hs _ hstep
  exact step_booked job s e s' hs hstep

/-! ## Progress -/

/-- Every group of the plans has a member that depends on plans outside the group alone. -/
def Resolvable (plans : List StepPlan) : Prop :=
  ∀ group : List StepPlan, group ≠ [] → group ⊆ plans →
    ∃ p ∈ group, ∀ d ∈ p.depends, ∃ q ∈ plans, q ∉ group ∧ q.name = d

/-- When no agent runs and some plan waits, one that waits can be launched, and the next iteration
launches it unless it ends the loop. -/
def Unstuck (job : Job) (s : State) : Prop :=
  s.threads = [] → (∃ p ∈ s.plans, p.started = false) →
    ∃ p ∈ s.plans, launchable s.completed s.usedSlots p ∧
      ∀ wallMs clock, ¬ overBudget job wallMs s → ¬ converged job s →
        ∃ t ∈ (loopBody job wallMs clock s).threads, t.plan = p.plan

/-- The slots are those of the running agents. -/
def SlotsExact (s : State) : Prop :=
  s.usedSlots = (s.threads.map fun t => weight t.plan).sum ∧ 0 ≤ s.usedSlots ∧ s.usedSlots ≤ 8

theorem Booked.slotsExact {job : Job} {s : State} (h : Booked job s) : SlotsExact s := by
  have hweights : s.threads.map (·.weight) = s.threads.map fun t => weight t.plan :=
    List.map_congr_left h.weights
  refine ⟨?_, ?_, h.bound⟩
  · rw [h.slots, hweights]
  · rw [h.slots, hweights]
    apply List.sum_nonneg
    intro w hw
    obtain ⟨t, _, rfl⟩ := List.mem_map.mp hw
    exact (weight_pos t.plan).le

theorem completedCount_lt {job : Job} {s : State} (h : Booked job s)
    (hidle : ∃ p ∈ s.plans, p.started = false) : s.completedCount < s.plans.length := by
  obtain ⟨p, hp, hps⟩ := hidle
  have hlt : s.plans.countP (·.started) < s.plans.length := by
    refine lt_of_le_of_ne List.countP_le_length fun heq => ?_
    have := List.countP_eq_length.mp heq p hp
    simp [hps] at this
  have := h.count
  omega

theorem escalate_of_lt (job : Job) (s : State) (h : s.completedCount < s.plans.length) :
    escalate job s = s := by
  unfold escalate
  rw [if_neg]
  rintro ⟨_, _, _, hle⟩
  omega

theorem launch_first {job : Job} {s : State} (h : Booked job s) {p : Planned}
    (hfind : s.plans.find? (launchable s.completed s.usedSlots) = some p) (wallMs : Rat)
    (clock : Nat → Rat) (hbudget : ¬ overBudget job wallMs s) (hconv : ¬ converged job s) :
    ∃ t ∈ (loopBody job wallMs clock s).threads, t.plan = p.plan := by
  have hidle : ∃ p ∈ s.plans, p.started = false :=
    ⟨p, List.mem_of_find?_eq_some hfind, ((launchable_iff _ _ _).mp (List.find?_some hfind)).1⟩
  obtain ⟨t, ht, htp⟩ :=
    launchFrom_first s.completed (getModeSla s.mode) clock p s.plans 0 s.usedSlots hfind
  unfold loopBody
  rw [if_neg hbudget, if_neg hconv, escalate_of_lt job s (completedCount_lt h hidle)]
  exact ⟨t, List.mem_append_right _ ht, htp⟩

theorem Booked.unstuck {job : Job} {s : State} (h : Booked job s) (hres : Resolvable job.selected) :
    Unstuck job s := by
  intro hnone hidle
  -- The plans that wait, as a group: those outside of it are finished, since no agent runs.
  have hready : ∃ p ∈ s.plans, p.started = false ∧ ∀ d ∈ p.plan.depends, d ∈ s.completed := by
    by_contra hstuck
    have hselected : s.unstarted.map (·.plan) ⊆ job.selected := by
      intro plan hplan
      obtain ⟨p, hp, rfl⟩ := List.mem_map.mp hplan
      obtain ⟨hp, hps⟩ := List.mem_filter.mp hp
      rw [Bool.not_eq_true'] at hps
      exact (h.origin p hp hps).resolve_right fun hdeps => hstuck ⟨p, hp, hps, hdeps⟩
    have hne : s.unstarted.map (·.plan) ≠ [] := by
      obtain ⟨p, hp, hps⟩ := hidle
      have : p ∈ s.unstarted := List.mem_filter.mpr ⟨hp, by simp [hps]⟩
      exact List.ne_nil_of_mem (List.mem_map_of_mem this)
    obtain ⟨plan, hplan, hdeps⟩ := hres _ hne hselected
    obtain ⟨p, hp, rfl⟩ := List.mem_map.mp hplan
    obtain ⟨hp, hps⟩ := List.mem_filter.mp hp
    refine hstuck ⟨p, hp, by simpa using hps, fun d hd => ?_⟩
    obtain ⟨q, hq, hout, rfl⟩ := hdeps d hd
    obtain ⟨q', hq', rfl⟩ := h.kept q hq
    have hstarted : q'.started = true := by
      by_contra hidle
      exact hout (List.mem_map_of_mem (List.mem_filter.mpr ⟨hq', by simp [hidle]⟩))
    rcases h.finished q' hq' hstarted with hdone | ⟨t, ht, _⟩
    · exact hdone
    · rw [hnone] at ht
      exact absurd ht (by simp)
  obtain ⟨p, hp, hps, hdeps⟩ := hready
  have hused : s.usedSlots = 0 := by
    rw [h.slots, hnone]
    rfl
  have hlaunch : launchable s.completed s.usedSlots p := by
    rw [launchable_iff, hused, zero_add]
    exact ⟨hps, hdeps, weight_le p.plan⟩
  obtain ⟨q, hfind⟩ : ∃ q, s.plans.find? (launchable s.completed s.usedSlots) = some q := by
    rw [← Option.isSome_iff_exists, List.find?_isSome]
    exact ⟨p, hp, hlaunch⟩
  exact ⟨q, List.mem_of_find?_eq_some hfind, List.find?_some hfind, launch_first h hfind⟩

/-! ## A group that waits for itself -/

/-- Each member of the group depends on a name that no selected plan outside the group has. -/
structure Knot (job : Job) (group : List StepPlan) : Prop where
  nonempty : group ≠ []
  selected : group ⊆ job.selected
  tied : ∀ p ∈ group, ∃ d ∈ p.depends, ∀ q ∈ job.selected, q.name = d → q ∈ group

/-- No member of the group has been started, and every finished name is that of a started plan. -/
structure Asleep (job : Job) (group : List StepPlan) (s : State) : Prop where
  sleeping : ∀ p ∈ s.plans, p.plan ∈ group → p.started = false
  known : ∀ d ∈ s.completed, ∃ p ∈ s.plans, p.started ∧ p.plan.name = d
  running : ∀ t ∈ s.threads, ∃ p ∈ s.plans, p.started ∧ p.plan = t.plan
  same : s.plans.map (·.plan) = job.selected

theorem start_asleep (job : Job) (group : List StepPlan) : Asleep job group (start job) := by
  constructor
  · intro p hp _
    obtain ⟨step, _, rfl⟩ := List.mem_map.mp hp
    rfl
  · simp [start]
  · simp [start]
  · simp [start, Job.selected]

theorem launch_asleep {job : Job} {group : List StepPlan} (hknot : Knot job group) {s : State}
    (h : Asleep job group s) (clock : Nat → Rat) : Asleep job group (launch clock s) := by
  obtain ⟨r, hl, hlaunch⟩ := launch_spec clock s
  rw [hlaunch]
  constructor
  · intro p hp hgroup
    by_contra hstarted
    rw [Bool.not_eq_false] at hstarted
    rcases hl.started p hp hstarted with hp | ⟨t, ht, htp⟩
    · exact absurd (h.sleeping p hp hgroup) (by simp [hstarted])
    -- A launched member would depend on a finished plan, which then belongs to the group.
    · obtain ⟨d, hd, htied⟩ := hknot.tied p.plan hgroup
      rw [← htp] at hd
      obtain ⟨q, hq, hqs, hqd⟩ := h.known d ((hl.threads t ht).2.1 d hd)
      have hqsel : q.plan ∈ job.selected := by
        rw [← h.same]
        exact List.mem_map_of_mem hq
      exact absurd (h.sleeping q hq (htied q.plan hqsel hqd)) (by simp [hqs])
  · intro d hd
    obtain ⟨p, hp, hps, hpd⟩ := h.known d hd
    exact ⟨p, hl.old p hp hps, hps, hpd⟩
  · intro t ht
    rcases List.mem_append.mp ht with ht | ht
    · obtain ⟨p, hp, hps, hpt⟩ := h.running t ht
      exact ⟨p, hl.old p hp hps, hps, hpt⟩
    · exact (hl.threads t ht).2.2.1
  · rw [hl.kept]
    exact h.same

theorem Asleep.withMain {job : Job} {group : List StepPlan} {s : State} (h : Asleep job group s)
    (m : Main) : Asleep job group { s with main := m } :=
  ⟨h.sleeping, h.known, h.running, h.same⟩

theorem Asleep.running_set {job : Job} {group : List StepPlan} {s : State} (h : Asleep job group s)
    {i : Nat} {t : AgentThread} (ht : s.threads[i]? = some t) (stage : Stage) :
    ∀ t' ∈ s.threads.set i { t with stage }, ∃ p ∈ s.plans, p.started ∧ p.plan = t'.plan := by
  intro t' ht'
  rcases List.mem_or_eq_of_mem_set ht' with ht' | rfl
  · exact h.running t' ht'
  · exact h.running t (List.mem_of_getElem? ht)

/-- The loop was neither escalated nor cut off by the budget. -/
def Calm (s : State) : Prop := s.escalated = false ∧ s.budgetExceeded = false

theorem escalate_calm (job : Job) (s : State) (hcalm : Calm (escalate job s)) :
    Calm s ∧ (escalate job s).plans = s.plans := by
  obtain ⟨_, h⟩ | ⟨_, _, h⟩ | ⟨_, _, _, _, h⟩ := escalate_cases job s
  · rw [h] at hcalm ⊢
    exact ⟨hcalm, rfl⟩
  · rw [h] at hcalm ⊢
    exact ⟨hcalm, rfl⟩
  · rw [h] at hcalm
    exact absurd hcalm.1 (by simp)

theorem loopBody_asleep {job : Job} {group : List StepPlan} (hknot : Knot job group) {s : State}
    (wallMs : Rat) (clock : Nat → Rat) (h : Calm s → Asleep job group s)
    (hcalm : Calm (loopBody job wallMs clock s)) :
    Asleep job group (loopBody job wallMs clock s) := by
  unfold loopBody at hcalm ⊢
  split at hcalm
  · exact absurd hcalm.2 (by simp [stopOnBudget])
  · rename_i hbudget
    rw [if_neg hbudget]
    split at hcalm
    -- To stop early needs the escalation, and a calm state has not escalated.
    · rename_i hconv
      simp only [converged, decide_eq_true_eq] at hconv
      exact absurd hcalm.1 (by simp [stopEarly, skipRest, hconv.2.1])
    · rename_i hconv
      rw [if_neg hconv]
      obtain ⟨hs, hplans⟩ := escalate_calm job s hcalm
      obtain ⟨hthreads, _, _, hcompleted, _⟩ := escalate_rest job s
      have hasleep := h hs
      apply launch_asleep hknot
      constructor
      · rw [hplans]
        exact hasleep.sleeping
      · rw [hplans, hcompleted]
        exact hasleep.known
      · rw [hplans, hthreads]
        exact hasleep.running
      · rw [hplans]
        exact hasleep.same

theorem step_asleep {job : Job} {group : List StepPlan} (hknot : Knot job group)
    (s : State) (e : Event) (s' : State) (h : Calm s → Asleep job group s)
    (hstep : step job s e = some s') (hcalm : Calm s') : Asleep job group s' := by
  cases step_move hstep with
  | guard _ => exact (h hcalm).withMain _
  | body wallMs clock _ => exact loopBody_asleep hknot wallMs clock h hcalm
  | wake _ => exact (h hcalm).withMain _
  | context i t ht =>
    exact ⟨(h hcalm).sleeping, (h hcalm).known, (h hcalm).running_set ht _, (h hcalm).same⟩
  | failover i t ht =>
    exact ⟨(h hcalm).sleeping, (h hcalm).known, (h hcalm).running_set ht _, (h hcalm).same⟩
  | complete i response t isDegraded ht _ =>
    obtain ⟨hthreads, _, _, hcompleted, hplans, _⟩ := record_rest t isDegraded response s
    obtain ⟨_, hescalated, _, hbudget⟩ := record_loop t isDegraded response s
    have hs : Asleep job group s := by
      apply h
      unfold Calm at hcalm ⊢
      rw [← hescalated, ← hbudget]
      exact hcalm
    unfold complete
    dsimp only
    rw [hthreads, hcompleted, hplans]
    refine ⟨hs.sleeping, ?_, ?_, hs.same⟩
    · intro d hd
      rcases List.mem_append.mp hd with hd | hd
      · exact hs.known d hd
      -- A completed name is that of a started plan, and no member of the knot has started.
      · obtain ⟨p, hp, hps, hpt⟩ := hs.running t (List.mem_of_getElem? ht)
        rw [List.mem_singleton] at hd
        exact ⟨p, hp, hps, by rw [hpt, hd]⟩
    · intro t' ht'
      exact hs.running t' (List.mem_of_mem_eraseIdx ht')
  | join _ => exact (h hcalm).withMain _

/-- All runs of a job, with no condition on the events. -/
abbrev Runs (job : Job) : State → Prop := Reaches (step job) (fun _ _ => True) (start job)

theorem reaches_asleep {job : Job} {group : List StepPlan} (hknot : Knot job group) {s : State}
    (h : Runs job s) (hcalm : Calm s) : Asleep job group s := by
  refine h.keeps (fun s => Calm s → Asleep job group s) ?_ ?_ hcalm
  · intro _
    exact start_asleep job group
  · intro s e s' hs _ hstep hcalm
    exact step_asleep hknot s e s' hs hstep hcalm

/-! ## Rounds: launch what can be launched, and let it finish -/

/-- The loop is where it was. -/
def SameLoop (s s' : State) : Prop :=
  s'.main = s.main ∧ s'.plans = s.plans ∧ s'.escalated = s.escalated ∧
    s'.budgetExceeded = s.budgetExceeded

theorem SameLoop.trans {s s' s'' : State} (h : SameLoop s s') (h' : SameLoop s' s'') :
    SameLoop s s'' := by
  obtain ⟨h1, h2, h3, h4⟩ := h
  obtain ⟨h1', h2', h3', h4'⟩ := h'
  exact ⟨h1'.trans h1, h2'.trans h2, h3'.trans h3, h4'.trans h4⟩

theorem finish_executing {job : Job} {s : State} (h : Runs job s) {t : AgentThread}
    {rest : List AgentThread} (hthreads : s.threads = t :: rest) {isDegraded : Bool}
    (hstage : t.stage = .executing isDegraded) :
    ∃ s', Runs job s' ∧ s'.threads = rest ∧ SameLoop s s' := by
  have hstep : step job s (.complete 0 passing) = some (complete 0 t isDegraded passing s) := by
    simp [step, hthreads, hstage]
  obtain ⟨hsame, _, _, _, hplans, _⟩ := record_rest t isDegraded passing s
  obtain ⟨hmain, hescalated, _, hbudget⟩ := record_loop t isDegraded passing s
  refine ⟨_, h.next _ trivial hstep, ?_, hmain, hplans, hescalated, hbudget⟩
  simp [complete, hsame, hthreads]

theorem finish_failover {job : Job} {s : State} (h : Runs job s) {t : AgentThread}
    {rest : List AgentThread} (hthreads : s.threads = t :: rest) (hstage : t.stage = .failover) :
    ∃ s', Runs job s' ∧ s'.threads = rest ∧ SameLoop s s' := by
  have hstep : step job s (.failover 0) = some (readFailover 0 t s) := by
    simp [step, hthreads, hstage]
  have hnext : (readFailover 0 t s).threads = { t with stage := .executing s.sessionFailover } ::
    rest := by
    simp [readFailover, hthreads]
  obtain ⟨s', hs', hrest, hsame⟩ := finish_executing (h.next _ trivial hstep) hnext rfl
  exact ⟨s', hs', hrest, hsame⟩

theorem finish_first {job : Job} {s : State} (h : Runs job s) {t : AgentThread}
    {rest : List AgentThread} (hthreads : s.threads = t :: rest) :
    ∃ s', Runs job s' ∧ s'.threads = rest ∧ SameLoop s s' := by
  cases hstage : t.stage with
  | context =>
    have hstep : step job s (.context 0) = some (readContext 0 t s) := by
      simp [step, hthreads, hstage]
    have hnext : (readContext 0 t s).threads = { t with stage := .failover } :: rest := by
      simp [readContext, hthreads]
    obtain ⟨s', hs', hrest, hsame⟩ := finish_failover (h.next _ trivial hstep) hnext rfl
    exact ⟨s', hs', hrest, hsame⟩
  | failover => exact finish_failover h hthreads hstage
  | executing isDegraded => exact finish_executing h hthreads hstage

theorem finish_all {job : Job} (threads : List AgentThread) :
    ∀ s, Runs job s → s.threads = threads →
    ∃ s', Runs job s' ∧ s'.threads = [] ∧ SameLoop s s' := by
  induction threads with
  | nil =>
    intro s h hthreads
    exact ⟨s, h, hthreads, rfl, rfl, rfl, rfl⟩
  | cons t rest ih =>
    intro s h hthreads
    obtain ⟨s1, h1, hrest, hsame⟩ := finish_first h hthreads
    obtain ⟨s2, h2, hnone, hsame'⟩ := ih s1 h1 hrest
    exact ⟨s2, h2, hnone, hsame.trans hsame'⟩

/-- The loop at its guard, with no agent running. -/
structure AtRest (job : Job) (s : State) : Prop where
  runs : Runs job s
  guard : s.main = .guard
  none : s.threads = []
  calm : Calm s

theorem overBudget_zero (job : Job) (s : State) : ¬ overBudget job 0 s := by
  unfold overBudget getModeSla
  cases s.mode <;> simp

/-- From rest to rest, with at least one more plan started. -/
theorem round {job : Job} {s : State} (h : AtRest job s) (hidle : ∃ p ∈ s.plans, p.started = false)
    (hall : ∀ s, Runs job s → Unstuck job s) :
    ∃ s', AtRest job s' ∧ s'.plans.length = s.plans.length ∧
      s.plans.countP (·.started) < s'.plans.countP (·.started) := by
  have hbooked := reaches_booked h.runs
  have hlt := completedCount_lt hbooked hidle
  have hguard : step job s .guard = some { s with main := .body } := by
    simp [step, h.guard, hlt]
  have hbody := h.runs.next _ trivial hguard
  have hnext := hbody.next (.body 0 fun _ => 0) trivial rfl
  have hconv : ¬ converged job { s with main := .body } := by
    simp [converged, h.calm.1]
  have hloop : loopBody job 0 (fun _ => 0) { s with main := .body } =
      launch (fun _ => 0) { s with main := .body } := by
    unfold loopBody
    rw [if_neg (overBudget_zero job _), if_neg hconv,
      escalate_of_lt job { s with main := .body } hlt]
  obtain ⟨p, _, _, hlaunch⟩ := hall _ hbody h.none hidle
  obtain ⟨t, ht, _⟩ := hlaunch 0 (fun _ => 0) (overBudget_zero job _) hconv
  rw [hloop] at ht hnext
  -- All threads may finish before the next round: the interleaving is ours to choose.
  obtain ⟨s', hs', hnone, hmain, hplans, hescalated, hbudget⟩ := finish_all _ _ hnext rfl
  obtain ⟨r, hl, heq⟩ := launch_spec (fun _ => 0) { s with main := .body }
  have hcount := (reaches_booked hnext).count
  rw [heq] at ht hmain hplans hescalated hbudget hcount
  dsimp only at ht hmain hplans hescalated hbudget hcount
  rw [h.none, List.nil_append] at ht hcount
  refine ⟨s', ⟨hs', ?_, hnone, ?_⟩, ?_, ?_⟩
  · rw [hmain, if_neg]
    intro hempty
    rw [hempty.1] at ht
    exact absurd ht (by simp)
  · exact ⟨hescalated.trans h.calm.1, hbudget.trans h.calm.2⟩
  · have := congrArg List.length hl.kept
    rw [hplans]
    simpa using this
  · have hpos := List.length_pos_of_mem ht
    have := hbooked.count
    rw [h.none, List.length_nil] at this
    rw [hplans]
    omega

/-- A knot stops the loop for good. -/
theorem knot_stuck {job : Job} {group : List StepPlan} (hknot : Knot job group)
    (hall : ∀ s, Runs job s → Unstuck job s) : ∀ (n : Nat) (s : State), AtRest job s →
      s.plans.length ≤ s.plans.countP (·.started) + n → False := by
  have hidle : ∀ s, AtRest job s → ∃ p ∈ s.plans, p.started = false := by
    intro s h
    obtain ⟨plan, hplan⟩ := List.exists_mem_of_ne_nil group hknot.nonempty
    obtain ⟨p, hp, rfl⟩ := (reaches_booked h.runs).kept plan (hknot.selected hplan)
    exact ⟨p, hp, (reaches_asleep hknot h.runs h.calm).sleeping p hp hplan⟩
  intro n
  induction n with
  | zero =>
    intro s h hle
    have hbooked := reaches_booked h.runs
    have hlt := completedCount_lt hbooked (hidle s h)
    have hcount := hbooked.count
    rw [h.none, List.length_nil] at hcount
    omega
  | succ n ih =>
    intro s h hle
    obtain ⟨s', h', hlength, hmore⟩ := round h (hidle s h) hall
    exact ih s' h' (by omega)

theorem knot_of_not_resolvable {job : Job} (h : ¬ Resolvable job.selected) :
    ∃ group, Knot job group := by
  unfold Resolvable at h
  push Not at h
  obtain ⟨group, hne, hsub, htied⟩ := h
  refine ⟨group, hne, hsub, fun p hp => ?_⟩
  obtain ⟨d, hd, hout⟩ := htied p hp
  refine ⟨d, hd, fun q hq hname => ?_⟩
  by_contra hmem
  exact hout q hq hmem hname

/-- In no run is the scheduler stuck, and the slots always add up, exactly when the dependencies of
the selected steps resolve among these steps. -/
theorem scheduler_progress_iff (job : Job) :
    (∀ s, Reaches (step job) (fun _ _ => True) (start job) s → Unstuck job s ∧ SlotsExact s) ↔
      Resolvable job.selected := by
  constructor
  · intro hall
    by_contra hres
    obtain ⟨group, hknot⟩ := knot_of_not_resolvable hres
    have hrest : AtRest job (start job) := ⟨.start, rfl, rfl, rfl, rfl⟩
    exact knot_stuck hknot (fun s hs => (hall s hs).1) _ (start job) hrest (Nat.le_add_left _ _)
  · intro hres s hs
    have hbooked := reaches_booked hs
    exact ⟨hbooked.unstuck hres, hbooked.slotsExact⟩

/-- Four steps in standard mode: the mode drops the second, on which the fourth depends. -/
def droppedDependency : Job :=
  { manifest := .steps
      [{ name := some (ascii "Docs"), agent := some (ascii "librarian"), pillar := none,
         depends := [] },
       { name := some (ascii "Design"), agent := some (ascii "writer"), pillar := none,
         depends := [] },
       { name := some (ascii "Style"), agent := some (ascii "linter"), pillar := none,
         depends := [] },
       { name := some (ascii "Structure"), agent := some (ascii "architect"), pillar := none,
         depends := [ascii "Design"] }]
    mode := .standard
    ciMode := false
    route := fun _ _ => ascii "ollama" }

theorem dropped_dependency_stuck : ¬ ∀ (job : Job) (s : State),
    Reaches (step job) (fun _ _ => True) (start job) s → Unstuck job s ∧ SlotsExact s := by
  -- The librarian is done, and the architect waits for a step that is not part of the run.
  intro h
  have hrun : (run (step droppedDependency) (fun _ _ => True) (start droppedDependency)
      [.guard, .body 0 fun _ => 0, .context 0, .failover 0, .complete 0 passing]).map
      (fun s => decide (s.threads.length = 0 ∧ (∃ p ∈ s.plans, p.started = false) ∧
        ∀ p ∈ s.plans, ¬ launchable s.completed s.usedSlots p)) = some true := by
    decide +kernel
  obtain ⟨s, hs, hend⟩ := Option.map_eq_some_iff.mp hrun
  obtain ⟨hnone, hidle, hstuck⟩ := of_decide_eq_true hend
  obtain ⟨p, hp, hlaunch, _⟩ :=
    (h droppedDependency s (Reaches.of_run _ .start hs)).1 (List.eq_nil_of_length_eq_zero hnone)
      hidle
  exact hstuck p hp hlaunch

end Euxis.Playbook
