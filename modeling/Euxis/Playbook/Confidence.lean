import Mathlib.Algebra.Order.Field.Basic
import Mathlib.Tactic.Positivity
import Euxis.Playbook.Verdict

/-!
# More failed checks and the confidence

Some checks of the tool turn out as failed, and everything else stays. What the confidence loses by
it, and the two ways in which it gains: a failed build takes the place of all other failed checks,
and an entry that is failed no longer counts as a decisive negative.
-/

namespace Euxis.Playbook

/-! ## Failing some checks -/

/-- An evidence log in which some entries are marked. -/
abbrev Marked := List (AgentEvidence × Bool)

namespace Marked

def before (m : Marked) : List AgentEvidence := m.map Prod.fst

def fail (x : AgentEvidence × Bool) : AgentEvidence :=
  if x.2 then { x.1 with verdict := .failed } else x.1

/-- The log with the marked entries failed. -/
def after (m : Marked) : List AgentEvidence := m.map fail

/-- The marked entries are checks of the tool that had not failed. -/
def Checks (m : Marked) : Prop :=
  ∀ x ∈ m, x.2 = true → isInfraId x.1.agentId = true ∧ x.1.verdict ≠ .failed

def flips (m : Marked) : Nat := m.countP fun x => x.2

/-- The marked entries that were decisive negatives. -/
def turned (m : Marked) : Nat := m.countP fun x => x.2 && decide (x.1.rawVerdict = .fail)

theorem turned_le_flips (m : Marked) : m.turned ≤ m.flips := by
  apply List.countP_mono_left
  intro x _ h
  rw [Bool.and_eq_true] at h
  exact h.1

variable {α : Type} (m : Marked)

theorem map_after (g : AgentEvidence → α) (hg : ∀ ev v, g { ev with verdict := v } = g ev) :
    m.after.map g = m.before.map g := by
  unfold after before
  rw [List.map_map, List.map_map]
  apply List.map_congr_left
  intro x _
  rw [Function.comp_apply, Function.comp_apply, fail]
  split
  · exact hg x.1 .failed
  · rfl

end Marked

/-! ## The tally -/

theorem countP_add {α : Type} (p q r : α → Bool) (l : List α)
    (h : ∀ x ∈ l, (p x).toNat = (q x).toNat + (r x).toNat) :
    l.countP p = l.countP q + l.countP r := by
  induction l with
  | nil => rfl
  | cons x rest ih =>
    have ih := ih fun y hy => h y (List.mem_cons_of_mem _ hy)
    have hx := h x List.mem_cons_self
    simp only [List.countP_cons, ih]
    simp only [Bool.toNat, Bool.cond_eq_ite] at hx
    omega

section Tally

variable {m : Marked} (h : m.Checks)

include h

theorem decisiveNegatives_after :
    (m.before.countP fun ev => ev.rawVerdict = .fail ∧ ev.verdict ≠ .failed) =
      (m.after.countP fun ev => ev.rawVerdict = .fail ∧ ev.verdict ≠ .failed) + m.turned := by
  unfold Marked.before Marked.after Marked.turned
  rw [List.countP_map, List.countP_map]
  apply countP_add
  rintro ⟨ev, mark⟩ hx
  cases mark with
  | false => simp [Marked.fail]
  | true =>
    obtain ⟨-, hnot⟩ := h _ hx rfl
    simp [Marked.fail, hnot]

theorem builtinFails_after :
    (m.after.countP fun ev => isInfraId ev.agentId ∧ ev.verdict = .failed) =
      (m.before.countP fun ev => isInfraId ev.agentId ∧ ev.verdict = .failed) + m.flips := by
  unfold Marked.before Marked.after Marked.flips
  rw [List.countP_map, List.countP_map]
  apply countP_add
  rintro ⟨ev, mark⟩ hx
  cases mark with
  | false => simp [Marked.fail]
  | true =>
    obtain ⟨hinfra, hnot⟩ := h _ hx rfl
    simp [Marked.fail, hnot, hinfra]

theorem build_after (hbuild : m.before.any (fun ev => isInfraId ev.agentId ∧ ev.verdict = .failed ∧
    ev.pillar = ascii "build")) :
    m.after.any fun ev => isInfraId ev.agentId ∧ ev.verdict = .failed ∧
      ev.pillar = ascii "build" := by
  obtain ⟨ev, hev, hfailed⟩ := List.any_eq_true.mp hbuild
  obtain ⟨x, hx, rfl⟩ := List.mem_map.mp hev
  refine List.any_eq_true.mpr ⟨Marked.fail x, List.mem_map_of_mem hx, ?_⟩
  have hmark : x.2 = false := by
    by_contra hmark
    have hnot := (h x hx (Bool.eq_true_of_not_eq_false hmark)).2
    simp [hnot] at hfailed
  rw [Marked.fail, hmark]
  exact hfailed

end Tally

/-! ## The penalties -/

theorem trunc_mono (a b : Rat) (ha : 0 ≤ a) (h : a ≤ b) : trunc a ≤ trunc b := by
  have hfloor : ∀ q : Rat, 0 ≤ q → trunc q = q.floor := by
    intro q hq
    rw [trunc, Rat.floor_def, Int.tdiv_eq_ediv_of_nonneg (Rat.num_nonneg.mpr hq)]
  rw [hfloor a ha, hfloor b (ha.trans h)]
  exact Rat.floor_monotone h

theorem agreementRatio_anti (t t' : Tally) (hp : t'.passes = t.passes) (hf : t'.fails = t.fails)
    (h : t.effectiveFails ≤ t'.effectiveFails) : t'.agreementRatio ≤ t.agreementRatio ∧
      t.agreementRatio ≤ 1 := by
  -- The ratio is at most 1, which also covers the case that nothing counts yet.
  have hle : ∀ u : Tally, max u.passes u.fails ≤ u.passes + u.effectiveFails := by
    intro u
    unfold Tally.effectiveFails
    omega
  have hone : ∀ u : Tally, u.agreementRatio ≤ 1 := by
    intro u
    unfold Tally.agreementRatio
    dsimp only
    split
    · rename_i hpos
      rw [div_le_one (by exact_mod_cast hpos)]
      exact_mod_cast hle u
    · exact le_refl _
  refine ⟨?_, hone t⟩
  by_cases hpos : 0 < t.passes + t.effectiveFails
  · have hpos' : 0 < t'.passes + t'.effectiveFails := by omega
    unfold Tally.agreementRatio
    rw [if_pos hpos, if_pos hpos', hp, hf]
    have hden : ((t.passes + t.effectiveFails : Nat) : Rat) ≤
        ((t.passes + t'.effectiveFails : Nat) : Rat) := by
      exact_mod_cast Nat.add_le_add_left h _
    exact div_le_div_of_nonneg_left (by positivity) (by exact_mod_cast hpos) hden
  · have ht : t.agreementRatio = 1 := if_neg hpos
    rw [ht]
    exact hone t'

theorem agreementPenalty_mono (t t' : Tally) (hp : t'.passes = t.passes) (hf : t'.fails = t.fails)
    (h : t.effectiveFails ≤ t'.effectiveFails) : agreementPenalty t ≤ agreementPenalty t' := by
  obtain ⟨hratio, hone⟩ := agreementRatio_anti t t' hp hf h
  have htrunc : trunc ((1 - t.agreementRatio) * 30) ≤ trunc ((1 - t'.agreementRatio) * 30) := by
    apply trunc_mono
    · exact mul_nonneg (sub_nonneg.mpr hone) (by norm_num)
    · exact mul_le_mul_of_nonneg_right (sub_le_sub_left hratio 1) (by norm_num)
  have hcontra : t.hasContradiction = true → t'.hasContradiction = true := by
    unfold Tally.hasContradiction
    simp only [decide_eq_true_eq]
    omega
  unfold agreementPenalty
  dsimp only
  by_cases hc : t.hasContradiction = true
  · rw [if_pos hc, if_pos (hcontra hc)]
    omega
  · rw [if_neg hc]
    split <;> omega

/-- The penalties that no verdict of a check touches. -/
def settledPenalties (t : Tally) (log : List AgentEvidence) (skippedEarly budgetExceeded : Bool) :
    Int :=
  trunc ((1 - evidenceDensity log) * 25) + trunc ((1 - criticalCoverage log) * 25) +
    trunc (degradationRatio t log * 15) +
    (if skippedEarly then 5 else 0) + incompletePenalty t + if budgetExceeded then 10 else 0

def penalties (t : Tally) (log : List AgentEvidence) (skippedEarly budgetExceeded : Bool) : Int :=
  agreementPenalty t + (t.decisiveNegatives : Int) * 10 + builtinPenalty t +
    settledPenalties t log skippedEarly budgetExceeded

theorem confidence_eq (t : Tally) (log : List AgentEvidence) (skippedEarly budgetExceeded : Bool) :
    confidence t log skippedEarly budgetExceeded =
      max 0 (min 100 (100 - penalties t log skippedEarly budgetExceeded)) := by
  unfold confidence penalties settledPenalties
  dsimp only
  congr 2
  omega

theorem settledPenalties_after (verdicts : StepVerdicts) (m : Marked)
    (skippedEarly budgetExceeded : Bool) :
    settledPenalties (tally verdicts m.after) m.after skippedEarly budgetExceeded =
      settledPenalties (tally verdicts m.before) m.before skippedEarly budgetExceeded := by
  -- None of these three looks at a verdict, and that is all the change touches.
  have hdensity : evidenceDensity m.after = evidenceDensity m.before := by
    unfold evidenceDensity
    rw [m.map_after (·.executionBacked) fun _ _ => rfl, m.map_after (·.totalClaims) fun _ _ => rfl]
  have hcovered : criticalCovered m.after = criticalCovered m.before := by
    unfold criticalCovered
    congr 1
    funext cp
    have hany : ∀ log : List AgentEvidence,
        (log.any fun ev => ev.pillar = cp) = (log.map (·.pillar)).any fun pillar => pillar =
          cp := by
      intro log
      rw [List.any_map]
      rfl
    rw [hany, hany, m.map_after (·.pillar) fun _ _ => rfl]
  have hdegraded : m.after.countP (·.degraded) = m.before.countP (·.degraded) := by
    have hcount : ∀ log : List AgentEvidence,
        log.countP (·.degraded) = (log.map (·.degraded)).countP id := by
      intro log
      rw [List.countP_map]
      rfl
    rw [hcount, hcount, m.map_after (·.degraded) fun _ _ => rfl]
  have hdegradation : degradationRatio (tally verdicts m.after) m.after =
      degradationRatio (tally verdicts m.before) m.before := by
    unfold degradationRatio
    rw [hdegraded]
    rfl
  unfold settledPenalties criticalCoverage
  rw [hdensity, hcovered, hdegradation]
  rfl

/-! ## Before and after -/

section Compare

variable (verdicts : StepVerdicts) (m : Marked)

/-- What a failed build gives back: the decisive negatives among the failed checks, and the penalty
of the checks that had failed before, when the 20 points of the build take their place. -/
def buildGain : Int :=
  (m.turned : Int) * 10 +
    if (tally verdicts m.before).buildVerificationFailed then 0
    else ((tally verdicts m.before).builtinFails : Int) * 15 - 20

/-- What the agreement costs more. -/
def agreementLoss : Int :=
  agreementPenalty (tally verdicts m.after) - agreementPenalty (tally verdicts m.before)

variable {m} (h : m.Checks)

include h

theorem agreementLoss_nonneg : 0 ≤ agreementLoss verdicts m := by
  have hd := decisiveNegatives_after h
  have hb := builtinFails_after h
  have ht := m.turned_le_flips
  have hmono := agreementPenalty_mono (tally verdicts m.before) (tally verdicts m.after) rfl rfl (by
    unfold Tally.effectiveFails tally
    dsimp only
    omega)
  unfold agreementLoss
  omega

theorem penalties_of_build (skippedEarly budgetExceeded : Bool)
    (hbuild : (tally verdicts m.after).buildVerificationFailed = true) :
    penalties (tally verdicts m.after) m.after skippedEarly budgetExceeded =
      penalties (tally verdicts m.before) m.before skippedEarly budgetExceeded +
        agreementLoss verdicts m - buildGain verdicts m := by
  have hpos : ∀ log, (tally verdicts log).buildVerificationFailed = true →
      0 < (tally verdicts log).builtinFails := by
    intro log hlog
    obtain ⟨ev, hev, hfailed⟩ := List.any_eq_true.mp hlog
    refine List.countP_pos_iff.mpr ⟨ev, hev, ?_⟩
    simp only [decide_eq_true_eq] at hfailed ⊢
    exact ⟨hfailed.1, hfailed.2.1⟩
  have hd : (tally verdicts m.before).decisiveNegatives =
      (tally verdicts m.after).decisiveNegatives + m.turned :=
    decisiveNegatives_after h
  have hafter : builtinPenalty (tally verdicts m.after) = 20 := by
    rw [builtinPenalty, if_pos (hpos _ hbuild), if_pos hbuild]
  unfold penalties agreementLoss buildGain
  rw [settledPenalties_after, hafter, hd]
  -- A broken build costs 20 whatever else has failed, where the other checks cost 15 each.
  by_cases hbefore : (tally verdicts m.before).buildVerificationFailed = true
  · have hpenalty : builtinPenalty (tally verdicts m.before) = 20 := by
      rw [builtinPenalty, if_pos (hpos _ hbefore), if_pos hbefore]
    rw [hpenalty, if_pos hbefore]
    push_cast
    omega
  · have hpenalty : builtinPenalty (tally verdicts m.before) =
        ((tally verdicts m.before).builtinFails : Int) * 15 := by
      rw [builtinPenalty, if_neg hbefore]
      split <;> omega
    rw [hpenalty, if_neg hbefore]
    push_cast
    omega

theorem penalties_of_no_build (skippedEarly budgetExceeded : Bool)
    (hbuild : ¬ (tally verdicts m.after).buildVerificationFailed = true) :
    penalties (tally verdicts m.before) m.before skippedEarly budgetExceeded ≤
      penalties (tally verdicts m.after) m.after skippedEarly budgetExceeded := by
  have hbefore : ¬ (tally verdicts m.before).buildVerificationFailed = true :=
    fun hb => hbuild (build_after h hb)
  have hpenalty : ∀ t : Tally, ¬ t.buildVerificationFailed = true →
      builtinPenalty t = (t.builtinFails : Int) * 15 := by
    intro t ht
    rw [builtinPenalty, if_neg ht]
    split <;> omega
  have hd : (tally verdicts m.before).decisiveNegatives =
      (tally verdicts m.after).decisiveNegatives + m.turned :=
    decisiveNegatives_after h
  have hb : (tally verdicts m.after).builtinFails = (tally verdicts m.before).builtinFails +
      m.flips := builtinFails_after h
  have hloss := agreementLoss_nonneg verdicts h
  have hturned := m.turned_le_flips
  unfold agreementLoss at hloss
  unfold penalties
  rw [settledPenalties_after, hpenalty _ hbuild, hpenalty _ hbefore, hd, hb]
  push_cast
  omega

theorem confidence_not_raised (skippedEarly budgetExceeded : Bool)
    (hgain : (tally verdicts m.after).buildVerificationFailed = true → buildGain verdicts m ≤ 0) :
    confidence (tally verdicts m.after) m.after skippedEarly budgetExceeded ≤
      confidence (tally verdicts m.before) m.before skippedEarly budgetExceeded := by
  rw [confidence_eq, confidence_eq]
  by_cases hbuild : (tally verdicts m.after).buildVerificationFailed = true
  · have hchange := penalties_of_build verdicts h skippedEarly budgetExceeded hbuild
    have hloss := agreementLoss_nonneg verdicts h
    have hnone := hgain hbuild
    omega
  · have hgrow := penalties_of_no_build verdicts h skippedEarly budgetExceeded hbuild
    omega

end Compare

/-! ## The changes that are safe -/

/-- A check of the build has failed. -/
def BuildFailed (log : List AgentEvidence) : Prop :=
  ∃ ev ∈ log, isInfraId ev.agentId = true ∧ ev.verdict = .failed ∧ ev.pillar = ascii "build"

/-- The checks of the tool that have failed. -/
def failedChecks (log : List AgentEvidence) : Nat :=
  log.countP fun ev => isInfraId ev.agentId ∧ ev.verdict = .failed

/-- No build has failed after the change; or one had failed before, and no entry that emitted `FAIL`
is changed; or the checks failed before, at 15 points each, and the changed entries that emitted
`FAIL`, at 10, are not worth more than the 20 of the build. -/
def SafeChange (m : Marked) : Prop :=
  ¬ BuildFailed m.after ∨ (BuildFailed m.before ∧ m.turned = 0) ∨
    15 * failedChecks m.before + 10 * m.turned ≤ 20

theorem buildVerificationFailed_iff (verdicts : StepVerdicts) (log : List AgentEvidence) :
    (tally verdicts log).buildVerificationFailed = true ↔ BuildFailed log := by
  unfold tally BuildFailed
  simp

theorem failedChecks_pos {log : List AgentEvidence} (h : BuildFailed log) :
    0 < failedChecks log := by
  obtain ⟨ev, hev, hinfra, hfailed, -⟩ := h
  exact List.countP_pos_iff.mpr ⟨ev, hev, by simp [hinfra, hfailed]⟩

theorem safeChange_iff (verdicts : StepVerdicts) (m : Marked) :
    SafeChange m ↔ ((tally verdicts m.after).buildVerificationFailed = true →
      buildGain verdicts m ≤ 0) := by
  have hcount : (tally verdicts m.before).builtinFails = failedChecks m.before := rfl
  have hbefore := buildVerificationFailed_iff verdicts m.before
  unfold SafeChange buildGain
  rw [buildVerificationFailed_iff, hcount]
  by_cases hafter : BuildFailed m.after
  · simp only [hafter, not_true_eq_false, false_or, true_implies]
    by_cases hfailed : BuildFailed m.before
    · have hpos := failedChecks_pos hfailed
      rw [if_pos (hbefore.mpr hfailed)]
      simp only [hfailed, true_and]
      omega
    · rw [if_neg fun hb => hfailed (hbefore.mp hb)]
      simp only [hfailed, false_and, false_or]
      omega
  · simp [hafter]

/-! ### The agents beside the checks -/

/-- The log with the entries of the agents, none of which is marked. -/
def Marked.beside (m : Marked) (agents : List AgentEvidence) : Marked :=
  m ++ agents.map fun ev => (ev, false)

section Beside

variable (m : Marked) (agents : List AgentEvidence)

theorem Marked.before_beside : (m.beside agents).before = m.before ++ agents := by
  unfold Marked.before Marked.beside
  rw [List.map_append, List.map_map]
  simp [Function.comp_def]

theorem Marked.after_beside : (m.beside agents).after = m.after ++ agents := by
  unfold Marked.after Marked.beside
  rw [List.map_append, List.map_map]
  simp [Function.comp_def, Marked.fail]

theorem Marked.turned_beside : (m.beside agents).turned = m.turned := by
  unfold Marked.turned Marked.beside
  rw [List.countP_append, List.countP_map]
  simp [Function.comp_def]

variable {m} in
theorem Marked.checks_beside (h : m.Checks) : (m.beside agents).Checks := by
  intro x hx hmark
  rcases List.mem_append.mp hx with hx | hx
  · exact h x hx hmark
  · obtain ⟨ev, -, rfl⟩ := List.mem_map.mp hx
    cases hmark

variable {agents} (hagents : ∀ ev ∈ agents, isInfraId ev.agentId = false)

include hagents

theorem buildFailed_beside (log : List AgentEvidence) :
    BuildFailed (log ++ agents) ↔ BuildFailed log := by
  unfold BuildFailed
  constructor
  · rintro ⟨ev, hev, hinfra, hfailed⟩
    rcases List.mem_append.mp hev with hev | hev
    · exact ⟨ev, hev, hinfra, hfailed⟩
    · rw [hagents ev hev] at hinfra
      cases hinfra
  · rintro ⟨ev, hev, hfailed⟩
    exact ⟨ev, List.mem_append_left _ hev, hfailed⟩

theorem failedChecks_beside (log : List AgentEvidence) :
    failedChecks (log ++ agents) = failedChecks log := by
  unfold failedChecks
  rw [List.countP_append]
  have hzero : (agents.countP fun ev => isInfraId ev.agentId ∧ ev.verdict = .failed) = 0 := by
    rw [List.countP_eq_zero]
    intro ev hev
    simp [hagents ev hev]
  rw [hzero, Nat.add_zero]

theorem safeChange_beside : SafeChange (m.beside agents) ↔ SafeChange m := by
  unfold SafeChange
  rw [m.before_beside, m.after_beside, m.turned_beside, buildFailed_beside hagents,
    buildFailed_beside hagents, failedChecks_beside hagents]

end Beside

/-! ### A log in which an unsafe change shows -/

/-- An agent whose claims bring those of the log to 1, and the penalty for their density to 25
points for each of `k`. -/
def balance (log : List AgentEvidence) (k : Int) : AgentEvidence :=
  { agentName := ascii "Structure"
    agentId := ascii "architect"
    verdict := .partialEvidence
    pillar := ascii "structure"
    executionBacked := 1 - k - (log.map (·.executionBacked)).sum
    inferred := 0
    totalClaims := 1 - (log.map (·.totalClaims)).sum
    degraded := false
    rawVerdict := .pass }

theorem trunc_intCast (n : Int) : trunc (n : Rat) = n := by
  simp [trunc]

theorem densityPenalty_balance (log : List AgentEvidence) (k : Int) :
    trunc ((1 - evidenceDensity (log ++ [balance log k])) * 25) = k * 25 := by
  have hdensity : evidenceDensity (log ++ [balance log k]) = 1 - k := by
    unfold evidenceDensity ratio
    simp [balance]
  have hpenalty : (1 - (1 - (k : Rat))) * 25 = ((k * 25 : Int) : Rat) := by
    rw [sub_sub_cancel]
    push_cast
    rfl
  rw [hdensity, hpenalty, trunc_intCast]

theorem agreementPenalty_empty (log : List AgentEvidence) (h : 0 < (tally ∅ log).effectiveFails) :
    agreementPenalty (tally ∅ log) = 30 := by
  have hpasses : (tally ∅ log).passes = 0 := rfl
  have hfails : (tally ∅ log).fails = 0 := rfl
  have hratio : (tally ∅ log).agreementRatio = 0 := by
    unfold Tally.agreementRatio
    rw [if_pos (by omega), hpasses, hfails]
    simp
  have hnone : (tally ∅ log).hasContradiction = false := by
    simp [Tally.hasContradiction, hpasses]
  unfold agreementPenalty
  rw [hratio, hnone]
  decide +kernel

theorem settledPenalties_balance (log : List AgentEvidence) (k : Int) :
    settledPenalties (tally ∅ (log ++ [balance log k])) (log ++ [balance log k]) false false =
      k * 25 + trunc ((1 - criticalCoverage (log ++ [balance log 0])) * 25) := by
  have hcoverage : criticalCoverage (log ++ [balance log k]) =
      criticalCoverage (log ++ [balance log 0]) := by
    unfold criticalCoverage criticalCovered
    simp [balance]
  have hdegradation : degradationRatio (tally ∅ (log ++ [balance log k])) (log ++ [balance log k]) =
      0 := rfl
  have hincomplete : incompletePenalty (tally ∅ (log ++ [balance log k])) = 0 := rfl
  have hzero : trunc (0 * 15) = 0 := by decide +kernel
  unfold settledPenalties
  rw [densityPenalty_balance, hcoverage, hdegradation, hincomplete, hzero]
  simp

theorem tally_balance (verdicts : StepVerdicts) (log log' : List AgentEvidence) (k : Int) :
    tally verdicts (log ++ [balance log' k]) = tally verdicts log := by
  have hinfra : isInfraId (ascii "architect") = false := by decide
  unfold tally
  simp [balance, hinfra]

theorem buildGain_balance (m : Marked) (log : List AgentEvidence) (k : Int) :
    buildGain ∅ (m.beside [balance log k]) = buildGain ∅ m := by
  unfold buildGain
  rw [m.turned_beside, m.before_beside, tally_balance]

theorem agreementLoss_balance {m : Marked} (h : m.Checks) (hbuild : BuildFailed m.after)
    (hgain : 0 < buildGain ∅ m) (log : List AgentEvidence) (k : Int) :
    agreementLoss ∅ (m.beside [balance log k]) = 0 := by
  have hafter : 0 < (tally ∅ m.after).effectiveFails := by
    have hpos : 0 < (tally ∅ m.after).builtinFails := failedChecks_pos hbuild
    unfold Tally.effectiveFails
    omega
  have hbefore : 0 < (tally ∅ m.before).effectiveFails := by
    have hd : (tally ∅ m.before).decisiveNegatives = (tally ∅ m.after).decisiveNegatives +
        m.turned :=
      decisiveNegatives_after h
    unfold buildGain at hgain
    unfold Tally.effectiveFails
    split at hgain <;> omega
  unfold agreementLoss
  rw [m.before_beside, m.after_beside, tally_balance, tally_balance,
    agreementPenalty_empty _ hafter, agreementPenalty_empty _ hbefore]
  rfl

theorem confidence_raised {m : Marked} (h : m.Checks) (hbuild : BuildFailed m.after)
    (hgain : 0 < buildGain ∅ m) :
    ∃ k, confidence (tally ∅ (m.before ++ [balance m.after k])) (m.before ++ [balance m.after k])
      false false <
      confidence (tally ∅ (m.after ++ [balance m.after k])) (m.after ++ [balance m.after k])
        false false := by
  -- The other penalties after the change, less those for the density.
  obtain ⟨base, hbase⟩ : ∃ base, base = 50 + ((tally ∅ m.after).decisiveNegatives : Int) * 10 +
      trunc ((1 - criticalCoverage (m.after ++ [balance m.after 0])) * 25) := ⟨_, rfl⟩
  refine ⟨-(base / 25), ?_⟩
  generalize hk : -(base / 25) = k
  have hfailed : (tally ∅ m.after).buildVerificationFailed = true :=
    (buildVerificationFailed_iff ∅ m.after).mpr hbuild
  have hchange := penalties_of_build ∅ (Marked.checks_beside [balance m.after k] h) false false (by
    rw [m.after_beside, tally_balance]
    exact hfailed)
  rw [agreementLoss_balance h hbuild hgain, buildGain_balance, m.after_beside, m.before_beside]
    at hchange
  have hafter : penalties (tally ∅ (m.after ++ [balance m.after k]))
      (m.after ++ [balance m.after k]) false false = base + k * 25 := by
    have hpos : 0 < (tally ∅ m.after).builtinFails := failedChecks_pos hbuild
    have hagreement := agreementPenalty_empty m.after (by unfold Tally.effectiveFails; omega)
    have hbuiltin : builtinPenalty (tally ∅ m.after) = 20 := by
      rw [builtinPenalty, if_pos hpos, if_pos hfailed]
    unfold penalties
    rw [settledPenalties_balance, tally_balance, hagreement, hbuiltin, hbase]
    omega
  rw [confidence_eq, confidence_eq]
  omega

/-- **More failed checks.** Whatever the agents have said, the confidence does not rise: this holds
of exactly the safe changes. -/
theorem confidence_not_raised_iff {m : Marked} (h : m.Checks) :
    (∀ (verdicts : StepVerdicts) (agents : List AgentEvidence) (skippedEarly budgetExceeded : Bool),
      (∀ ev ∈ agents, isInfraId ev.agentId = false) →
        confidence (tally verdicts (m.after ++ agents)) (m.after ++ agents) skippedEarly
          budgetExceeded ≤
          confidence (tally verdicts (m.before ++ agents)) (m.before ++ agents) skippedEarly
            budgetExceeded) ↔
      SafeChange m := by
  constructor
  · intro hnever
    by_contra hunsafe
    rw [safeChange_iff ∅, Classical.not_imp, buildVerificationFailed_iff, not_le] at hunsafe
    obtain ⟨k, hraised⟩ := confidence_raised h hunsafe.1 hunsafe.2
    have hagents : ∀ ev ∈ [balance m.after k], isInfraId ev.agentId = false := by
      intro ev hev
      have hinfra : isInfraId (ascii "architect") = false := by decide
      rw [List.mem_singleton.mp hev]
      exact hinfra
    exact absurd (hnever ∅ _ false false hagents) (not_le.mpr hraised)
  · intro hsafe verdicts agents skippedEarly budgetExceeded hagents
    have hsafe' := (safeChange_iff verdicts _).mp ((safeChange_beside m hagents).mpr hsafe)
    have hle := confidence_not_raised verdicts (Marked.checks_beside agents h) skippedEarly
      budgetExceeded hsafe'
    rw [m.after_beside, m.before_beside] at hle
    exact hle

def failingTests (name : String) : AgentEvidence :=
  testingEntry { name := ascii name, status := .failing, claims := 1, executionBacked := 1 }

/-- One failed test check costs no more than the build. -/
def oneFailedTest : Marked :=
  [(failingTests "unit", false),
    (verifierEntry { checkName := ascii "cargo-check", success := true }, true)]

theorem confidence_not_raised_one_failed_test :
    oneFailedTest.Checks ∧ BuildFailed oneFailedTest.after ∧ SafeChange oneFailedTest ∧
      ∀ (verdicts : StepVerdicts) (agents : List AgentEvidence) (skippedEarly budgetExceeded :
        Bool), (∀ ev ∈ agents, isInfraId ev.agentId = false) →
          confidence (tally verdicts (oneFailedTest.after ++ agents)) (oneFailedTest.after ++
            agents) skippedEarly
              budgetExceeded ≤
            confidence (tally verdicts (oneFailedTest.before ++ agents)) (oneFailedTest.before ++
              agents) skippedEarly
              budgetExceeded := by
  have hchecks : oneFailedTest.Checks := by
    unfold Marked.Checks
    decide +kernel
  have hbuild : BuildFailed oneFailedTest.after := by
    unfold BuildFailed
    decide +kernel
  have hsafe : SafeChange oneFailedTest := Or.inr (Or.inr (by decide +kernel))
  exact ⟨hchecks, hbuild, hsafe, (confidence_not_raised_iff hchecks).mpr hsafe⟩

/-! An agent that passed, two failed test checks, and a build whose check is turned into a
failure. -/

def onePass : StepVerdicts := AList.insert (ascii "Structure") .pass ∅

def brokenBuild : Marked :=
  [(failingTests "unit", false), (failingTests "integration", false),
    (verifierEntry { checkName := ascii "cargo-check", success := true }, true)]

theorem confidence_raised_by_broken_build :
    brokenBuild.Checks ∧
      confidence (tally onePass brokenBuild.before) brokenBuild.before false false = 33 ∧
      confidence (tally onePass brokenBuild.after) brokenBuild.after false false = 43 := by
  unfold Marked.Checks
  decide +kernel

end Euxis.Playbook
