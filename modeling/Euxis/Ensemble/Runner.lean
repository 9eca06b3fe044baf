import Euxis.Security.Finding
import Mathlib.Data.List.Perm.Basic

/-!
# The ensemble runner: `libs/ensemble/src/runner.cpp`

Every verifier votes on every finding. The runner counts a finding as confirmed or rejected, and
sets its confidence, by two separate rules over the same votes.
-/

namespace Euxis.Ensemble

open Security (Finding EnsembleVote Severity Confidence)

structure VoteRequest where
  ruleId : Bytes := []
  message : Bytes := []
  snippet : Bytes := []
  sourcePath : Bytes := []
  startRow : Int := 0
  startColumn : Int := 0
  severity : Severity := .medium
  deriving DecidableEq, Repr

structure VoteOutcome where
  vote : EnsembleVote
  rationale : Bytes := []
  deriving DecidableEq, Repr

/-- A verifier is asked once for each finding. It may answer the same request differently from one
time to the next, so the number of the finding is given to it. -/
structure Verifier where
  vote : Nat → VoteRequest → VoteOutcome

structure EnsembleConfig where
  quorum : Int := 2
  requireUnanimous : Bool := false
  maxSnippetBytes : Nat := 4096
  deriving DecidableEq, Repr

structure EnsembleStats where
  findingsVerified : Nat := 0
  verifiersCalled : Nat := 0
  confirmed : Nat := 0
  rejected : Nat := 0
  deriving DecidableEq, Repr

structure EnsembleResult where
  findings : List Finding := []
  stats : EnsembleStats := {}
  deriving DecidableEq, Repr

def buildRequest (f : Finding) (cfg : EnsembleConfig) : VoteRequest :=
  { ruleId := f.ruleId
    message := f.message
    sourcePath := f.primaryLocation.path
    startRow := f.primaryLocation.startLine
    startColumn := f.primaryLocation.startColumn
    severity := f.severity
    snippet :=
      if f.primaryLocation.snippet ≠ [] then
        if f.primaryLocation.snippet.length > cfg.maxSnippetBytes then
          f.primaryLocation.snippet.take cfg.maxSnippetBytes
        else f.primaryLocation.snippet
      else [] }

/-- `static_cast<std::size_t>(std::max(1, cfg.quorum))`. -/
def quorumSize (cfg : EnsembleConfig) : Nat := (max 1 cfg.quorum).toNat

def updateConfidence (f : Finding) (truePositiveCount totalVotes : Nat) (cfg : EnsembleConfig) :
    Finding :=
  if totalVotes = 0 then f
  else
    let reachedQuorum := decide (quorumSize cfg ≤ truePositiveCount)
    let unanimous := decide (truePositiveCount = totalVotes)
    if reachedQuorum && unanimous then { f with confidence := .verified }
    else if reachedQuorum then { f with confidence := .probable }
    else if truePositiveCount > 0 then { f with confidence := .possible }
    else { f with confidence := .unknown }

/-- What the inner loop keeps while the verifiers vote on one finding. -/
structure Poll where
  finding : Finding
  stats : EnsembleStats
  truePositiveCount : Nat := 0
  totalVotes : Nat := 0

def castVote (round : Nat) (req : VoteRequest) (poll : Poll) : Option Verifier → Poll
  | none => poll
  | some v =>
    let outcome := v.vote round req
    { finding := { poll.finding with ensembleVotes := poll.finding.ensembleVotes ++ [outcome.vote] }
      stats := { poll.stats with verifiersCalled := poll.stats.verifiersCalled + 1 }
      totalVotes := poll.totalVotes + 1
      truePositiveCount :=
        if outcome.vote.truePositive then poll.truePositiveCount + 1 else poll.truePositiveCount }

def isConfirmed (truePositiveCount totalVotes : Nat) (config : EnsembleConfig) : Bool :=
  let unanimousWhenRequired := !config.requireUnanimous || decide (truePositiveCount = totalVotes)
  decide (totalVotes > 0) && decide (quorumSize config ≤ truePositiveCount) && unanimousWhenRequired

/-- One turn of the outer loop. -/
def verifyOne (verifiers : List (Option Verifier)) (config : EnsembleConfig) (out : EnsembleResult)
    (numbered : Finding × Nat) : EnsembleResult :=
  let (f, round) := numbered
  let req := buildRequest f config
  let poll := verifiers.foldl (castVote round req) { finding := f, stats := out.stats }
  let stats :=
    if isConfirmed poll.truePositiveCount poll.totalVotes config then
      { poll.stats with confirmed := poll.stats.confirmed + 1 }
    else if poll.totalVotes > 0 then { poll.stats with rejected := poll.stats.rejected + 1 }
    else poll.stats
  { findings := out.findings ++ [updateConfidence poll.finding poll.truePositiveCount poll.totalVotes config]
    stats }

def verify (findings : List Finding) (verifiers : List (Option Verifier))
    (config : EnsembleConfig) : EnsembleResult :=
  findings.zipIdx.foldl (verifyOne verifiers config)
    { stats := { findingsVerified := findings.length } }

/-- The turn of the loop at this place adds one to the confirmed findings. -/
def CountedAsConfirmed (findings : List Finding) (verifiers : List (Option Verifier))
    (config : EnsembleConfig) (i : Nat) : Prop :=
  (verify (findings.take (i + 1)) verifiers config).stats.confirmed =
    (verify (findings.take i) verifiers config).stats.confirmed + 1

/-! ## The votes on a finding -/

section Votes

variable (verifiers : List (Option Verifier)) (config : EnsembleConfig)

/-- The votes on the finding with this number. -/
def votesOn (numbered : Finding × Nat) : List EnsembleVote :=
  verifiers.filterMap fun v => v.map fun v =>
    (v.vote numbered.2 (buildRequest numbered.1 config)).vote

/-- How many votes say that the finding is real. -/
def agreeing (numbered : Finding × Nat) : Nat :=
  (votesOn verifiers config numbered).countP (·.truePositive)

theorem foldl_castVote (round : Nat) (req : VoteRequest) (poll : Poll) :
    verifiers.foldl (castVote round req) poll =
      let votes := verifiers.filterMap fun v => v.map fun v => (v.vote round req).vote
      { finding := { poll.finding with ensembleVotes := poll.finding.ensembleVotes ++ votes }
        stats := { poll.stats with verifiersCalled := poll.stats.verifiersCalled + votes.length }
        truePositiveCount := poll.truePositiveCount + votes.countP (·.truePositive)
        totalVotes := poll.totalVotes + votes.length } := by
  induction verifiers generalizing poll with
  | nil => simp
  | cons v rest ih =>
    rw [List.foldl_cons, ih]
    cases v with
    | none => simp [castVote]
    | some v =>
      simp only [castVote, List.filterMap_cons, Option.map_some, List.countP_cons, List.length_cons,
        List.append_assoc, List.singleton_append, Poll.mk.injEq, EnsembleStats.mk.injEq,
        true_and, and_true]
      refine ⟨by omega, ?_, by omega⟩
      split <;> omega

/-- The finding as the runner returns it. -/
def judged (numbered : Finding × Nat) : Finding :=
  updateConfidence { numbered.1 with
      ensembleVotes := numbered.1.ensembleVotes ++ votesOn verifiers config numbered }
    (agreeing verifiers config numbered) (votesOn verifiers config numbered).length config

def confirmedAt (numbered : Finding × Nat) : Bool :=
  isConfirmed (agreeing verifiers config numbered) (votesOn verifiers config numbered).length config

def rejectedAt (numbered : Finding × Nat) : Bool :=
  !confirmedAt verifiers config numbered && decide (0 < (votesOn verifiers config numbered).length)

theorem verifyOne_eq (out : EnsembleResult) (numbered : Finding × Nat) :
    verifyOne verifiers config out numbered =
      { findings := out.findings ++ [judged verifiers config numbered]
        stats :=
          { findingsVerified := out.stats.findingsVerified
            verifiersCalled := out.stats.verifiersCalled +
              (votesOn verifiers config numbered).length
            confirmed := out.stats.confirmed + if confirmedAt verifiers config numbered then 1
              else 0
            rejected := out.stats.rejected + if rejectedAt verifiers config numbered then 1
              else 0 } } := by
  have hpoll := foldl_castVote verifiers numbered.2 (buildRequest numbered.1 config)
    { finding := numbered.1, stats := out.stats }
  simp only [Nat.zero_add] at hpoll
  rw [verifyOne, hpoll]
  refine congrArg (EnsembleResult.mk _) ?_
  change (if confirmedAt verifiers config numbered = true then _
    else if 0 < (votesOn verifiers config numbered).length then _ else _) = _
  by_cases hconfirmed : confirmedAt verifiers config numbered = true
  · simp only [rejectedAt, hconfirmed]
    rfl
  · by_cases hvotes : 0 < (votesOn verifiers config numbered).length
    · simp only [rejectedAt, hconfirmed, hvotes]
      rfl
    · simp only [rejectedAt, hconfirmed, hvotes]
      rfl

theorem foldl_verifyOne (l : List (Finding × Nat)) (out : EnsembleResult) :
    l.foldl (verifyOne verifiers config) out =
      { findings := out.findings ++ l.map (judged verifiers config)
        stats :=
          { findingsVerified := out.stats.findingsVerified
            verifiersCalled := out.stats.verifiersCalled +
              (l.map fun p => (votesOn verifiers config p).length).sum
            confirmed := out.stats.confirmed + l.countP (confirmedAt verifiers config)
            rejected := out.stats.rejected + l.countP (rejectedAt verifiers config) } } := by
  induction l generalizing out with
  | nil => simp
  | cons p rest ih =>
    rw [List.foldl_cons, ih, verifyOne_eq]
    simp only [List.map_cons, List.countP_cons, List.sum_cons, List.append_assoc,
      List.singleton_append, EnsembleResult.mk.injEq, EnsembleStats.mk.injEq, true_and]
    exact ⟨by omega, by omega, by omega⟩

theorem verify_eq (findings : List Finding) :
    verify findings verifiers config =
      { findings := findings.zipIdx.map (judged verifiers config)
        stats :=
          { findingsVerified := findings.length
            verifiersCalled := (findings.zipIdx.map fun p =>
              (votesOn verifiers config p).length).sum
            confirmed := findings.zipIdx.countP (confirmedAt verifiers config)
            rejected := findings.zipIdx.countP (rejectedAt verifiers config) } } := by
  rw [verify, foldl_verifyOne]
  simp

theorem votesOn_length_pos (h : ∃ v, some v ∈ verifiers) (numbered : Finding × Nat) :
    0 < (votesOn verifiers config numbered).length := by
  obtain ⟨v, hv⟩ := h
  exact List.length_pos_of_mem (List.mem_filterMap.mpr ⟨some v, hv, rfl⟩)

end Votes

/-! ## Verdict and confidence -/

section Verdict

variable {verifiers verifiers' : List (Option Verifier)} (config : EnsembleConfig)

/-- The confidence of a confirmed finding. A finding that reached the quorum without all votes is
`Probable`, and where unanimity is required it is rejected all the same. -/
def Confirms (c : Confidence) : Prop :=
  c = .verified ∨ c = .probable ∧ config.requireUnanimous = false

theorem isConfirmed_iff (f : Finding) (truePositiveCount : Nat) {totalVotes : Nat}
    (h : 0 < totalVotes) :
    isConfirmed truePositiveCount totalVotes config = true ↔
      Confirms config (updateConfidence f truePositiveCount totalVotes config).confidence := by
  have hne : totalVotes ≠ 0 := by omega
  simp only [isConfirmed, updateConfidence, Confirms, if_neg hne]
  by_cases hquorum : quorumSize config ≤ truePositiveCount
  · by_cases hall : truePositiveCount = totalVotes
    · simp [hall, h, hall ▸ hquorum]
    · simp [hquorum, hall, h]
  · by_cases hsome : truePositiveCount > 0
    · simp [hquorum, hsome]
    · simp [hquorum, hsome]

theorem confirmedAt_iff (h : ∃ v, some v ∈ verifiers) (numbered : Finding × Nat) :
    confirmedAt verifiers config numbered = true ↔
      Confirms config (judged verifiers config numbered).confidence :=
  isConfirmed_iff config _ _ (votesOn_length_pos verifiers config h numbered)

theorem rejectedAt_eq (h : ∃ v, some v ∈ verifiers) (numbered : Finding × Nat) :
    rejectedAt verifiers config numbered = !confirmedAt verifiers config numbered := by
  rw [rejectedAt, decide_eq_true (votesOn_length_pos verifiers config h numbered), Bool.and_true]

theorem countedAsConfirmed_iff (findings : List Finding) (i : Nat) (f : Finding)
    (hf : findings[i]? = some f) :
    CountedAsConfirmed findings verifiers config i ↔
      confirmedAt verifiers config (f, i) = true := by
  obtain ⟨hi, _⟩ := List.getElem?_eq_some_iff.mp hf
  have hlast : (findings.take (i + 1)).zipIdx = (findings.take i).zipIdx ++ [(f, i)] := by
    rw [List.take_add_one, hf, List.zipIdx_append, List.length_take,
      Nat.min_eq_left (Nat.le_of_lt hi), Nat.zero_add]
    rfl
  unfold CountedAsConfirmed
  rw [verify_eq, verify_eq]
  simp only [hlast, List.countP_append, List.countP_singleton, Nat.add_left_cancel_iff]
  split
  · simp [*]
  · simp [*]

theorem updateConfidence_congr {f g : Finding} (h : f.confidence = g.confidence)
    (truePositiveCount totalVotes : Nat) :
    (updateConfidence f truePositiveCount totalVotes config).confidence =
      (updateConfidence g truePositiveCount totalVotes config).confidence := by
  simp only [updateConfidence, apply_ite Finding.confidence, h]

section Order

variable (hperm : verifiers.Perm verifiers') (numbered : Finding × Nat)

include hperm

theorem votesOn_perm :
    (votesOn verifiers config numbered).Perm (votesOn verifiers' config numbered) :=
  hperm.filterMap _

theorem agreeing_perm : agreeing verifiers config numbered = agreeing verifiers' config numbered :=
  (votesOn_perm config hperm numbered).countP_eq _

theorem confirmedAt_perm :
    confirmedAt verifiers config numbered = confirmedAt verifiers' config numbered := by
  rw [confirmedAt, confirmedAt, agreeing_perm config hperm,
    (votesOn_perm config hperm numbered).length_eq]

theorem rejectedAt_perm :
    rejectedAt verifiers config numbered = rejectedAt verifiers' config numbered := by
  rw [rejectedAt, rejectedAt, confirmedAt_perm config hperm,
    (votesOn_perm config hperm numbered).length_eq]

theorem judged_confidence_perm :
    (judged verifiers config numbered).confidence =
      (judged verifiers' config numbered).confidence := by
  rw [judged, judged, agreeing_perm config hperm, (votesOn_perm config hperm numbered).length_eq]
  refine updateConfidence_congr config ?_ _ _
  rfl

theorem verify_stats_perm (findings : List Finding) :
    (verify findings verifiers config).stats = (verify findings verifiers' config).stats := by
  rw [verify_eq, verify_eq, funext (confirmedAt_perm config hperm),
    funext (rejectedAt_perm config hperm), funext fun p => (votesOn_perm config hperm p).length_eq]

end Order

/-- The verdict on a finding goes with its confidence, every finding has a verdict, and the order of
the verifiers plays no part in either. -/
theorem ensemble_verdict_and_confidence (findings : List Finding)
    (verifiers verifiers' : List (Option Verifier)) (config : EnsembleConfig)
    (hvoter : ∃ v, some v ∈ verifiers) (hperm : verifiers.Perm verifiers') :
    (verify findings verifiers config).findings.length = findings.length ∧
      (∀ (i : Nat) f, (verify findings verifiers config).findings[i]? = some f →
        (CountedAsConfirmed findings verifiers config i ↔
          f.confidence = .verified ∨ f.confidence = .probable ∧ config.requireUnanimous = false)) ∧
      (verify findings verifiers config).stats.confirmed +
        (verify findings verifiers config).stats.rejected = findings.length ∧
      (verify findings verifiers' config).stats = (verify findings verifiers config).stats ∧
      (verify findings verifiers' config).findings.map (·.confidence) =
        (verify findings verifiers config).findings.map (·.confidence) := by
  refine ⟨?_, ?_, ?_, (verify_stats_perm config hperm findings).symm, ?_⟩
  · rw [verify_eq]
    simp
  · intro i f hf
    rw [verify_eq, List.getElem?_map, Option.map_eq_some_iff] at hf
    obtain ⟨⟨g, n⟩, hg, rfl⟩ := hf
    rw [List.getElem?_zipIdx, Option.map_eq_some_iff] at hg
    obtain ⟨g', hg', hpair⟩ := hg
    obtain ⟨rfl, rfl⟩ := Prod.mk.inj hpair
    rw [countedAsConfirmed_iff config findings i g' hg', confirmedAt_iff config hvoter,
      Nat.zero_add]
    rfl
  · rw [verify_eq]
    -- With a voter no finding goes without a verdict, so what is not confirmed is rejected.
    have hsplit := List.length_eq_countP_add_countP (confirmedAt verifiers config) (l :=
      findings.zipIdx)
    simp only [funext (rejectedAt_eq config hvoter)]
    simp only [List.length_zipIdx, decide_not, Bool.decide_eq_true] at hsplit
    exact hsplit.symm
  · rw [verify_eq, verify_eq, List.map_map, List.map_map]
    exact List.map_congr_left fun p _ => (judged_confidence_perm config hperm p).symm

/-- A verifier that always gives the same vote. -/
def constant (truePositive : Bool) : Verifier where
  vote _ _ := { vote := { provider := ascii "static", truePositive, confidence := ascii "1" } }

theorem ensemble_verdict_one_of_two :
    (verify [{}] [some (constant true), some (constant false),
      none] { quorum := 1 }).stats.confirmed +
        (verify [{}] [some (constant true), some (constant false),
          none] { quorum := 1 }).stats.rejected = 1 ∧
      (verify [{}] [some (constant false), some (constant true), none] { quorum := 1 }).findings.map
        (·.confidence) = [.probable] := by
  have h := ensemble_verdict_and_confidence [{}] [some (constant true), some (constant false), none]
    [some (constant false), some (constant true), none]
    { quorum := 1 } ⟨constant true, by simp⟩ (List.Perm.swap _ _ _)
  exact ⟨h.2.2.1, h.2.2.2.2.trans rfl⟩

theorem probable_finding_rejected :
    ¬ ∀ (findings : List Finding) (verifiers : List (Option Verifier)) (config : EnsembleConfig),
      (∃ v, some v ∈ verifiers) → ∀ (i : Nat) f,
        (verify findings verifiers config).findings[i]? = some f →
        (CountedAsConfirmed findings verifiers config i ↔ f.confidence = .probable ∨
          f.confidence = .verified) := by
  -- Two of three votes leave a finding `Probable`, and unanimity is required.
  intro h
  have hiff := h [{}] [some (constant true), some (constant true), some (constant false)]
    { quorum := 2, requireUnanimous := true } ⟨constant true, by simp⟩ 0 _ rfl
  exact absurd (hiff.mpr (Or.inl rfl)) (by unfold CountedAsConfirmed; decide)

end Verdict

end Euxis.Ensemble
