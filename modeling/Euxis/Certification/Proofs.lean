import Mathlib.Algebra.Order.BigOperators.Group.List
import Mathlib.Algebra.Order.Field.Basic
import Mathlib.Tactic.Linarith
import Euxis.Certification.Code

/-!
# One more evidence item

An item can only cover more, so no domain falls back. A domain that rises from inconclusive to gaps
brings its missing controls with it, though, which are not counted before: there a certification
that was ready is lost.
-/

namespace Euxis.Certification

/-- How far the certification is. -/
def Status.rank : Status → Nat
  | blocked => 0
  | inconclusive => 1
  | readyWithGaps => 2
  | ready => 3

/-! ## Domains -/

section Domain

variable (d : DomainDefinition) (pre post : List Evidence) (e : Evidence)

theorem evidenceCount_mono :
    evidenceCount (pre ++ post) d ≤ evidenceCount (pre ++ e :: post) d := by
  apply List.Sublist.countP_le
  exact List.Sublist.append_left (List.sublist_cons_self e post) pre

theorem any_insert (p : Evidence → Bool) (h : (pre ++ post).any p = true) :
    (pre ++ e :: post).any p = true := by
  simp only [List.any_append, List.any_cons, Bool.or_eq_true] at h ⊢
  tauto

theorem covered_mono (sig : Bytes) (h : covered (pre ++ post) d sig = true) :
    covered (pre ++ e :: post) d sig = true := by
  have hcount := evidenceCount_mono d pre post e
  unfold covered at h ⊢
  rw [Bool.or_eq_true, Bool.and_eq_true, decide_eq_true_eq] at h ⊢
  rcases h with h | ⟨hpos, h⟩
  · exact Or.inl (any_insert pre post e _ h)
  · exact Or.inr ⟨by omega, any_insert pre post e _ h⟩

theorem coverage_mono : coverage (pre ++ post) d ≤ coverage (pre ++ e :: post) d := by
  have hcount := evidenceCount_mono d pre post e
  unfold coverage
  by_cases hnone : d.requiredSignals = []
  · rw [if_pos hnone, if_pos hnone]
    split
    · rw [if_pos (by omega)]
    · split <;> norm_num
  · rw [if_neg hnone, if_neg hnone]
    have hmet : d.requiredSignals.countP (covered (pre ++ post) d) ≤
        d.requiredSignals.countP (covered (pre ++ e :: post) d) :=
      List.countP_mono_left fun sig _ h => covered_mono d pre post e sig h
    exact div_le_div_of_nonneg_right (by exact_mod_cast hmet) (by positivity)

theorem coverage_nonneg (evidence : List Evidence) : 0 ≤ coverage evidence d := by
  unfold coverage
  split
  · split <;> norm_num
  · positivity

end Domain

theorem domainStatus_blocked_iff (c : Rat) (critical : Bool) : domainStatus c critical = .blocked ↔
    c = 0 ∧ critical = true := by
  unfold domainStatus
  split
  · rename_i h
    simp only [reduceCtorEq, false_iff, not_and]
    rintro rfl
    norm_num at h
  · split
    · rename_i h
      simp only [reduceCtorEq, false_iff, not_and]
      rintro rfl
      norm_num at h
    · split <;> simp_all

theorem domainStatus_low_iff (c : Rat) (critical : Bool) :
    domainStatus c critical = .inconclusive ∨ domainStatus c critical = .blocked ↔ c < 1 / 2 := by
  unfold domainStatus
  split
  · rename_i h
    simp only [reduceCtorEq, or_self, false_iff, not_lt]
    linarith
  · split
    · rename_i h
      simpa using h
    · rename_i h
      rw [not_le] at h
      split
      · exact ⟨fun _ => h, fun _ => Or.inr rfl⟩
      · exact ⟨fun _ => h, fun _ => Or.inl rfl⟩

/-! ## The whole certification -/

section Whole

variable (gates : List GateResult) (definitions : List DomainDefinition) (pre post : List Evidence)
  (e : Evidence)

theorem blocked_back (h : anyBlocking gates (evaluateDomains definitions (pre ++ e :: post)) =
    true) :
    anyBlocking gates (evaluateDomains definitions (pre ++ post)) = true := by
  unfold anyBlocking at h ⊢
  rw [Bool.or_eq_true] at h ⊢
  rcases h with h | h
  · exact Or.inl h
  · right
    obtain ⟨_, hmem, hblocked⟩ := List.any_eq_true.mp h
    obtain ⟨d, hd, rfl⟩ := List.mem_map.mp hmem
    refine List.any_eq_true.mpr ⟨_, List.mem_map_of_mem hd, ?_⟩
    simp only [criticalDomainBlocked, evaluateDomain, decide_eq_true_eq, domainStatus_blocked_iff]
      at hblocked ⊢
    have hzero : coverage (pre ++ post) d = 0 :=
      le_antisymm (hblocked.2.1 ▸ coverage_mono d pre post e) (coverage_nonneg d _)
    exact ⟨hblocked.1, hzero, hblocked.2.2⟩

theorem tooLittle_back (hfree : ¬ anyBlocking gates (evaluateDomains definitions (pre ++ post)) =
    true)
    (h : tooLittle gates (evaluateDomains definitions (pre ++ e :: post)) (pre ++ e :: post) =
      true) :
    tooLittle gates (evaluateDomains definitions (pre ++ post)) (pre ++ post) = true := by
  have hcount : domainInconclusive (evaluateDomains definitions (pre ++ e :: post)) ≤
      domainInconclusive (evaluateDomains definitions (pre ++ post)) := by
    unfold domainInconclusive evaluateDomains
    rw [List.countP_map, List.countP_map]
    apply List.countP_mono_left
    intro d hd hstatus
    have hstatus : domainStatus (coverage (pre ++ e :: post) d) d.critical = .inconclusive :=
      of_decide_eq_true hstatus
    refine decide_eq_true ?_
    have hlow := (domainStatus_low_iff _ _).mp (Or.inl hstatus)
    have hbefore := (domainStatus_low_iff _ d.critical).mpr
      (lt_of_le_of_lt (coverage_mono d pre post e) hlow)
    rcases hbefore with hbefore | hbefore
    · exact hbefore
    -- From blocked to inconclusive is a step up, but then the whole was blocked before.
    · exfalso
      apply hfree
      have hcritical := ((domainStatus_blocked_iff _ _).mp hbefore).2
      have hblocked : criticalDomainBlocked (evaluateDomain (pre ++ post) d) = true :=
        decide_eq_true ⟨hcritical, hbefore⟩
      rw [anyBlocking, Bool.or_eq_true]
      exact Or.inr (List.any_eq_true.mpr ⟨_, List.mem_map_of_mem hd, hblocked⟩)
  have hlength : (evaluateDomains definitions (pre ++ e :: post)).length =
      (evaluateDomains definitions (pre ++ post)).length := by simp [evaluateDomains]
  unfold tooLittle at h ⊢
  simp only [decide_eq_true_eq, hlength, List.length_append, List.length_cons] at h ⊢
  omega

theorem avgCoverage_mono : avgCoverage (evaluateDomains definitions (pre ++ post)) ≤
    avgCoverage (evaluateDomains definitions (pre ++ e :: post)) := by
  have hsum : ((evaluateDomains definitions (pre ++ post)).map (·.coverage)).sum ≤
      ((evaluateDomains definitions (pre ++ e :: post)).map (·.coverage)).sum := by
    unfold evaluateDomains
    rw [List.map_map, List.map_map]
    exact List.sum_le_sum fun d _ => coverage_mono d pre post e
  unfold avgCoverage
  simp only [evaluateDomains, List.length_map] at hsum ⊢
  split
  · exact div_le_div_of_nonneg_right hsum (by positivity)
  · exact le_refl _

/-- Nothing blocks, there is enough evidence, and the domains are covered well. -/
def Sound (evidence : List Evidence) : Prop :=
  ¬ anyBlocking gates (evaluateDomains definitions evidence) = true ∧
    ¬ tooLittle gates (evaluateDomains definitions evidence) evidence = true ∧
    3 / 4 < avgCoverage (evaluateDomains definitions evidence)

def gapCount (evidence : List Evidence) : Nat :=
  (majorGaps (evaluateDomains definitions evidence)).length

theorem not_lowered_iff_gapCount :
    (certify definitions gates (pre ++ post)).status.rank ≤
      (certify definitions gates (pre ++ e :: post)).status.rank ↔
      ¬ (Sound gates definitions (pre ++ post) ∧ gapCount definitions (pre ++ post) ≤ 3 ∧
        3 < gapCount definitions (pre ++ e :: post)) := by
  have hblocked := blocked_back gates definitions pre post e
  have hlittle := tooLittle_back gates definitions pre post e
  have havg := avgCoverage_mono definitions pre post e
  have hstatus : ∀ evidence, (certify definitions gates evidence).status =
      status gates (evaluateDomains definitions evidence) evidence := fun _ => rfl
  rw [hstatus, hstatus]
  unfold Sound gapCount status
  by_cases hb : anyBlocking gates (evaluateDomains definitions (pre ++ post)) = true
  · rw [if_pos hb]
    simp [Status.rank, hb]
  -- Each earlier test of `status` can only pass from now on, so only the gap count can fail.
  rw [if_neg hb, if_neg fun h => hb (hblocked h)]
  by_cases hl : tooLittle gates (evaluateDomains definitions (pre ++ post)) (pre ++ post) = true
  · rw [if_pos hl]
    simp only [hl, not_true_eq_false, false_and, and_false, not_false_eq_true, iff_true]
    split_ifs <;> decide
  rw [if_neg hl, if_neg fun h => hl (hlittle hb h)]
  by_cases hc : 3 / 4 < avgCoverage (evaluateDomains definitions (pre ++ post))
  · have hc' := lt_of_lt_of_le hc havg
    simp only [hb, hl, hc, hc', true_and]
    split_ifs <;> simp [Status.rank] <;> omega
  · simp only [hc, false_and, and_false, if_false, not_false_eq_true, iff_true]
    split_ifs <;> decide

end Whole

/-! ## By the signals that are found -/

/-- An item finds a signal for a domain: it is one of the domain's, passes at least in part and has
the signal in its id or its summary, where its case does not matter. -/
structure Finds (e : Evidence) (d : DomainDefinition) (sig : Bytes) : Prop where
  domain : e.domain = d.name
  passes : e.status = .pass ∨ e.status = .partialPass
  text : e.id.contains sig = true ∨ e.summary.contains sig = true ∨
    e.summary.lower.contains sig.lower = true

def Found (evidence : List Evidence) (d : DomainDefinition) (sig : Bytes) : Prop :=
  ∃ e ∈ evidence, Finds e d sig

theorem covered_iff (evidence : List Evidence) (d : DomainDefinition) (sig : Bytes) :
    covered evidence d sig = true ↔ Found evidence d sig := by
  unfold covered
  simp only [Bool.or_eq_true, Bool.and_eq_true, List.any_eq_true, decide_eq_true_eq,
    Evidence.speaks]
  constructor
  · rintro (⟨e, he, htext, hdomain, hpass⟩ | ⟨-, e, he, ⟨hdomain, hpass⟩, htext⟩)
    · exact ⟨e, he, hdomain, hpass, htext.symm.imp_right Or.inl⟩
    · exact ⟨e, he, hdomain, hpass, Or.inr (Or.inr htext)⟩
  · rintro ⟨e, he, hdomain, hpass, hid | hsummary | hloose⟩
    · exact Or.inl ⟨e, he, Or.inr hid, hdomain, hpass⟩
    · exact Or.inl ⟨e, he, Or.inl hsummary, hdomain, hpass⟩
    · right
      refine ⟨?_, e, he, ⟨hdomain, hpass⟩, hloose⟩
      exact List.countP_pos_iff.mpr ⟨e, he, decide_eq_true hdomain⟩

instance (evidence : List Evidence) (d : DomainDefinition) (sig : Bytes) :
    Decidable (Found evidence d sig) :=
  decidable_of_iff _ (covered_iff evidence d sig)

/-- How many of the required signals are found. -/
def signalsFound (evidence : List Evidence) (d : DomainDefinition) : Nat :=
  d.requiredSignals.countP fun sig => Found evidence d sig

theorem signalsFound_eq (evidence : List Evidence) (d : DomainDefinition) :
    d.requiredSignals.countP (covered evidence d) = signalsFound evidence d := by
  apply List.countP_congr
  intro sig _
  rw [covered_iff, decide_eq_true_eq]

theorem signalsFound_le (evidence : List Evidence) (d : DomainDefinition) :
    signalsFound evidence d ≤ d.requiredSignals.length := List.countP_le_length

/-- The share of a domain that is found. A domain without required signals wants an item. -/
def share (evidence : List Evidence) (d : DomainDefinition) : Rat :=
  if d.requiredSignals = [] then if ∃ e ∈ evidence, e.domain = d.name then 1 else 0
  else (signalsFound evidence d : Rat) / d.requiredSignals.length

theorem coverage_eq_share (evidence : List Evidence) (d : DomainDefinition) :
    coverage evidence d = share evidence d := by
  have hcount : 0 < evidenceCount evidence d ↔ ∃ e ∈ evidence, e.domain = d.name := by
    simp only [evidenceCount, List.countP_pos_iff, decide_eq_true_eq]
  unfold coverage share
  simp only [hcount, signalsFound_eq]

/-- The signals that are missing from a domain of which at least half are found. -/
def openSignals (evidence : List Evidence) (d : DomainDefinition) : Nat :=
  if d.requiredSignals.length ≤ 2 * signalsFound evidence d then
    d.requiredSignals.length - signalsFound evidence d
  else 0

/-- No blocking gate failed and at most two were skipped, there are five items or more, some share
of every critical domain is found and half of at least half of the domains, and the mean of the
shares is above 3/4. -/
structure Clear (gates : List GateResult) (definitions : List DomainDefinition)
    (evidence : List Evidence) : Prop where
  gates_pass : ∀ g ∈ gates, g.blocking = true → g.status ≠ .fail
  gates_run : skippedCount gates ≤ 2
  items : 5 ≤ evidence.length
  critical : ∀ d ∈ definitions, d.critical = true → share evidence d ≠ 0
  half : (definitions.countP fun d => share evidence d < 1 / 2) ≤ definitions.length / 2
  mean : 3 * definitions.length < 4 * (definitions.map (share evidence)).sum

theorem anyBlocking_iff (gates : List GateResult) (definitions : List DomainDefinition)
    (evidence : List Evidence) :
    ¬ anyBlocking gates (evaluateDomains definitions evidence) = true ↔
      (∀ g ∈ gates, g.blocking = true → g.status ≠ .fail) ∧
        ∀ d ∈ definitions, d.critical = true → share evidence d ≠ 0 := by
  simp only [anyBlocking, evaluateDomains, Bool.or_eq_true, not_or, List.any_eq_true, List.any_map,
    Function.comp_apply,
    criticalGateFails, criticalDomainBlocked, evaluateDomain, decide_eq_true_eq,
    domainStatus_blocked_iff,
    coverage_eq_share, not_exists, not_and]
  constructor
  · rintro ⟨hgates, hdomains⟩
    exact ⟨fun g hg hblocking hfail => hgates g hg hfail hblocking,
      fun d hd hcritical hzero => hdomains d hd hcritical hzero hcritical⟩
  · rintro ⟨hgates, hdomains⟩
    exact ⟨fun g hg hfail hblocking => hgates g hg hblocking hfail,
      fun d hd hcritical hzero _ => hdomains d hd hcritical hzero⟩

theorem domainInconclusive_eq (definitions : List DomainDefinition) (evidence : List Evidence)
    (hcritical : ∀ d ∈ definitions, d.critical = true → share evidence d ≠ 0) :
    domainInconclusive (evaluateDomains definitions evidence) =
      definitions.countP fun d => share evidence d < 1 / 2 := by
  rw [domainInconclusive, evaluateDomains, List.countP_map]
  apply List.countP_congr
  intro d hd
  simp only [Function.comp_apply, decide_eq_true_eq, evaluateDomain, coverage_eq_share]
  rw [← domainStatus_low_iff (share evidence d) d.critical]
  refine ⟨Or.inl, fun h => h.resolve_right fun hblocked => ?_⟩
  obtain ⟨hzero, hcrit⟩ := (domainStatus_blocked_iff _ _).mp hblocked
  exact hcritical d hd hcrit hzero

theorem avgCoverage_iff (definitions : List DomainDefinition) (evidence : List Evidence) :
    3 / 4 < avgCoverage (evaluateDomains definitions evidence) ↔
      3 * (definitions.length : Rat) < 4 * (definitions.map (share evidence)).sum := by
  have hsum : ((evaluateDomains definitions evidence).map (·.coverage)).sum =
      (definitions.map (share evidence)).sum := by
    rw [evaluateDomains, List.map_map]
    congr 1
    exact List.map_congr_left fun d _ => coverage_eq_share evidence d
  have hlength : (evaluateDomains definitions evidence).length = definitions.length :=
    List.length_map _
  unfold avgCoverage
  rw [hsum, hlength]
  split
  · rename_i hpos
    have hpos : (0 : Rat) < definitions.length := by exact_mod_cast hpos
    rw [lt_div_iff₀ hpos]
    constructor <;> intro h <;> linarith
  · rename_i hnone
    obtain rfl : definitions = [] := List.length_eq_zero_iff.mp (by omega)
    norm_num

theorem sound_iff_clear (gates : List GateResult) (definitions : List DomainDefinition)
    (evidence : List Evidence) :
    Sound gates definitions evidence ↔ Clear gates definitions evidence := by
  have hlength : (evaluateDomains definitions evidence).length = definitions.length :=
    List.length_map _
  rw [Sound, anyBlocking_iff, avgCoverage_iff]
  constructor
  · rintro ⟨⟨hgates, hcritical⟩, hlittle, hmean⟩
    simp only [tooLittle, hlength, domainInconclusive_eq definitions evidence hcritical,
      decide_eq_true_eq, not_or, not_lt] at hlittle
    exact ⟨hgates, hlittle.1, hlittle.2.1, hcritical, hlittle.2.2, hmean⟩
  · intro h
    refine ⟨⟨h.gates_pass, h.critical⟩, ?_, h.mean⟩
    simp only [tooLittle, hlength, domainInconclusive_eq definitions evidence h.critical,
      decide_eq_true_eq, not_or, not_lt]
    exact ⟨h.gates_run, h.items, h.half⟩

theorem missingControls_length (evidence : List Evidence) (d : DomainDefinition) :
    (if (evaluateDomain evidence d).status = .gaps then
      (evaluateDomain evidence d).missingControls.length else 0) =
      openSignals evidence d := by
  have hmissing : (evaluateDomain evidence d).missingControls.length =
      d.requiredSignals.length - signalsFound evidence d := by
    have hsplit := List.length_eq_countP_add_countP (covered evidence d) (l := d.requiredSignals)
    have hcount : (evaluateDomain evidence d).missingControls.length =
        d.requiredSignals.countP fun sig => !covered evidence d sig :=
      List.countP_eq_length_filter.symm
    rw [signalsFound_eq] at hsplit
    simp only [Bool.not_eq_true, Bool.decide_eq_false] at hsplit
    omega
  have hle := signalsFound_le evidence d
  rw [hmissing]
  simp only [evaluateDomain, coverage_eq_share, domainStatus, share, openSignals]
  by_cases hnone : d.requiredSignals = []
  · simp [hnone]
  have hpos : (0 : Rat) <
      d.requiredSignals.length := by exact_mod_cast List.length_pos_of_ne_nil hnone
  have hall : 1 ≤ (signalsFound evidence d : Rat) / d.requiredSignals.length ↔
      d.requiredSignals.length ≤ signalsFound evidence d := by
    rw [one_le_div hpos]
    norm_cast
  have hhalf : 1 / 2 ≤ (signalsFound evidence d : Rat) / d.requiredSignals.length ↔
      d.requiredSignals.length ≤ 2 * signalsFound evidence d := by
    rw [div_le_div_iff₀ two_pos hpos, one_mul, mul_comm]
    norm_cast
  simp only [if_neg hnone, hall, hhalf]
  -- With all the signals the domain is verified, and nothing of it is missing.
  split_ifs <;> simp_all

theorem gapCount_eq (definitions : List DomainDefinition) (evidence : List Evidence) :
    gapCount definitions evidence = (definitions.map (openSignals evidence)).sum := by
  unfold gapCount majorGaps evaluateDomains
  induction definitions with
  | nil => rfl
  | cons d rest ih =>
    rw [List.map_cons, List.map_cons, List.sum_cons, ← ih, ← missingControls_length]
    by_cases hgaps : (evaluateDomain evidence d).status = .gaps
    · simp [hgaps]
    · simp [hgaps]

/-- **One more item.** The certification falls exactly when it is clear and the item brings the
missing signals of the domains of which at least half are found from at most three to more. -/
theorem certification_not_lowered_iff (gates : List GateResult)
    (definitions : List DomainDefinition) (pre post : List Evidence) (e : Evidence) :
    (certify definitions gates (pre ++ post)).status.rank ≤
      (certify definitions gates (pre ++ e :: post)).status.rank ↔
      ¬ (Clear gates definitions (pre ++ post) ∧
        (definitions.map (openSignals (pre ++ post))).sum ≤ 3 ∧
        3 < (definitions.map (openSignals (pre ++ e :: post))).sum) := by
  rw [not_lowered_iff_gapCount, sound_iff_clear, gapCount_eq, gapCount_eq]

/-! Three domains that are covered, and one with eight signals of which three are found. -/

def openDomain (name : String) : DomainDefinition :=
  { name := ascii name, requiredSignals := [], critical := false }

def broadDomain : DomainDefinition :=
  { name := ascii "Operations"
    requiredSignals := ["alerts", "backup", "cloud", "disaster", "email", "failover", "gauge",
      "health"].map ascii
    critical := false }

def found (domain summary : String) : Evidence :=
  { id := ascii "file", domain := ascii domain, status := .pass, executionBacked := false,
    summary := ascii summary }

def threeFound : List Evidence :=
  [found "Privacy" "policy", found "Release" "tags", found "Quality" "tests",
    found "Operations" "alerts", found "Operations" "backup", found "Operations" "cloud"]

theorem fourth_signal_lowers :
    (certify [openDomain "Privacy", openDomain "Release", openDomain "Quality", broadDomain] []
      threeFound).status = .ready ∧
      (certify [openDomain "Privacy", openDomain "Release", openDomain "Quality", broadDomain] []
        (threeFound ++ [found "Operations" "disaster"])).status = .readyWithGaps := by
  decide +kernel

end Euxis.Certification
