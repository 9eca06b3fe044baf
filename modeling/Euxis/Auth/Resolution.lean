import Mathlib.Data.Prod.Lex
import Euxis.Auth.Proofs
import Euxis.Turns

/-!
# Which profile is picked

The profile that `resolve` answers with, without the loops of `pick_best`: who may be picked, who
remains when env keys give way, and the order on those that remain.
-/

namespace Euxis.Auth

open Stable Turns

/-! ## The order -/

/-- CLI imports first, OAuth before API keys, and the one that was not used for longest. -/
def rank (p : AuthProfile) : Bool ×ₗ Bool ×ₗ Int :=
  toLex (!isCliImport p, toLex (decide (p.type ≠ .oauth), p.lastUsedAt))

theorem sortsBefore_iff (a b : AuthProfile) : sortsBefore a b = true ↔ rank a < rank b := by
  unfold sortsBefore rank
  rw [Prod.Lex.toLex_lt_toLex, Prod.Lex.toLex_lt_toLex]
  by_cases hcli : isCliImport a = isCliImport b
  · cases ha : a.type <;> cases hb : b.type <;> simp [hcli]
  · cases ha : isCliImport a <;> cases hb : isCliImport b <;> simp_all

/-- What the sort keeps in order. -/
def notAfter (a b : AuthProfile) : Prop := sortsBefore b a = false

theorem notAfter_iff (a b : AuthProfile) : notAfter a b ↔ rank a ≤ rank b := by
  unfold notAfter
  rw [← not_lt, ← sortsBefore_iff, Bool.not_eq_true]

instance : DecidableRel notAfter := fun a b => inferInstanceAs (Decidable (sortsBefore b a = false))

instance : Std.Total notAfter where
  total a b := by
    rw [notAfter_iff, notAfter_iff]
    exact le_total _ _

instance : IsTrans AuthProfile notAfter where
  trans a b c hab hbc := by
    rw [notAfter_iff] at *
    exact hab.trans hbc

/-! ## Who may be picked -/

section Eligible

variable (store : Store) (now : Int) (provider : Bytes)

/-- The profile has a cooldown that is not over. -/
def CoolingDown (id : Bytes) : Prop :=
  ∃ entry, store.cooldowns.lookup id = some entry ∧ now < entry.untilMs

/-- The token has run out. A time of 0 is none. -/
def Expired (p : AuthProfile) : Prop := p.type = .oauth ∧ 0 < p.expiresAt ∧ p.expiresAt ≤ now

structure Eligible (p : AuthProfile) : Prop where
  own : p.provider = provider
  awake : ¬ CoolingDown store now p.id
  fresh : ¬ Expired now p

/-- Eligible, and no env key beside an import. -/
structure Remains (p : AuthProfile) : Prop extends Eligible store now provider p where
  gives_way : p.source = ascii "env" → ∀ q ∈ store.profiles, Eligible store now provider q →
    isCliImport q = false

theorem isCooledDown_iff (id : Bytes) :
    isCooledDown store now id = true ↔ CoolingDown store now id := by
  unfold isCooledDown CoolingDown
  split
  · rename_i hnone
    simp [hnone]
  · rename_i entry hentry
    simp [hentry]

theorem eligible_iff (p : AuthProfile) : eligible store now provider p = true ↔
    Eligible store now provider p := by
  have hawake : (!isCooledDown store now p.id) = true ↔ ¬ CoolingDown store now p.id := by
    rw [← isCooledDown_iff, Bool.not_eq_true', Bool.not_eq_true]
  have hfresh : (!(p.type = .oauth && 0 < p.expiresAt && p.expiresAt ≤ now)) = true ↔
      ¬ Expired now p := by
    rw [Bool.not_eq_true', ← Bool.not_eq_true]
    simp only [Expired, Bool.and_eq_true, decide_eq_true_eq, and_assoc]
  unfold eligible
  rw [Bool.and_eq_true, Bool.and_eq_true, hawake, hfresh, decide_eq_true_eq]
  exact ⟨fun ⟨⟨own, awake⟩, fresh⟩ => ⟨own, awake, fresh⟩, fun h => ⟨⟨h.own, h.awake⟩, h.fresh⟩⟩

instance (p : AuthProfile) : Decidable (Eligible store now provider p) :=
  decidable_of_iff _ (eligible_iff store now provider p)

theorem remains_iff (p : AuthProfile) :
    Remains store now provider p ↔ Eligible store now provider p ∧
    (p.source = ascii "env" → ∀ q ∈ store.profiles, Eligible store now provider q →
      isCliImport q = false) :=
  ⟨fun h => ⟨h.toEligible, h.gives_way⟩, fun h => ⟨h.1, h.2⟩⟩

instance (p : AuthProfile) : Decidable (Remains store now provider p) :=
  decidable_of_iff _ (remains_iff store now provider p).symm

/-- The profiles that remain, in the order of the store. -/
def remaining : List AuthProfile := store.profiles.filter fun p => Remains store now provider p

theorem candidates_eq : candidates store now provider = remaining store now provider := by
  unfold candidates remaining
  dsimp only
  split
  · rename_i hany
    obtain ⟨q, hq, hcli⟩ := List.any_eq_true.mp hany
    obtain ⟨hq, helig⟩ := List.mem_filter.mp hq
    rw [List.filter_filter]
    apply List.filter_congr
    intro p _
    rw [Bool.eq_iff_iff, Bool.and_eq_true, decide_eq_true_eq, decide_eq_true_eq, eligible_iff]
    constructor
    · rintro ⟨hsource, hp⟩
      exact ⟨hp, fun henv => absurd henv hsource⟩
    · intro hp
      refine ⟨fun henv => ?_, hp.toEligible⟩
      -- An env key would have to give way to `q`, which is an import.
      rw [hp.gives_way henv q hq ((eligible_iff store now provider q).mp helig)] at hcli
      cases hcli
  · rename_i hnone
    apply List.filter_congr
    intro p _
    rw [Bool.eq_iff_iff, decide_eq_true_eq, eligible_iff]
    constructor
    · refine fun hp => ⟨hp, fun _ q hq helig => ?_⟩
      by_contra hcli
      exact hnone (List.any_eq_true.mpr ⟨q,
        List.mem_filter.mpr ⟨hq, (eligible_iff store now provider q).mpr helig⟩,
        by simpa using hcli⟩)
    · exact fun hp => hp.toEligible

/-- The pinned profile when it remains, and the earliest of the smallest otherwise. -/
def Picked (p : AuthProfile) : Prop :=
  if store.sessionPin ≠ [] ∧ ∃ q ∈ remaining store now provider, q.id = store.sessionPin then
    First (remaining store now provider) (·.id = store.sessionPin) p
  else Earliest (rank · ≤ rank ·) (remaining store now provider) p

theorem earliest_of_sorted {l : List AuthProfile} {p : AuthProfile}
    (h : (stableSort l).head? = some p) : Earliest (rank · ≤ rank ·) l p := by
  obtain ⟨before, after, hl, hbefore, hafter⟩ := earliest_of_head? (r := notAfter) l p h
  refine ⟨before, after, hl, fun b hb hle => ?_, fun a ha => (notAfter_iff p a).mp (hafter a ha)⟩
  exact hbefore b hb ((notAfter_iff b p).mpr hle)

theorem pickBest_picked (auth : ResolvedAuth) (h : pickBest store now provider = some auth) :
    ∃ p ∈ remaining store now provider, Picked store now provider p ∧ auth = resolved p := by
  unfold pickBest at h
  rw [candidates_eq] at h
  dsimp only at h
  split at h
  · rename_i p hpin
    split at hpin
    · cases hpin
    · rename_i hset
      have hmem := List.mem_of_find?_eq_some hpin
      have hid : p.id = store.sessionPin := by simpa using List.find?_some hpin
      refine ⟨p, hmem, ?_, (Option.some.inj h).symm⟩
      unfold Picked
      rw [if_pos ⟨hset, p, hmem, hid⟩]
      exact (find?_eq_some_iff_first p).mp hpin
  -- No pin, or none that remains: the sort decides.
  · rename_i hpin
    obtain ⟨p, hp, rfl⟩ := Option.map_eq_some_iff.mp h
    have hmem : p ∈ remaining store now provider :=
      (List.mem_insertionSort _).mp (List.mem_of_head? hp)
    refine ⟨p, hmem, ?_, rfl⟩
    unfold Picked
    rw [if_neg]
    · exact earliest_of_sorted hp
    · rintro ⟨hset, q, hq, hid⟩
      rw [if_neg hset, List.find?_eq_none] at hpin
      exact hpin q hq (by simpa using hid)

/-- **Resolution.** There is an answer exactly when a profile is eligible, and the answer is the
profile that is to be picked. -/
theorem resolve_picks :
    ((pickBest store now provider).isSome ↔ ∃ p ∈ store.profiles, Eligible store now provider p) ∧
      ∀ auth ∈ pickBest store now provider, ∃ p ∈ store.profiles, Eligible store now provider p ∧
        (p.source = ascii "env" → ∀ q ∈ store.profiles, Eligible store now provider q →
          isCliImport q = false) ∧
        Picked store now provider p ∧ auth = resolved p := by
  constructor
  · rw [Option.isSome_iff_ne_none, ne_eq, pickBest_eq_none_iff]
    simp only [← eligible_iff]
    simp
  · intro auth hauth
    obtain ⟨p, hp, hpicked, heq⟩ := pickBest_picked store now provider auth hauth
    obtain ⟨hmem, hremains⟩ := List.mem_filter.mp hp
    rw [decide_eq_true_eq] at hremains
    exact ⟨p, hmem, hremains.toEligible, hremains.gives_way, hpicked, heq⟩

end Eligible

end Euxis.Auth
