import Mathlib.Tactic.Ring
import Euxis.Credentials.Code

/-!
# The bound of the backoff

The loop stops at half of the cap, rounded down. So below an odd cap it goes one millisecond over
the doubled base, and a cap at the end of the range leaves no room for the `+ 1` of the draw.
-/

namespace Euxis.Credentials

/-! ## The loop -/

theorem checked_of_range (x : Int) (hlow : 0 ≤ x) (hhigh : x ≤ maxInt64) : checked x = some x := by
  unfold checked maxInt64 at *
  rw [if_pos (by omega)]

theorem scale_eq (cap : Int) (hcap : cap ≤ maxInt64) (turns : Nat) (scaled : Int)
    (hpos : 0 < scaled) (hle : scaled ≤ cap) :
    scale cap turns scaled =
      some (if turns ≠ 0 ∧ 2 * (cap / 2) ≤ scaled * 2 ^ turns then cap
        else scaled * 2 ^ turns) := by
  have hhalf : cap.tdiv 2 = cap / 2 := Int.tdiv_eq_ediv_of_nonneg (by omega)
  induction turns generalizing scaled with
  | zero => simp [scale]
  | succ turns ih =>
    have hpow : scaled * 2 ^ (turns + 1) = scaled * 2 * 2 ^ turns := by ring
    have hone : (1 : Int) ≤ 2 ^ turns := Int.pow_pos (by omega)
    rw [scale, hhalf]
    by_cases hstop : cap / 2 ≤ scaled
    · have hover : 2 * (cap / 2) ≤ scaled * 2 ^ (turns + 1) := by
        rw [hpow]
        calc 2 * (cap / 2) ≤ scaled * 2 * 1 := by omega
          _ ≤ scaled * 2 * 2 ^ turns := Int.mul_le_mul_of_nonneg_left hone (by omega)
      rw [if_pos hstop, if_pos ⟨by omega, hover⟩]
    · rw [if_neg hstop, checked_of_range _ (by omega) (by omega), Option.bind_some,
        ih (scaled * 2) (by omega) (by omega), hpow]
      congr 1
      cases turns with
      | zero =>
        simp
        omega
      | succ turns => simp

/-! ## The bound -/

section Bound

variable (clock attempt : UInt64) (baseMs capMs : Int64) (seed : UInt64)

def shift : Nat := min attempt.toNat 30

/-- The doubled base, over the integers. -/
def ceiling : Int := baseMs.toInt * 2 ^ shift attempt

def effectiveCap : Int := max capMs.toInt baseMs.toInt

/-- No overflow, and a delay between 0 and the smaller of the cap and the doubled base. -/
def MeetsBound (result : Option Int) : Prop :=
  ∃ r, result = some r ∧
    if baseMs.toInt ≤ 0 then r = 0 else 0 ≤ r ∧
    r ≤ min (effectiveCap baseMs capMs) (ceiling attempt baseMs)

/-- The cap is one more than the doubled base, and the last doubling is taken for a stop at the
cap. -/
def RoundsUp : Prop := shift attempt ≠ 0 ∧ ceiling attempt baseMs + 1 = effectiveCap baseMs capMs

/-- The delay is drawn up to the end of the range. -/
def Exhausts : Prop :=
  effectiveCap baseMs capMs = maxInt64 ∧
    (effectiveCap baseMs capMs ≤ ceiling attempt baseMs ∨ RoundsUp attempt baseMs capMs)

/-- The last delay that can be drawn. -/
def topDelay : Int :=
  if shift attempt ≠ 0 ∧ 2 * (effectiveCap baseMs capMs / 2) ≤ ceiling attempt baseMs then
    effectiveCap baseMs capMs
  else ceiling attempt baseMs

theorem toInt_le_max (x : Int64) : x.toInt ≤ maxInt64 := by
  have := x.toInt_lt
  unfold maxInt64
  omega

theorem effectiveCap_le : effectiveCap baseMs capMs ≤ maxInt64 :=
  max_le (toInt_le_max capMs) (toInt_le_max baseMs)

theorem ceiling_even (h : shift attempt ≠ 0) : ceiling attempt baseMs % 2 = 0 := by
  obtain ⟨n, hn⟩ := Nat.exists_eq_succ_of_ne_zero h
  unfold ceiling
  rw [hn, pow_succ, ← mul_assoc]
  omega

theorem topDelay_le : topDelay attempt baseMs capMs ≤ effectiveCap baseMs capMs := by
  unfold topDelay
  split
  · exact le_refl _
  · rename_i h
    by_cases hshift : shift attempt = 0
    · have hceiling : ceiling attempt baseMs =
          baseMs.toInt := by rw [ceiling, hshift, pow_zero, mul_one]
      rw [hceiling]
      exact le_max_right _ _
    · omega

theorem topDelay_pos (hbase : ¬ baseMs.toInt ≤ 0) : 0 < topDelay attempt baseMs capMs := by
  have hcap : baseMs.toInt ≤ effectiveCap baseMs capMs := le_max_right _ _
  have hceiling : 0 < ceiling attempt baseMs := Int.mul_pos (by omega) (Int.pow_pos (by omega))
  unfold topDelay
  split <;> omega

theorem jitteredBackoffMs_eq (hbase : ¬ baseMs.toInt ≤ 0) :
    jitteredBackoffMs clock attempt baseMs capMs seed =
      (checked (topDelay attempt baseMs capMs + 1)).map fun bound =>
        (((draw clock attempt seed).toNat % bound.toNat : Nat) : Int) := by
  have hcap : (if capMs.toInt < baseMs.toInt then baseMs.toInt else capMs.toInt) =
      effectiveCap baseMs capMs := by
    unfold effectiveCap
    split <;> omega
  have hshift : (if 30 < attempt.toNat then 30 else attempt.toNat) = shift attempt := by
    unfold shift
    split <;> omega
  have hscale : scale (effectiveCap baseMs capMs) (shift attempt) baseMs.toInt =
      some (topDelay attempt baseMs capMs) :=
    scale_eq _ (effectiveCap_le baseMs capMs) _ _ (by omega) (le_max_right _ _)
  have htop := topDelay_le attempt baseMs capMs
  unfold jitteredBackoffMs
  rw [if_neg hbase]
  dsimp only
  rw [hcap, hshift, hscale]
  dsimp only [Option.bind_eq_bind, Option.bind_some]
  rw [if_neg (by omega), Option.map_eq_bind]
  rfl

theorem topDelay_eq_max_iff : topDelay attempt baseMs capMs = maxInt64 ↔
    Exhausts attempt baseMs capMs := by
  have htop := topDelay_le attempt baseMs capMs
  have hle := effectiveCap_le baseMs capMs
  have heven := ceiling_even attempt baseMs
  unfold Exhausts RoundsUp
  unfold topDelay at htop ⊢
  split at htop <;> split <;> omega

/-- **The bound.** It is kept exactly when the base is not positive, or the delay is not drawn up to
the end of the range, and a draw that the rounding lets through does not hit the extra
millisecond. -/
theorem jitteredBackoffMs_bound_iff :
    MeetsBound attempt baseMs capMs (jitteredBackoffMs clock attempt baseMs capMs seed) ↔
      baseMs.toInt ≤ 0 ∨ (¬ Exhausts attempt baseMs capMs ∧
        ¬ (RoundsUp attempt baseMs capMs ∧
          ((draw clock attempt seed).toNat : Int) % (effectiveCap baseMs capMs + 1) =
            effectiveCap baseMs capMs)) := by
  by_cases hbase : baseMs.toInt ≤ 0
  · have hzero : jitteredBackoffMs clock attempt baseMs capMs seed = some 0 := if_pos hbase
    simp [MeetsBound, hzero, hbase]
  have hmax := topDelay_eq_max_iff attempt baseMs capMs
  have htop := topDelay_le attempt baseMs capMs
  have hcap := effectiveCap_le baseMs capMs
  have hpos := topDelay_pos attempt baseMs capMs hbase
  simp only [hbase, false_or]
  rw [jitteredBackoffMs_eq clock attempt baseMs capMs seed hbase]
  by_cases hexhausts : Exhausts attempt baseMs capMs
  · have hnone : checked (topDelay attempt baseMs capMs + 1) = none := by
      rw [hmax.mpr hexhausts]
      rfl
    rw [hnone]
    simp [MeetsBound, hexhausts]
  · have htop_ne := mt hmax.mp hexhausts
    rw [checked_of_range _ (by omega) (by omega), Option.map_some]
    -- The draw, over the integers.
    have hdraw : (((draw clock attempt seed).toNat % (topDelay attempt baseMs capMs + 1).toNat :
        Nat) : Int) =
        ((draw clock attempt seed).toNat : Int) % (topDelay attempt baseMs capMs + 1) := by
      rw [Int.natCast_emod, Int.toNat_of_nonneg (by omega)]
    rw [hdraw]
    simp only [MeetsBound, Option.some.injEq, hbase, if_false, exists_eq_left', hexhausts,
      not_false_eq_true, true_and]
    have hlow : 0 ≤ ((draw clock attempt seed).toNat : Int) % (topDelay attempt baseMs capMs + 1) :=
      Int.emod_nonneg _ (by omega)
    have hhigh : ((draw clock attempt seed).toNat : Int) % (topDelay attempt baseMs capMs + 1) <
        topDelay attempt baseMs capMs + 1 := Int.emod_lt_of_pos _ (by omega)
    have heven := ceiling_even attempt baseMs
    unfold RoundsUp
    by_cases hstop : shift attempt ≠ 0 ∧
      2 * (effectiveCap baseMs capMs / 2) ≤ ceiling attempt baseMs
    · rw [topDelay, if_pos hstop] at hlow hhigh ⊢
      generalize ((draw clock attempt seed).toNat : Int) % (effectiveCap baseMs capMs + 1) = r
        at hlow hhigh ⊢
      omega
    · have hdelay : topDelay attempt baseMs capMs = ceiling attempt baseMs := if_neg hstop
      rw [hdelay] at hlow hhigh htop ⊢
      generalize ((draw clock attempt seed).toNat : Int) % (ceiling attempt baseMs + 1) = r
        at hlow hhigh ⊢
      omega

end Bound

theorem backoff_over_bound :
    jitteredBackoffMs 0 1 1 3 2 = some 3 ∧ min (effectiveCap 1 3) (ceiling 1 1) = 2 ∧
      jitteredBackoffMs 0 0 9223372036854775807 0 1 = none := by
  decide +kernel

end Euxis.Credentials
