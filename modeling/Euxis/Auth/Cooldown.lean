import Mathlib.Algebra.Order.Ring.Int
import Mathlib.Tactic.Ring
import Euxis.Auth.Code
import Euxis.Credentials.Code
import Euxis.Overlay

/-!
# Growing cooldowns

`compute_cooldown_ms` multiplies once for each failure in a row, and takes the smaller of the
product and the cap at the end. The counter of the failures is kept in the profile file and nothing
bounds it.
-/

namespace Euxis.Auth

open Credentials (checked maxInt64)
open Overlay (put lookup_put)

/-! ## The code -/

/-- `ms *= factor`, with so many turns left. -/
def grow (factor : Int) : Nat → Int → Option Int
  | 0, ms => some ms
  | turns + 1, ms => (checked (ms * factor)).bind (grow factor turns)

structure Growth where
  base : Int
  factor : Int
  cap : Int

def Growth.cooldown (g : Growth) (consecutive : Int) : Option Int :=
  (grow g.factor (consecutive - 1).toNat g.base).map (min · g.cap)

/-- 5h → 10h → 20h → 24h cap. -/
def billing : Growth := { base := 5 * 3600 * 1000, factor := 2, cap := 24 * 3600 * 1000 }

/-- 1m → 5m → 25m → 60m cap. -/
def transient : Growth := { base := 60 * 1000, factor := 5, cap := 60 * 60 * 1000 }

/-- Nothing when the 64-bit arithmetic overflows. -/
def computeCooldownMs (reason : CooldownReason) (consecutive : Int) : Option Int :=
  match reason with
  | .billingError => billing.cooldown consecutive
  | .unsupportedMethod => some (24 * 3600 * 1000)
  | .rateLimit => transient.cooldown consecutive
  | .authError => transient.cooldown consecutive

def noCooldown : CooldownEntry := { untilMs := 0, consecutive := 0, reason := .rateLimit }

def maxInt32 : Int := 2 ^ 31 - 1

def reportFailure (now : Int) (id : Bytes) (reason : CooldownReason) (store : Store) :
    Option Store := do
  let entry := (store.cooldowns.lookup id).getD noCooldown
  if entry.consecutive = maxInt32 then none
  let consecutive := entry.consecutive + 1
  let cooldown ← computeCooldownMs reason consecutive
  let untilMs ← checked (now + cooldown)
  return { store with cooldowns := put store.cooldowns id { untilMs, consecutive, reason } }

/-! ## The loop -/

theorem checked_eq (x : Int) (hpos : 0 ≤ x) : checked x = if x ≤ maxInt64 then some x
    else none := by
  unfold checked
  by_cases h : x ≤ maxInt64
  · rw [if_pos ⟨by omega, h⟩, if_pos h]
  · rw [if_neg (fun hboth => h hboth.2), if_neg h]

theorem grow_eq (factor : Int) (hfactor : 1 ≤ factor) (turns : Nat) (ms : Int) (hpos : 0 < ms)
    (hms : ms ≤ maxInt64) :
    grow factor turns ms = if ms * factor ^ turns ≤ maxInt64 then some (ms * factor ^ turns)
      else none := by
  induction turns generalizing ms with
  | zero =>
    rw [grow, pow_zero, mul_one, if_pos hms]
  | succ turns ih =>
    have hpow : ms * factor ^ (turns + 1) = ms * factor * factor ^ turns := by ring
    have hnext : 0 < ms * factor := by positivity
    have hone : ms * factor * 1 ≤ ms * factor * factor ^ turns :=
      Int.mul_le_mul_of_nonneg_left (one_le_pow₀ hfactor) (le_of_lt hnext)
    rw [grow, checked_eq _ (le_of_lt hnext), hpow]
    by_cases h : ms * factor ≤ maxInt64
    · rw [if_pos h, Option.bind_some, ih _ hnext h]
    · rw [if_neg h, if_neg (by omega)]
      rfl

structure Growth.Grows (g : Growth) : Prop where
  base_pos : 0 < g.base
  base_le : g.base ≤ maxInt64
  factor_ge : 1 ≤ g.factor
  cap_pos : 0 < g.cap

/-- The cooldown over the integers. -/
def Growth.exact (g : Growth) (n : Nat) : Int := min (g.base * g.factor ^ (n - 1)) g.cap

section Growth

variable {g : Growth} (h : g.Grows)

include h

theorem Growth.Grows.cooldown_eq (n : Nat) :
    g.cooldown n = if g.base * g.factor ^ (n - 1) ≤ maxInt64 then some (g.exact n) else none := by
  have hturns : ((n : Int) - 1).toNat = n - 1 := by omega
  unfold Growth.cooldown Growth.exact
  rw [hturns, grow_eq g.factor h.factor_ge (n - 1) g.base h.base_pos h.base_le]
  split
  · rfl
  · rfl

theorem Growth.Grows.exact_pos (n : Nat) : 0 < g.exact n := by
  have hbase := h.base_pos
  have hfactor : 0 < g.factor := by have := h.factor_ge; omega
  exact lt_min (by positivity) h.cap_pos

theorem Growth.Grows.exact_mono {m n : Nat} (hmn : m ≤ n) : g.exact m ≤ g.exact n := by
  have hpow : g.factor ^ (m - 1) ≤ g.factor ^ (n - 1) := pow_le_pow_right₀ h.factor_ge (by omega)
  exact min_le_min_right g.cap (Int.mul_le_mul_of_nonneg_left hpow (le_of_lt h.base_pos))

end Growth

theorem billing_grows : billing.Grows := ⟨by decide, by decide, by decide, by decide⟩

theorem transient_grows : transient.Grows := ⟨by decide, by decide, by decide, by decide⟩

/-! ## When the product fits -/

/-- The base, the factor and the cap of a reason whose cooldown grows. -/
def growth : CooldownReason → Option Growth
  | .billingError => some billing
  | .unsupportedMethod => none
  | .rateLimit => some transient
  | .authError => some transient

/-- The last number of failures in a row whose product fits into 64 bits. -/
def lastSafe : CooldownReason → Nat
  | .billingError => 39
  | _ => 21

theorem fits_iff (base factor : Int) (last : Nat) (hbase : 0 < base) (hfactor : 1 ≤ factor)
    (n : Nat) (hlast : base * factor ^ last ≤ maxInt64)
    (hnext : maxInt64 < base * factor ^ (last + 1)) : base * factor ^ n ≤ maxInt64 ↔ n ≤ last := by
  constructor
  · intro hfits
    by_contra hover
    have hpow : factor ^ (last + 1) ≤ factor ^ n := pow_le_pow_right₀ hfactor (by omega)
    have := Int.mul_le_mul_of_nonneg_left hpow (le_of_lt hbase)
    omega
  · intro hle
    have hpow : factor ^ n ≤ factor ^ last := pow_le_pow_right₀ hfactor hle
    have := Int.mul_le_mul_of_nonneg_left hpow (le_of_lt hbase)
    omega

theorem billing_fits_iff (n : Nat) : billing.base * billing.factor ^ n ≤ maxInt64 ↔ n ≤ 38 :=
  fits_iff _ _ 38 (by decide) (by decide) n (by decide) (by decide)

theorem transient_fits_iff (n : Nat) : transient.base * transient.factor ^ n ≤ maxInt64 ↔ n ≤ 20 :=
  fits_iff _ _ 20 (by decide) (by decide) n (by decide) (by decide)

theorem computeCooldownMs_eq {reason : CooldownReason} {g : Growth} (hg : growth reason = some g)
    (n : Nat) (hn : 1 ≤ n) :
    g.Grows ∧ computeCooldownMs reason n = if n ≤ lastSafe reason then some (g.exact n)
      else none := by
  cases reason with
  | unsupportedMethod => cases hg
  | billingError =>
    obtain rfl := Option.some.inj hg
    refine ⟨billing_grows, ?_⟩
    simp only [computeCooldownMs, billing_grows.cooldown_eq, billing_fits_iff, lastSafe]
    congr 1
    simp only [eq_iff_iff]
    omega
  | _ =>
    obtain rfl := Option.some.inj hg
    refine ⟨transient_grows, ?_⟩
    simp only [computeCooldownMs, transient_grows.cooldown_eq, transient_fits_iff, lastSafe]
    congr 1
    simp only [eq_iff_iff]
    omega

/-- **The cooldown.** It is the grown base up to the cap as long as the whole product fits into 64
bits, and as long as it does the cooldowns are positive and do not shrink. -/
theorem cooldown_growth_iff (reason : CooldownReason) (g : Growth) (hg : growth reason = some g)
    (n : Nat) (hn : 1 ≤ n) :
    (computeCooldownMs reason n = some (min (g.base * g.factor ^ (n - 1)) g.cap) ↔
      n ≤ lastSafe reason) ∧ ∀ m, 1 ≤ m → m ≤ n → n ≤ lastSafe reason →
        ∃ a b, computeCooldownMs reason m = some a ∧ computeCooldownMs reason n = some b ∧
          0 < a ∧ a ≤ b := by
  obtain ⟨hgrows, heq⟩ := computeCooldownMs_eq hg n hn
  constructor
  · rw [heq]
    split
    · rename_i hsafe
      exact ⟨fun _ => hsafe, fun _ => rfl⟩
    · rename_i hunsafe
      exact ⟨nofun, fun hsafe => absurd hsafe hunsafe⟩
  · intro m hm hmn hsafe
    obtain ⟨-, hfirst⟩ := computeCooldownMs_eq hg m hm
    refine ⟨g.exact m, g.exact n, ?_, ?_, hgrows.exact_pos m, hgrows.exact_mono hmn⟩
    · rw [hfirst, if_pos (by omega)]
    · rw [heq, if_pos hsafe]

theorem cooldown_growth_third_billing :
    growth .billingError = some billing ∧
      (computeCooldownMs .billingError 3 =
        some (min (billing.base * billing.factor ^ 2) billing.cap) ↔ 3 ≤ 39) :=
  ⟨rfl, (cooldown_growth_iff .billingError billing rfl 3 (by decide)).1⟩

theorem fortieth_billing_failure_overflows :
    computeCooldownMs .billingError 40 = none ∧
      computeCooldownMs .billingError 40 ≠
        some (min (billing.base * billing.factor ^ 39) billing.cap) := by
  decide +kernel

/-! ## Failures in a row -/

section Row

variable (id : Bytes) (reason : CooldownReason) {g : Growth} (hg : growth reason = some g)

/-- The failures in a row that the store has counted for the profile. -/
def failuresOf (store : Store) : Int := ((store.cooldowns.lookup id).getD noCooldown).consecutive

theorem lastSafe_le : lastSafe reason ≤ 39 := by
  cases reason <;> decide

include hg

theorem reportFailure_eq (store : Store) (now : Int) (count : Nat)
    (hcount : failuresOf id store = count) (hnow : 0 ≤ now) (hlate : now + g.cap ≤ maxInt64) :
    reportFailure now id reason store =
      if count + 1 ≤ lastSafe reason then
        some { store with
          cooldowns := put store.cooldowns id
            { untilMs := now + g.exact (count + 1), consecutive := count + 1, reason } }
      else none := by
  obtain ⟨hgrows, heq⟩ := computeCooldownMs_eq hg (count + 1) (by omega)
  have hlast := lastSafe_le reason
  unfold failuresOf at hcount
  unfold reportFailure
  simp only [hcount]
  push_cast at heq
  by_cases hsafe : count + 1 ≤ lastSafe reason
  · have hpos := hgrows.exact_pos (count + 1)
    have hcap : g.exact (count + 1) ≤ g.cap := min_le_right _ _
    -- The counter is a 32-bit one, but the product overflows long before it.
    have hmax : ¬ (count : Int) = maxInt32 := by
      unfold maxInt32
      omega
    rw [if_neg hmax, heq, if_pos hsafe, if_pos hsafe]
    simp [checked_eq _ (show 0 ≤ now + g.exact (count + 1) by omega),
      show now + g.exact (count + 1) ≤ maxInt64 by omega]
  · rw [heq, if_neg hsafe, if_neg hsafe]
    split
    · rfl
    · rfl

theorem failures_counted_iff (times : List Int)
    (htimes : ∀ now ∈ times, 0 ≤ now ∧ now + g.cap ≤ maxInt64) (store : Store) (count : Nat)
    (hcount : failuresOf id store = count) :
    (∃ store', times.foldlM (fun s now => reportFailure now id reason s) store = some store' ∧
      failuresOf id store' = count + times.length) ↔ times ≠ [] →
      count + times.length ≤ lastSafe reason := by
  induction times generalizing store count with
  | nil => simp [hcount]
  | cons now rest ih =>
    obtain ⟨hnow, hlate⟩ := htimes now List.mem_cons_self
    have ih := ih fun later hlater => htimes later (List.mem_cons_of_mem _ hlater)
    simp only [List.foldlM_cons, reportFailure_eq id reason hg store now count hcount hnow hlate,
      List.length_cons]
    by_cases hsafe : count + 1 ≤ lastSafe reason
    · rw [if_pos hsafe]
      have hnext := ih _ (count + 1) (show failuresOf id { store with
        cooldowns := put store.cooldowns id
          { untilMs := now + g.exact (count + 1), consecutive := count + 1, reason } } =
          (count + 1 : Nat) by simp [failuresOf, lookup_put])
      have hsum : (count : Int) + ((rest.length + 1 : Nat) : Int) = ((count + 1 : Nat) : Int) +
          rest.length := by
        push_cast
        ring
      rw [hsum]
      refine hnext.trans ⟨fun h _ => ?_, fun h _ => ?_⟩
      -- The last failure of the list is the one that has to fit.
      · rcases rest with _ | ⟨later, rest⟩
        · exact hsafe
        · have := h (by simp)
          omega
      · have := h (by simp)
        omega
    · rw [if_neg hsafe]
      simp
      omega

end Row

end Euxis.Auth
