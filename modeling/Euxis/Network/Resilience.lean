import Mathlib.Algebra.Order.Ring.Rat
import Mathlib.Tactic.Linarith

/-!
# Retries behind a circuit breaker: `libs/network`

`run_with_resilience` and `CircuitBreaker`. Times are seconds of the steady clock, over the
rationals. How long a retry sleeps is part of the timeline of a call.
-/

namespace Euxis.Network

/-! ## The breaker -/

structure CircuitBreaker where
  failureThreshold : Int
  recoveryTimeout : Rat
  failureCount : Int
  openedAt : Option Rat
  deriving DecidableEq

namespace CircuitBreaker

def isOpen (b : CircuitBreaker) (now : Rat) : Bool :=
  match b.openedAt with
  | none => false
  | some t => !(decide (b.recoveryTimeout ≤ now - t))

def recordSuccess (b : CircuitBreaker) : CircuitBreaker :=
  { b with failureCount := 0, openedAt := none }

def recordFailure (b : CircuitBreaker) (now : Rat) : CircuitBreaker :=
  let b := { b with failureCount := b.failureCount + 1 }
  if b.failureThreshold ≤ b.failureCount then { b with openedAt := some now } else b

end CircuitBreaker

/-! ## A call -/

/-- What the operation does: it returns, throws a `std::exception`, or throws something else. -/
inductive OpResult (α ε : Type) where
  | returns (value : α)
  | throws (e : ε)
  | throwsOther (e : ε)

/-- When the breaker is checked, and, for each attempt, when the operation is invoked and when its
failure is recorded. -/
structure Timeline where
  checkedAt : Rat
  invokedAt : Nat → Rat
  failedAt : Nat → Rat
  first : checkedAt ≤ invokedAt 0
  during (k : Nat) : invokedAt k ≤ failedAt k
  between (k : Nat) : failedAt k ≤ invokedAt (k + 1)

/-- How the call ends. -/
inductive Ending (α ε : Type) where
  | returns (value : α)
  | rethrows (e : ε)
  | breakerOpen
  | retriesExhausted

/-- The operation is invoked, with the breaker as it is then. -/
structure Invocation where
  breaker : CircuitBreaker
  time : Rat

structure Run (α ε : Type) where
  ending : Ending α ε
  breaker : CircuitBreaker
  invocations : List Invocation

section Call

variable {α ε : Type} (time : Timeline) (operation : Nat → OpResult α ε)

/-- The loop from attempt `k` on, with so many attempts left. -/
def attempts : Nat → Nat → Option ε → CircuitBreaker → Run α ε
  | 0, _, last, b =>
    { ending := match last with
        | some e => .rethrows e
        | none => .retriesExhausted
      breaker := b
      invocations := [] }
  | left + 1, k, _, b =>
    let invocation := { breaker := b, time := time.invokedAt k }
    match operation k with
    | .returns value =>
      { ending := .returns value, breaker := b.recordSuccess, invocations := [invocation] }
    | .throws e =>
      let r := attempts left (k + 1) (some e) (b.recordFailure (time.failedAt k))
      { r with invocations := invocation :: r.invocations }
    -- Nothing catches it, and the breaker does not hear of it.
    | .throwsOther e => { ending := .rethrows e, breaker := b, invocations := [invocation] }

def runWithResilience (maxAttempts : Int) (b : CircuitBreaker) : Run α ε :=
  if b.isOpen time.checkedAt then { ending := .breakerOpen, breaker := b, invocations := [] }
  else attempts time operation maxAttempts.toNat 0 none b

end Call

/-! ## The breaker along the call -/

section Along

variable {α ε : Type} (time : Timeline) (operation : Nat → OpResult α ε) (b : CircuitBreaker)

/-- The breaker after the first `k` attempts have failed. -/
def afterFailures : Nat → CircuitBreaker
  | 0 => b
  | k + 1 => (afterFailures k).recordFailure (time.failedAt k)

def Throws (k : Nat) : Prop := ∃ e, operation k = .throws e

/-- What attempt `k` invokes when all before it have failed. -/
def invocation (k : Nat) : Invocation :=
  { breaker := afterFailures time b k, time := time.invokedAt k }

/-- The invocation is that of one of the next attempts, and all from `k` up to it throw. -/
def Invoked (left k : Nat) (inv : Invocation) : Prop :=
  ∃ j, k ≤ j ∧ j < k + left ∧ (∀ i, k ≤ i → i < j → Throws operation i) ∧ inv = invocation time b j

theorem invoked_here (left k : Nat) :
    Invoked time operation b (left + 1) k (invocation time b k) := by
  refine ⟨k, Nat.le_refl k, by omega, ?_, rfl⟩
  intro i hk hi
  omega

theorem invoked_last_iff (left k : Nat) (inv : Invocation) (hlast : ¬ Throws operation k) :
    Invoked time operation b (left + 1) k inv ↔ inv = invocation time b k := by
  constructor
  · rintro ⟨j, hk, hj, hall, rfl⟩
    rcases Nat.lt_or_eq_of_le hk with hlt | rfl
    · exact absurd (hall k (Nat.le_refl k) hlt) hlast
    · rfl
  · rintro rfl
    exact invoked_here time operation b left k

theorem invoked_succ_iff (left k : Nat) (inv : Invocation) (hthrows : Throws operation k) :
    Invoked time operation b (left + 1) k inv ↔ inv = invocation time b k ∨
      Invoked time operation b left (k + 1) inv := by
  constructor
  · rintro ⟨j, hk, hj, hall, rfl⟩
    rcases Nat.lt_or_eq_of_le hk with hlt | rfl
    · exact Or.inr ⟨j, hlt, by omega, fun i hki hij => hall i (by omega) hij, rfl⟩
    · exact Or.inl rfl
  · rintro (rfl | ⟨j, hk, hj, hall, rfl⟩)
    · exact invoked_here time operation b left k
    · refine ⟨j, by omega, by omega, ?_, rfl⟩
      intro i hki hij
      rcases Nat.lt_or_eq_of_le hki with hlt | rfl
      · exact hall i hlt hij
      · exact hthrows

theorem mem_attempts_iff (left k : Nat) (last : Option ε) (inv : Invocation) :
    inv ∈ (attempts time operation left k last (afterFailures time b k)).invocations ↔
      Invoked time operation b left k inv := by
  induction left generalizing k last with
  | zero =>
    simp only [attempts, List.not_mem_nil, false_iff]
    rintro ⟨j, hk, hj, -⟩
    omega
  | succ left ih =>
    rw [attempts]
    cases hop : operation k with
    | returns value =>
      rw [invoked_last_iff time operation b left k inv (by simp [Throws, hop])]
      simp [invocation]
    | throwsOther e =>
      rw [invoked_last_iff time operation b left k inv (by simp [Throws, hop])]
      simp [invocation]
    | throws e =>
      rw [invoked_succ_iff time operation b left k inv ⟨e, hop⟩, ← ih (k + 1) (some e)]
      exact List.mem_cons

theorem afterFailures_eq (k : Nat) :
    afterFailures time b k = { b with
      failureCount := b.failureCount + k
      openedAt := if k ≠ 0 ∧ b.failureThreshold ≤ b.failureCount + k then
        some (time.failedAt (k - 1)) else b.openedAt } := by
  induction k with
  | zero => simp [afterFailures]
  | succ k ih =>
    rw [afterFailures, ih, CircuitBreaker.recordFailure]
    have hcount : b.failureCount + (k : Int) + 1 = b.failureCount +
        ((k + 1 : Nat) : Int) := by push_cast; omega
    dsimp only
    rw [hcount]
    by_cases hopen : b.failureThreshold ≤ b.failureCount + ((k + 1 : Nat) : Int)
    · rw [if_pos hopen, if_pos ⟨by omega, hopen⟩]
      rfl
    · have hbefore : ¬ (k ≠ 0 ∧ b.failureThreshold ≤ b.failureCount + (k : Int)) := by omega
      rw [if_neg hopen, if_neg hbefore, if_neg fun h => hopen h.2]

theorem checkedAt_le_invokedAt (k : Nat) : time.checkedAt ≤ time.invokedAt k := by
  induction k with
  | zero => exact time.first
  | succ k ih => exact ih.trans ((time.during k).trans (time.between k))

theorem isOpen_afterFailures_iff (hclosed : ¬ b.isOpen time.checkedAt = true) (k : Nat) :
    (afterFailures time b k).isOpen (time.invokedAt k) = true ↔
      k ≠ 0 ∧ b.failureThreshold ≤ b.failureCount + k ∧
      time.invokedAt k - time.failedAt (k - 1) < b.recoveryTimeout := by
  rw [afterFailures_eq]
  by_cases hopen : k ≠ 0 ∧ b.failureThreshold ≤ b.failureCount + k
  · simp [CircuitBreaker.isOpen, hopen]
  · have hstill : ¬ b.isOpen (time.invokedAt k) = true := by
      unfold CircuitBreaker.isOpen at hclosed ⊢
      cases hopened : b.openedAt with
      | none => simp
      | some t =>
        rw [hopened] at hclosed
        simp only [Bool.not_eq_true', decide_eq_false_iff_not, not_not] at hclosed ⊢
        linarith [checkedAt_le_invokedAt time k]
    rw [if_neg hopen]
    constructor
    · exact fun h => absurd h hstill
    · rintro ⟨hk, hthreshold, -⟩
      exact absurd ⟨hk, hthreshold⟩ hopen

/-- The operation is never invoked while the breaker is open. -/
def Blocks (r : Run α ε) : Prop := ∀ inv ∈ r.invocations, ¬ inv.breaker.isOpen inv.time = true

/-- **The open breaker.** It blocks the operation exactly when it is open at the check, or when
every retry that the failures before it have brought to the threshold waits for the recovery
timeout. -/
theorem breaker_blocks_iff (maxAttempts : Int) :
    Blocks (runWithResilience time operation maxAttempts b) ↔
      b.isOpen time.checkedAt = true ∨
        ∀ k : Nat, k ≠ 0 → (k : Int) < maxAttempts → (∀ i < k, Throws operation i) →
          b.failureThreshold ≤ b.failureCount + k →
          b.recoveryTimeout ≤ time.invokedAt k - time.failedAt (k - 1) := by
  unfold Blocks runWithResilience
  by_cases hopen : b.isOpen time.checkedAt = true
  · rw [if_pos hopen]
    simp [hopen]
  · rw [if_neg hopen, or_iff_right hopen]
    have hmem := mem_attempts_iff time operation b maxAttempts.toNat 0 none
    have hiff := isOpen_afterFailures_iff time b hopen
    constructor
    · intro hall k hk hmax hthrows hthreshold
      by_contra hearly
      refine hall _ ((hmem _).mpr ⟨k, by omega, by omega, fun i _ hi => hthrows i hi, rfl⟩) ?_
      exact (hiff k).mpr ⟨hk, hthreshold, not_le.mp hearly⟩
    · intro hall inv hinv hisopen
      obtain ⟨k, -, hmax, hthrows, rfl⟩ := (hmem inv).mp hinv
      obtain ⟨hk, hthreshold, hearly⟩ := (hiff k).mp hisopen
      exact absurd (hall k hk (by omega) (fun i hi => hthrows i (by omega) hi) hthreshold)
        (not_le.mpr hearly)

end Along

/-! A breaker that opens at the first failure, and an operation that fails and is tried again a
second later. -/

def eachSecond : Timeline where
  checkedAt := 0
  invokedAt k := k
  failedAt k := k
  first := le_refl _
  during _ := le_refl _
  between k := by push_cast; linarith

def tripwire : CircuitBreaker :=
  { failureThreshold := 1, recoveryTimeout := 10, failureCount := 0, openedAt := none }

theorem retry_of_open_breaker :
    ¬ tripwire.isOpen eachSecond.checkedAt = true ∧
      ¬ Blocks (runWithResilience eachSecond (fun _ => (OpResult.throws () : OpResult Unit Unit)) 2
        tripwire) := by
  have hclosed : ¬ tripwire.isOpen eachSecond.checkedAt = true := by decide
  refine ⟨hclosed, ?_⟩
  intro hblocks
  have hopen : (afterFailures eachSecond tripwire 1).isOpen (eachSecond.invokedAt 1) =
      true := by decide +kernel
  refine hblocks { breaker := afterFailures eachSecond tripwire 1, time := eachSecond.invokedAt 1 }
    ?_ hopen
  simp [runWithResilience, hclosed, attempts, afterFailures]

end Euxis.Network
