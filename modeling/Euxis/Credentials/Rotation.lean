import Euxis.Credentials.Code

/-!
# Rotation of the credentials

The counter of the pool moves on by one with each call, and the credential that a call returns may
be further on. So the next call starts past the last hit only when the hit was where the walk began.
When a cooldown ends, and where the ring begins, is read off the calls.
-/

namespace Euxis.Credentials

open Turns Pool

/-! ## What the calls say -/

/-- The cooldown that a call sets for an id. -/
def Op.sets (id : Bytes) : Op → Option Int
  | .nextAvailable _ => none
  | .coolDown id' now duration => if id' = id then some (now.toInt + duration.toInt) else none
  | .markHealthy id' => if id' = id then some 0 else none

/-- When the cooldown of a credential ends: what the last call for it says, or what it began
with. -/
def deadline (c : Credential) (ops : List Op) : Int :=
  ops.foldl (fun d op => (op.sets c.id).getD d) c.cooldownUntil

def expired (ops : List Op) (now : Int64) (c : Credential) : Bool := deadline c ops ≤ now.toInt

/-- How many calls asked for a credential. -/
def asked (ops : List Op) : Nat := ops.countP fun
  | .nextAvailable _ => true
  | _ => false

/-- Every cooldown of a credential of the pool ends at a time of 64 bits. -/
def Fits (creds : List Credential) (ops : List Op) : Prop :=
  ∀ id now duration, .coolDown id now duration ∈ ops → id ∈ creds.map (·.id) →
    -2 ^ 63 ≤ now.toInt + duration.toInt ∧ now.toInt + duration.toInt ≤ maxInt64

def settle (ops : List Op) (c : Credential) : Credential :=
  { c with cooldownUntil := deadline c ops }

theorem map_settle_ids (ops : List Op) (creds : List Credential) :
    (creds.map (settle ops)).map (·.id) = creds.map (·.id) := by
  rw [List.map_map]
  rfl

theorem setCooldown_eq (name : Bytes) (value : Int) (creds : List Credential)
    (hids : (creds.map (·.id)).Nodup) :
    setCooldown name value creds = creds.map fun c => if c.id = name then
      { c with cooldownUntil := value } else c := by
  induction creds with
  | nil => rfl
  | cons c rest ih =>
    rw [List.map_cons, List.nodup_cons] at hids
    rw [setCooldown, List.map_cons]
    split
    · -- no other credential has this id
      rename_i hc
      congr 1
      rw [List.map_congr_left (g := id)]
      · simp
      · intro d hd
        rw [if_neg]
        · rfl
        · intro hid
          exact hids.1 (List.mem_map.mpr ⟨d, hd, hid.trans hc.symm⟩)
    · rw [ih hids.2]

/-! ## Runs -/

/-- The pool after some calls, from what the calls say. -/
def settled (pool : Pool) (ops : List Op) : Pool :=
  { creds := pool.creds.map (settle ops)
    rr := if pool.creds = [] then pool.rr else pool.rr + UInt64.ofNat (asked ops) }

theorem map_settle_of_none {ops : List Op} {creds : List Credential}
    (h : ∀ c ∈ creds, deadline c ops = c.cooldownUntil) : creds.map (settle ops) = creds := by
  rw [List.map_congr_left (g := fun c => c)]
  · simp
  · intro c hc
    rw [settle, h c hc]

theorem setCooldown_settled (pool : Pool) (op : Op) (name : Bytes) (value : Int)
    (hids : (pool.creds.map (·.id)).Nodup) (hsets : ∀ id, op.sets id = if name = id then some value
      else none) (hasked : asked [op] = 0) :
    { pool with creds := setCooldown name value pool.creds } = settled pool [op] := by
  unfold settled
  rw [hasked, setCooldown_eq name value _ hids]
  congr 1
  · apply List.map_congr_left
    intro c _
    unfold settle deadline
    by_cases hc : c.id = name
    · simp [hsets, hc]
    · simp [hsets, hc, Ne.symm hc]
  · simp

theorem nextAvailable_settled (pool : Pool) (now : Int64) :
    (pool.nextAvailable now).2 = settled pool [.nextAvailable now] := by
  have hcreds : pool.creds.map (settle [.nextAvailable now]) = pool.creds :=
    map_settle_of_none fun _ _ => rfl
  unfold Pool.nextAvailable settled
  rw [hcreds]
  split
  · rfl
  · rfl

theorem coolDown_settled (pool : Pool) (name : Bytes) (now duration : Int64)
    (hids : (pool.creds.map (·.id)).Nodup) :
    (Fits pool.creds [.coolDown name now duration] →
        (pool.coolDown name now duration).map (·.2) =
          some (settled pool [.coolDown name now duration])) ∧
      (¬ Fits pool.creds [.coolDown name now duration] →
        (pool.coolDown name now duration).map (·.2) = none) := by
  have hany : pool.creds.any (·.id = name) = true ↔ name ∈ pool.creds.map (·.id) := by simp
  have hfits : Fits pool.creds [.coolDown name now duration] ↔ (name ∈ pool.creds.map (·.id) →
      -2 ^ 63 ≤ now.toInt + duration.toInt ∧ now.toInt + duration.toInt ≤ maxInt64) := by
    unfold Fits
    simp only [List.mem_singleton, Op.coolDown.injEq]
    constructor
    · intro h
      exact h name now duration ⟨rfl, rfl, rfl⟩
    · rintro h _ _ _ ⟨rfl, rfl, rfl⟩
      exact h
  rw [hfits]
  unfold Pool.coolDown
  by_cases hname : name ∈ pool.creds.map (·.id)
  · simp only [if_pos (hany.mpr hname), hname, true_implies, checked]
    constructor
    · intro hrange
      rw [if_pos hrange, Option.map_some, Option.map_some,
        setCooldown_settled pool (.coolDown name now duration) name _ hids (fun _ => rfl) rfl]
    · intro hrange
      rw [if_neg hrange]
      rfl
  · simp only [if_neg (mt hany.mp hname), hname, false_implies, true_implies, not_true_eq_false,
      and_true, Option.map_some]
    -- the id is nobody's, so no cooldown changes
    have hcreds : pool.creds.map (settle [.coolDown name now duration]) = pool.creds := by
      apply map_settle_of_none
      intro c hc
      have hne : name ≠ c.id := by
        rintro rfl
        exact hname (List.mem_map_of_mem hc)
      simp [deadline, Op.sets, hne]
    unfold settled
    rw [hcreds]
    simp [asked]

theorem step_settled (pool : Pool) (op : Op) (hids : (pool.creds.map (·.id)).Nodup) :
    (Fits pool.creds [op] → step pool op = some (settled pool [op])) ∧
      (¬ Fits pool.creds [op] → step pool op = none) := by
  cases op with
  | nextAvailable now =>
    refine ⟨fun _ => congrArg some (nextAvailable_settled pool now), fun h => absurd ?_ h⟩
    intro id now' duration hop
    simp at hop
  | coolDown name now duration => exact coolDown_settled pool name now duration hids
  | markHealthy name =>
    refine ⟨fun _ => congrArg some (setCooldown_settled pool (.markHealthy name) name 0 hids
      (fun _ => rfl) rfl), fun h => absurd ?_ h⟩
    intro id now' duration hop
    simp at hop

theorem fits_cons (creds : List Credential) (op : Op) (ops : List Op) :
    Fits creds (op :: ops) ↔ Fits creds [op] ∧ Fits (creds.map (settle [op])) ops := by
  unfold Fits
  rw [map_settle_ids]
  constructor
  · intro h
    exact ⟨fun id now duration hop => h id now duration (by simp [List.mem_singleton.mp hop]),
      fun id now duration hop => h id now duration (List.mem_cons_of_mem _ hop)⟩
  · rintro ⟨hfirst, hrest⟩ id now duration hop
    rcases List.mem_cons.mp hop with hop | hop
    · exact hfirst id now duration (by simp [hop])
    · exact hrest id now duration hop

theorem settled_cons (pool : Pool) (op : Op) (ops : List Op) :
    settled (settled pool [op]) ops = settled pool (op :: ops) := by
  have hasked : asked (op :: ops) = asked [op] + asked ops := by
    unfold asked
    rw [List.countP_cons, List.countP_singleton]
    omega
  unfold settled
  simp only [List.map_map, List.map_eq_nil_iff, hasked, UInt64.ofNat_add]
  congr 1
  split
  · rfl
  · rw [UInt64.add_assoc]

theorem settled_nil (pool : Pool) : settled pool [] = pool := by
  unfold settled
  rw [map_settle_of_none fun _ _ => rfl]
  simp [asked]

theorem run_settled (pool : Pool) (ops : List Op) (hids : (pool.creds.map (·.id)).Nodup) :
    (Fits pool.creds ops → run pool ops = some (settled pool ops)) ∧
      (¬ Fits pool.creds ops → run pool ops = none) := by
  induction ops generalizing pool with
  | nil =>
    refine ⟨fun _ => by rw [settled_nil]; rfl, fun h => absurd ?_ h⟩
    intro id now duration hop
    simp at hop
  | cons op ops ih =>
    obtain ⟨hstep, hfails⟩ := step_settled pool op hids
    have hids' : ((settled pool [op]).creds.map (·.id)).Nodup := by
      unfold settled
      rw [map_settle_ids]
      exact hids
    obtain ⟨hrun, hrunFails⟩ := ih (settled pool [op]) hids'
    have hrun_cons : run pool (op :: ops) = (step pool op).bind fun pool => run pool ops := rfl
    rw [fits_cons, hrun_cons, ← settled_cons]
    constructor
    · rintro ⟨hfirst, hrest⟩
      rw [hstep hfirst, Option.bind_some]
      exact hrun hrest
    · intro h
      -- The run stops at the first sum that does not fit, be it now or later.
      by_cases hfirst : Fits pool.creds [op]
      · rw [hstep hfirst, Option.bind_some]
        exact hrunFails fun hrest => h ⟨hfirst, hrest⟩
      · rw [hfails hfirst]
        rfl

/-! ## One call -/

/-- The credentials in the order of the next walk. -/
def ring (creds : List Credential) (ops : List Op) : List Credential :=
  creds.rotate (asked ops % 2 ^ 64 % creds.length)

section Call

variable (creds : List Credential) (ops : List Op) (now : Int64)

theorem nextAvailable_eq :
    ((settled (Pool.new creds) ops).nextAvailable now).1 =
      ((ring creds ops).find? (expired ops now)).map (·.id) := by
  by_cases hnone : creds = []
  · subst hnone
    rfl
  · have hcreds : (settled (Pool.new creds) ops).creds = creds.map (settle ops) := rfl
    have hpointer : (settled (Pool.new creds) ops).pointer = asked ops % 2 ^ 64 % creds.length := by
      unfold Pool.pointer
      rw [hcreds, List.length_map]
      simp [settled, Pool.new, hnone]
    have hsome : (settled (Pool.new creds) ops).creds ≠ [] := by
      rw [hcreds]
      simpa using hnone
    unfold Pool.nextAvailable
    rw [if_neg hsome, walk_eq_find?, hpointer, hcreds, ← List.map_rotate, List.find?_map,
      Option.map_map]
    rfl

theorem nextAvailable_isSome_iff :
    ((settled (Pool.new creds) ops).nextAvailable now).1.isSome ↔
      ∃ c ∈ creds, expired ops now c = true := by
  rw [nextAvailable_eq, Option.isSome_map, List.find?_isSome, ring]
  simp only [List.mem_rotate]

theorem nextAvailable_expired (id : Bytes)
    (h : ((settled (Pool.new creds) ops).nextAvailable now).1 = some id) :
    ∃ c ∈ creds, c.id = id ∧ expired ops now c = true := by
  rw [nextAvailable_eq, Option.map_eq_some_iff] at h
  obtain ⟨c, hc, rfl⟩ := h
  exact ⟨c, List.mem_rotate.mp (List.mem_of_find?_eq_some hc), rfl, List.find?_some hc⟩

end Call

/-! ## Two calls -/

/-- The next call moves the pointer one place on: the counter does not overflow, or the ring fits
its range. -/
def Advances (creds : List Credential) (ops : List Op) : Prop :=
  asked ops % 2 ^ 64 + 1 < 2 ^ 64 ∨ creds.length ∣ 2 ^ 64

/-- Two calls in a row find different credentials: the one under the pointer is available to the
first call, or the first available one past the pointer is not the same for both. When the counter
overflows, the second walk begins at the first credential. -/
def Rotates (creds : List Credential) (ops : List Op) (now now' : Int64) : Prop :=
  (Advances creds ops → (∃ c, (ring creds ops).head? = some c ∧ expired ops now c = true) ∨
    ¬ ∃ c, First (ring creds ops).tail (expired ops now) c ∧
    First (ring creds ops).tail (expired ops now') c) ∧
  (¬ Advances creds ops → ¬ ∃ c, First (ring creds ops) (expired ops now) c ∧
    First creds (expired ops now') c)

section Two

variable (creds : List Credential) (ops : List Op) (now now' : Int64)

theorem deadline_asked (c : Credential) :
    deadline c (ops ++ [.nextAvailable now]) = deadline c ops := by
  unfold deadline
  rw [List.foldl_concat]
  rfl

theorem asked_asked : asked (ops ++ [.nextAvailable now]) = asked ops + 1 := by
  unfold asked
  rw [List.countP_append]
  rfl

theorem settled_asked (pool : Pool) :
    ((settled pool ops).nextAvailable now).2 = settled pool (ops ++ [.nextAvailable now]) := by
  rw [nextAvailable_settled]
  induction ops generalizing pool with
  | nil => rw [settled_nil, List.nil_append]
  | cons op ops ih => rw [← settled_cons pool op ops, ih, settled_cons, List.cons_append]

theorem ring_next (hadvances : Advances creds ops) :
    ring creds (ops ++ [.nextAvailable now]) = (ring creds ops).rotate 1 := by
  have hmod : (asked ops + 1) % 2 ^ 64 % creds.length =
      (asked ops % 2 ^ 64 + 1) % creds.length := by
    rcases hadvances with hlt | hdvd
    · congr 1
      omega
    · rw [Nat.mod_mod_of_dvd _ hdvd, Nat.add_mod, Nat.add_mod (asked ops % 2 ^ 64),
        Nat.mod_mod_of_dvd _ hdvd]
  unfold ring
  rw [asked_asked, hmod, List.rotate_rotate, List.rotate_mod,
    ← List.rotate_mod creds (_ % creds.length + 1), Nat.mod_add_mod,
    List.rotate_mod]

theorem ring_next_of_overflow (hadvances : ¬ Advances creds ops) :
    ring creds (ops ++ [.nextAvailable now]) = creds := by
  have hlast : (asked ops + 1) % 2 ^ 64 = 0 := by
    unfold Advances at hadvances
    omega
  unfold ring
  rw [asked_asked, hlast, Nat.zero_mod, List.rotate_zero]

theorem nextAvailable_ne_iff_find? (hids : (creds.map (·.id)).Nodup) :
    ((settled (Pool.new creds) ops).nextAvailable now).1 ≠
        (((settled (Pool.new creds) ops).nextAvailable now).2.nextAvailable now').1 ↔
      (ring creds ops).find? (expired ops now) ≠ (ring creds (ops ++ [.nextAvailable now])).find?
        (expired ops now') := by
  -- The first call moves the pointer and touches no deadline.
  have hexpired : expired (ops ++ [.nextAvailable now]) now' = expired ops now' := by
    funext c
    unfold expired
    rw [deadline_asked]
  rw [settled_asked, nextAvailable_eq, nextAvailable_eq, hexpired]
  have hmem : ∀ ops' c, (ring creds ops').find? (expired ops now') = some c → c ∈ creds := by
    intro ops' c hc
    exact List.mem_rotate.mp (List.mem_of_find?_eq_some hc)
  refine not_congr ⟨fun h => ?_, fun h => by rw [h]⟩
  cases hfirst : (ring creds ops).find? (expired ops now) with
  | none =>
    cases hsecond : (ring creds (ops ++ [.nextAvailable now])).find? (expired ops now') with
    | none => rfl
    | some d =>
      rw [hfirst, hsecond] at h
      cases h
  | some c =>
    cases hsecond : (ring creds (ops ++ [.nextAvailable now])).find? (expired ops now') with
    | none =>
      rw [hfirst, hsecond] at h
      cases h
    | some d =>
      rw [hfirst, hsecond] at h
      have hc : c ∈ creds := List.mem_rotate.mp (List.mem_of_find?_eq_some hfirst)
      rw [List.inj_on_of_nodup_map hids hc (hmem _ d hsecond) (Option.some.inj h)]

theorem nextAvailable_ne_iff (hids : (creds.map (·.id)).Nodup)
    (htwo : 2 ≤ creds.countP (expired ops now')) :
    ((settled (Pool.new creds) ops).nextAvailable now).1 ≠
        (((settled (Pool.new creds) ops).nextAvailable now).2.nextAvailable now').1 ↔
          Rotates creds ops now now' := by
  have hne : creds ≠ [] := by
    rintro rfl
    simp at htwo
  rw [nextAvailable_ne_iff_find? creds ops now now' hids]
  unfold Rotates
  by_cases hadvances : Advances creds ops
  · rw [ring_next creds ops now hadvances]
    simp only [hadvances, true_implies, not_true_eq_false, false_implies, and_true]
    have hnodup : (ring creds ops).Nodup := List.nodup_rotate.mpr hids.of_map
    have hfit : 2 ≤ (ring creds ops).countP (expired ops now') := by
      rw [ring, (List.rotate_perm creds _).countP_eq]
      exact htwo
    obtain ⟨x, rest, hring⟩ :=
      List.exists_cons_of_ne_nil (mt List.rotate_eq_nil_iff.mp hne : ring creds ops ≠ [])
    rw [hring] at hnodup hfit ⊢
    rw [List.rotate_cons_succ, List.rotate_zero,
      find?_next_ne_iff (expired ops now') x rest hnodup hfit]
    simp
  · rw [ring_next_of_overflow creds ops now hadvances]
    simp only [hadvances, false_implies, not_false_eq_true, true_implies, true_and]
    have hfit : ∃ c ∈ creds, expired ops now' c = true :=
      List.countP_pos_iff.mp (lt_of_lt_of_le (by omega) htwo)
    exact not_congr (find?_eq_find?_iff_first hfit)

end Two

/-- The calls so far return, the next one returns an id when some cooldown has expired and only the
id of such a credential, and with two of them at both times the one after it returns another id. -/
def KeepsTurns (creds : List Credential) (ops : List Op) (now now' : Int64) : Prop :=
  ∃ pool, run (Pool.new creds) ops = some pool ∧
    ((pool.nextAvailable now).1.isSome ↔ ∃ c ∈ creds, expired ops now c = true) ∧
    (∀ id, (pool.nextAvailable now).1 = some id → ∃ c ∈ creds, c.id = id ∧
      expired ops now c = true) ∧
    (2 ≤ creds.countP (expired ops now) → 2 ≤ creds.countP (expired ops now') →
      (pool.nextAvailable now).1 ≠ ((pool.nextAvailable now).2.nextAvailable now').1)

/-- **Rotation.** After every sequence of calls and for every two times: the pool keeps turns
exactly when no cooldown so far overflows and, with two credentials available at both times, the
ring rotates. -/
theorem credential_rotation_iff (creds : List Credential) (hids : (creds.map (·.id)).Nodup)
    (ops : List Op) (now now' : Int64) :
    KeepsTurns creds ops now now' ↔ Fits creds ops ∧
      (2 ≤ creds.countP (expired ops now) → 2 ≤ creds.countP (expired ops now') →
        Rotates creds ops now now') := by
  obtain ⟨hrun, hfails⟩ := run_settled (Pool.new creds) ops hids
  constructor
  · rintro ⟨pool, hpool, -, -, hturns⟩
    have hfits : Fits creds ops := by
      by_contra hnot
      rw [hfails hnot] at hpool
      cases hpool
    obtain rfl := Option.some.inj ((hrun hfits).symm.trans hpool)
    exact ⟨hfits, fun h h' => (nextAvailable_ne_iff creds ops now now' hids h').mp (hturns h h')⟩
  · rintro ⟨hfits, hrotates⟩
    exact ⟨_, hrun hfits, nextAvailable_isSome_iff creds ops now,
      nextAvailable_expired creds ops now,
      fun h h' => (nextAvailable_ne_iff creds ops now now' hids h').mpr (hrotates h h')⟩

/-! Three credentials, of which one is cooled down. -/

def threeKeys : List Credential :=
  [{ id := ascii "a", cooldownUntil := 0 }, { id := ascii "b", cooldownUntil := 0 },
    { id := ascii "c", cooldownUntil := 0 }]

theorem credential_rotation_three : KeepsTurns threeKeys [.coolDown (ascii "b") 0 1000] 5 5 := by
  refine (credential_rotation_iff threeKeys (by decide) _ 5 5).mpr ⟨?_,
    fun _ _ => ⟨fun _ => Or.inl ?_, fun h => absurd ?_ h⟩⟩
  · intro id now duration hop _
    obtain ⟨-, rfl, rfl⟩ := Op.coolDown.inj (List.mem_singleton.mp hop)
    decide
  · exact ⟨{ id := ascii "a", cooldownUntil := 0 }, by decide, by decide⟩
  · exact Or.inl (by decide)

def coolFirst : List Op := [.coolDown (ascii "a") 0 1000]

theorem cooled_first_repeats : ¬ KeepsTurns threeKeys coolFirst 5 5 := by
  rintro ⟨pool, hpool, -, -, hturns⟩
  have hrun : (run (Pool.new threeKeys) coolFirst).map
      (fun pool => ((pool.nextAvailable 5).1, ((pool.nextAvailable 5).2.nextAvailable 5).1)) =
        some (some (ascii "b"), some (ascii "b")) := by decide +kernel
  rw [hpool, Option.map_some] at hrun
  obtain ⟨hfirst, hsecond⟩ := Prod.mk.inj (Option.some.inj hrun)
  exact hturns (by decide +kernel) (by decide +kernel) (hfirst.trans hsecond.symm)

end Euxis.Credentials
