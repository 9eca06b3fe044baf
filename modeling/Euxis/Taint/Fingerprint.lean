import Euxis.Taint.Proofs
import Mathlib.Data.Int.ModEq

/-!
# What a fingerprint keeps

The last four bytes that the hash takes in are a position. The hash keeps them apart: from one
state, two different words never lead to the same state.
-/

namespace Euxis.Taint

open Cpg

/-! ## Four bytes of the hash -/

theorem xor_byte_div (x : UInt64) (b : UInt8) : (x ^^^ b.toUInt64).toNat / 256 = x.toNat / 256 := by
  have hb : b.toNat / 2 ^ 8 = 0 := Nat.div_eq_of_lt b.toNat_lt
  rw [UInt64.toNat_xor, UInt8.toNat_toUInt64]
  show (x.toNat ^^^ b.toNat) / 2 ^ 8 = x.toNat / 2 ^ 8
  rw [Nat.xor_div_two_pow, hb, Nat.xor_zero]

theorem xor_byte_inj {x : UInt64} {b c : UInt8}
    (h : (x ^^^ b.toUInt64).toNat = (x ^^^ c.toUInt64).toNat) : b = c := by
  have hxor := UInt64.xor_right_inj x |>.mp (UInt64.toNat_inj.mp h)
  have hnat := congrArg UInt64.toNat hxor
  rw [UInt8.toNat_toUInt64, UInt8.toNat_toUInt64] at hnat
  exact UInt8.toNat_inj.mp hnat

theorem mul_prime_modEq (x y : UInt64) (d : Int) (h : (x.toNat : Int) - y.toNat ≡ d [ZMOD 2 ^ 64]) :
    ((x * fnvPrime).toNat : Int) - (y * fnvPrime).toNat ≡ d * 1099511628211 [ZMOD 2 ^ 64] := by
  have hmul : ∀ z : UInt64, ((z * fnvPrime).toNat : Int) ≡ z.toNat *
      1099511628211 [ZMOD 2 ^ 64] := by
    intro z
    rw [UInt64.toNat_mul]
    push_cast
    exact Int.mod_modEq _ _
  have hdiff := (hmul x).sub (hmul y)
  rw [← sub_mul] at hdiff
  exact hdiff.trans (h.mul_right _)

theorem digits_eq_zero {a b c e : Int} (ha : -255 ≤ a ∧ a ≤ 255) (hb : -510 ≤ b ∧ b ≤ 510)
    (hc : -510 ≤ c ∧ c ≤ 510) (he : -510 ≤ e ∧ e ≤ 510)
    (h : ((a * 1099511628211 + b) * 1099511628211 + c) * 1099511628211 + e ≡ 0 [ZMOD 2 ^ 64]) :
    a = 0 ∧ b = 0 ∧ c = 0 ∧ e = 0 := by
  obtain ⟨k, hk⟩ := (Int.modEq_zero_iff_dvd.mp h)
  -- The prime is `2 ^ 40 + 435`. The part below `2 ^ 40` is too small to be a multiple of it.
  have hlow : 82312875 * a + 189225 * b + 435 * c + e = 0 := by
    have hm : ∃ m, 82312875 * a + 189225 * b + 435 * c + e = 2 ^ 40 * m :=
      ⟨2 ^ 24 * k - (a * (2 ^ 80 + 1305 * 2 ^ 40 + 567675) + b * (2 ^ 40 + 870) + c), by omega⟩
    obtain ⟨m, hm⟩ := hm
    omega
  -- So the digits are those of a zero of a small polynomial, and the first one is at most one.
  have hfirst : -1 ≤ a ∧ a ≤ 1 := by omega
  have hhigh : 567675 * a + 870 * b + c = 0 := by
    have hm : ∃ m, 567675 * a + 870 * b + c = 2 ^ 24 * m :=
      ⟨k - a * (2 ^ 56 + 1305 * 2 ^ 16) - b * 2 ^ 16, by omega⟩
    obtain ⟨m, hm⟩ := hm
    omega
  omega

theorem xor_bytes_diff (x y : UInt64) (b c : UInt8) :
    ∃ δ : Int, ((x ^^^ b.toUInt64).toNat : Int) - (y ^^^ c.toUInt64).toNat = x.toNat - y.toNat + δ ∧
      -510 ≤ δ ∧ δ ≤ 510 := by
  have hx := xor_byte_div x b
  have hy := xor_byte_div y c
  exact ⟨((x ^^^ b.toUInt64).toNat : Int) - (y ^^^ c.toUInt64).toNat -
    (x.toNat - y.toNat), by omega, by omega, by omega⟩

/-- **The hash keeps words apart.** -/
theorem absorb_word_inj (h : UInt64) {b₀ b₁ b₂ b₃ c₀ c₁ c₂ c₃ : UInt8}
    (heq : absorb h [b₀, b₁, b₂, b₃] = absorb h [c₀, c₁, c₂, c₃]) :
    b₀ = c₀ ∧ b₁ = c₁ ∧ b₂ = c₂ ∧ b₃ = c₃ := by
  simp only [absorb, List.foldl_cons, List.foldl_nil] at heq
  -- The difference of the two states, byte by byte.
  have hx := xor_byte_div h b₀
  have hy := xor_byte_div h c₀
  obtain ⟨a, ha⟩ : ∃ a : Int, ((h ^^^ b₀.toUInt64).toNat : Int) - (h ^^^ c₀.toUInt64).toNat = a :=
    ⟨_, rfl⟩
  have h₁ := mul_prime_modEq (h ^^^ b₀.toUInt64) (h ^^^ c₀.toUInt64) a (by rw [ha])
  generalize hx₁ : (h ^^^ b₀.toUInt64) * fnvPrime = x₁ at heq h₁
  generalize hy₁ : (h ^^^ c₀.toUInt64) * fnvPrime = y₁ at heq h₁
  obtain ⟨b, hb, hbbound⟩ := xor_bytes_diff x₁ y₁ b₁ c₁
  have h₂ := mul_prime_modEq (x₁ ^^^ b₁.toUInt64) (y₁ ^^^ c₁.toUInt64) (a * 1099511628211 + b) (by
    rw [hb]
    exact h₁.add_right b)
  generalize hx₂ : (x₁ ^^^ b₁.toUInt64) * fnvPrime = x₂ at heq h₂
  generalize hy₂ : (y₁ ^^^ c₁.toUInt64) * fnvPrime = y₂ at heq h₂
  obtain ⟨c, hc, hcbound⟩ := xor_bytes_diff x₂ y₂ b₂ c₂
  have h₃ := mul_prime_modEq (x₂ ^^^ b₂.toUInt64) (y₂ ^^^ c₂.toUInt64) ((a * 1099511628211 + b) *
    1099511628211 + c) (by
    rw [hc]
    exact h₂.add_right c)
  generalize hx₃ : (x₂ ^^^ b₂.toUInt64) * fnvPrime = x₃ at heq h₃
  generalize hy₃ : (y₂ ^^^ c₂.toUInt64) * fnvPrime = y₃ at heq h₃
  obtain ⟨e, he, hebound⟩ := xor_bytes_diff x₃ y₃ b₃ c₃
  have h₄ := mul_prime_modEq (x₃ ^^^ b₃.toUInt64) (y₃ ^^^ c₃.toUInt64)
    (((a * 1099511628211 + b) * 1099511628211 + c) * 1099511628211 + e) (by
      rw [he]
      exact h₃.add_right e)
  rw [heq, sub_self] at h₄
  have hzero := Int.modEq_zero_iff_dvd.mpr
    (Int.dvd_of_dvd_mul_left_of_gcd_one (Int.modEq_zero_iff_dvd.mp h₄.symm) (by decide))
  obtain ⟨rfl, rfl, rfl, rfl⟩ := digits_eq_zero (by omega) hbbound hcbound hebound hzero
  -- Each difference is zero, so the states are the same from the start.
  obtain rfl := xor_byte_inj (by omega : (h ^^^ b₀.toUInt64).toNat = (h ^^^ c₀.toUInt64).toNat)
  obtain rfl : x₁ = y₁ := hx₁.symm.trans hy₁
  obtain rfl := xor_byte_inj (by omega : (x₁ ^^^ b₁.toUInt64).toNat = (x₁ ^^^ c₁.toUInt64).toNat)
  obtain rfl : x₂ = y₂ := hx₂.symm.trans hy₂
  obtain rfl := xor_byte_inj (by omega : (x₂ ^^^ b₂.toUInt64).toNat = (x₂ ^^^ c₂.toUInt64).toNat)
  obtain rfl : x₃ = y₃ := hx₃.symm.trans hy₃
  obtain rfl := xor_byte_inj (by omega : (x₃ ^^^ b₃.toUInt64).toNat = (x₃ ^^^ c₃.toUInt64).toNat)
  exact ⟨rfl, rfl, rfl, rfl⟩

/-! ## The text of the hash -/

theorem eq_of_nibbles (k : Nat) {a b : Nat} (ha : a < 16 ^ k) (hb : b < 16 ^ k)
    (h : ∀ j < k, a / 16 ^ j % 16 = b / 16 ^ j % 16) : a = b := by
  induction k generalizing a b with
  | zero =>
    rw [Nat.pow_zero] at ha hb
    omega
  | succ k ih =>
    have hlow := h 0 (Nat.succ_pos k)
    rw [Nat.pow_zero, Nat.div_one, Nat.div_one] at hlow
    have hhigh : a / 16 = b / 16 := by
      rw [Nat.pow_succ] at ha hb
      apply ih
      · omega
      · omega
      · intro j hj
        rw [Nat.div_div_eq_div_mul, Nat.div_div_eq_div_mul, ← Nat.pow_succ']
        exact h (j + 1) (Nat.succ_lt_succ hj)
    omega

theorem hex64_inj {v w : UInt64} (h : hex64 v = hex64 w) : v = w := by
  have halphabet : ∀ a < 16, ∀ b < 16,
      (ascii "0123456789abcdef").getD a 0 = (ascii "0123456789abcdef").getD b 0 → a = b := by decide
  apply UInt64.toNat_inj.mp
  refine eq_of_nibbles 16 v.toNat_lt w.toNat_lt fun j hj => ?_
  have hdigit := List.map_inj_left.mp h (15 - j) (List.mem_range.mpr (by omega))
  have hnibble := halphabet _ (Nat.mod_lt _ (by decide)) _ (Nat.mod_lt _ (by decide)) hdigit
  have hpow : 2 ^ ((15 - (15 - j)) * 4) = 16 ^ j := by
    rw [show (15 - (15 - j)) * 4 = 4 * j by omega, Nat.pow_mul]
  rw [Nat.shiftRight_eq_div_pow, Nat.shiftRight_eq_div_pow, hpow] at hnibble
  exact hnibble

theorem fingerprintHex_inj {v w : UInt64} (h : fingerprintHex v = fingerprintHex w) : v = w :=
  hex64_inj (List.append_inj_left h (by simp [hex64]))

theorem wordBytes_eq_iff (e e' : Nat) : wordBytes e = wordBytes e' ↔ e % 2 ^ 32 = e' % 2 ^ 32 := by
  simp only [wordBytes, List.map_cons, List.map_nil, List.cons.injEq, and_true, ← UInt8.toNat_inj,
    UInt8.toNat_ofNat', Nat.shiftRight_eq_div_pow]
  omega

/-- **A fingerprint tells positions apart**, as far as 32 bits do. -/
theorem stableFingerprint_eq_iff (ruleId file sourceRawKind sinkRawKind : Bytes) (e e' : Nat) :
    stableFingerprint ruleId file sourceRawKind sinkRawKind e =
      stableFingerprint ruleId file sourceRawKind sinkRawKind e' ↔
      e % 2 ^ 32 = e' % 2 ^ 32 := by
  rw [← wordBytes_eq_iff]
  unfold stableFingerprint
  constructor
  · intro h
    have hhash := fingerprintHex_inj h
    simp only [wordBytes, List.map_cons, List.map_nil] at hhash ⊢
    obtain ⟨h₀, h₁, h₂, h₃⟩ := absorb_word_inj _ hhash
    rw [h₀, h₁, h₂, h₃]
  · intro h
    rw [h]

/-! ## Nodes that move -/

/-- A range that lies a number of bytes and rows further on, in 32-bit positions. -/
def shiftRange (bytes rows : Nat) (r : Parse.SourceRange) : Parse.SourceRange :=
  { r with
    startRow := (r.startRow + rows) % 2 ^ 32, endRow := (r.endRow + rows) % 2 ^ 32,
    startByte := (r.startByte + bytes) % 2 ^ 32, endByte := (r.endByte + bytes) % 2 ^ 32 }

def shiftNode (bytes rows : Nat) (n : Node) : Node :=
  { n with range := shiftRange bytes rows n.range }

def shiftGraph (bytes rows : Nat) (g : Graph) : Graph where
  nodes := g.nodes.map (shiftNode bytes rows)
  edges := g.edges
  dense := by
    intro i hi
    rw [List.getElem_map]
    exact g.dense i (by simpa using hi)
  ends := by
    intro e he
    obtain ⟨hs, ht⟩ := g.ends e he
    exact ⟨⟨hs.1, by simpa using hs.2⟩, ht.1, by simpa using ht.2⟩

theorem shiftGraph_get (bytes rows : Nat) (g : Graph) (id : NodeId) :
    (shiftGraph bytes rows g).get id = (g.get id).map (shiftNode bytes rows) := by
  unfold Graph.get shiftGraph
  split
  · rfl
  · rw [List.getElem?_map]

theorem filterMap_eq_iff {α β : Type} {f f' : α → Option β} (l : List α)
    (hsome : ∀ a ∈ l, (f a).isSome = (f' a).isSome) :
    l.filterMap f = l.filterMap f' ↔ ∀ a ∈ l, f a = f' a := by
  induction l with
  | nil => simp
  | cons a rest ih =>
    have ih := ih fun b hb => hsome b (List.mem_cons_of_mem _ hb)
    have ha := hsome a List.mem_cons_self
    rw [List.filterMap_cons, List.filterMap_cons]
    cases hf : f a with
    | none =>
      cases hf' : f' a with
      | none => simp [ih, hf, hf']
      | some c => simp [hf, hf'] at ha
    | some b =>
      cases hf' : f' a with
      | none => simp [hf, hf'] at ha
      | some c => simp [ih, hf, hf']

/-- The fingerprint of a flow, if both its ends are nodes. -/
def fingerprintOf (g : Graph) (filePath : Bytes) (flow : TaintFlow) : Option Bytes :=
  (flowToFinding g filePath flow).map (·.stableFingerprint)

theorem fingerprintOf_isSome (g : Graph) (filePath : Bytes) (flow : TaintFlow) :
    (fingerprintOf g filePath flow).isSome =
      ((g.get flow.sinkNode).isSome && (g.get flow.sourceNode).isSome) := by
  unfold fingerprintOf flowToFinding
  cases g.get flow.sinkNode with
  | none => rfl
  | some sink => cases g.get flow.sourceNode <;> rfl

theorem fingerprintOf_shift_iff (g : Graph) (filePath : Bytes) (flow : TaintFlow)
    (bytes rows : Nat) :
    fingerprintOf (shiftGraph bytes rows g) filePath flow = fingerprintOf g filePath flow ↔
      bytes % 2 ^ 32 = 0 ∨ g.get flow.sinkNode = none ∨ g.get flow.sourceNode = none := by
  unfold fingerprintOf flowToFinding
  rw [shiftGraph_get, shiftGraph_get]
  cases g.get flow.sinkNode with
  | none => simp
  | some sink =>
    cases g.get flow.sourceNode with
    | none => simp
    | some source =>
      simp only [Option.map_some, Option.bind_eq_bind, Option.bind_some, Option.pure_def,
        Option.some.injEq, reduceCtorEq, or_false]
      refine (stableFingerprint_eq_iff _ _ _ _ _ _).trans ?_
      simp only [shiftNode, shiftRange]
      omega

theorem fingerprints_shift_iff (result : AnalysisResult) (g : Graph) (filePath : Bytes)
    (bytes rows : Nat) :
    (flowsToFindings result (shiftGraph bytes rows g) filePath).map (·.stableFingerprint) =
        (flowsToFindings result g filePath).map (·.stableFingerprint) ↔
      ∀ flow ∈ result.flows,
        fingerprintOf (shiftGraph bytes rows g) filePath flow = fingerprintOf g filePath flow := by
  unfold flowsToFindings
  rw [List.map_filterMap, List.map_filterMap]
  refine filterMap_eq_iff result.flows ?_
  intro flow _
  have hshift := fingerprintOf_isSome (shiftGraph bytes rows g) filePath flow
  rw [shiftGraph_get, shiftGraph_get, Option.isSome_map, Option.isSome_map] at hshift
  exact hshift.trans (fingerprintOf_isSome g filePath flow).symm

/-- **Fingerprints of moved code.** They stay the same when the code moves by rows alone or by a
multiple of `2 ^ 32` bytes, or when there is no finding at all. The start byte of the sink is
hashed. -/
theorem fingerprints_survive_iff (result : AnalysisResult) (g : Graph) (filePath : Bytes)
    (bytes rows : Nat) :
    (flowsToFindings result (shiftGraph bytes rows g) filePath).map (·.stableFingerprint) =
        (flowsToFindings result g filePath).map (·.stableFingerprint) ↔
      bytes % 2 ^ 32 = 0 ∨ ∀ flow ∈ result.flows, g.get flow.sinkNode = none ∨
      g.get flow.sourceNode = none := by
  rw [fingerprints_shift_iff]
  constructor
  · intro h
    by_cases hbytes : bytes % 2 ^ 32 = 0
    · exact Or.inl hbytes
    · exact Or.inr fun flow hflow =>
        ((fingerprintOf_shift_iff g filePath flow bytes rows).mp (h flow hflow)).resolve_left hbytes
  · intro h flow hflow
    exact (fingerprintOf_shift_iff g filePath flow bytes rows).mpr
      (h.imp_right fun h => h flow hflow)

def loopFlow : TaintFlow :=
  { sourceNode := 2, sinkNode := 3, path := [2, 4, 3], sourceSpecId := ascii "in",
    sinkSpecId := ascii "run" }

theorem moved_fingerprint_differs :
    (flowsToFindings { flows := [loopFlow] } (shiftGraph 1 1 loopGraph) (ascii "a.c")).map
      (·.stableFingerprint) ≠
      (flowsToFindings { flows := [loopFlow] } loopGraph (ascii "a.c")).map
        (·.stableFingerprint) := by
  rw [Ne, fingerprints_shift_iff]
  intro h
  have hflow := (fingerprintOf_shift_iff loopGraph (ascii "a.c") loopFlow 1 1).mp
    (h loopFlow (List.mem_singleton_self _))
  revert hflow
  decide

end Euxis.Taint
