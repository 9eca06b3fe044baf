import Euxis.Bytes

/-!
# Bytes as groups of six bits

Three bytes are four sextets. Fewer than three bytes leave bits over in the last sextet.
-/

namespace Euxis.Sextets

def pack : Bytes → List Nat
  | [] => []
  | [x] => [x.toNat / 4, x.toNat % 4 * 16]
  | [x, y] => [x.toNat / 4, x.toNat % 4 * 16 + y.toNat / 16, y.toNat % 16 * 4]
  | x :: y :: z :: rest =>
    x.toNat / 4 :: (x.toNat % 4 * 16 + y.toNat / 16) :: (y.toNat % 16 * 4 + z.toNat / 64) ::
      z.toNat % 64 :: pack rest

/-- The whole bytes. Bits that fill no byte are dropped. -/
def unpack : List Nat → Bytes
  | a :: b :: c :: d :: rest =>
    UInt8.ofNat (a * 4 + b / 16) :: UInt8.ofNat (b % 16 * 16 + c / 4) ::
      UInt8.ofNat (c % 4 * 64 + d) :: unpack rest
  | [a, b, c] => [UInt8.ofNat (a * 4 + b / 16), UInt8.ofNat (b % 16 * 16 + c / 4)]
  | [a, b] => [UInt8.ofNat (a * 4 + b / 16)]
  | _ => []

/-- The bits that fill no byte are zero, and fewer than six. -/
def Closed : List Nat → Prop
  | _ :: _ :: _ :: _ :: rest => Closed rest
  | [_, _, c] => c % 4 = 0
  | [_, b] => b % 16 = 0
  | [_] => False
  | [] => True

/-- Bytes are taken as soon as eight bits are there: `pending` holds `bits` bits. -/
def drain (bits pending : Nat) : List Nat → Bytes
  | [] => []
  | v :: rest =>
    if 8 ≤ bits + 6 then
      UInt8.ofNat ((pending * 64 + v) / 2 ^ (bits - 2)) ::
        drain (bits - 2) ((pending * 64 + v) % 2 ^ (bits - 2)) rest
    else drain (bits + 6) (pending * 64 + v) rest

theorem pack_lt (data : Bytes) : ∀ v ∈ pack data, v < 64 := by
  induction data using pack.induct with
  | case1 => simp [pack]
  | case2 x =>
    have hx := x.toNat_lt
    simp only [pack, List.mem_cons, List.not_mem_nil, or_false]
    omega
  | case3 x y =>
    have hx := x.toNat_lt
    have hy := y.toNat_lt
    simp only [pack, List.mem_cons, List.not_mem_nil, or_false]
    omega
  | case4 x y z rest ih =>
    have hx := x.toNat_lt
    have hy := y.toNat_lt
    have hz := z.toNat_lt
    intro v hv
    simp only [pack, List.mem_cons] at hv
    rcases hv with rfl | rfl | rfl | rfl | hv
    · omega
    · omega
    · omega
    · omega
    · exact ih v hv

theorem ofNat_eq (n : Nat) (x : UInt8) (h : n = x.toNat) : UInt8.ofNat n = x := by
  rw [h, UInt8.ofNat_toNat]

theorem unpack_pack (data : Bytes) : unpack (pack data) = data := by
  induction data using pack.induct with
  | case1 => rfl
  | case2 x =>
    have hx := x.toNat_lt
    simp only [pack, unpack]
    rw [ofNat_eq _ x (by omega)]
  | case3 x y =>
    have hx := x.toNat_lt
    have hy := y.toNat_lt
    simp only [pack, unpack]
    rw [ofNat_eq _ x (by omega), ofNat_eq _ y (by omega)]
  | case4 x y z rest ih =>
    have hx := x.toNat_lt
    have hy := y.toNat_lt
    have hz := z.toNat_lt
    simp only [pack, unpack, ih]
    rw [ofNat_eq _ x (by omega), ofNat_eq _ y (by omega), ofNat_eq _ z (by omega)]

theorem closed_pack (data : Bytes) : Closed (pack data) := by
  induction data using pack.induct with
  | case1 => trivial
  | case2 x =>
    simp only [pack, Closed]
    omega
  | case3 x y =>
    simp only [pack, Closed]
    omega
  | case4 x y z rest ih => exact ih

theorem pack_unpack (vs : List Nat) (hvs : ∀ v ∈ vs, v < 64) (h : Closed vs) :
    pack (unpack vs) = vs := by
  induction vs using unpack.induct with
  | case1 a b c d rest ih =>
    simp only [List.mem_cons, forall_eq_or_imp] at hvs
    obtain ⟨ha, hb, hc, hd, hrest⟩ := hvs
    simp only [unpack, pack, ih hrest h, UInt8.toNat_ofNat', List.cons.injEq, and_true]
    omega
  | case2 a b c =>
    simp only [List.mem_cons, List.not_mem_nil, or_false, forall_eq_or_imp, forall_eq] at hvs
    simp only [Closed] at h
    simp only [unpack, pack, UInt8.toNat_ofNat', List.cons.injEq, and_true]
    omega
  | case3 a b =>
    simp only [List.mem_cons, List.not_mem_nil, or_false, forall_eq_or_imp, forall_eq] at hvs
    simp only [Closed] at h
    simp only [unpack, pack, UInt8.toNat_ofNat', List.cons.injEq, and_true]
    omega
  | case4 vs h1 h2 h3 =>
    match vs, h with
    | [], _ => rfl
    | [_], h => exact absurd h id
    | [a, b], _ => exact absurd rfl (h3 a b)
    | [a, b, c], _ => exact absurd rfl (h2 a b c)
    | a :: b :: c :: d :: rest, _ => exact absurd rfl (h1 a b c d rest)

theorem drain_zero (v : Nat) (rest : List Nat) : drain 0 0 (v :: rest) = drain 6 v rest := by
  rw [drain, if_neg (by omega), Nat.zero_mul, Nat.zero_add, Nat.zero_add]

theorem drain_six (pending v : Nat) (rest : List Nat) :
    drain 6 pending (v :: rest) = UInt8.ofNat ((pending * 64 + v) / 16) ::
      drain 4 ((pending * 64 + v) % 16) rest :=
  rfl

theorem drain_four (pending v : Nat) (rest : List Nat) :
    drain 4 pending (v :: rest) = UInt8.ofNat ((pending * 64 + v) / 4) ::
      drain 2 ((pending * 64 + v) % 4) rest :=
  rfl

theorem drain_two (pending v : Nat) (rest : List Nat) :
    drain 2 pending (v :: rest) = UInt8.ofNat (pending * 64 + v) :: drain 0 0 rest := by
  rw [drain, if_pos (by omega)]
  simp only [Nat.sub_self, Nat.pow_zero, Nat.div_one, Nat.mod_one]

theorem drain_eq (vs : List Nat) (hvs : ∀ v ∈ vs, v < 64) : drain 0 0 vs = unpack vs := by
  have hfirst : ∀ a b, b < 64 → (a * 64 + b) / 16 = a * 4 + b / 16 := by omega
  have hsecond : ∀ a b c, c < 64 →
      ((a * 64 + b) % 16 * 64 + c) / 4 = b % 16 * 16 + c / 4 := by omega
  have hthird : ∀ a b c d, ((a * 64 + b) % 16 * 64 + c) % 4 * 64 + d = c % 4 * 64 + d := by omega
  induction vs using unpack.induct with
  | case1 a b c d rest ih =>
    simp only [List.mem_cons, forall_eq_or_imp] at hvs
    obtain ⟨-, hb, hc, -, hrest⟩ := hvs
    rw [drain_zero, drain_six, drain_four, drain_two, unpack, hfirst a b hb, hsecond a b c hc,
      hthird, ih hrest]
  | case2 a b c =>
    simp only [List.mem_cons, List.not_mem_nil, or_false, forall_eq_or_imp, forall_eq] at hvs
    rw [drain_zero, drain_six, drain_four, unpack, hfirst a b hvs.2.1, hsecond a b c hvs.2.2]
    rfl
  | case3 a b =>
    simp only [List.mem_cons, List.not_mem_nil, or_false, forall_eq_or_imp, forall_eq] at hvs
    rw [drain_zero, drain_six, unpack, hfirst a b hvs.2]
    rfl
  | case4 vs h1 h2 h3 =>
    match vs with
    | [] => rfl
    | [_] => rfl
    | [a, b] => exact absurd rfl (h3 a b)
    | [a, b, c] => exact absurd rfl (h2 a b c)
    | a :: b :: c :: d :: rest => exact absurd rfl (h1 a b c d rest)

end Euxis.Sextets
