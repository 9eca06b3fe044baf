import Mathlib.Data.List.Basic
import Mathlib.Data.List.Infix
import Mathlib.Data.List.TakeWhile
import Mathlib.Tactic.IntervalCases

/-!
# Byte strings

A `std::string` is a list of bytes. What the code does with strings is here:
literals, decimal numbers, joining, searching and comparing.
-/

namespace Euxis

abbrev Bytes := List UInt8

/-- Texts in a list are searched with `==`. -/
instance : LawfulBEq Bytes := inferInstance

def ch (c : Char) : UInt8 := UInt8.ofNat c.toNat

/-- The bytes of an ASCII literal. -/
def ascii (s : String) : Bytes := s.toList.map ch

namespace Bytes

/-! ## Case and search -/

def lowerByte (b : UInt8) : UInt8 := if ch 'A' ≤ b ∧ b ≤ ch 'Z' then b + 32 else b

/-- `tolower` on each byte, in the C locale. -/
def lower (s : Bytes) : Bytes := s.map lowerByte

def upperByte (b : UInt8) : UInt8 := if ch 'a' ≤ b ∧ b ≤ ch 'z' then b - 32 else b

/-- `toupper` on each byte, in the C locale. -/
def upper (s : Bytes) : Bytes := s.map upperByte

/-- `isalnum` in the C locale. -/
def isAlnum (b : UInt8) : Bool :=
  (ch '0' ≤ b ∧ b ≤ ch '9') ∨ (ch 'A' ≤ b ∧ b ≤ ch 'Z') ∨ (ch 'a' ≤ b ∧ b ≤ ch 'z')

/-- `isxdigit` in the C locale. -/
def isXdigit (b : UInt8) : Bool :=
  (ch '0' ≤ b ∧ b ≤ ch '9') ∨ (ch 'A' ≤ b ∧ b ≤ ch 'F') ∨ (ch 'a' ≤ b ∧ b ≤ ch 'f')

/-- `text.find(needle) != npos`. -/
def contains (text needle : Bytes) : Bool := needle <:+: text

theorem lowerByte_cases (b : UInt8) : lowerByte b = b ∨ 97 ≤ (lowerByte b).toNat := by
  unfold lowerByte
  split
  · rename_i h
    have h1 : 65 ≤ b.toNat := UInt8.le_iff_toNat_le.mp h.1
    have h2 : b.toNat ≤ 90 := UInt8.le_iff_toNat_le.mp h.2
    right
    rw [UInt8.toNat_add]
    change 97 ≤ (b.toNat + 32) % 256
    omega
  · exact Or.inl rfl

theorem lower_lower (s : Bytes) : lower (lower s) = lower s := by
  have hbyte : ∀ b, lowerByte (lowerByte b) = lowerByte b := by
    intro b
    rcases lowerByte_cases b with h | h
    · rw [h, h]
    · generalize lowerByte b = c at h
      unfold lowerByte
      rw [if_neg]
      rintro ⟨-, hz⟩
      have : c.toNat ≤ 90 := UInt8.le_iff_toNat_le.mp hz
      omega
  unfold lower
  rw [List.map_map]
  exact List.map_congr_left fun b _ => hbyte b

theorem not_mem_lower (c : UInt8) (s : Bytes) (hc : c.toNat < 97) (h : c ∉ s) : c ∉ lower s := by
  intro hmem
  obtain ⟨b, hb, hbc⟩ := List.mem_map.mp hmem
  rcases lowerByte_cases b with hsame | hletter
  · exact h (by rw [← hbc, hsame]; exact hb)
  · rw [hbc] at hletter
    omega

/-! ## Decimal numbers -/

/-- `std::to_string` of an unsigned number. -/
def decimal (n : Nat) : Bytes := (Nat.toDigits 10 n).map ch

/-- `std::to_string` of a signed number. -/
def decimalInt (i : Int) : Bytes :=
  if i < 0 then ch '-' :: decimal i.natAbs else decimal i.natAbs

theorem ofNat_ch (c : Char) (h : c.toNat < 256) : Char.ofNat (ch c).toNat = c := by
  have hn : (ch c).toNat = c.toNat := by
    simp only [ch, UInt8.toNat_ofNat']
    omega
  rw [hn]
  exact Char.ofNat_toNat c

theorem isDigit_lt (c : Char) (h : c.isDigit = true) : c.toNat < 256 := by
  simp only [Char.isDigit, Bool.and_eq_true, decide_eq_true_eq, UInt32.le_iff_toNat_le] at h
  have h2 := h.2
  simp at h2
  exact lt_of_le_of_lt h2 (by decide)

theorem toDigits_isDigit (n : Nat) : ∀ c ∈ Nat.toDigits 10 n, c.isDigit = true :=
  fun _ hc => Nat.isDigit_of_mem_toDigits (by omega) (by omega) hc

theorem decimal_chars (n : Nat) :
    (decimal n).map (fun b => Char.ofNat b.toNat) = Nat.toDigits 10 n := by
  rw [decimal, List.map_map]
  conv_rhs => rw [← List.map_id (Nat.toDigits 10 n)]
  apply List.map_congr_left
  intro c hc
  exact ofNat_ch c (isDigit_lt c (toDigits_isDigit n c hc))

theorem decimal_injective (m n : Nat) (h : decimal m = decimal n) : m = n := by
  have hd : Nat.toDigits 10 m = Nat.toDigits 10 n := by rw [← decimal_chars, h, decimal_chars]
  rw [← Nat.ofDigitChars_ten_toDigits (n := m), hd, Nat.ofDigitChars_ten_toDigits]

theorem decimal_range (n : Nat) : ∀ b ∈ decimal n, 48 ≤ b.toNat ∧ b.toNat ≤ 57 := by
  intro b hb
  simp only [decimal, List.mem_map] at hb
  obtain ⟨c, hc, rfl⟩ := hb
  have h := toDigits_isDigit n c hc
  simp only [Char.isDigit, Bool.and_eq_true, decide_eq_true_eq, UInt32.le_iff_toNat_le] at h
  obtain ⟨h1, h2⟩ := h
  simp at h1 h2
  have hv : c.val.toNat = c.toNat := rfl
  simp only [ch, UInt8.toNat_ofNat']
  omega

theorem decimal_not_mem (n : Nat) (b : UInt8) (h : b.toNat < 48 ∨ 57 < b.toNat) :
    b ∉ decimal n := by
  intro hb
  have := decimal_range n b hb
  omega

theorem decimal_ne_nil (n : Nat) : decimal n ≠ [] := by
  simp [decimal, Nat.toDigits_ne_nil]

theorem decimalInt_not_mem (i : Int) (b : UInt8) (h : 57 < b.toNat) : b ∉ decimalInt i := by
  have hd := decimal_not_mem i.natAbs b (Or.inr h)
  unfold decimalInt
  split
  · rw [List.mem_cons, not_or]
    refine ⟨?_, hd⟩
    rintro rfl
    exact absurd h (by decide)
  · exact hd

theorem decimal_ne_minus (n : Nat) (t : Bytes) : decimal n ≠ ch '-' :: t := by
  intro h
  exact decimal_not_mem n (ch '-') (Or.inl (by decide)) (by rw [h]; exact List.mem_cons_self)

theorem decimalInt_injective (i j : Int) (h : decimalInt i = decimalInt j) : i = j := by
  unfold decimalInt at h
  split at h <;> split at h
  · rw [List.cons.injEq] at h
    have := decimal_injective _ _ h.2
    omega
  · exact absurd h.symm (decimal_ne_minus _ _)
  · exact absurd h (decimal_ne_minus _ _)
  · have := decimal_injective _ _ h
    omega

/-! ## Joining and splitting -/

/-- All strings of the list, with `sep` between two neighbours. -/
def join (sep : UInt8) (xs : List Bytes) : Bytes := [sep].intercalate xs

@[simp] theorem join_singleton (sep : UInt8) (x : Bytes) : join sep [x] = x := by simp [join]

@[simp] theorem join_cons_cons (sep : UInt8) (x y : Bytes) (ys : List Bytes) :
    join sep (x :: y :: ys) = x ++ sep :: join sep (y :: ys) := by
  simp [join, List.intercalate]

theorem splitOn_join (sep : UInt8) (xs : List Bytes) (h : ∀ x ∈ xs, sep ∉ x) (hx : xs ≠ []) :
    (join sep xs).splitOn sep = xs := List.splitOn_intercalate sep h hx

theorem join_splitOn (sep : UInt8) (s : Bytes) : join sep (s.splitOn sep) = s :=
  List.intercalate_splitOn sep

theorem mem_join (sep b : UInt8) (xs : List Bytes) (h : b ∈ join sep xs) :
    b = sep ∨ ∃ x ∈ xs, b ∈ x := by
  induction xs with
  | nil => cases h
  | cons x ys ih =>
    cases ys with
    | nil =>
      rw [join_singleton] at h
      exact Or.inr ⟨x, List.mem_cons_self, h⟩
    | cons y zs =>
      rw [join_cons_cons, List.mem_append, List.mem_cons] at h
      rcases h with h | h | h
      · exact Or.inr ⟨x, List.mem_cons_self, h⟩
      · exact Or.inl h
      · rcases ih h with h | ⟨z, hz, hb⟩
        · exact Or.inl h
        · exact Or.inr ⟨z, List.mem_cons_of_mem _ hz, hb⟩

theorem join_injective (sep : UInt8) (xs ys : List Bytes) (hxs : ∀ x ∈ xs, sep ∉ x)
    (hys : ∀ y ∈ ys, sep ∉ y) (hx : xs ≠ []) (hy : ys ≠ []) (h : join sep xs = join sep ys) :
    xs = ys := by
  have h1 := splitOn_join sep xs hxs hx
  have h2 := splitOn_join sep ys hys hy
  rw [← h1, h, h2]

theorem count_join (sep : UInt8) (xs : List Bytes) (hx : xs ≠ []) :
    (join sep xs).count sep + 1 = xs.length + (xs.map (List.count sep)).sum := by
  induction xs with
  | nil => exact absurd rfl hx
  | cons x ys ih =>
    cases ys with
    | nil => simp; omega
    | cons y zs =>
      have := ih (by simp)
      simp only [join_cons_cons, List.count_append, List.count_cons_self, List.length_cons,
        List.map_cons, List.sum_cons] at this ⊢
      omega

theorem free_of_count (sep : UInt8) (xs : List Bytes) (hx : xs ≠ [])
    (h : (join sep xs).count sep + 1 = xs.length) : ∀ x ∈ xs, sep ∉ x := by
  have hs := count_join sep xs hx
  intro x hm hin
  have h0 := List.sum_eq_zero_iff_forall_eq_nat.mp (by omega : (xs.map (List.count sep)).sum = 0)
    (x.count sep) (List.mem_map_of_mem hm)
  exact absurd (List.count_pos_iff.mpr hin) (by omega)

theorem count_of_free (sep : UInt8) (xs : List Bytes) (hx : xs ≠ []) (h : ∀ x ∈ xs, sep ∉ x) :
    (join sep xs).count sep + 1 = xs.length := by
  have h0 : (xs.map (List.count sep)).sum = 0 := by
    rw [List.sum_eq_zero_iff_forall_eq_nat]
    intro n hn
    obtain ⟨x, hm, rfl⟩ := List.mem_map.mp hn
    exact List.count_eq_zero.mpr (h x hm)
  have := count_join sep xs hx
  omega

theorem join_reads_back (sep : UInt8) (xs ys : List Bytes) (hx : xs ≠ [])
    (hlen : xs.length = ys.length) (hxs : ∀ x ∈ xs, sep ∉ x) (h : join sep ys = join sep xs) :
    ys = xs := by
  have hy : ys ≠ [] := by
    intro h0
    rw [h0] at hlen
    exact hx (List.eq_nil_of_length_eq_zero hlen)
  have hc := count_of_free sep xs hx hxs
  have hys : ∀ y ∈ ys, sep ∉ y := free_of_count sep ys hy (by rw [h, hc, hlen])
  exact join_injective sep ys xs hys hxs hy hx h

theorem mem_splitOn (sep : UInt8) (s : Bytes) : ∀ x ∈ s.splitOn sep, ∀ b ∈ x, b ∈ s ∧ b ≠ sep := by
  induction s with
  | nil => simp
  | cons a rest ih =>
    rw [List.splitOn_cons_eq_if_modifyHead]
    split
    · intro x hx b hb
      rcases List.mem_cons.mp hx with rfl | hx
      · cases hb
      · obtain ⟨hin, hne⟩ := ih x hx b hb
        exact ⟨List.mem_cons_of_mem _ hin, hne⟩
    · rename_i hsep
      cases hparts : rest.splitOn sep with
      | nil => exact absurd hparts (List.splitOn_ne_nil _ _)
      | cons first more =>
        rw [hparts] at ih
        intro x hx b hb
        rw [List.modifyHead_cons, List.mem_cons] at hx
        rcases hx with rfl | hx
        · rcases List.mem_cons.mp hb with rfl | hb
          · exact ⟨List.mem_cons_self, by simpa using hsep⟩
          · obtain ⟨hin, hne⟩ := ih first List.mem_cons_self b hb
            exact ⟨List.mem_cons_of_mem _ hin, hne⟩
        · obtain ⟨hin, hne⟩ := ih x (List.mem_cons_of_mem _ hx) b hb
          exact ⟨List.mem_cons_of_mem _ hin, hne⟩

/-! ## Texts without a null byte -/

theorem takeWhile_text (p : Bytes) (h : 0 ∉ p) : p.takeWhile (· ≠ 0) = p := by
  apply List.takeWhile_eq_self_iff.mpr
  intro b hb
  simp only [decide_eq_true_eq]
  rintro rfl
  exact h hb

theorem not_mem_slash (p q : Bytes) (hp : 0 ∉ p) (hq : 0 ∉ q) : 0 ∉ p ++ ch '/' :: q := by
  simp only [List.mem_append, List.mem_cons, not_or]
  exact ⟨hp, by decide, hq⟩

/-! ## Cutting at a byte -/

/-- What stands before and after the first `c`: `find` with two `substr`. -/
def cut (c : UInt8) : Bytes → Option (Bytes × Bytes)
  | [] => none
  | b :: rest =>
    if b = c then some ([], rest)
    else (cut c rest).map fun r => (b :: r.1, r.2)

/-- What stands before and after the last `c`: `rfind` with two `substr`. -/
def cutLast (c : UInt8) (s : Bytes) : Option (Bytes × Bytes) :=
  (cut c s.reverse).map fun r => (r.2.reverse, r.1.reverse)

theorem cut_of_not_mem (c : UInt8) (s : Bytes) (h : c ∉ s) : cut c s = none := by
  induction s with
  | nil => rfl
  | cons b rest ih =>
    rw [List.mem_cons, not_or] at h
    rw [cut, if_neg (Ne.symm h.1), ih h.2]
    rfl

theorem not_mem_of_cut (c : UInt8) (s : Bytes) (h : cut c s = none) : c ∉ s := by
  induction s with
  | nil => exact List.not_mem_nil
  | cons b rest ih =>
    rw [cut] at h
    split at h
    · cases h
    · rename_i hb
      rw [List.mem_cons, not_or]
      exact ⟨Ne.symm hb, ih (Option.map_eq_none_iff.mp h)⟩

theorem cut_skip (c : UInt8) (x y : Bytes) (h : c ∉ x) :
    cut c (x ++ y) = (cut c y).map fun r => (x ++ r.1, r.2) := by
  induction x with
  | nil => simp
  | cons b rest ih =>
    rw [List.mem_cons, not_or] at h
    rw [List.cons_append, cut, if_neg (Ne.symm h.1), ih h.2, Option.map_map]
    rfl

theorem cut_append (c : UInt8) (x y : Bytes) (h : c ∉ x) : cut c (x ++ c :: y) = some (x, y) := by
  rw [cut_skip c x _ h, cut, if_pos rfl]
  simp

theorem append_cons_inj {c : UInt8} {x x' y y' : Bytes} (hx : c ∉ x) (hx' : c ∉ x')
    (h : x ++ c :: y = x' ++ c :: y') : x = x' ∧ y = y' := by
  have hcut := congrArg (cut c) h
  rw [cut_append c x y hx, cut_append c x' y' hx', Option.some.injEq, Prod.mk.injEq] at hcut
  exact hcut

theorem cutLast_of_not_mem (c : UInt8) (s : Bytes) (h : c ∉ s) : cutLast c s = none := by
  rw [cutLast, cut_of_not_mem c _ (by simpa using h)]
  rfl

theorem cutLast_append (c : UInt8) (x y : Bytes) (h : c ∉ y) :
    cutLast c (x ++ c :: y) = some (x, y) := by
  have hr : (x ++ c :: y).reverse = y.reverse ++ c :: x.reverse := by simp
  rw [cutLast, hr, cut_append c _ _ (by simpa using h)]
  simp

theorem cut_some (c : UInt8) (s x y : Bytes) (h : cut c s = some (x, y)) : s = x ++ c :: y := by
  induction s generalizing x with
  | nil => cases h
  | cons b rest ih =>
    rw [cut] at h
    split at h
    · rename_i hb
      simp only [Option.some.injEq, Prod.mk.injEq] at h
      rw [← h.1, ← h.2, hb, List.nil_append]
    · obtain ⟨⟨x', y'⟩, hr, heq⟩ := Option.map_eq_some_iff.mp h
      simp only [Prod.mk.injEq] at heq
      rw [ih x' (by rw [hr, heq.2]), ← heq.1, List.cons_append]

theorem cut_fst_not_mem (c : UInt8) (s x y : Bytes) (h : cut c s = some (x, y)) : c ∉ x := by
  induction s generalizing x with
  | nil => cases h
  | cons b rest ih =>
    rw [cut] at h
    split at h
    · simp only [Option.some.injEq, Prod.mk.injEq] at h
      rw [← h.1]
      exact List.not_mem_nil
    · rename_i hb
      obtain ⟨⟨x', y'⟩, hr, heq⟩ := Option.map_eq_some_iff.mp h
      simp only [Prod.mk.injEq] at heq
      rw [← heq.1, List.mem_cons, not_or]
      exact ⟨Ne.symm hb, ih x' (by rw [hr, heq.2])⟩

theorem cutLast_some (c : UInt8) (s x y : Bytes) (h : cutLast c s = some (x, y)) :
    s = x ++ c :: y := by
  obtain ⟨⟨a, b⟩, hcut, heq⟩ := Option.map_eq_some_iff.mp h
  simp only [Prod.mk.injEq] at heq
  have hs := congrArg List.reverse (cut_some c s.reverse a b hcut)
  rw [List.reverse_reverse] at hs
  rw [hs, ← heq.1, ← heq.2]
  simp

end Bytes

end Euxis
