import Euxis.Attest.Code
import Euxis.Sextets
import Mathlib.Data.List.TakeWhile

/-!
# Base64 in terms of sextets
-/

namespace Euxis.Attest

open Sextets

def symbol (v : Nat) : UInt8 := kBase64Alphabet.getD v 0

def isSymbol (c : UInt8) : Bool := 0 ≤ kBase64Lookup c

def valueOf (c : UInt8) : Nat := (kBase64Lookup c).toNat

/-! ## The alphabet -/

theorem foldl_set_length (place : Nat → Nat) (l : List Nat) (table : List Int) :
    (l.foldl (fun table i => table.set (place i) (i : Int)) table).length = table.length := by
  induction l generalizing table with
  | nil => rfl
  | cons i l ih => rw [List.foldl_cons, ih, List.length_set]

theorem foldl_set_getD (place : Nat → Nat) (n : Nat) (table : List Int) (k : Nat)
    (hk : k < table.length) :
    ((List.range n).foldl (fun table i => table.set (place i) (i : Int)) table).getD k (-1) =
      (((List.range n).reverse.find? fun i => place i = k).map Int.ofNat).getD
        (table.getD k (-1)) := by
  induction n with
  | zero => rfl
  | succ n ih =>
    rw [List.range_succ, List.foldl_append, List.foldl_cons, List.foldl_nil, List.reverse_append,
      List.reverse_singleton, List.singleton_append, List.find?_cons, List.getD_eq_getElem?_getD,
      List.getElem?_set,
      foldl_set_length]
    by_cases hplace : place n = k
    · simp [hplace, hk]
    · simp only [hplace, if_false, decide_false]
      rw [← List.getD_eq_getElem?_getD]
      exact ih

theorem kBase64Alphabet_toNat :
    kBase64Alphabet.map (·.toNat) = List.range' 65 26 ++ List.range' 97 26 ++ List.range' 48 10 ++
      [43, 47] := by
  decide

theorem kBase64Alphabet_length : kBase64Alphabet.length = 64 := by
  have h := congrArg List.length kBase64Alphabet_toNat
  rwa [List.length_map] at h

theorem kBase64Alphabet_nodup : kBase64Alphabet.Nodup := by
  apply List.Nodup.of_map (·.toNat)
  rw [kBase64Alphabet_toNat]
  decide

theorem symbol_getElem (v : Nat) (h : v < kBase64Alphabet.length) :
    symbol v = kBase64Alphabet[v] := by
  unfold symbol
  rw [List.getD_eq_getElem?_getD, List.getElem?_eq_getElem h, Option.getD_some]

theorem symbol_mem (v : Nat) (h : v < 64) : symbol v ∈ kBase64Alphabet := by
  rw [← kBase64Alphabet_length] at h
  rw [symbol_getElem v h]
  exact List.getElem_mem h

theorem symbol_injective (v w : Nat) (hv : v < 64) (hw : w < 64) (h : symbol v = symbol w) :
    v = w := by
  rw [← kBase64Alphabet_length] at hv hw
  rw [symbol_getElem v hv, symbol_getElem w hw] at h
  exact kBase64Alphabet_nodup.getElem_inj_iff.mp h

theorem exists_symbol (c : UInt8) (h : c ∈ kBase64Alphabet) : ∃ v < 64, symbol v = c := by
  obtain ⟨v, hv, hsym⟩ := List.getElem_of_mem h
  refine ⟨v, by rw [← kBase64Alphabet_length]; exact hv, ?_⟩
  rw [symbol_getElem v hv, hsym]

theorem lookup_eq (c : UInt8) :
    kBase64Lookup c =
      (((List.range 64).reverse.find? fun i => (symbol i).toNat = c.toNat).map Int.ofNat).getD
        (-1) := by
  have hlen : c.toNat < (List.replicate 256 (-1 : Int)).length := by
    rw [List.length_replicate]
    exact c.toNat_lt
  have hnone : (List.replicate 256 (-1 : Int)).getD c.toNat (-1) = -1 := by
    rw [List.getD_eq_getElem?_getD, List.getElem?_eq_getElem hlen, List.getElem_replicate,
      Option.getD_some]
  have h := foldl_set_getD (fun i => (symbol i).toNat) 64 (List.replicate 256 (-1)) c.toNat hlen
  rw [hnone] at h
  unfold kBase64Lookup base64IndexTable
  rw [kBase64Alphabet_length]
  exact h

theorem lookup_cases (c : UInt8) :
    (∃ v < 64, symbol v = c ∧ kBase64Lookup c = v) ∨
      (c ∉ kBase64Alphabet ∧ kBase64Lookup c = -1) := by
  rw [lookup_eq]
  cases hfind : (List.range 64).reverse.find? fun i => (symbol i).toNat = c.toNat with
  | some v =>
    have hv := List.mem_of_find?_eq_some hfind
    have hsym := List.find?_some hfind
    rw [List.mem_reverse, List.mem_range] at hv
    rw [decide_eq_true_eq] at hsym
    exact Or.inl ⟨v, hv, UInt8.toNat_inj.mp hsym, rfl⟩
  | none =>
    refine Or.inr ⟨?_, rfl⟩
    intro hc
    obtain ⟨v, hv, hsym⟩ := exists_symbol c hc
    rw [List.find?_eq_none] at hfind
    apply hfind v (List.mem_reverse.mpr (List.mem_range.mpr hv))
    rw [hsym]
    simp

theorem symbol_table (v : Nat) (h : v < 64) :
    isSymbol (symbol v) = true ∧ valueOf (symbol v) = v := by
  rcases lookup_cases (symbol v) with ⟨w, hw, heq, hlookup⟩ | ⟨hnot, -⟩
  · have hvw := symbol_injective w v hw h heq
    unfold isSymbol valueOf
    rw [hlookup]
    simp [hvw]
  · exact absurd (symbol_mem v h) hnot

theorem isSymbol_iff (c : UInt8) : isSymbol c = true ↔ c ∈ kBase64Alphabet := by
  rcases lookup_cases c with ⟨v, hv, rfl, hlookup⟩ | ⟨hnot, hlookup⟩
  · simp [isSymbol, hlookup, symbol_mem v hv]
  · simp [isSymbol, hlookup, hnot]

theorem stops_not_symbol (c : UInt8) (h : stopsDecoding c = true) : c ∉ kBase64Alphabet := by
  intro hc
  have hmem := List.mem_map_of_mem (f := (·.toNat)) hc
  rw [kBase64Alphabet_toNat] at hmem
  simp only [stopsDecoding, decide_eq_true_eq] at h
  rcases h with rfl | rfl | rfl | rfl <;> exact absurd hmem (by decide)

theorem isSymbol_spec (c : UInt8) (h : isSymbol c = true) :
    valueOf c < 64 ∧ symbol (valueOf c) = c ∧ stopsDecoding c = false := by
  have hmem := (isSymbol_iff c).mp h
  have hstop : stopsDecoding c = false := by
    by_contra hstop
    exact stops_not_symbol c (by simpa using hstop) hmem
  rcases lookup_cases c with ⟨v, hv, rfl, -⟩ | ⟨hnot, -⟩
  · have hvalue : valueOf (symbol v) = v := (symbol_table v hv).2
    rw [hvalue]
    exact ⟨hv, rfl, hstop⟩
  · exact absurd hmem hnot

theorem symbolAt_eq (v shift : UInt32) (h : shift.toNat < 32) :
    symbolAt v shift = symbol (v.toNat / 2 ^ shift.toNat % 64) := by
  have hand := Nat.and_two_pow_sub_one_eq_mod (v.toNat / 2 ^ shift.toNat) 6
  unfold symbolAt symbol
  rw [UInt32.toNat_and, UInt32.toNat_shiftRight, Nat.mod_eq_of_lt h, Nat.shiftRight_eq_div_pow]
  rw [← hand]
  rfl

attribute [irreducible] symbol

/-! ## The encoder -/

theorem or_toNat (a b : UInt32) (k : Nat) (ha : 2 ^ k ∣ a.toNat) (hb : b.toNat < 2 ^ k) :
    (a ||| b).toNat = a.toNat + b.toNat := by
  obtain ⟨q, hq⟩ := ha
  rw [UInt32.toNat_or, hq, Nat.two_pow_add_eq_or_of_lt hb]

theorem shiftLeft_toNat (a shift : UInt32) (k : Nat) (hk : shift.toNat = k) (h : k < 32) :
    (a <<< shift).toNat = a.toNat * 2 ^ k % 2 ^ 32 := by
  rw [UInt32.toNat_shiftLeft, hk, Nat.mod_eq_of_lt h, Nat.shiftLeft_eq]

theorem groupBits_toNat (x y z : UInt8) :
    ((x.toUInt32 <<< 16) ||| (y.toUInt32 <<< 8) ||| z.toUInt32).toNat = x.toNat * 65536 + y.toNat *
      256 + z.toNat := by
  have hx := x.toNat_lt
  have hy := y.toNat_lt
  have hz := z.toNat_lt
  have hx' : (x.toUInt32 <<< 16).toNat = x.toNat * 65536 := by
    rw [shiftLeft_toNat _ 16 16 rfl (by omega), UInt8.toNat_toUInt32]
    omega
  have hy' : (y.toUInt32 <<< 8).toNat = y.toNat * 256 := by
    rw [shiftLeft_toNat _ 8 8 rfl (by omega), UInt8.toNat_toUInt32]
    omega
  have hxy := or_toNat (x.toUInt32 <<< 16) (y.toUInt32 <<< 8) 16 (by omega) (by omega)
  rw [or_toNat _ z.toUInt32 8 (by omega) (by rw [UInt8.toNat_toUInt32]; omega), hxy, hx', hy',
    UInt8.toNat_toUInt32]

/-- The signs that fill up the last group of four. -/
def padding (symbols : Nat) : Bytes :=
  if symbols % 4 = 2 then [ch '=', ch '='] else if symbols % 4 = 3 then [ch '='] else []

theorem symbolAt_group (x y z : UInt8) :
    let v := (x.toUInt32 <<< 16) ||| (y.toUInt32 <<< 8) ||| z.toUInt32
    symbolAt v 18 = symbol (x.toNat / 4) ∧
      symbolAt v 12 = symbol (x.toNat % 4 * 16 + y.toNat / 16) ∧
      symbolAt v 6 = symbol (y.toNat % 16 * 4 + z.toNat / 64) ∧
      symbolAt v 0 = symbol (z.toNat % 64) := by
  intro v
  have hv : v.toNat = x.toNat * 65536 + y.toNat * 256 + z.toNat := groupBits_toNat x y z
  have hx := x.toNat_lt
  have hy := y.toNat_lt
  have hz := z.toNat_lt
  refine ⟨?_, ?_, ?_, ?_⟩
  · rw [symbolAt_eq v 18 (by decide), hv]
    exact congrArg symbol (by simp; omega)
  · rw [symbolAt_eq v 12 (by decide), hv]
    exact congrArg symbol (by simp; omega)
  · rw [symbolAt_eq v 6 (by decide), hv]
    exact congrArg symbol (by simp; omega)
  · rw [symbolAt_eq v 0 (by decide), hv]
    exact congrArg symbol (by simp; omega)

theorem base64Encode_eq (data : Bytes) :
    base64Encode data = (pack data).map symbol ++ padding (pack data).length := by
  induction data using pack.induct with
  | case1 => rfl
  | case2 x =>
    obtain ⟨h1, h2, -, -⟩ := symbolAt_group x 0 0
    have hv : x.toUInt32 <<< 16 ||| (0 : UInt8).toUInt32 <<< 8 ||| (0 : UInt8).toUInt32 =
        x.toUInt32 <<< 16 := by simp
    rw [hv] at h1 h2
    rw [base64Encode, h1, h2]
    simp [pack, padding]
  | case3 x y =>
    obtain ⟨h1, h2, h3, -⟩ := symbolAt_group x y 0
    have hv : x.toUInt32 <<< 16 ||| y.toUInt32 <<< 8 ||| (0 : UInt8).toUInt32 =
        x.toUInt32 <<< 16 ||| y.toUInt32 <<< 8 := by simp
    rw [hv] at h1 h2 h3
    rw [base64Encode, h1, h2, h3]
    simp [pack, padding]
  | case4 x y z rest ih =>
    obtain ⟨h1, h2, h3, h4⟩ := symbolAt_group x y z
    have hpad : padding (pack (x :: y :: z :: rest)).length = padding (pack rest).length := by
      have hmod : ((pack rest).length + 1 + 1 + 1 + 1) % 4 = (pack rest).length % 4 := by omega
      simp only [padding, pack, List.length_cons, hmod]
    rw [hpad, base64Encode, pack, ih]
    simp only [h1, h2, h3, h4, List.map_cons, List.cons_append]

/-! ## The decoder -/

theorem push_toNat (buffer : UInt32) (v : Nat) (h : v < 64) :
    ((buffer <<< 6) ||| UInt32.ofNat v).toNat = buffer.toNat * 64 % 2 ^ 32 + v := by
  have hv : (UInt32.ofNat v).toNat = v := UInt32.toNat_ofNat_of_lt (by simp [UInt32.size]; omega)
  have hshift : (buffer <<< 6).toNat = buffer.toNat * 64 % 2 ^ 32 :=
    shiftLeft_toNat buffer 6 6 rfl (by omega)
  rw [or_toNat _ _ 6 (by omega) (by omega), hshift, hv]

theorem byteAt_eq (buffer : UInt32) (bits : Nat) (h : bits < 32) :
    ((buffer >>> UInt32.ofNat bits) &&& 0xFF).toUInt8 = UInt8.ofNat (buffer.toNat / 2 ^ bits) := by
  have hbits : (UInt32.ofNat bits).toNat = bits :=
    UInt32.toNat_ofNat_of_lt (by simp [UInt32.size]; omega)
  apply UInt8.toNat_inj.mp
  rw [UInt8.toNat_ofNat', UInt32.toNat_toUInt8, UInt32.toNat_and, UInt32.toNat_shiftRight, hbits,
    Nat.mod_eq_of_lt h, Nat.shiftRight_eq_div_pow]
  have hand := Nat.and_two_pow_sub_one_eq_mod (buffer.toNat / 2 ^ bits) 8
  show (buffer.toNat / 2 ^ bits &&& (2 ^ 8 - 1)) % 2 ^ 8 = _
  rw [hand, Nat.mod_mod]

/-- What follows the symbols lets the decoder succeed. -/
def Stops (rest : Bytes) : Prop := ∀ c ∈ rest.head?, stopsDecoding c = true

theorem ofNat_congr (m n : Nat) (h : m % 256 = n % 256) : UInt8.ofNat m = UInt8.ofNat n := by
  apply UInt8.toNat_inj.mp
  rw [UInt8.toNat_ofNat', UInt8.toNat_ofNat']
  exact h

theorem drain_push (buffer buffer' v bits : Nat) (hbits : bits = 2 ∨ bits = 4 ∨ bits = 6)
    (hpush : buffer' = buffer * 64 % 2 ^ 32 + v) (vs : List Nat) :
    drain bits (buffer % 2 ^ bits) (v :: vs) =
      UInt8.ofNat (buffer' / 2 ^ (bits - 2)) :: drain (bits - 2) (buffer' % 2 ^ (bits - 2)) vs := by
  rcases hbits with rfl | rfl | rfl
  · rw [drain_two, ofNat_congr _ (buffer' / 2 ^ (2 - 2)) (by norm_num; omega)]
    rw [show buffer' % 2 ^ (2 - 2) = 0 by norm_num; omega]
  · rw [drain_four, ofNat_congr _ (buffer' / 2 ^ (4 - 2)) (by norm_num; omega)]
    rw [show buffer' % 2 ^ (4 - 2) = (buffer % 2 ^ 4 * 64 + v) % 4 by norm_num; omega]
  · rw [drain_six, ofNat_congr _ (buffer' / 2 ^ (6 - 2)) (by norm_num; omega)]
    rw [show buffer' % 2 ^ (6 - 2) = (buffer % 2 ^ 6 * 64 + v) % 16 by norm_num; omega]

/-- The decoder takes the symbols up to the first other byte, which must be one to stop at. -/
theorem decodeLoop_spec (s : Bytes) (buffer : UInt32) (bits : Nat)
    (hbits : bits = 0 ∨ bits = 2 ∨ bits = 4 ∨ bits = 6) (out : Bytes) :
    (Stops (s.dropWhile isSymbol) → base64DecodeLoop s buffer bits out =
      .ok (out ++ drain bits (buffer.toNat % 2 ^ bits) ((s.takeWhile isSymbol).map valueOf))) ∧
    (¬ Stops (s.dropWhile isSymbol) → ∃ e, base64DecodeLoop s buffer bits out = .error e) := by
  induction s generalizing buffer bits out with
  | nil => simp [base64DecodeLoop, drain, Stops]
  | cons c rest ih =>
    rw [base64DecodeLoop]
    by_cases hsym : isSymbol c = true
    · obtain ⟨hlt, -, hstop⟩ := isSymbol_spec c hsym
      have hpos : ¬ kBase64Lookup c < 0 := by simpa [isSymbol] using hsym
      rw [hstop, List.dropWhile_cons_of_pos hsym, List.takeWhile_cons_of_pos hsym, List.map_cons]
      simp only [Bool.false_eq_true, if_false, hpos]
      unfold valueOf at hlt ⊢
      generalize (kBase64Lookup c).toNat = v at hlt
      -- The buffer may have overflowed 32 bits: only its low bits are ever read.
      have hpush := push_toNat buffer v hlt
      generalize (buffer <<< 6 ||| UInt32.ofNat v) = buffer' at hpush
      -- With no bits waiting a symbol gives no byte yet; with 2, 4 or 6 it completes one.
      by_cases hzero : bits = 0
      · subst hzero
        have hpending : buffer'.toNat % 2 ^ 6 = v := by omega
        rw [if_neg (by omega), Nat.pow_zero, Nat.mod_one, drain_zero, ← hpending]
        exact ih buffer' 6 (by omega) out
      · have hcases : bits = 2 ∨ bits = 4 ∨ bits = 6 := by omega
        have hnext : bits + 6 - 8 = bits - 2 := by omega
        have hrest := ih buffer' (bits - 2) (by omega)
          (out ++ [UInt8.ofNat (buffer'.toNat / 2 ^ (bits - 2))])
        rw [if_pos (by omega), hnext, byteAt_eq buffer' _ (by omega),
          drain_push buffer.toNat buffer'.toNat v bits hcases hpush]
        rw [List.append_assoc] at hrest
        exact hrest
    · have hneg : kBase64Lookup c < 0 := by simpa [isSymbol] using hsym
      rw [List.dropWhile_cons_of_neg hsym, List.takeWhile_cons_of_neg hsym]
      simp only [Stops, List.head?_cons, Option.mem_some_iff, forall_eq', if_pos hneg]
      cases hstop : stopsDecoding c with
      | true => simp [drain]
      | false => simp

/-! ## What is decoded -/

/-- The alphabet's symbols at the front of a text, as sextets. -/
def sextets (s : Bytes) : List Nat := (s.takeWhile isSymbol).map valueOf

/-- What follows these symbols. -/
def afterSymbols (s : Bytes) : Bytes := s.dropWhile isSymbol

theorem sextets_lt (s : Bytes) : ∀ v ∈ sextets s, v < 64 := by
  intro v hv
  obtain ⟨c, hc, rfl⟩ := List.mem_map.mp hv
  exact (isSymbol_spec c (List.mem_takeWhile_imp hc)).1

theorem map_symbol_sextets (s : Bytes) : (sextets s).map symbol = s.takeWhile isSymbol := by
  unfold sextets
  rw [List.map_map]
  conv_rhs => rw [← List.map_id (s.takeWhile isSymbol)]
  apply List.map_congr_left
  intro c hc
  rw [Function.comp_apply, (isSymbol_spec c (List.mem_takeWhile_imp hc)).2.1, id]

theorem base64Decode_ok (s : Bytes) (h : Stops (afterSymbols s)) :
    base64Decode s = .ok (unpack (sextets s)) := by
  have hloop := (decodeLoop_spec s 0 0 (Or.inl rfl) []).1 h
  rw [List.nil_append, Nat.pow_zero, Nat.mod_one] at hloop
  rw [← drain_eq (sextets s) (sextets_lt s)]
  exact hloop

theorem base64Decode_error (s : Bytes) (h : ¬ Stops (afterSymbols s)) :
    ∃ e, base64Decode s = .error e :=
  (decodeLoop_spec s 0 0 (Or.inl rfl) []).2 h

theorem padding_head (n : Nat) : ∀ c ∈ (padding n).head?, isSymbol c = false ∧
    stopsDecoding c = true := by
  have heq : isSymbol (ch '=') = false ∧ stopsDecoding (ch '=') = true := by
    refine ⟨?_, by decide⟩
    rw [← Bool.not_eq_true, isSymbol_iff]
    exact stops_not_symbol _ (by decide)
  intro c hc
  unfold padding at hc
  split_ifs at hc
  · rw [← Option.mem_some_iff.mp hc]
    exact heq
  · rw [← Option.mem_some_iff.mp hc]
    exact heq
  · cases hc

theorem span_symbols (vs : List Nat) (hvs : ∀ v ∈ vs, v < 64) (rest : Bytes)
    (hrest : ∀ c ∈ rest.head?, isSymbol c = false) :
    sextets (vs.map symbol ++ rest) = vs ∧ afterSymbols (vs.map symbol ++ rest) = rest := by
  have hsym : ∀ c ∈ vs.map symbol, isSymbol c = true := by
    intro c hc
    obtain ⟨v, hv, rfl⟩ := List.mem_map.mp hc
    exact (symbol_table v (hvs v hv)).1
  have htake : rest.takeWhile isSymbol = [] ∧ rest.dropWhile isSymbol = rest := by
    cases rest with
    | nil => exact ⟨rfl, rfl⟩
    | cons c rest =>
      have hc := hrest c rfl
      simp [hc]
  constructor
  · unfold sextets
    rw [List.takeWhile_append_of_pos hsym, htake.1, List.append_nil, List.map_map]
    conv_rhs => rw [← List.map_id vs]
    apply List.map_congr_left
    intro v hv
    rw [Function.comp_apply, (symbol_table v (hvs v hv)).2, id]
  · unfold afterSymbols
    rw [List.dropWhile_append_of_pos hsym, htake.2]

theorem base64Decode_symbols (vs : List Nat) (hvs : ∀ v ∈ vs, v < 64) (rest : Bytes)
    (hrest : ∀ c ∈ rest.head?, isSymbol c = false ∧ stopsDecoding c = true) :
    base64Decode (vs.map symbol ++ rest) = .ok (unpack vs) := by
  obtain ⟨hsextets, hafter⟩ := span_symbols vs hvs rest fun c hc => (hrest c hc).1
  rw [base64Decode_ok, hsextets]
  rw [hafter]
  exact fun c hc => (hrest c hc).2

theorem encode_symbols (data : Bytes) :
    sextets (base64Encode data) = pack data ∧
      afterSymbols (base64Encode data) = padding (pack data).length := by
  rw [base64Encode_eq]
  exact span_symbols (pack data) (pack_lt data) _ fun c hc => (padding_head _ c hc).1

theorem base64Decode_encode (data : Bytes) : base64Decode (base64Encode data) = .ok data := by
  rw [base64Encode_eq, base64Decode_symbols _ (pack_lt data) _ (padding_head _), unpack_pack]

/-! ## Strict texts -/

/-- No bits are left over, and exactly the missing padding follows the symbols. -/
def Canonical (s : Bytes) : Prop := Closed (sextets s) ∧ afterSymbols s = padding (sextets s).length

/-- Decoding inverts encoding on the texts that are rejected or canonical, and on no other. -/
theorem base64_strict_iff (s : Bytes) :
    (∀ b, base64Decode s = .ok b ↔ s = base64Encode b) ↔ ¬ Stops (afterSymbols s) ∨
      Canonical s := by
  constructor
  · intro h
    by_cases hstops : Stops (afterSymbols s)
    · right
      -- The text has to be the encoding of what it decodes to, and encodings are canonical.
      have hs := (h _).mp (base64Decode_ok s hstops)
      generalize unpack (sextets s) = data at hs
      obtain ⟨hsextets, hafter⟩ := encode_symbols data
      unfold Canonical
      rw [hs, hsextets, hafter]
      exact ⟨closed_pack data, rfl⟩
    · exact Or.inl hstops
  · rintro (hstops | ⟨hclosed, hafter⟩) b
    · obtain ⟨e, he⟩ := base64Decode_error s hstops
      rw [he]
      constructor
      · intro h
        cases h
      · rintro rfl
        rw [base64Decode_encode] at he
        cases he
    · have hstops : Stops (afterSymbols s) := by
        rw [hafter]
        exact fun c hc => (padding_head _ c hc).2
      have hs : s = base64Encode (unpack (sextets s)) := by
        rw [base64Encode_eq, pack_unpack _ (sextets_lt s) hclosed, map_symbol_sextets, ← hafter]
        exact (List.takeWhile_append_dropWhile).symm
      constructor
      · intro h
        rw [base64Decode_ok s hstops, Except.ok.injEq] at h
        rw [← h]
        exact hs
      · rintro rfl
        exact base64Decode_encode b

theorem lenient_decode :
    base64Encode (ascii "A") = ascii "QQ==" ∧ base64Decode (ascii "QQ") = .ok (ascii "A") ∧
      base64Decode (ascii "QR==") = .ok (ascii "A") ∧
      base64Decode (ascii "QQ==QUJD") = .ok (ascii "A") := by
  -- Missing padding, leftover bits and a text after the padding are all accepted.
  have hpad := padding_head 2
  have hq : symbol 16 = ch 'Q' ∧ symbol 17 = ch 'R' := by decide +kernel
  have hqq := base64Decode_symbols [16, 16] (by decide) [] nofun
  have hqr := base64Decode_symbols [16, 17] (by decide) (ascii "==") hpad
  have hlong := base64Decode_symbols [16, 16] (by decide) (ascii "==QUJD") hpad
  simp only [List.map_cons, List.map_nil, hq.1, hq.2] at hqq hqr hlong
  exact ⟨by decide, hqq, hqr, hlong⟩

end Euxis.Attest
