import Euxis.Json.Text

/-! # The reader inverts the writer -/

namespace Euxis.Json

/-! ## Strings -/

theorem nibble_hexNibble : ∀ n < 16, nibble (hexNibble n) = some n := by decide

theorem readString_short (c b : UInt8) (rest : Bytes) (hu : c ≠ ch 'u') (hc : unescape c = some b) :
    readString (92 :: c :: rest) = (readString rest).map fun p => (b :: p.1, p.2) := by
  rw [readString.eq_def]
  simp only [if_neg hu, hc]
  rfl

theorem readString_unicode (b : UInt8) (rest : Bytes) (h : b < 32) :
    readString (92 :: ch 'u' :: 48 :: 48 :: hexNibble (b.toNat / 16) :: hexNibble (b.toNat % 16) ::
      rest) = (readString rest).map fun p => (b :: p.1, p.2) := by
  have hlt : b.toNat < 32 := by simpa [UInt8.lt_iff_toNat_lt] using h
  have hhi := nibble_hexNibble (b.toNat / 16) (by omega)
  have hlo := nibble_hexNibble (b.toNat % 16) (by omega)
  have hb : UInt8.ofNat (b.toNat / 16 * 16 + b.toNat % 16) = b := by
    rw [Nat.div_add_mod']
    exact UInt8.ofNat_toNat
  rw [readString.eq_def]
  simp only [hhi, hlo]
  conv_rhs => rw [← hb]
  rfl

theorem readString_escape (b : UInt8) (rest : Bytes) :
    readString (escapeByte b ++ rest) = (readString rest).map fun p => (b :: p.1, p.2) := by
  unfold escapeByte
  split_ifs with h1 h2 h3 h4 h5 h6 h7 h8
  · subst h1; exact readString_short _ _ rest (by decide) (by decide)
  · subst h2; exact readString_short _ _ rest (by decide) (by decide)
  · subst h3; exact readString_short _ _ rest (by decide) (by decide)
  · subst h4; exact readString_short _ _ rest (by decide) (by decide)
  · subst h5; exact readString_short _ _ rest (by decide) (by decide)
  · subst h6; exact readString_short _ _ rest (by decide) (by decide)
  · subst h7; exact readString_short _ _ rest (by decide) (by decide)
  · exact readString_unicode b rest h8
  · rw [List.singleton_append, readString.eq_def]
    simp only [if_neg h1, if_neg h2, if_neg h8]

theorem readString_write (s rest : Bytes) :
    readString (s.flatMap escapeByte ++ 34 :: rest) = some (s, rest) := by
  induction s with
  | nil => rw [List.flatMap_nil, List.nil_append, readString.eq_def]; rfl
  | cons b s ih => rw [List.flatMap_cons, List.append_assoc, readString_escape, ih]; rfl

/-! ## Numbers -/

def NoDigitHead (rest : Bytes) : Prop := ∀ b t, rest = b :: t → isDigit b = false

theorem noDigitHead_cons (b : UInt8) (t : Bytes) (h : isDigit b = false) :
    NoDigitHead (b :: t) := by
  intro b' t' heq
  rw [List.cons.injEq] at heq
  rw [← heq.1]
  exact h

theorem isDigit_decimal (n : Nat) : ∀ b ∈ Bytes.decimal n, isDigit b = true := by
  intro b hb
  have := Bytes.decimal_range n b hb
  simp only [isDigit, Bool.and_eq_true, decide_eq_true_eq, UInt8.le_iff_toNat_le]
  exact this

theorem takeWhile_digits (ds rest : Bytes) (hds : ∀ b ∈ ds, isDigit b = true)
    (hrest : NoDigitHead rest) :
    (ds ++ rest).takeWhile isDigit = ds ∧ (ds ++ rest).dropWhile isDigit = rest := by
  rw [List.takeWhile_append_of_pos hds, List.dropWhile_append_of_pos hds]
  cases rest with
  | nil => simp
  | cons b t => simp [hrest b t rfl]

theorem readNat_decimal (n : Nat) (rest : Bytes) (hrest : NoDigitHead rest) :
    readNat (Bytes.decimal n ++ rest) = some (n, rest) := by
  obtain ⟨htake, hdrop⟩ := takeWhile_digits _ rest (isDigit_decimal n) hrest
  unfold readNat
  rw [htake, hdrop]
  split
  · rename_i h
    exact absurd h (Bytes.decimal_ne_nil n)
  · rw [Bytes.decimal_chars, Nat.ofDigitChars_ten_toDigits]

theorem readInt_decimalInt (i : Int) (rest : Bytes) (hrest : NoDigitHead rest) :
    readInt (Bytes.decimalInt i ++ rest) = some (i, rest) := by
  unfold Bytes.decimalInt
  split
  · change readInt (45 :: (Bytes.decimal i.natAbs ++ rest)) = _
    simp only [readInt, readNat_decimal _ rest hrest, Option.map_some, Option.some.injEq,
      Prod.mk.injEq, and_true]
    omega
  · unfold readInt
    split
    · rename_i heq
      have hne := Bytes.decimal_ne_nil i.natAbs
      obtain ⟨d, ds, hd⟩ := List.exists_cons_of_ne_nil hne
      rw [hd, List.cons_append, List.cons.injEq] at heq
      exact absurd (hd.trans (by rw [heq.1]; rfl)) (Bytes.decimal_ne_minus _ ds)
    · simp only [readNat_decimal _ rest hrest, Option.map_some, Option.some.injEq,
        Prod.mk.injEq, and_true]
      omega

/-! ## Values -/

mutual

def plain : Json → Bool
  | float _ => false
  | arr items => plainItems items
  | obj members => plainMembers members
  | _ => true

def plainItems : List Json → Bool
  | [] => true
  | j :: js => plain j && plainItems js

def plainMembers : List (Bytes × Json) → Bool
  | [] => true
  | m :: ms => plainMember m && plainMembers ms

def plainMember : Bytes × Json → Bool
  | (_, j) => plain j

end

theorem decimalInt_head (i : Int) : ∃ d t, Bytes.decimalInt i = d :: t ∧
    (d = 45 ∨ isDigit d = true) := by
  unfold Bytes.decimalInt
  split
  · exact ⟨45, _, rfl, Or.inl rfl⟩
  · obtain ⟨d, ds, hd⟩ := List.exists_cons_of_ne_nil (Bytes.decimal_ne_nil i.natAbs)
    exact ⟨d, ds, hd, Or.inr (isDigit_decimal i.natAbs d (by rw [hd]; exact List.mem_cons_self))⟩

theorem number_head (d : UInt8) (h : d = 45 ∨ isDigit d = true) :
    d ≠ 34 ∧ d ≠ ch '[' ∧ d ≠ ch '{' ∧ d ≠ ch 'n' ∧ d ≠ ch 't' ∧ d ≠ ch 'f' ∧ d ≠ ch ']' := by
  rcases h with rfl | h
  · decide
  · refine ⟨?_, ?_, ?_, ?_, ?_, ?_, ?_⟩ <;> (rintro rfl; exact absurd h (by decide))

theorem write_head (j : Json) (hj : plain j = true) : ∃ c t, write j = c :: t ∧ c ≠ ch ']' := by
  cases j with
  | null => exact ⟨_, _, rfl, by decide⟩
  | bool b => cases b <;> exact ⟨_, _, rfl, by decide⟩
  | int i =>
    obtain ⟨d, t, hd, h⟩ := decimalInt_head i
    exact ⟨d, t, by simp only [write, hd], (number_head d h).2.2.2.2.2.2⟩
  | float text => simp [plain] at hj
  | str s => exact ⟨34, _, rfl, by decide⟩
  | arr items => exact ⟨ch '[', _, by rw [write], by decide⟩
  | obj members => exact ⟨ch '{', _, by rw [write], by decide⟩

theorem write_length_pos (j : Json) (hj : plain j = true) : 0 < (write j).length := by
  obtain ⟨c, t, h, _⟩ := write_head j hj
  rw [h]
  exact Nat.succ_pos _

theorem writeMember_length_pos (m : Bytes × Json) : 0 < (writeMember m).length := by
  obtain ⟨key, j⟩ := m
  simp [writeMember, writeString]

theorem writeMoreItems_length_pos (js : List Json) : 0 < (writeMoreItems js).length := by
  cases js <;> simp [writeMoreItems]

theorem writeMoreMembers_length_pos (ms : List (Bytes × Json)) :
    0 < (writeMoreMembers ms).length := by
  cases ms <;> simp [writeMoreMembers]

theorem noDigitHead_moreItems (js : List Json) (rest : Bytes) :
    NoDigitHead (writeMoreItems js ++ rest) := by
  cases js <;> simp only [writeMoreItems, List.cons_append]
    <;> exact noDigitHead_cons _ _ (by decide)

theorem noDigitHead_moreMembers (ms : List (Bytes × Json)) (rest : Bytes) :
    NoDigitHead (writeMoreMembers ms ++ rest) := by
  cases ms <;> simp only [writeMoreMembers, List.cons_append]
    <;> exact noDigitHead_cons _ _ (by decide)

@[simp] theorem expect_self (b : UInt8) (t : Bytes) : expect b (b :: t) = some t := by simp [expect]

theorem expect_ne (b c : UInt8) (t : Bytes) (h : c ≠ b) :
    expect b (c :: t) = none := by simp [expect, h]

theorem readValue_int (i : Int) (fuel : Nat) (rest : Bytes) (hrest : NoDigitHead rest) :
    readValue (fuel + 1) (write (int i) ++ rest) = some (int i, rest) := by
  obtain ⟨d, t, hd, h⟩ := decimalInt_head i
  obtain ⟨h1, h2, h3, h4, h5, h6, _⟩ := number_head d h
  have hr := readInt_decimalInt i rest hrest
  simp only [write]
  rw [hd, List.cons_append] at hr ⊢
  rw [readValue, if_neg h1, if_neg h2, if_neg h3, if_neg h4, if_neg h5, if_neg h6, hr]
  rfl

-- By induction on the value, with one case for each way it is nested. The fuel is twice the text.
mutual

theorem readValue_write (j : Json) (hj : plain j = true) (fuel : Nat) (rest : Bytes)
    (hf : 2 * (write j).length ≤ fuel) (hrest : NoDigitHead rest) :
    readValue fuel (write j ++ rest) = some (j, rest) := by
  have hpos := write_length_pos j hj
  -- Twice the length is enough fuel: each level of nesting costs two steps and writes two brackets.
  obtain ⟨n, rfl⟩ : ∃ n, fuel = n + 1 := ⟨fuel - 1, by omega⟩
  match j with
  | null => rfl
  | bool true => rfl
  | bool false => rfl
  | int i => exact readValue_int i n rest hrest
  | float text => simp [plain] at hj
  | str s =>
    simp only [write, writeString, List.cons_append, List.append_assoc, List.nil_append]
    rw [readValue, if_pos rfl, readString_write]
    rfl
  | arr items =>
    simp only [write, List.length_cons] at hf
    simp only [write, List.cons_append]
    rw [readValue, if_neg (by decide), if_pos rfl,
      readItems_write items (by simpa [plain] using hj) n rest (by omega)]
    rfl
  | obj members =>
    simp only [write, List.length_cons] at hf
    simp only [write, List.cons_append]
    rw [readValue, if_neg (by decide), if_neg (by decide), if_pos rfl,
      readMembers_write members (by simpa [plain] using hj) n rest (by omega)]
    rfl

theorem readItems_write (items : List Json) (hi : plainItems items = true) (fuel : Nat)
    (rest : Bytes) (hf : 2 * (writeItems items).length ≤ fuel) :
    readItems fuel (writeItems items ++ rest) = some (items, rest) := by
  match items with
  | [] =>
    obtain ⟨n, rfl⟩ : ∃ n, fuel = n + 1 := ⟨fuel - 1, by simp [writeItems] at hf; omega⟩
    simp [writeItems, readItems]
  | j :: js =>
    simp only [plainItems, Bool.and_eq_true] at hi
    simp only [writeItems, List.length_append] at hf
    have hmore := writeMoreItems_length_pos js
    have hpos := write_length_pos j hi.1
    obtain ⟨n, rfl⟩ : ∃ n, fuel = n + 1 := ⟨fuel - 1, by omega⟩
    obtain ⟨c, t, hc, hne⟩ := write_head j hi.1
    have hex : expect (ch ']') (write j ++ (writeMoreItems js ++ rest)) = none := by
      rw [hc, List.cons_append]
      exact expect_ne _ _ _ hne
    simp only [writeItems, List.append_assoc]
    rw [readItems, hex]
    simp only
    rw [readValue_write j hi.1 n _ (by omega) (noDigitHead_moreItems js rest)]
    simp only [Option.bind_eq_bind, Option.bind_some]
    rw [readMoreItems_write js hi.2 n rest (by omega)]
    rfl

theorem readMoreItems_write (js : List Json) (hi : plainItems js = true) (fuel : Nat) (rest : Bytes)
    (hf : 2 * (writeMoreItems js).length ≤ fuel) :
    readMoreItems fuel (writeMoreItems js ++ rest) = some (js, rest) := by
  match js with
  | [] =>
    obtain ⟨n, rfl⟩ : ∃ n, fuel = n + 1 := ⟨fuel - 1, by simp [writeMoreItems] at hf; omega⟩
    simp [writeMoreItems, readMoreItems]
  | j :: js =>
    simp only [plainItems, Bool.and_eq_true] at hi
    simp only [writeMoreItems, List.length_cons, List.length_append] at hf
    have hmore := writeMoreItems_length_pos js
    obtain ⟨n, rfl⟩ : ∃ n, fuel = n + 1 := ⟨fuel - 1, by omega⟩
    simp only [writeMoreItems, List.cons_append, List.append_assoc]
    rw [readMoreItems, expect_ne _ _ _ (by decide)]
    simp only [expect_self, Option.bind_eq_bind, Option.bind_some]
    rw [readValue_write j hi.1 n _ (by omega) (noDigitHead_moreItems js rest)]
    simp only [Option.bind_some]
    rw [readMoreItems_write js hi.2 n rest (by omega)]
    rfl

theorem readMembers_write (ms : List (Bytes × Json)) (hm : plainMembers ms = true) (fuel : Nat)
    (rest : Bytes) (hf : 2 * (writeMembers ms).length ≤ fuel) :
    readMembers fuel (writeMembers ms ++ rest) = some (ms, rest) := by
  match ms with
  | [] =>
    obtain ⟨n, rfl⟩ : ∃ n, fuel = n + 1 := ⟨fuel - 1, by simp [writeMembers] at hf; omega⟩
    simp [writeMembers, readMembers]
  | m :: ms =>
    simp only [plainMembers, Bool.and_eq_true] at hm
    simp only [writeMembers, List.length_append] at hf
    have hpos := writeMember_length_pos m
    have hmore := writeMoreMembers_length_pos ms
    obtain ⟨n, rfl⟩ : ∃ n, fuel = n + 1 := ⟨fuel - 1, by omega⟩
    have hex : expect (ch '}') (writeMember m ++ (writeMoreMembers ms ++ rest)) = none := by
      obtain ⟨key, j⟩ := m
      simp only [writeMember, writeString, List.cons_append]
      exact expect_ne _ _ _ (by decide)
    simp only [writeMembers, List.append_assoc]
    rw [readMembers, hex]
    simp only
    rw [readMember_write m hm.1 n _ (by omega) (noDigitHead_moreMembers ms rest)]
    simp only [Option.bind_eq_bind, Option.bind_some]
    rw [readMoreMembers_write ms hm.2 n rest (by omega)]
    rfl

theorem readMoreMembers_write (ms : List (Bytes × Json)) (hm : plainMembers ms = true) (fuel : Nat)
    (rest : Bytes) (hf : 2 * (writeMoreMembers ms).length ≤ fuel) :
    readMoreMembers fuel (writeMoreMembers ms ++ rest) = some (ms, rest) := by
  match ms with
  | [] =>
    obtain ⟨n, rfl⟩ : ∃ n, fuel = n + 1 := ⟨fuel - 1, by simp [writeMoreMembers] at hf; omega⟩
    simp [writeMoreMembers, readMoreMembers]
  | m :: ms =>
    simp only [plainMembers, Bool.and_eq_true] at hm
    simp only [writeMoreMembers, List.length_cons, List.length_append] at hf
    have hmore := writeMoreMembers_length_pos ms
    obtain ⟨n, rfl⟩ : ∃ n, fuel = n + 1 := ⟨fuel - 1, by omega⟩
    simp only [writeMoreMembers, List.cons_append, List.append_assoc]
    rw [readMoreMembers, expect_ne _ _ _ (by decide)]
    simp only [expect_self, Option.bind_eq_bind, Option.bind_some]
    rw [readMember_write m hm.1 n _ (by omega) (noDigitHead_moreMembers ms rest)]
    simp only [Option.bind_some]
    rw [readMoreMembers_write ms hm.2 n rest (by omega)]
    rfl

theorem readMember_write (m : Bytes × Json) (hm : plainMember m = true) (fuel : Nat) (rest : Bytes)
    (hf : 2 * (writeMember m).length ≤ fuel) (hrest : NoDigitHead rest) :
    readMember fuel (writeMember m ++ rest) = some (m, rest) := by
  match m with
  | (key, j) =>
    simp only [writeMember, writeString, List.length_cons, List.length_append, List.length_nil]
      at hf
    obtain ⟨n, rfl⟩ : ∃ n, fuel = n + 1 := ⟨fuel - 1, by omega⟩
    simp only [writeMember, writeString, List.cons_append, List.append_assoc, List.nil_append]
    rw [readMember, expect_self]
    simp only [Option.bind_eq_bind, Option.bind_some, readString_write, expect_self]
    rw [readValue_write j (by simpa [plainMember] using hm) n rest (by omega) hrest]
    rfl

end

theorem read_write (j : Json) (hj : plain j = true) : read (write j) = some j := by
  have h := readValue_write j hj (2 * (write j).length + 1) [] (by omega)
    (fun _ _ h => by simp at h)
  rw [List.append_nil] at h
  simp [read, h]

/-! ## One line -/

theorem newline_escape (b : UInt8) : ch '\n' ∉ escapeByte b := by
  have h : ∀ n < 256, ch '\n' ∉ escapeByte (UInt8.ofNat n) := by decide +kernel
  have := h b.toNat b.toNat_lt
  rwa [UInt8.ofNat_toNat] at this

theorem newline_writeString (s : Bytes) : ch '\n' ∉ writeString s := by
  simp only [writeString, List.mem_cons, List.mem_append, List.mem_flatMap, List.not_mem_nil,
    or_false, not_or, not_exists, not_and]
  exact ⟨by decide, fun b _ => newline_escape b, by decide⟩

mutual

theorem newline_write (j : Json) (hj : plain j = true) : ch '\n' ∉ write j := by
  match j with
  | null => decide
  | bool true => decide
  | bool false => decide
  | int i =>
    simp only [write, Bytes.decimalInt]
    split
    · rw [List.mem_cons, not_or]
      exact ⟨by decide, Bytes.decimal_not_mem _ _ (Or.inl (by decide))⟩
    · exact Bytes.decimal_not_mem _ _ (Or.inl (by decide))
  | float text => simp [plain] at hj
  | str s => exact newline_writeString s
  | arr items =>
    rw [write, List.mem_cons, not_or]
    exact ⟨by decide, newline_writeItems items (by simpa [plain] using hj)⟩
  | obj members =>
    rw [write, List.mem_cons, not_or]
    exact ⟨by decide, newline_writeMembers members (by simpa [plain] using hj)⟩

theorem newline_writeItems (items : List Json) (hi : plainItems items = true) :
    ch '\n' ∉ writeItems items := by
  match items with
  | [] => decide
  | j :: js =>
    simp only [plainItems, Bool.and_eq_true] at hi
    rw [writeItems, List.mem_append, not_or]
    exact ⟨newline_write j hi.1, newline_writeMoreItems js hi.2⟩

theorem newline_writeMoreItems (js : List Json) (hi : plainItems js = true) :
    ch '\n' ∉ writeMoreItems js := by
  match js with
  | [] => decide
  | j :: js =>
    simp only [plainItems, Bool.and_eq_true] at hi
    rw [writeMoreItems, List.mem_cons, List.mem_append, not_or, not_or]
    exact ⟨by decide, newline_write j hi.1, newline_writeMoreItems js hi.2⟩

theorem newline_writeMembers (ms : List (Bytes × Json)) (hm : plainMembers ms = true) :
    ch '\n' ∉ writeMembers ms := by
  match ms with
  | [] => decide
  | m :: ms =>
    simp only [plainMembers, Bool.and_eq_true] at hm
    rw [writeMembers, List.mem_append, not_or]
    exact ⟨newline_writeMember m hm.1, newline_writeMoreMembers ms hm.2⟩

theorem newline_writeMoreMembers (ms : List (Bytes × Json)) (hm : plainMembers ms = true) :
    ch '\n' ∉ writeMoreMembers ms := by
  match ms with
  | [] => decide
  | m :: ms =>
    simp only [plainMembers, Bool.and_eq_true] at hm
    rw [writeMoreMembers, List.mem_cons, List.mem_append, not_or, not_or]
    exact ⟨by decide, newline_writeMember m hm.1, newline_writeMoreMembers ms hm.2⟩

theorem newline_writeMember (m : Bytes × Json) (hm : plainMember m = true) :
    ch '\n' ∉ writeMember m := by
  match m with
  | (key, j) =>
    rw [writeMember, List.mem_append, List.mem_cons, not_or, not_or]
    exact ⟨newline_writeString key, by decide, newline_write j (by simpa [plainMember] using hm)⟩

end

theorem plainMembers_setMember (members : List (Bytes × Json)) (key : Bytes) (v : Json)
    (hm : plainMembers members = true) (hv : plain v = true) :
    plainMembers (setMember members key v) = true := by
  induction members with
  | nil => simp [setMember, plainMembers, plainMember, hv]
  | cons m rest ih =>
    obtain ⟨k, w⟩ := m
    simp only [plainMembers, plainMember, Bool.and_eq_true] at hm
    simp only [setMember]
    split
    · simp [plainMembers, plainMember, hv, hm.2]
    · split
      · simp [plainMembers, plainMember, hv, hm]
      · simp [plainMembers, plainMember, hm.1, ih hm.2]

theorem plain_set (j : Json) (key : Bytes) (v : Json) (hj : plain j = true) (hv : plain v = true) :
    plain (j.set key v) = true := by
  cases j with
  | null => simp [set, plain, plainMembers, plainMember, hv]
  | obj members =>
    simp only [plain] at hj
    simp only [set, plain]
    exact plainMembers_setMember members key v hj hv
  | _ => exact hj

theorem plainItems_iff (items : List Json) :
    plainItems items = true ↔ ∀ j ∈ items, plain j = true := by
  induction items with
  | nil => simp [plainItems]
  | cons j js ih => simp [plainItems, ih]

/-- The codec of the writer and the reader, on values without floats. -/
def textCodec : JsonCodec where
  dump j := if plain j then some (write j) else none
  parse := read
  parse_dump := by
    intro j text h
    split at h
    · rename_i hj
      rw [← Option.some.inj h]
      exact read_write j hj
    · exact absurd h (by simp)
  dump_ne_nil := by
    intro j text h
    split at h
    · rename_i hj
      rw [← Option.some.inj h]
      exact List.ne_nil_of_length_pos (write_length_pos j hj)
    · exact absurd h (by simp)
  dump_one_line := by
    intro j text h
    split at h
    · rename_i hj
      rw [← Option.some.inj h]
      exact newline_write j hj
    · exact absurd h (by simp)

theorem textCodec_isSome (j : Json) : (textCodec.dump j).isSome ↔ plain j = true := by
  simp only [textCodec]
  split <;> simp_all

theorem plainMembers_iff (members : List (Bytes × Json)) :
    plainMembers members = true ↔ ∀ m ∈ members, plain m.2 = true := by
  induction members with
  | nil => simp [plainMembers]
  | cons m ms ih =>
    obtain ⟨key, j⟩ := m
    simp [plainMembers, plainMember, ih]

theorem textCodec_throwsOnText : textCodec.ThrowsOnText where
  ascii_dumps s _ := (textCodec_isSome _).mpr (by simp [plain])
  arr_dumps items := by
    rw [textCodec_isSome, plain, plainItems_iff]
    simp only [textCodec_isSome]
  obj_dumps members _ := by
    rw [textCodec_isSome, plain, plainMembers_iff]
    simp [textCodec_isSome, plain]
  members_dump members := by
    rw [textCodec_isSome, plain, plainMembers_iff]
    simp [textCodec_isSome, plain]

/-- The same, with a reader that takes such values alone. -/
def plainCodec : JsonCodec :=
  { textCodec with
    parse := fun text => (read text).filter plain
    parse_dump := by
      intro j text h
      have hplain : plain j = true := by
        rw [← textCodec_isSome, h]
        rfl
      have hread : read text = some j := textCodec.parse_dump j text h
      rw [hread]
      simp [Option.filter, hplain] }

theorem plainCodec_throwsOnText : plainCodec.ThrowsOnText :=
  ⟨textCodec_throwsOnText.ascii_dumps, textCodec_throwsOnText.arr_dumps,
    textCodec_throwsOnText.obj_dumps, textCodec_throwsOnText.members_dump⟩

theorem plainCodec_throwsOnTextOnly : plainCodec.ThrowsOnTextOnly :=
  ⟨plainCodec_throwsOnText, fun i => (textCodec_isSome (.int i)).mpr (by simp [plain]),
    fun b => (textCodec_isSome (.bool b)).mpr (by simp [plain])⟩

theorem plainCodec_parsed_dumps (text : Bytes) (j : Json) (h : plainCodec.parse text = some j) :
    (plainCodec.dump j).isSome :=
  (textCodec_isSome j).mpr (Option.filter_eq_some_iff.mp h).2

end Euxis.Json
