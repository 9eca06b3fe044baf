import Euxis.Json.RoundTrip

/-!
# The compact text

`dump()` with its default arguments writes what `write` does, and the text of a float is a number.
-/

namespace Euxis

namespace Json

theorem escapeByte_cases (b : UInt8) :
    escapeByte b = [b] ∧ b ≠ ch '"' ∧ b ≠ ch '\\' ∨
      ∃ c more, escapeByte b = ch '\\' :: c :: more ∧ ∀ x ∈ more, x ≠ ch '"' ∧ x ≠ ch '\\' := by
  have hhex : ∀ n < 16, hexNibble n ≠ ch '"' ∧ hexNibble n ≠ ch '\\' := by decide
  unfold escapeByte
  by_cases hquote : b = 34
  · exact Or.inr ⟨_, [], if_pos hquote, nofun⟩
  by_cases hback : b = 92
  · exact Or.inr ⟨_, [], by rw [if_neg hquote, if_pos hback]; rfl, nofun⟩
  rw [if_neg hquote, if_neg hback]
  iterate 5
    split
    · exact Or.inr ⟨_, [], rfl, nofun⟩
  split
  · refine Or.inr ⟨_, _, rfl, ?_⟩
    rename_i hlow
    have hnat : b.toNat < 32 := UInt8.lt_iff_toNat_lt.mp hlow
    simp only [List.mem_cons, List.not_mem_nil, or_false]
    rintro x (rfl | rfl | rfl | rfl)
    · decide
    · decide
    · exact hhex _ (by omega)
    · exact hhex _ (by omega)
  · exact Or.inl ⟨rfl, hquote, hback⟩

/-- The bytes of a number. -/
def numberByte (b : UInt8) : Bool := isDigit b || b ∈ ascii "+-.eE"

theorem numberByte_decimalInt (i : Int) : ∀ b ∈ Bytes.decimalInt i, numberByte b = true := by
  have hdigits : ∀ b ∈ Bytes.decimal i.natAbs, numberByte b = true := by
    intro b hb
    rw [numberByte, isDigit_decimal i.natAbs b hb, Bool.true_or]
  intro b hb
  unfold Bytes.decimalInt at hb
  split at hb
  · rcases List.mem_cons.mp hb with rfl | hb
    · decide
    · exact hdigits b hb
  · exact hdigits b hb

mutual

/-- The text of every float is that of a number. -/
def numeric : Json → Bool
  | float text => text.all numberByte
  | arr items => numericItems items
  | obj members => numericMembers members
  | _ => true

def numericItems : List Json → Bool
  | [] => true
  | j :: js => numeric j && numericItems js

def numericMembers : List (Bytes × Json) → Bool
  | [] => true
  | m :: ms => numericMember m && numericMembers ms

def numericMember : Bytes × Json → Bool
  | (_, j) => numeric j

end

mutual

theorem numeric_of_plain (j : Json) (h : plain j = true) : numeric j = true := by
  match j with
  | float text => simp [plain] at h
  | arr items =>
    rw [numeric]
    exact numericItems_of_plain items (by simpa [plain] using h)
  | obj members =>
    rw [numeric]
    exact numericMembers_of_plain members (by simpa [plain] using h)
  | null | bool _ | int _ | str _ => simp [numeric]

theorem numericItems_of_plain (items : List Json) (h : plainItems items = true) :
    numericItems items = true := by
  match items with
  | [] => rfl
  | j :: js =>
    simp only [plainItems, Bool.and_eq_true] at h
    simp only [numericItems, numeric_of_plain j h.1, numericItems_of_plain js h.2, Bool.and_self]

theorem numericMembers_of_plain (ms : List (Bytes × Json)) (h : plainMembers ms = true) :
    numericMembers ms = true := by
  match ms with
  | [] => rfl
  | (key, j) :: ms =>
    simp only [plainMembers, plainMember, Bool.and_eq_true] at h
    simp only [numericMembers, numericMember, numeric_of_plain j h.1,
      numericMembers_of_plain ms h.2, Bool.and_self]

end

end Json

/-- What `dump()` writes. -/
structure JsonCodec.Compact (codec : JsonCodec) : Prop where
  dump_eq : ∀ j text, codec.dump j = some text → text = Json.write j
  dump_numeric : ∀ j text, codec.dump j = some text → Json.numeric j = true

theorem Json.plainCodec_dump {j : Json} (h : Json.plain j = true) :
    Json.plainCodec.dump j = some (Json.write j) :=
  if_pos h

theorem Json.plainCodec_compact : Json.plainCodec.Compact := by
  have hdump : ∀ j text, Json.plainCodec.dump j = some text → Json.plain j = true ∧
      Json.write j = text := by
    intro j text h
    exact Option.ite_some_none_eq_some.mp h
  exact ⟨fun j text h => (hdump j text h).2.symm,
    fun j text h => Json.numeric_of_plain j (hdump j text h).1⟩

end Euxis
