import Euxis.Json.RoundTrip

/-!
# MessagePack

`to_msgpack` and `from_msgpack` of the JSON library, as a pair of functions of which the second
undoes the first. An instance is made from the text format, with the real bytes on one value.
-/

namespace Euxis

structure Msgpack where
  pack : Json → Bytes
  /-- It throws on bytes that encode nothing. -/
  unpack : Bytes → Option Json
  unpack_pack : ∀ j, unpack (pack j) = some j

namespace Json

/-! ## Floats as tagged arrays -/

mutual

def tag : Json → Json
  | float text => arr [bool true, str text]
  | arr items => arr (null :: tagItems items)
  | obj members => obj (tagMembers members)
  | j => j

def tagItems : List Json → List Json
  | [] => []
  | j :: js => tag j :: tagItems js

def tagMembers : List (Bytes × Json) → List (Bytes × Json)
  | [] => []
  | m :: ms => tagMember m :: tagMembers ms

def tagMember : Bytes × Json → Bytes × Json
  | (key, j) => (key, tag j)

end

mutual

def untag : Json → Json
  | arr items => untagArray items
  | obj members => obj (untagMembers members)
  | j => j

def untagArray : List Json → Json
  | bool true :: str text :: _ => float text
  | _ :: items => arr (untagItems items)
  | [] => null

def untagItems : List Json → List Json
  | [] => []
  | j :: js => untag j :: untagItems js

def untagMembers : List (Bytes × Json) → List (Bytes × Json)
  | [] => []
  | m :: ms => untagMember m :: untagMembers ms

def untagMember : Bytes × Json → Bytes × Json
  | (key, j) => (key, untag j)

end

mutual

theorem untag_tag (j : Json) : untag (tag j) = j := by
  cases j with
  | arr items => simp only [tag, untag, untagArray, untagItems_tag items]
  | obj members => simp only [tag, untag, untagMembers_tag members]
  | _ => simp [tag, untag, untagArray]

theorem untagItems_tag (items : List Json) : untagItems (tagItems items) = items := by
  cases items with
  | nil => simp [tagItems, untagItems]
  | cons j js => simp only [tagItems, untagItems, untag_tag j, untagItems_tag js]

theorem untagMembers_tag (members : List (Bytes × Json)) :
    untagMembers (tagMembers members) = members := by
  cases members with
  | nil => simp [tagMembers, untagMembers]
  | cons m ms => simp only [tagMembers, untagMembers, untagMember_tag m, untagMembers_tag ms]

theorem untagMember_tag (m : Bytes × Json) : untagMember (tagMember m) = m := by
  obtain ⟨key, j⟩ := m
  simp only [tagMember, untagMember, untag_tag j]

end

mutual

theorem plain_tag (j : Json) : plain (tag j) = true := by
  cases j with
  | arr items => simp only [tag, plain, plainItems, plainItems_tag items, Bool.true_and]
  | obj members => simp only [tag, plain, plainMembers_tag members]
  | _ => simp [tag, plain, plainItems]

theorem plainItems_tag (items : List Json) : plainItems (tagItems items) = true := by
  cases items with
  | nil => simp [tagItems, plainItems]
  | cons j js => simp only [tagItems, plainItems, plain_tag j, plainItems_tag js, Bool.true_and]

theorem plainMembers_tag (members : List (Bytes × Json)) :
    plainMembers (tagMembers members) = true := by
  cases members with
  | nil => simp [tagMembers, plainMembers]
  | cons m ms =>
    simp only [tagMembers, plainMembers, plainMember_tag m, plainMembers_tag ms, Bool.true_and]

theorem plainMember_tag (m : Bytes × Json) : plainMember (tagMember m) = true := by
  obtain ⟨key, j⟩ := m
  simp only [tagMember, plainMember, plain_tag j]

end

end Json

open Json

/-- A byte that no MessagePack value starts with. -/
def unusedByte : UInt8 := 0xc1

/-- The value `real` is packed as `bytes`, any other value as the unused byte and its text. -/
def Msgpack.sample (real : Json) (bytes : Bytes) (hbytes : bytes.head? ≠ some unusedByte) :
    Msgpack where
  pack j := if write (tag j) = write (tag real) then bytes else unusedByte :: write (tag j)
  unpack text :=
    if text = bytes then some real
    else if text.head? = some unusedByte then (read text.tail).map untag
    else none
  unpack_pack := by
    intro j
    have hread : ∀ j, (read (write (tag j))).map untag = some j := by
      intro j
      rw [read_write _ (plain_tag j), Option.map_some, untag_tag]
    split
    · rename_i heq
      have hreal := hread j
      rw [heq, hread real] at hreal
      rw [if_pos rfl]
      exact hreal
    · have hne : unusedByte :: write (tag j) ≠ bytes := by
        rintro rfl
        exact hbytes rfl
      rw [if_neg hne, if_pos List.head?_cons]
      exact hread j

end Euxis
