import Euxis.Json.Value
import Euxis.Outcome

/-!
# When typed access throws

`value` throws on a value that is no object, and on a member of another type than its default.
-/

namespace Euxis.Json

open Outcome (Returns returns_ok not_returns_error)

def isObject : Json → Bool
  | obj _ => true
  | _ => false

def isString : Json → Bool
  | str _ => true
  | _ => false

def isNumber : Json → Bool
  | int _ | float _ => true
  | _ => false

def isBoolean : Json → Bool
  | bool _ => true
  | _ => false

/-- A number, or a truth value that counts as one. -/
def isArithmetic (j : Json) : Bool := j.isNumber || j.isBoolean

/-- The member is absent or of the type. -/
def hasType (type : Json → Bool) (j : Json) (key : Bytes) : Bool := (j.find key).all type

/-- `j.value(key, default)` with a `bool` default. -/
def valueBool (j : Json) (key : Bytes) (fallback : Bool) : Except JsonError Bool :=
  match j with
  | obj members =>
    match members.lookup key with
    | none => .ok fallback
    | some (bool b) => .ok b
    | some _ => .error .typeError
  | _ => .error .typeError

/-- `j.value(key, default)` with a default of type `json`. -/
def valueJson (j : Json) (key : Bytes) (fallback : Json) : Except JsonError Json :=
  match j with
  | obj members => .ok ((members.lookup key).getD fallback)
  | _ => .error .typeError

/-- `j.value(key, default)` with an `int` default, whose 32 bits are the low ones of the number. -/
def valueInt32 (truncate : Bytes → Int) (j : Json) (key : Bytes) (fallback : Int) :
    Except JsonError Int :=
  (valueInt truncate j key fallback).map fun i => (Int32.ofInt i).toInt

theorem isObject_iff (j : Json) : j.isObject = true ↔ j.IsObject := by
  cases j <;> simp [isObject, IsObject]

theorem hasType_obj (type : Json → Bool) (members : List (Bytes × Json)) (key : Bytes) :
    hasType type (obj members) key = (members.lookup key).all type := rfl

theorem valueStr_returns_iff (j : Json) (key fallback : Bytes) :
    Returns (j.valueStr key fallback) ↔ j.IsObject ∧ hasType isString j key = true := by
  cases j with
  | obj members =>
    rw [hasType_obj, valueStr]
    cases members.lookup key with
    | none => simp [IsObject]
    | some v => cases v <;> simp [IsObject, isString]
  | _ => simp [valueStr, IsObject]

theorem valueStr_returns_of_object (j : Json) (key fallback : Bytes) (h : j.IsObject) :
    Returns (j.valueStr key fallback) ↔ hasType isString j key = true := by
  rw [valueStr_returns_iff]
  exact and_iff_right h

theorem valueStr_ok (j : Json) (key fallback s : Bytes) (h : j.valueStr key fallback = .ok s) :
    j.findStr key = some s ∨ s = fallback := by
  cases j with
  | obj members =>
    rw [valueStr] at h
    simp only [findStr, find]
    cases hlookup : members.lookup key with
    | none =>
      rw [hlookup] at h
      exact Or.inr (Except.ok.inj h).symm
    | some v =>
      rw [hlookup] at h
      cases v with
      | str t =>
        rw [Except.ok.inj h]
        exact Or.inl rfl
      | _ => cases h
  | _ => cases h

theorem valueStr_findStr {j : Json} {key : Bytes} (hobj : j.IsObject)
    (h : hasType isString j key = true) (fallback : Bytes) :
    j.valueStr key fallback = .ok ((j.findStr key).getD fallback) := by
  obtain ⟨members, rfl⟩ := hobj.exists_members
  rw [hasType_obj] at h
  simp only [valueStr, findStr, find]
  cases hlookup : members.lookup key with
  | none => rfl
  | some v =>
    rw [hlookup] at h
    cases v with
    | str s => rfl
    | _ => cases h

theorem valueInt_returns_iff (truncate : Bytes → Int) (j : Json) (key : Bytes) (fallback : Int) :
    Returns (valueInt truncate j key fallback) ↔ j.IsObject ∧
      hasType isArithmetic j key = true := by
  cases j with
  | obj members =>
    rw [hasType_obj, valueInt]
    cases members.lookup key with
    | none => simp [IsObject]
    | some v => cases v <;> simp [IsObject, isArithmetic, isNumber, isBoolean]
  | _ => simp [valueInt, IsObject]

theorem valueInt32_returns_iff (truncate : Bytes → Int) (j : Json) (key : Bytes) (fallback : Int) :
    Returns (valueInt32 truncate j key fallback) ↔ j.IsObject ∧
      hasType isArithmetic j key = true := by
  rw [valueInt32, Outcome.returns_map_iff, valueInt_returns_iff]

theorem valueInt32_of_some (truncate : Bytes → Int) (j : Json) (key : Bytes) (fallback i : Int)
    (h : j.find key = some (.int i)) (hlow : 0 ≤ i) (hhigh : i < 2 ^ 31) :
    valueInt32 truncate j key fallback = .ok i := by
  cases j with
  | obj members =>
    have hlookup : members.lookup key = some (.int i) := h
    simp only [valueInt32, valueInt, hlookup, Except.map]
    rw [Int32.toInt_ofInt_of_le (by omega) (by omega)]
  | _ => exact absurd h (by simp [find])

theorem valueJson_of_object (j : Json) (key : Bytes) (fallback : Json) (h : j.IsObject) :
    j.valueJson key fallback = .ok ((j.find key).getD fallback) := by
  obtain ⟨members, rfl⟩ := h.exists_members
  rfl

theorem valueBool_returns_iff (j : Json) (key : Bytes) (fallback : Bool) :
    Returns (j.valueBool key fallback) ↔ j.IsObject ∧ hasType isBoolean j key = true := by
  cases j with
  | obj members =>
    rw [hasType_obj, valueBool]
    cases members.lookup key with
    | none => simp [IsObject]
    | some v => cases v <;> simp [IsObject, isBoolean]
  | _ => simp [valueBool, IsObject]

end Euxis.Json
