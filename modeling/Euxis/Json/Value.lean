import Euxis.Bytes

/-!
# JSON values

The values of `nlohmann::json`, and the typed access that the code uses. The library is not part of
the repository: its text format is a `JsonCodec`, which states what the code relies on.
-/

namespace Euxis

/-- An object lists its members in the order of their keys, as `std::map` does. A float is kept as
its text. -/
inductive Json where
  | null
  | bool (b : Bool)
  | int (i : Int)
  | float (text : Bytes)
  | str (s : Bytes)
  | arr (items : List Json)
  | obj (members : List (Bytes × Json))

/-- A number as it is written. -/
inductive Number where
  | int (i : Int)
  | float (text : Bytes)
  deriving DecidableEq, Repr

/-- What the library throws. `outOfRange` is for a number that no `double` holds. -/
inductive JsonError where
  | parseError
  | typeError
  | outOfRange
  deriving DecidableEq, Repr

namespace Json

/-! ## Members -/

/-- The keys are distinct and in order. -/
def ordered : List (Bytes × Json) → Bool
  | a :: b :: rest => decide (a.1 < b.1) && ordered (b :: rest)
  | _ => true

/-- `j[key] = v` on the members of an object. -/
def setMember (members : List (Bytes × Json)) (key : Bytes) (v : Json) : List (Bytes × Json) :=
  match members with
  | [] => [(key, v)]
  | (k, w) :: rest =>
    if key = k then (key, v) :: rest
    else if key < k then (key, v) :: (k, w) :: rest
    else (k, w) :: setMember rest key v

/-- `j[key] = v`. A null value becomes an object. -/
def set (j : Json) (key : Bytes) (v : Json) : Json :=
  match j with
  | null => obj [(key, v)]
  | obj members => obj (setMember members key v)
  | other => other

def find (j : Json) (key : Bytes) : Option Json :=
  match j with
  | obj members => members.lookup key
  | _ => none

/-- A member that is a string, or nothing. -/
def findStr (j : Json) (key : Bytes) : Option Bytes :=
  match j.find key with
  | some (str s) => some s
  | _ => none

/-- An object of an initializer list of pairs. -/
def object (members : List (Bytes × Json)) : Json :=
  members.foldl (fun j m => j.set m.1 m.2) (obj [])

/-- `j.value(key, default)` with a string default: it throws on a value that is no object, and on a
member that is no string. -/
def valueStr (j : Json) (key fallback : Bytes) : Except JsonError Bytes :=
  match j with
  | obj members =>
    match members.lookup key with
    | none => .ok fallback
    | some (str s) => .ok s
    | some _ => .error .typeError
  | _ => .error .typeError

/-- `get<std::string>()`. -/
def getStr : Json → Except JsonError Bytes
  | str s => .ok s
  | _ => .error .typeError

/-- `j.value(key, default)` with a floating-point default. -/
def valueNumber (j : Json) (key : Bytes) (fallback : Number) : Except JsonError Number :=
  match j with
  | obj members =>
    match members.lookup key with
    | none => .ok fallback
    | some (int i) => .ok (.int i)
    | some (float text) => .ok (.float text)
    | some _ => .error .typeError
  | _ => .error .typeError

/-- `j.value(key, default)` with an `int` default. A float is cut off by `truncate`. -/
def valueInt (truncate : Bytes → Int) (j : Json) (key : Bytes) (fallback : Int) :
    Except JsonError Int :=
  match j with
  | obj members =>
    match members.lookup key with
    | none => .ok fallback
    | some (int i) => .ok i
    | some (float text) => .ok (truncate text)
    | some (bool b) => .ok (if b then 1 else 0)
    | some _ => .error .typeError
  | _ => .error .typeError

/-- `j.items()`: an array counts its elements, and a primitive value is its own only element. -/
def items : Json → List (Bytes × Json)
  | obj members => members
  | arr elements => elements.mapIdx fun i e => (Bytes.decimal i, e)
  | null => []
  | j => [([], j)]

/-- What a range-based `for` visits. -/
def elements (j : Json) : List Json := j.items.map (·.2)

theorem elements_arr (values : List Json) : (arr values).elements = values := by
  apply List.ext_getElem
  · simp [elements, items]
  · intro i _ _
    simp [elements, items]

theorem lookup_setMember (members : List (Bytes × Json)) (key : Bytes) (v : Json) :
    (setMember members key v).lookup key = some v := by
  induction members with
  | nil => simp [setMember]
  | cons m rest ih =>
    obtain ⟨k, w⟩ := m
    simp only [setMember]
    split
    · simp
    · rename_i hne
      split
      · simp
      · rw [List.lookup_cons, beq_false_of_ne hne]
        exact ih

theorem lookup_setMember_ne (members : List (Bytes × Json)) (key other : Bytes) (v : Json)
    (h : other ≠ key) : (setMember members key v).lookup other = members.lookup other := by
  have hne : (other == key) = false := beq_false_of_ne h
  induction members with
  | nil => simp [setMember, List.lookup_cons, hne]
  | cons m rest ih =>
    obtain ⟨k, w⟩ := m
    simp only [setMember]
    split
    · rename_i hk
      rw [List.lookup_cons, List.lookup_cons, ← hk, hne]
    · split
      · rw [List.lookup_cons, hne]
      · rw [List.lookup_cons, List.lookup_cons, ih]

/-- What `j[key] = v` works on. -/
def Settable : Json → Prop
  | null | obj _ => True
  | _ => False

theorem settable_set (j : Json) (key : Bytes) (v : Json) (h : j.Settable) :
    (j.set key v).Settable := by
  cases j <;> first | exact trivial | exact absurd h id

theorem find_set (j : Json) (key : Bytes) (v : Json) (h : j.Settable) :
    (j.set key v).find key = some v := by
  cases j with
  | null => simp [set, find]
  | obj members => exact lookup_setMember members key v
  | _ => exact absurd h id

theorem find_set_ne (j : Json) (key other : Bytes) (v : Json) (h : j.Settable) (hne : other ≠ key) :
    (j.set key v).find other = j.find other := by
  cases j with
  | null => simp [set, find, List.lookup_cons, beq_false_of_ne hne]
  | obj members => exact lookup_setMember_ne members key other v hne
  | _ => exact absurd h id

def IsObject : Json → Prop
  | obj _ => True
  | _ => False

theorem IsObject.exists_members {j : Json} (h : j.IsObject) : ∃ members, j = obj members := by
  cases j with
  | obj members => exact ⟨members, rfl⟩
  | _ => exact absurd h id

theorem isObject_of_find {j v : Json} {key : Bytes} (h : j.find key = some v) : j.IsObject := by
  cases j with
  | obj members => trivial
  | _ => cases h

theorem isObject_set (j : Json) (key : Bytes) (v : Json) (h : j.Settable) :
    (j.set key v).IsObject := by
  cases j <;> first | exact trivial | exact absurd h id

theorem IsObject.settable {j : Json} (h : j.IsObject) : j.Settable := by
  obtain ⟨members, rfl⟩ := h.exists_members
  exact trivial

/-! A member that is written on a condition only. -/

section

variable (p : Prop) [Decidable p] (j : Json) (key other : Bytes) (v : Json)

theorem isObject_ite_set (h : j.IsObject) : (if p then j.set key v else j).IsObject := by
  split
  · exact isObject_set j key v h.settable
  · exact h

theorem find_ite_set (h : j.IsObject) (habsent : j.find key = none) :
    (if p then j.set key v else j).find key = if p then some v else none := by
  split
  · exact find_set j key v h.settable
  · exact habsent

theorem find_ite_set_ne (h : j.IsObject) (hne : other ≠ key) :
    (if p then j.set key v else j).find other = j.find other := by
  split
  · exact find_set_ne j key other v h.settable hne
  · rfl

end

theorem valueStr_of_find (j : Json) (key s : Bytes) (hobj : j.IsObject)
    (h : j.find key = if s ≠ [] then some (.str s) else none) : j.valueStr key [] = .ok s := by
  obtain ⟨members, rfl⟩ := hobj.exists_members
  have hlookup : members.lookup key = if s ≠ [] then some (.str s) else none := h
  by_cases hs : s = []
  · simp [valueStr, hlookup, hs]
  · simp [valueStr, hlookup, hs]

theorem valueStr_of_some (j : Json) (key fallback s : Bytes) (h : j.find key = some (.str s)) :
    j.valueStr key fallback = .ok s := by
  cases j with
  | obj members =>
    have hlookup : members.lookup key = some (.str s) := h
    simp only [valueStr, hlookup]
  | _ => exact absurd h (by simp [find])

theorem findStr_set (j : Json) (key s : Bytes) (h : j.Settable) :
    findStr (j.set key (.str s)) key = some s := by
  unfold findStr
  rw [find_set j key _ h]

theorem findStr_set_ne (j : Json) (key other : Bytes) (v : Json) (h : j.Settable)
    (hne : other ≠ key) : findStr (j.set key v) other = findStr j other := by
  unfold findStr
  rw [find_set_ne j key other v h hne]

end Json

/-! ## Text -/

/-- The text format. `dump` fails on a string that is not UTF-8. -/
structure JsonCodec where
  dump : Json → Option Bytes
  parse : Bytes → Option Json
  parse_dump : ∀ j text, dump j = some text → parse text = some j
  dump_ne_nil : ∀ j text, dump j = some text → text ≠ []
  dump_one_line : ∀ j text, dump j = some text → ch '\n' ∉ text

/-- `json::parse` with its exceptions: `failure` says which one a text gives that is no value. -/
def JsonCodec.read (codec : JsonCodec) (failure : Bytes → JsonError) (text : Bytes) :
    Except JsonError Json :=
  match codec.parse text with
  | some j => .ok j
  | none => .error (failure text)

theorem JsonCodec.read_of_dump {codec : JsonCodec} (failure : Bytes → JsonError) {j : Json}
    {text : Bytes} (h : codec.dump j = some text) : codec.read failure text = .ok j := by
  rw [read, codec.parse_dump j text h]

/-- `dump` throws on a string that is not UTF-8, and on nothing else. The keys of an object are
distinct and in order. -/
structure JsonCodec.ThrowsOnText (codec : JsonCodec) : Prop where
  ascii_dumps : ∀ s : Bytes, s.all (· < 128) = true → (codec.dump (.str s)).isSome
  arr_dumps : ∀ items, (codec.dump (.arr items)).isSome ↔ ∀ j ∈ items, (codec.dump j).isSome
  obj_dumps : ∀ members, Json.ordered members = true →
    (∀ m ∈ members, (codec.dump (.str m.1)).isSome ∧ (codec.dump m.2).isSome) →
    (codec.dump (.obj members)).isSome
  members_dump : ∀ members, (codec.dump (.obj members)).isSome →
    ∀ m ∈ members, (codec.dump (.str m.1)).isSome ∧ (codec.dump m.2).isSome

/-- Nor does it throw on a number or a truth value. -/
structure JsonCodec.ThrowsOnTextOnly (codec : JsonCodec) : Prop extends codec.ThrowsOnText where
  int_dumps : ∀ i, (codec.dump (.int i)).isSome
  bool_dumps : ∀ b, (codec.dump (.bool b)).isSome

theorem JsonCodec.ThrowsOnText.obj_iff {codec : JsonCodec} (hcodec : codec.ThrowsOnText)
    {members : List (Bytes × Json)} (hordered : Json.ordered members = true) :
    (codec.dump (.obj members)).isSome ↔ ∀ m ∈ members, (codec.dump (.str m.1)).isSome ∧
      (codec.dump m.2).isSome :=
  ⟨hcodec.members_dump members, hcodec.obj_dumps members hordered⟩

theorem JsonCodec.ThrowsOnText.find_dumps {codec : JsonCodec} (hcodec : codec.ThrowsOnText)
    {j v : Json} {key : Bytes} (hj : (codec.dump j).isSome) (h : j.find key = some v) :
    (codec.dump v).isSome := by
  cases j with
  | obj members =>
    have hlookup : members.lookup key = some v := h
    obtain ⟨front, back, rfl, _⟩ := List.lookup_eq_some_iff.mp hlookup
    exact (hcodec.members_dump _ hj (key, v) (by simp)).2
  | _ => cases h

end Euxis
