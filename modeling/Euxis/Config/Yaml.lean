import Euxis.Bytes

/-!
# YAML values

The YAML library is not part of the repository: a document is a `Yaml` value, and reading a text or
a scalar is a parameter. An alias stands for a copy of what it names.
-/

namespace Euxis.Config

inductive Yaml where
  | null
  | scalar (text : Bytes)
  | seq (items : List Yaml)
  | map (members : List (Yaml × Yaml))

/-- `LoadFile` (with the message and the line of its exception), `as<int>` and `as<bool>` of a
scalar. -/
structure YamlLib where
  load : Bytes → Except (Bytes × Nat) Yaml
  asInt : Bytes → Option Int
  asBool : Bytes → Option Bool

namespace Yaml

def isMap : Yaml → Bool
  | map _ => true
  | _ => false

def hasKey (key : Bytes) : Yaml × Yaml → Bool
  | (scalar text, _) => text = key
  | _ => false

/-- `node[key]`, where a node that is not there has no members. -/
def get (node : Option Yaml) (key : Bytes) : Option Yaml :=
  match node with
  | some (map members) => (members.find? (hasKey key)).map (·.2)
  | _ => none

/-- `as<std::string>()`. -/
def asString : Yaml → Option Bytes
  | scalar text => some text
  | null => some (ascii "null")
  | _ => none

def asInt (lib : YamlLib) : Yaml → Option Int
  | scalar text => lib.asInt text
  | _ => none

def asBool (lib : YamlLib) : Yaml → Option Bool
  | scalar text => lib.asBool text
  | _ => none

/-- A member that is there, is not null and converts. -/
def found {α : Type} (as : Yaml → Option α) (node : Option Yaml) (key : Bytes) : Option α :=
  match get node key with
  | none | some null => none
  | some value => as value

/-- `get_or`. -/
def getOr {α : Type} (as : Yaml → Option α) (node : Option Yaml) (key : Bytes) (fallback : α) : α :=
  (found as node key).getD fallback

def foundVector (node : Option Yaml) (key : Bytes) : Option (List Bytes) :=
  match get node key with
  | some (seq items) => some (items.filterMap asString)
  | _ => none

/-- `get_vector<std::string>`. -/
def getVector (node : Option Yaml) (key : Bytes) (fallback : List Bytes) : List Bytes :=
  (foundVector node key).getD fallback

end Yaml

end Euxis.Config
