import Euxis.A2a.AgentCard
import Euxis.Json.Access

/-!
# Cards and messages as JSON

`AgentCard::to_json` and `from_json` of `libs/a2a/src/agent_card.cpp`, and what
`libs/a2a-types/src/message.cpp` writes.
-/

namespace Euxis.A2a

/-! ## Reading members -/

/-- What `at` and `get` throw. -/
inductive Fault where
  | outOfRange
  | typeError
  deriving DecidableEq, Repr

/-- `j.at(key)`. -/
def member (j : Json) (key : Bytes) : Except Fault Json :=
  match j with
  | .obj members => (members.lookup key).elim (.error .outOfRange) .ok
  | _ => .error .typeError

/-- `get<std::string>()`. -/
def getString : Json → Except Fault Bytes
  | .str s => .ok s
  | _ => .error .typeError

/-- `j.at(key).get<std::string>()`. -/
def memberString (j : Json) (key : Bytes) : Except Fault Bytes := member j key >>= getString

/-- A member that `contains` finds, or the default of the field. -/
def memberOr {α : Type} (j : Json) (key : Bytes) (fallback : α) (read : Json → Except Fault α) :
    Except Fault α :=
  match j.find key with
  | some v => read v
  | none => .ok fallback

/-- `j[key] = *value` where there is one. -/
def setSome (j : Json) (key : Bytes) (value : Option Json) : Json := value.elim j (j.set key)

/-! ## Cards -/

def Capability.toJson (cap : Capability) : Json :=
  let c := (Json.null.set (ascii "name") (.str cap.name)).set (ascii "description")
    (.str cap.description)
  setSome (setSome c (ascii "inputSchema") cap.inputSchema) (ascii "outputSchema") cap.outputSchema

def AuthSchema.toJson (auth : AuthSchema) : Json :=
  Json.object [(ascii "type", .str auth.type), (ascii "description", .str auth.description)]

/-- Metadata is written unless it is null. -/
def metadataMember : Json → Option Json
  | .null => none
  | j => some j

def AgentCard.toJson (card : AgentCard) : Json :=
  let j := Json.null.set (ascii "name") (.str card.name)
  let j := j.set (ascii "description") (.str card.description)
  let j := j.set (ascii "url") (.str card.url)
  let j := j.set (ascii "version") (.str card.version)
  let j := j.set (ascii "capabilities") (.arr (card.capabilities.map Capability.toJson))
  let j := setSome j (ascii "auth") (card.auth.map AuthSchema.toJson)
  let j := setSome j (ascii "identityDid") (card.identityDid.map .str)
  setSome j (ascii "metadata") (metadataMember card.metadata)

def Capability.fromJson (c : Json) : Except Fault Capability := do
  let name ← memberString c (ascii "name")
  let description ← memberString c (ascii "description")
  let inputSchema ← memberOr c (ascii "inputSchema") none fun v => .ok (some v)
  let outputSchema ← memberOr c (ascii "outputSchema") none fun v => .ok (some v)
  return { name, description, inputSchema, outputSchema }

def AuthSchema.fromJson (j : Json) : Except Fault AuthSchema := do
  let type ← memberString j (ascii "type")
  let description ← memberString j (ascii "description")
  return { type, description }

def AgentCard.fromJson (j : Json) : Except Fault AgentCard := do
  let name ← memberString j (ascii "name")
  let description ← memberString j (ascii "description")
  let url ← memberString j (ascii "url")
  let version ← memberString j (ascii "version")
  let capabilities ← memberOr j (ascii "capabilities") [] fun v =>
    v.elements.mapM Capability.fromJson
  let auth ← memberOr j (ascii "auth") none fun v => some <$> AuthSchema.fromJson v
  let identityDid ← memberOr j (ascii "identityDid") none fun v => some <$> getString v
  let metadata ← memberOr j (ascii "metadata") .null .ok
  return { name, description, url, version, capabilities, auth, identityDid, metadata }

/-! ## Messages and artifacts -/

structure ContentPart where
  type : Bytes
  content : Bytes
  mimeType : Option Bytes := none

structure A2AMessage where
  role : Bytes
  createdAt : Bytes
  parts : List ContentPart := []

structure Artifact where
  name : Bytes
  mimeType : Bytes
  data : Bytes

def ContentPart.toJson (part : ContentPart) : Json :=
  let p := (Json.null.set (ascii "type") (.str part.type)).set (ascii "content") (.str part.content)
  setSome p (ascii "mimeType") (part.mimeType.map .str)

def A2AMessage.toJson (msg : A2AMessage) : Json :=
  ((Json.null.set (ascii "role") (.str msg.role)).set (ascii "createdAt") (.str msg.createdAt)).set
    (ascii "parts") (.arr (msg.parts.map ContentPart.toJson))

def Artifact.toJson (art : Artifact) : Json :=
  Json.object [(ascii "name", .str art.name), (ascii "mimeType", .str art.mimeType),
    (ascii "data", .str art.data)]

/-! ## What is written is read -/

theorem capability_roundTrip (cap : Capability) : Capability.fromJson cap.toJson = .ok cap := by
  obtain ⟨name, description, input, output⟩ := cap
  cases input <;> cases output <;> rfl

theorem card_roundTrip (card : AgentCard) : AgentCard.fromJson card.toJson = .ok card := by
  obtain ⟨name, description, url, version, capabilities, auth, identityDid, metadata⟩ := card
  have hcaps : (Json.arr (capabilities.map Capability.toJson)).elements.mapM Capability.fromJson =
      .ok capabilities := by
    rw [Json.elements_arr, Outcome.mapM_map_ok Capability.fromJson Capability.toJson id
      capability_roundTrip, List.map_id]
  have hread : AgentCard.fromJson (AgentCard.toJson ⟨name, description, url, version, capabilities,
      auth, identityDid, metadata⟩) =
      (Json.arr (capabilities.map Capability.toJson)).elements.mapM Capability.fromJson >>=
        fun capabilities =>
        .ok { name, description, url, version, capabilities, auth, identityDid, metadata } := by
    have hmetadata : metadata = (metadataMember metadata).getD .null := by cases metadata <;> rfl
    generalize hmember : metadataMember metadata = written at hmetadata
    subst hmetadata
    unfold AgentCard.toJson
    simp only [hmember]
    cases auth <;> cases identityDid <;> cases written <;> rfl
  rw [hread, hcaps]
  rfl

end Euxis.A2a
