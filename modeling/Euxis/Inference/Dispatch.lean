import Mathlib.Logic.Function.Basic
import Euxis.Json.Access

/-!
# From events to deltas: `dispatch_event` of `libs/inference/src`

What each provider makes of the payload of one event. Claude and OpenAI keep a table of the tool
calls that they have seen begin, by index.
-/

namespace Euxis.Inference

/-! ## Deltas: `libs/runtime/include/euxis/runtime/streaming.hpp` -/

inductive DeltaKind where
  | textFragment
  | toolCallPartial
  | usage
  | done
  deriving DecidableEq, Repr

structure ProviderDelta where
  kind : DeltaKind := .done
  text : Bytes := []
  toolCallName : Bytes := []
  toolCallId : Bytes := []
  inputTokens : Int := 0
  outputTokens : Int := 0
  deriving DecidableEq, Repr

/-- The library throws, the table would be longer than a vector can be, or an index reaches outside
of it. -/
inductive Fault where
  | thrown (e : JsonError)
  | tooLong
  | outOfBounds
  deriving DecidableEq, Repr

def lift {α : Type} (x : Except JsonError α) : Except Fault α := x.mapError .thrown

variable (codec : JsonCodec) (truncate : Bytes → Int)

def usageDelta (usage : Json) (inputKey outputKey : Bytes) : Except Fault ProviderDelta := do
  let inputTokens ← lift (Json.valueInt32 truncate usage inputKey 0)
  let outputTokens ← lift (Json.valueInt32 truncate usage outputKey 0)
  return { kind := .usage, inputTokens, outputTokens }

/-- The usage under a key, if that is an object. -/
def usageAt (j : Json) (key inputKey outputKey : Bytes) : Except Fault (List ProviderDelta) :=
  match j.find key with
  | some (.obj members) => do
    let d ← usageDelta truncate (.obj members) inputKey outputKey
    return [d]
  | _ => .ok []

/-! ## Claude -/

structure ToolCallContext where
  id : Bytes := []
  name : Bytes := []
  deriving DecidableEq, Repr

/-- The table grows up to the index. -/
def setContext (ctx : List ToolCallContext) (index : Nat) (c : ToolCallContext) :
    List ToolCallContext :=
  (ctx ++ List.replicate (index + 1 - ctx.length) ({} : ToolCallContext)).set index c

def claudeBlockStart (j : Json) (ctx : List ToolCallContext) :
    Except Fault (List ProviderDelta × List ToolCallContext) := do
  let index ← lift (Json.valueInt32 truncate j (ascii "index") 0)
  let block ← lift (j.valueJson (ascii "content_block") (.obj []))
  let blockType ← lift (block.valueStr (ascii "type") [])
  if blockType = ascii "tool_use" then
    -- As a size, -1 + 1 is 0 and the table is left as it is; below that `resize` throws.
    if index < -1 then throw .tooLong
    if index < 0 then throw .outOfBounds
    let id ← lift (block.valueStr (ascii "id") [])
    let name ← lift (block.valueStr (ascii "name") [])
    return ([], setContext ctx index.toNat { id, name })
  else return ([], ctx)

def claudeBlockDelta (j : Json) (ctx : List ToolCallContext) :
    Except Fault (List ProviderDelta × List ToolCallContext) := do
  let index ← lift (Json.valueInt32 truncate j (ascii "index") 0)
  let delta ← lift (j.valueJson (ascii "delta") (.obj []))
  let deltaType ← lift (delta.valueStr (ascii "type") [])
  if deltaType = ascii "text_delta" then
    let text ← lift (delta.valueStr (ascii "text") [])
    return ([{ kind := .textFragment, text }], ctx)
  else if deltaType = ascii "input_json_delta" then
    let text ← lift (delta.valueStr (ascii "partial_json") [])
    -- A negative index is a large `size_t`, which no table reaches.
    let c := if index < 0 then {} else ctx[index.toNat]?.getD {}
    return ([{ kind := .toolCallPartial, text, toolCallId := c.id, toolCallName := c.name }], ctx)
  else return ([], ctx)

def claudeMessageDelta (j : Json) (ctx : List ToolCallContext) :
    Except Fault (List ProviderDelta × List ToolCallContext) := do
  let usage ← lift (j.valueJson (ascii "usage") (.obj []))
  if (usage.find (ascii "input_tokens")).isSome ∨ (usage.find (ascii "output_tokens")).isSome then
    let d ← usageDelta truncate usage (ascii "input_tokens") (ascii "output_tokens")
    return ([d], ctx)
  else return ([], ctx)

def claudeEvent (j : Json) (ctx : List ToolCallContext) :
    Except Fault (List ProviderDelta × List ToolCallContext) := do
  let type ← lift (j.valueStr (ascii "type") [])
  if type = ascii "content_block_start" then claudeBlockStart truncate j ctx
  else if type = ascii "content_block_delta" then claudeBlockDelta truncate j ctx
  else if type = ascii "message_delta" then claudeMessageDelta truncate j ctx
  else return ([], ctx)

def claudeDispatch (payload : Bytes) (ctx : List ToolCallContext) :
    Except Fault (List ProviderDelta × List ToolCallContext) :=
  match codec.parse payload with
  | some (.obj members) => claudeEvent truncate (.obj members) ctx
  | _ => .ok ([], ctx)

/-! ## OpenAI -/

/-- Id and name by index; `operator[]` puts empty ones where there are none. -/
abbrev ToolTable := Int → Bytes × Bytes

def ToolTable.setId (ctx : ToolTable) (index : Int) : Option Bytes → ToolTable
  | some id => Function.update ctx index (id, (ctx index).2)
  | none => ctx

def ToolTable.setName (ctx : ToolTable) (index : Int) : Option Bytes → ToolTable
  | some name => Function.update ctx index ((ctx index).1, name)
  | none => ctx

def openaiToolCall (tc : Json) (ctx : ToolTable) : Except Fault (List ProviderDelta × ToolTable) :=
  do
  let index ← lift (Json.valueInt32 truncate tc (ascii "index") 0)
  let ctx := ctx.setId index (tc.findStr (ascii "id"))
  let func ← lift (tc.valueJson (ascii "function") (.obj []))
  let ctx := ctx.setName index (func.findStr (ascii "name"))
  match func.findStr (ascii "arguments") with
  | some args =>
    return ([{ kind := .toolCallPartial, text := args, toolCallId := (ctx index).1,
               toolCallName := (ctx index).2 }], ctx)
  | none => return ([], ctx)

def openaiToolCalls : List Json → ToolTable → Except Fault (List ProviderDelta × ToolTable)
  | [], ctx => .ok ([], ctx)
  | tc :: rest, ctx => do
    let (ds, ctx) ← openaiToolCall truncate tc ctx
    let (more, ctx) ← openaiToolCalls rest ctx
    return (ds ++ more, ctx)

/-- The elements of a member that is an array. -/
def arrayAt (j : Json) (key : Bytes) : List Json :=
  match j.find key with
  | some (.arr items) => items
  | _ => []

def openaiChoice (choice : Json) (ctx : ToolTable) :
    Except Fault (List ProviderDelta × ToolTable) := do
  let delta ← lift (choice.valueJson (ascii "delta") (.obj []))
  let text := (delta.findStr (ascii "content")).getD []
  let content : List ProviderDelta := if text = [] then [] else [{ kind := .textFragment, text }]
  let (calls, ctx) ← openaiToolCalls truncate (arrayAt delta (ascii "tool_calls")) ctx
  return (content ++ calls, ctx)

def openaiUsage (j : Json) : Except Fault (List ProviderDelta) :=
  usageAt truncate j (ascii "usage") (ascii "prompt_tokens") (ascii "completion_tokens")

def openaiEvent (j : Json) (ctx : ToolTable) : Except Fault (List ProviderDelta × ToolTable) := do
  let (ds, ctx) ←
    match arrayAt j (ascii "choices") with
    | choice :: _ => openaiChoice truncate choice ctx
    | [] => .ok ([], ctx)
  let usage ← openaiUsage truncate j
  return (ds ++ usage, ctx)

def openaiDispatch (payload : Bytes) (ctx : ToolTable) :
    Except Fault (List ProviderDelta × ToolTable) :=
  if payload = ascii "[DONE]" then .ok ([], ctx)
  else
    match codec.parse payload with
    | some (.obj members) => openaiEvent truncate (.obj members) ctx
    | _ => .ok ([], ctx)

/-! ## Gemini -/

/-- Gemini gives no ids: the code makes one of the name. -/
def geminiId (name : Bytes) : Bytes := ascii "gemini-fc-" ++ name

def geminiPart (part : Json) : Except Fault (List ProviderDelta) :=
  match part.findStr (ascii "text"), part.find (ascii "functionCall") with
  | some text, _ => .ok (if text = [] then [] else [{ kind := .textFragment, text }])
  | none, some (.obj members) => do
    let name ← lift (Json.valueStr (.obj members) (ascii "name") [])
    let args ← lift (Json.valueJson (.obj members) (ascii "args") (.obj []))
    match codec.dump args with
    | some text =>
      return [{ kind := .toolCallPartial, text, toolCallName := name, toolCallId := geminiId name }]
    | none => throw (.thrown .typeError)
  | none, _ => .ok []

def geminiCandidate (cand : Json) : Except Fault (List ProviderDelta) := do
  let content ← lift (cand.valueJson (ascii "content") (.obj []))
  let parts ← lift (content.valueJson (ascii "parts") (.arr []))
  let ds ← parts.elements.mapM (geminiPart codec)
  return ds.flatten

def geminiUsage (j : Json) : Except Fault (List ProviderDelta) :=
  usageAt truncate j (ascii "usageMetadata") (ascii "promptTokenCount")
    (ascii "candidatesTokenCount")

def geminiDispatch (payload : Bytes) : Except Fault (List ProviderDelta) :=
  match codec.parse payload with
  | some (.obj members) => do
    let ds ←
      match arrayAt (.obj members) (ascii "candidates") with
      | cand :: _ => geminiCandidate codec cand
      | [] => .ok []
    let usage ← geminiUsage truncate (.obj members)
    return ds ++ usage
  | _ => .ok []

/-! ## Streams -/

/-- One event after the other, with the table of the calls. -/
def runEvents {σ : Type} (dispatch : Bytes → σ → Except Fault (List ProviderDelta × σ)) :
    σ → List Bytes → Except Fault (List ProviderDelta)
  | _, [] => .ok []
  | ctx, payload :: rest => do
    let (ds, ctx) ← dispatch payload ctx
    let more ← runEvents dispatch ctx rest
    return ds ++ more

def claudeDeltas (payloads : List Bytes) : Except Fault (List ProviderDelta) :=
  runEvents (claudeDispatch codec truncate) [] payloads

def openaiDeltas (payloads : List Bytes) : Except Fault (List ProviderDelta) :=
  runEvents (openaiDispatch codec truncate) (fun _ => ([], [])) payloads

def geminiDeltas (payloads : List Bytes) : Except Fault (List ProviderDelta) :=
  runEvents (fun payload ctx => (geminiDispatch codec truncate payload).map (·, ctx)) () payloads

end Euxis.Inference
