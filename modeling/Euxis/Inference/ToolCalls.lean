import Euxis.Inference.Interleaved
import Euxis.Json.RoundTrip

/-!
# Tool calls put together again

What the events of each provider tell of the calls, and that its dispatcher follows them. Claude and
OpenAI name a call by its index; Gemini gives a call in one piece and without an id.
-/

namespace Euxis.Inference

open Json (hasType isArithmetic isString)

/-! ## Events -/

/-- The payload is the text of an event that tells this. -/
def Tells {μ : Type} (codec : JsonCodec) (event : Json → List μ → Prop) (payload : Bytes)
    (moves : List μ) : Prop :=
  ∃ j, codec.parse payload = some j ∧ event j moves

variable (codec : JsonCodec) (truncate : Bytes → Int)

@[simp]
theorem lift_ok {α : Type} (a : α) : lift (.ok a : Except JsonError α) = .ok a := rfl

theorem lift_error {α : Type} (e : JsonError) :
    lift (.error e : Except JsonError α) = .error (.thrown e) := rfl

theorem usageDelta_ok (usage : Json) (inputKey outputKey : Bytes) (hobj : usage.IsObject)
    (hin : hasType isArithmetic usage inputKey = true)
    (hout : hasType isArithmetic usage outputKey = true) :
    ∃ d, usageDelta truncate usage inputKey outputKey = .ok d ∧ partials [d] = [] := by
  obtain ⟨i, hi⟩ := (Json.valueInt32_returns_iff truncate usage inputKey 0).mpr ⟨hobj, hin⟩
  obtain ⟨o, ho⟩ := (Json.valueInt32_returns_iff truncate usage outputKey 0).mpr ⟨hobj, hout⟩
  refine ⟨{ kind := .usage, inputTokens := i, outputTokens := o }, ?_, rfl⟩
  rw [usageDelta, hi, ho]
  rfl

/-- The member that counts tokens, if it is an object, holds numbers. -/
def UsageTyped (j : Json) (key inputKey outputKey : Bytes) : Prop :=
  ∀ usage, j.find key = some usage → usage.IsObject →
    hasType isArithmetic usage inputKey = true ∧ hasType isArithmetic usage outputKey = true

theorem usageAt_ok (j : Json) (key inputKey outputKey : Bytes)
    (h : UsageTyped j key inputKey outputKey) :
    ∃ ds, usageAt truncate j key inputKey outputKey = .ok ds ∧ partials ds = [] := by
  unfold usageAt
  split
  · rename_i members hfind
    obtain ⟨hin, hout⟩ := h _ hfind trivial
    obtain ⟨d, hd, hsilent⟩ :=
      usageDelta_ok truncate (.obj members) inputKey outputKey trivial hin hout
    rw [hd]
    exact ⟨[d], rfl, hsilent⟩
  · exact ⟨[], rfl, rfl⟩

/-! ## Claude -/

/-- What an event of Claude's stream tells. The events of a text or of another block, the usage and
the events that frame the message tell nothing of calls. -/
inductive ClaudeTells : Json → List Move → Prop where
  | toolUse {j block : Json} {index : Nat} {id name : Bytes}
      (type : j.find (ascii "type") = some (.str (ascii "content_block_start")))
      (place : j.find (ascii "index") = some (.int index)) (fits : index < 2 ^ 31)
      (started : j.find (ascii "content_block") = some block)
      (tool : block.find (ascii "type") = some (.str (ascii "tool_use")))
      (own : block.find (ascii "id") = some (.str id))
      (named : block.find (ascii "name") = some (.str name)) :
      ClaudeTells j [.opens index id]
  | otherBlock {j block : Json} {kind : Bytes}
      (type : j.find (ascii "type") = some (.str (ascii "content_block_start")))
      (place : hasType isArithmetic j (ascii "index") = true)
      (started : j.find (ascii "content_block") = some block)
      (other : block.find (ascii "type") = some (.str kind)) (ne : kind ≠ ascii "tool_use") :
      ClaudeTells j []
  | inputJson {j delta : Json} {index : Nat} {fragment : Bytes}
      (type : j.find (ascii "type") = some (.str (ascii "content_block_delta")))
      (place : j.find (ascii "index") = some (.int index)) (fits : index < 2 ^ 31)
      (change : j.find (ascii "delta") = some delta)
      (partly : delta.find (ascii "type") = some (.str (ascii "input_json_delta")))
      (text : delta.find (ascii "partial_json") = some (.str fragment)) :
      ClaudeTells j [.argument index fragment]
  | otherDelta {j delta : Json} {kind : Bytes}
      (type : j.find (ascii "type") = some (.str (ascii "content_block_delta")))
      (place : hasType isArithmetic j (ascii "index") = true)
      (change : j.find (ascii "delta") = some delta)
      (other : delta.find (ascii "type") = some (.str kind)) (ne : kind ≠ ascii "input_json_delta")
      (text : hasType isString delta (ascii "text") = true) : ClaudeTells j []
  | usage {j usage : Json}
      (type : j.find (ascii "type") = some (.str (ascii "message_delta")))
      (counts : j.find (ascii "usage") = some usage) (object : usage.IsObject)
      (input : hasType isArithmetic usage (ascii "input_tokens") = true)
      (output : hasType isArithmetic usage (ascii "output_tokens") = true) : ClaudeTells j []
  | other {j : Json} {kind : Bytes} (type : j.find (ascii "type") = some (.str kind))
      (start : kind ≠ ascii "content_block_start") (change : kind ≠ ascii "content_block_delta")
      (counts : kind ≠ ascii "message_delta") : ClaudeTells j []

def ToolCallContext.ids (ctx : List ToolCallContext) (index : Nat) : Bytes :=
  (ctx[index]?.getD {}).id

theorem ids_setContext (ctx : List ToolCallContext) (index : Nat) (c : ToolCallContext) :
    ToolCallContext.ids (setContext ctx index c) = Function.update (ToolCallContext.ids ctx)
      index c.id := by
  funext k
  by_cases hk : k = index
  · subst hk
    have hin : k < (ctx ++ List.replicate (k + 1 - ctx.length) ({} : ToolCallContext)).length := by
      rw [List.length_append, List.length_replicate]
      omega
    rw [Function.update_self, ToolCallContext.ids, setContext, List.getElem?_set_self hin]
    rfl
  · rw [Function.update_of_ne hk, ToolCallContext.ids, ToolCallContext.ids, setContext,
      List.getElem?_set_ne (Ne.symm hk)]
    congr 1
    rw [List.getElem?_append]
    split
    · rfl
    · rename_i hout
      rw [List.getElem?_eq_none (Nat.le_of_not_lt hout), List.getElem?_replicate]
      split <;> rfl

section Claude

variable (ctx : List ToolCallContext) {j block delta usage : Json} {index : Nat}
  {id name kind fragment : Bytes}

theorem claudeBlockStart_toolUse (place : j.find (ascii "index") = some (.int index))
    (fits : index < 2 ^ 31) (started : j.find (ascii "content_block") = some block)
    (tool : block.find (ascii "type") = some (.str (ascii "tool_use")))
    (own : block.find (ascii "id") = some (.str id))
    (named : block.find (ascii "name") = some (.str name)) :
    claudeBlockStart truncate j ctx = .ok ([], setContext ctx index { id, name }) := by
  rw [claudeBlockStart, Json.valueInt32_of_some truncate j _ 0 index place (by omega) (by omega),
    Json.valueJson_of_object j _ _ (Json.isObject_of_find started), started]
  simp only [lift_ok, Outcome.ok_bind, Option.getD_some, Json.valueStr_of_some _ _ [] _ tool,
    Json.valueStr_of_some _ _ [] _ own, Json.valueStr_of_some _ _ [] _ named, if_pos,
    Int.toNat_natCast]
  rw [if_neg (by omega)]
  rfl

theorem claudeBlockStart_other (place : hasType isArithmetic j (ascii "index") = true)
    (started : j.find (ascii "content_block") = some block)
    (other : block.find (ascii "type") = some (.str kind)) (ne : kind ≠ ascii "tool_use") :
    claudeBlockStart truncate j ctx = .ok ([], ctx) := by
  obtain ⟨i, hi⟩ := (Json.valueInt32_returns_iff truncate j (ascii "index") 0).mpr
    ⟨Json.isObject_of_find started, place⟩
  rw [claudeBlockStart, hi, Json.valueJson_of_object j _ _ (Json.isObject_of_find started), started]
  simp only [lift_ok, Outcome.ok_bind, Option.getD_some, Json.valueStr_of_some _ _ [] _ other,
    if_neg ne]
  rfl

theorem claudeBlockDelta_inputJson (place : j.find (ascii "index") = some (.int index))
    (fits : index < 2 ^ 31) (change : j.find (ascii "delta") = some delta)
    (partly : delta.find (ascii "type") = some (.str (ascii "input_json_delta")))
    (text : delta.find (ascii "partial_json") = some (.str fragment)) :
    claudeBlockDelta truncate j ctx = .ok ([{
      kind := .toolCallPartial
      text := fragment
      toolCallId := ToolCallContext.ids ctx index
      toolCallName := (ctx[index]?.getD {}).name }], ctx) := by
  rw [claudeBlockDelta, Json.valueInt32_of_some truncate j _ 0 index place (by omega) (by omega),
    Json.valueJson_of_object j _ _ (Json.isObject_of_find change), change]
  simp only [lift_ok, Outcome.ok_bind, Option.getD_some, Json.valueStr_of_some _ _ [] _ partly,
    Json.valueStr_of_some _ _ [] _ text, if_pos, Int.toNat_natCast]
  rw [if_neg (by decide), if_neg (by omega)]
  rfl

theorem claudeBlockDelta_other (place : hasType isArithmetic j (ascii "index") = true)
    (change : j.find (ascii "delta") = some delta)
    (other : delta.find (ascii "type") = some (.str kind)) (ne : kind ≠ ascii "input_json_delta")
    (text : hasType isString delta (ascii "text") = true) :
    ∃ ds, claudeBlockDelta truncate j ctx = .ok (ds, ctx) ∧ partials ds = [] := by
  obtain ⟨i, hi⟩ := (Json.valueInt32_returns_iff truncate j (ascii "index") 0).mpr
    ⟨Json.isObject_of_find change, place⟩
  obtain ⟨t, ht⟩ := (Json.valueStr_returns_iff delta (ascii "text") []).mpr
    ⟨Json.isObject_of_find other, text⟩
  rw [claudeBlockDelta, hi, Json.valueJson_of_object j _ _ (Json.isObject_of_find change), change]
  simp only [lift_ok, Outcome.ok_bind, Option.getD_some, Json.valueStr_of_some _ _ [] _ other,
    ht, if_neg ne]
  by_cases htext : kind = ascii "text_delta"
  · exact ⟨[{ kind := .textFragment, text := t }], if_pos htext, rfl⟩
  · exact ⟨[], if_neg htext, rfl⟩

theorem claudeMessageDelta_usage (counts : j.find (ascii "usage") = some usage)
    (object : usage.IsObject) (input : hasType isArithmetic usage (ascii "input_tokens") = true)
    (output : hasType isArithmetic usage (ascii "output_tokens") = true) :
    ∃ ds, claudeMessageDelta truncate j ctx = .ok (ds, ctx) ∧ partials ds = [] := by
  obtain ⟨d, hd, hsilent⟩ := usageDelta_ok truncate usage _ _ object input output
  rw [claudeMessageDelta, Json.valueJson_of_object j _ _ (Json.isObject_of_find counts), counts]
  simp only [lift_ok, Outcome.ok_bind, Option.getD_some, hd]
  split
  · exact ⟨[d], rfl, hsilent⟩
  · exact ⟨[], rfl, rfl⟩

theorem claudeDispatch_eq (payload : Bytes) (hparse : codec.parse payload = some j)
    (htype : j.find (ascii "type") = some (.str kind)) :
    claudeDispatch codec truncate payload ctx =
      if kind = ascii "content_block_start" then claudeBlockStart truncate j ctx
      else if kind = ascii "content_block_delta" then claudeBlockDelta truncate j ctx
      else if kind = ascii "message_delta" then claudeMessageDelta truncate j ctx
      else .ok ([], ctx) := by
  obtain ⟨members, rfl⟩ := (Json.isObject_of_find htype).exists_members
  rw [claudeDispatch, hparse]
  simp only [claudeEvent, Json.valueStr_of_some _ _ [] kind htype, lift_ok, Outcome.ok_bind]
  rfl

theorem claudeDispatch_follows (payload : Bytes) (moves : List Move)
    (h : Tells codec ClaudeTells payload moves) :
    ∃ ds ctx', claudeDispatch codec truncate payload ctx = .ok (ds, ctx') ∧
      Follows (ToolCallContext.ids ctx) (ToolCallContext.ids ctx') ds moves := by
  obtain ⟨j, hparse, hevent⟩ := h
  -- Only the start of a tool block and a piece of its input touch the table or the calls.
  cases hevent with
  | toolUse type place fits started tool own named =>
    rw [claudeDispatch_eq codec truncate ctx payload hparse type, if_pos rfl,
      claudeBlockStart_toolUse truncate ctx place fits started tool own named]
    refine ⟨_, _, rfl, fun rest => ?_⟩
    rw [ids_setContext]
    rfl
  | otherBlock type place started other ne =>
    rw [claudeDispatch_eq codec truncate ctx payload hparse type, if_pos rfl,
      claudeBlockStart_other truncate ctx place started other ne]
    exact ⟨_, _, rfl, Follows.silent _ _ rfl⟩
  | inputJson type place fits change partly text =>
    rw [claudeDispatch_eq codec truncate ctx payload hparse type, if_neg (by decide), if_pos rfl,
      claudeBlockDelta_inputJson truncate ctx place fits change partly text]
    exact ⟨_, _, rfl, Follows.argument _ _ _ rfl rfl⟩
  | otherDelta type place change other ne text =>
    obtain ⟨ds, hds, hsilent⟩ := claudeBlockDelta_other truncate ctx place change other ne text
    rw [claudeDispatch_eq codec truncate ctx payload hparse type, if_neg (by decide),
      if_pos rfl, hds]
    exact ⟨_, _, rfl, Follows.silent _ _ hsilent⟩
  | usage type counts object input output =>
    obtain ⟨ds, hds, hsilent⟩ := claudeMessageDelta_usage truncate ctx counts object input output
    rw [claudeDispatch_eq codec truncate ctx payload hparse type, if_neg (by decide),
      if_neg (by decide), if_pos rfl, hds]
    exact ⟨_, _, rfl, Follows.silent _ _ hsilent⟩
  | other type start change counts =>
    rw [claudeDispatch_eq codec truncate ctx payload hparse type, if_neg start, if_neg change,
      if_neg counts]
    exact ⟨_, _, rfl, Follows.silent _ _ rfl⟩

end Claude

theorem claudeDeltas_groups {payloads : List Bytes} {movess : List (List Move)}
    {calls : List IndexedCall} (h : List.Forall₂ (Tells codec ClaudeTells) payloads movess)
    (hcalls : Carries movess.flatten calls) :
    ∃ deltas, claudeDeltas codec truncate payloads = .ok deltas ∧
      (groups deltas).Perm (calls.map fun c => (c.id, c.arguments)) := by
  obtain ⟨ds, hrun, hplay⟩ := runEvents_follows ToolCallContext.ids (Tells codec ClaudeTells)
    (fun payload moves ctx htells => claudeDispatch_follows codec truncate ctx payload moves htells)
      h []
  refine ⟨ds, hrun, ?_⟩
  rw [groups, hplay]
  exact hcalls.groups_perm _

/-! ## OpenAI -/

/-- An entry of `tool_calls` may name the id of its index, and may carry a fragment. -/
inductive EntryTells : Json → List Move → Prop where
  | entry {tc func : Json} {index : Nat} (place : tc.find (ascii "index") = some (.int index))
      (fits : index < 2 ^ 31)
      (function : (tc.find (ascii "function")).getD (.obj []) = func) (object : func.IsObject) :
      EntryTells tc ((tc.findStr (ascii "id")).toList.map (.opens index) ++
        (func.findStr (ascii "arguments")).toList.map (.argument index))

inductive OpenaiTells : Json → List Move → Prop where
  | choice {j choice delta : Json} {more : List Json} {movess : List (List Move)}
      (first : arrayAt j (ascii "choices") = choice :: more)
      (change : choice.find (ascii "delta") = some delta)
      (entries : List.Forall₂ EntryTells (arrayAt delta (ascii "tool_calls")) movess)
      (counts : UsageTyped j (ascii "usage") (ascii "prompt_tokens") (ascii "completion_tokens")) :
      OpenaiTells j movess.flatten
  | noChoice {j : Json} (object : j.IsObject) (none : arrayAt j (ascii "choices") = [])
      (counts : UsageTyped j (ascii "usage") (ascii "prompt_tokens") (ascii "completion_tokens")) :
      OpenaiTells j []

/-- The stream ends with a payload that is no event. -/
def OpenaiPayload (payload : Bytes) (moves : List Move) : Prop :=
  (payload = ascii "[DONE]" ∧ moves = []) ∨
    (payload ≠ ascii "[DONE]" ∧ Tells codec OpenaiTells payload moves)

def ToolTable.ids (ctx : ToolTable) (index : Nat) : Bytes := (ctx index).1

section OpenAI

variable (ctx : ToolTable)

theorem setId_follows (index : Nat) (id : Option Bytes) :
    Follows ctx.ids (ctx.setId index id).ids [] (id.toList.map (.opens index)) := by
  cases id with
  | none => exact Follows.silent _ _ rfl
  | some id =>
    have hids : ToolTable.ids (ctx.setId index (some id)) = Function.update ctx.ids index id := by
      funext k
      by_cases hk : k = index
      · subst hk
        rw [Function.update_self, ToolTable.ids, ToolTable.setId, Function.update_self]
      · rw [Function.update_of_ne hk, ToolTable.ids, ToolTable.setId,
          Function.update_of_ne (by omega)]
        rfl
    intro rest
    rw [hids]
    rfl

theorem ids_setName (index : Nat) (name : Option Bytes) :
    ToolTable.ids (ctx.setName index name) = ctx.ids := by
  cases name with
  | none => rfl
  | some name =>
    funext k
    by_cases hk : k = index
    · subst hk
      rw [ToolTable.ids, ToolTable.setName, Function.update_self]
      rfl
    · rw [ToolTable.ids, ToolTable.setName, Function.update_of_ne (by omega)]
      rfl

theorem openaiToolCall_follows (tc : Json) (moves : List Move) (h : EntryTells tc moves) :
    ∃ ds ctx', openaiToolCall truncate tc ctx = .ok (ds, ctx') ∧
      Follows ctx.ids ctx'.ids ds moves := by
  obtain ⟨place, fits, function, object⟩ := h
  rename_i func index
  rw [openaiToolCall, Json.valueInt32_of_some truncate tc _ 0 index place (by omega) (by omega),
    Json.valueJson_of_object tc _ _ (Json.isObject_of_find place), function]
  simp only [lift_ok, Outcome.ok_bind]
  have hopen := setId_follows ctx index (tc.findStr (ascii "id"))
  have hname := ids_setName (ctx.setId index (tc.findStr (ascii "id"))) index
    (func.findStr (ascii "name"))
  cases func.findStr (ascii "arguments") with
  | none =>
    refine ⟨[], _, rfl, ?_⟩
    rw [hname]
    exact hopen.trans (Follows.silent _ [] rfl)
  | some args =>
    refine ⟨_, _, rfl, ?_⟩
    rw [hname]
    exact hopen.trans (Follows.argument _ _ _ rfl (congrFun hname index))

theorem openaiToolCalls_follows {entries : List Json} {movess : List (List Move)}
    (h : List.Forall₂ EntryTells entries movess) :
    ∃ ds ctx', openaiToolCalls truncate entries ctx = .ok (ds, ctx') ∧
      Follows ctx.ids ctx'.ids ds movess.flatten := by
  induction h generalizing ctx with
  | nil => exact ⟨[], ctx, rfl, Follows.silent _ _ rfl⟩
  | cons htells _ ih =>
    obtain ⟨ds, ctx', hcall, hfollows⟩ := openaiToolCall_follows truncate ctx _ _ htells
    obtain ⟨more, ctx'', hmore, hthen⟩ := ih ctx'
    refine ⟨ds ++ more, ctx'', ?_, hfollows.trans hthen⟩
    rw [openaiToolCalls, hcall]
    simp only [Outcome.ok_bind, hmore]
    rfl

theorem openaiChoice_follows {choice delta : Json} {movess : List (List Move)}
    (change : choice.find (ascii "delta") = some delta)
    (entries : List.Forall₂ EntryTells (arrayAt delta (ascii "tool_calls")) movess) :
    ∃ ds ctx', openaiChoice truncate choice ctx = .ok (ds, ctx') ∧
      Follows ctx.ids ctx'.ids ds movess.flatten := by
  obtain ⟨calls, ctx', hcalls, hfollows⟩ := openaiToolCalls_follows truncate ctx entries
  rw [openaiChoice, Json.valueJson_of_object choice _ _ (Json.isObject_of_find change), change]
  simp only [lift_ok, Outcome.ok_bind, Option.getD_some, hcalls]
  refine ⟨_, ctx', rfl, ?_⟩
  have hcontent : ∀ text : Bytes,
      Follows ctx.ids ctx.ids (if text = [] then [] else [{ kind := .textFragment, text }]) [] := by
    intro text
    apply Follows.silent
    split <;> rfl
  exact (hcontent _).trans hfollows

theorem openaiEvent_follows {j : Json} {moves : List Move} (h : OpenaiTells j moves) :
    ∃ ds ctx', openaiEvent truncate j ctx = .ok (ds, ctx') ∧ Follows ctx.ids ctx'.ids ds moves := by
  cases h with
  | choice first change entries counts =>
    obtain ⟨ds, ctx', hchoice, hfollows⟩ := openaiChoice_follows truncate ctx change entries
    obtain ⟨usage, husage, hsilent⟩ := usageAt_ok truncate j _ _ _ counts
    refine ⟨ds ++ usage, ctx', ?_, ?_⟩
    · simp only [openaiEvent, first, hchoice, Outcome.ok_bind, openaiUsage, husage]
      rfl
    · rw [← List.append_nil (List.flatten _)]
      exact hfollows.trans (Follows.silent _ _ hsilent)
  | noChoice object none counts =>
    obtain ⟨usage, husage, hsilent⟩ := usageAt_ok truncate j _ _ _ counts
    refine ⟨usage, ctx, ?_, Follows.silent _ _ hsilent⟩
    simp only [openaiEvent, none, Outcome.ok_bind, openaiUsage, husage]
    rfl

theorem OpenaiTells.isObject {j : Json} {moves : List Move} (h : OpenaiTells j moves) :
    j.IsObject := by
  cases h with
  | choice first =>
    cases j with
    | obj members => trivial
    | _ => cases first
  | noChoice object => exact object

theorem openaiDispatch_follows (payload : Bytes) (moves : List Move)
    (h : OpenaiPayload codec payload moves) :
    ∃ ds ctx', openaiDispatch codec truncate payload ctx = .ok (ds, ctx') ∧
      Follows ctx.ids ctx'.ids ds moves := by
  rcases h with ⟨rfl, rfl⟩ | ⟨hne, j, hparse, hevent⟩
  · exact ⟨[], ctx, if_pos rfl, Follows.silent _ _ rfl⟩
  · obtain ⟨members, rfl⟩ := hevent.isObject.exists_members
    rw [openaiDispatch, if_neg hne, hparse]
    exact openaiEvent_follows truncate ctx hevent

end OpenAI

theorem openaiDeltas_groups {payloads : List Bytes} {movess : List (List Move)}
    {calls : List IndexedCall} (h : List.Forall₂ (OpenaiPayload codec) payloads movess)
    (hcalls : Carries movess.flatten calls) :
    ∃ deltas, openaiDeltas codec truncate payloads = .ok deltas ∧
      (groups deltas).Perm (calls.map fun c => (c.id, c.arguments)) := by
  obtain ⟨ds, hrun, hplay⟩ := runEvents_follows ToolTable.ids (OpenaiPayload codec)
    (fun payload moves ctx htells => openaiDispatch_follows codec truncate ctx payload moves htells)
      h
    (fun _ => ([], []))
  refine ⟨ds, hrun, ?_⟩
  rw [groups, hplay]
  exact hcalls.groups_perm _

/-! ## Gemini -/

/-- A call comes in one piece, and without an id. -/
structure FunctionCall where
  name : Bytes
  args : Json

inductive PartTells : Json → List FunctionCall → Prop where
  | text {part : Json} {t : Bytes} (text : part.findStr (ascii "text") = some t) : PartTells part []
  | call {part fc args : Json} {name : Bytes} (text : part.findStr (ascii "text") = none)
      (call : part.find (ascii "functionCall") = some fc)
      (named : fc.find (ascii "name") = some (.str name))
      (given : (fc.find (ascii "args")).getD (.obj []) = args) : PartTells part [{ name, args }]
  | other {part : Json} (text : part.findStr (ascii "text") = none) (call :
      part.find (ascii "functionCall") = none) :
      PartTells part []

inductive GeminiTells : Json → List FunctionCall → Prop where
  | candidate {j cand content : Json} {more parts : List Json} {callss : List (List FunctionCall)}
      (first : arrayAt j (ascii "candidates") = cand :: more) (object : cand.IsObject)
      (body : (cand.find (ascii "content")).getD (.obj []) = content)
      (contentObject : content.IsObject)
      (listed : (content.find (ascii "parts")).getD (.arr []) = .arr parts)
      (told : List.Forall₂ PartTells parts callss)
      (counts : UsageTyped j (ascii "usageMetadata") (ascii "promptTokenCount")
        (ascii "candidatesTokenCount")) :
      GeminiTells j callss.flatten
  | noCandidate {j : Json} (object : j.IsObject) (none : arrayAt j (ascii "candidates") = [])
      (counts : UsageTyped j (ascii "usageMetadata") (ascii "promptTokenCount")
        (ascii "candidatesTokenCount")) :
      GeminiTells j []

/-- Id and text of the only delta of a call. -/
def FunctionCall.piece (c : FunctionCall) : Bytes × Bytes :=
  (geminiId c.name, (codec.dump c.args).getD [])

/-- The deltas are those of the calls, each with the text of its arguments. -/
structure Emits (ds : List ProviderDelta) (calls : List FunctionCall) : Prop where
  pieces : partials ds = calls.map (FunctionCall.piece codec)
  dumps : ∀ c ∈ calls, (codec.dump c.args).isSome

theorem Emits.silent (ds : List ProviderDelta) (h : partials ds = []) : Emits codec ds [] :=
  ⟨h, by simp⟩

section Gemini

variable {codec}

theorem Emits.append {ds ds' : List ProviderDelta} {calls calls' : List FunctionCall}
    (h : Emits codec ds calls) (h' : Emits codec ds' calls') :
    Emits codec (ds ++ ds') (calls ++ calls') := by
  refine ⟨?_, List.forall_mem_append.mpr ⟨h.dumps, h'.dumps⟩⟩
  rw [partials_append, h.pieces, h'.pieces, List.map_append]

theorem find_of_arrayAt {j item : Json} {items : List Json} {key : Bytes}
    (h : arrayAt j key = item :: items) : j.find key = some (.arr (item :: items)) := by
  unfold arrayAt at h
  split at h
  · rename_i items' hfind
    rw [hfind, h]
  · cases h

variable (hcodec : codec.ThrowsOnText)

include hcodec

theorem dumps_getD {j fallback v : Json} {key : Bytes} (hj : (codec.dump j).isSome)
    (hfallback : (codec.dump fallback).isSome) (h : (j.find key).getD fallback = v) :
    (codec.dump v).isSome := by
  subst h
  cases hfind : j.find key with
  | none => exact hfallback
  | some v => exact hcodec.find_dumps hj hfind

theorem empty_dumps : (codec.dump (.obj [])).isSome := hcodec.obj_dumps [] rfl (by simp)

theorem geminiPart_emits {part : Json} {calls : List FunctionCall} (h : PartTells part calls)
    (hpart : (codec.dump part).isSome) : ∃ ds, geminiPart codec part = .ok ds ∧
      Emits codec ds calls := by
  cases h with
  | text text =>
    rw [geminiPart, text]
    refine ⟨_, rfl, Emits.silent codec _ ?_⟩
    split <;> rfl
  | other text call =>
    rw [geminiPart, text, call]
    exact ⟨[], rfl, Emits.silent codec _ rfl⟩
  | call text call named given =>
    have hdumps := dumps_getD hcodec (hcodec.find_dumps hpart call) (empty_dumps hcodec) given
    obtain ⟨json, hjson⟩ := Option.isSome_iff_exists.mp hdumps
    obtain ⟨members, rfl⟩ := (Json.isObject_of_find named).exists_members
    rw [geminiPart, text, call]
    simp only [Json.valueStr_of_some _ _ [] _ named,
      Json.valueJson_of_object (.obj members) _ _ trivial, given, lift_ok,
      Outcome.ok_bind, hjson]
    refine ⟨_, rfl, ?_, List.forall_mem_singleton.mpr hdumps⟩
    rw [List.map_singleton, FunctionCall.piece, hjson]
    rfl

theorem geminiParts_emit {parts : List Json} {callss : List (List FunctionCall)}
    (h : List.Forall₂ PartTells parts callss) (hparts : ∀ part ∈ parts, (codec.dump part).isSome) :
    ∃ dss, parts.mapM (geminiPart codec) = .ok dss ∧ Emits codec dss.flatten callss.flatten := by
  induction h with
  | nil => exact ⟨[], rfl, Emits.silent codec _ rfl⟩
  | cons htells _ ih =>
    obtain ⟨ds, hds, hemits⟩ := geminiPart_emits hcodec htells (hparts _ List.mem_cons_self)
    obtain ⟨dss, hdss, hmore⟩ := ih fun part hpart => hparts part (List.mem_cons_of_mem _ hpart)
    refine ⟨ds :: dss, ?_, hemits.append hmore⟩
    rw [List.mapM_cons, hds, hdss]
    rfl

theorem geminiDispatch_emits {payload : Bytes} {calls : List FunctionCall}
    (hparsed : ∀ text j, codec.parse text = some j → (codec.dump j).isSome)
    (h : Tells codec GeminiTells payload calls) :
    ∃ ds, geminiDispatch codec truncate payload = .ok ds ∧ Emits codec ds calls := by
  obtain ⟨j, hparse, htells⟩ := h
  have hj := hparsed payload j hparse
  cases htells with
  | @candidate cand content more parts callss first object body contentObject listed told counts =>
    obtain ⟨usage, husage, hsilent⟩ := usageAt_ok truncate j _ _ _ counts
    have hfirst := find_of_arrayAt first
    obtain ⟨members, rfl⟩ := (Json.isObject_of_find hfirst).exists_members
    -- The arguments are dumped again. They come from a parsed text, so this cannot throw.
    have hcand := (hcodec.arr_dumps _).mp (hcodec.find_dumps hj hfirst) cand List.mem_cons_self
    have hcontent := dumps_getD hcodec hcand (empty_dumps hcodec) body
    have hlist := dumps_getD hcodec hcontent ((hcodec.arr_dumps []).mpr (by simp)) listed
    obtain ⟨dss, hdss, hemits⟩ := geminiParts_emit hcodec told ((hcodec.arr_dumps parts).mp hlist)
    refine ⟨dss.flatten ++ usage, ?_, ?_⟩
    · rw [geminiDispatch, hparse]
      simp only [first, geminiCandidate, Json.valueJson_of_object cand _ _ object, body,
        Json.valueJson_of_object content _ _ contentObject, listed, lift_ok, Outcome.ok_bind,
        Json.elements_arr, hdss,
        geminiUsage, husage]
      rfl
    · rw [← List.append_nil callss.flatten]
      exact hemits.append (Emits.silent codec usage hsilent)
  | noCandidate object none counts =>
    obtain ⟨usage, husage, hsilent⟩ := usageAt_ok truncate j _ _ _ counts
    obtain ⟨members, rfl⟩ := object.exists_members
    refine ⟨usage, ?_, Emits.silent codec _ hsilent⟩
    rw [geminiDispatch, hparse]
    simp only [none, Outcome.ok_bind, geminiUsage, husage]
    rfl

theorem geminiDeltas_emit (hparsed : ∀ text j, codec.parse text = some j → (codec.dump j).isSome)
    {payloads : List Bytes} {callss : List (List FunctionCall)}
    (h : List.Forall₂ (Tells codec GeminiTells) payloads callss) :
    ∃ ds, geminiDeltas codec truncate payloads = .ok ds ∧ Emits codec ds callss.flatten := by
  unfold geminiDeltas
  induction h with
  | nil => exact ⟨[], rfl, Emits.silent codec _ rfl⟩
  | cons htells _ ih =>
    obtain ⟨ds, hds, hemits⟩ := geminiDispatch_emits truncate hcodec hparsed htells
    obtain ⟨more, hmore, hthen⟩ := ih
    refine ⟨ds ++ more, ?_, hemits.append hthen⟩
    rw [runEvents, hds]
    have hnext : (Except.map (fun x => (x, ())) (.ok ds : Except Fault (List ProviderDelta))) =
        .ok (ds, ()) := rfl
    simp only [hnext, Outcome.ok_bind, hmore]
    rfl

theorem geminiDeltas_groups_iff (hparsed : ∀ text j, codec.parse text = some j →
    (codec.dump j).isSome)
    {payloads : List Bytes} {callss : List (List FunctionCall)}
    (h : List.Forall₂ (Tells codec GeminiTells) payloads callss) :
    (∃ deltas, geminiDeltas codec truncate payloads = .ok deltas ∧
      ((groups deltas).map fun g => codec.parse g.2).Perm
        (callss.flatten.map fun c => some c.args)) ↔
      (callss.flatten.map (·.name)).Nodup := by
  obtain ⟨ds, hrun, hpieces, hdumps⟩ := geminiDeltas_emit truncate hcodec hparsed h
  generalize callss.flatten = calls at hpieces hdumps ⊢
  have hkeys : ((partials ds).map (·.1)) = (calls.map (·.name)).map geminiId := by
    rw [hpieces, List.map_map, List.map_map]
    rfl
  have hinj : Function.Injective geminiId := List.append_right_injective (ascii "gemini-fc-")
  constructor
  · rintro ⟨deltas, hdeltas, hperm⟩
    obtain rfl := Except.ok.inj (hrun.symm.trans hdeltas)
    -- With one name less among the ids there is a group less than there are calls.
    have hlength := hperm.length_eq
    rw [List.length_map, List.length_map, groups, Merge.groups, List.length_map, hkeys] at hlength
    apply (List.nodup_map_iff hinj).mp
    apply Merge.nodup_of_distinct_length
    rw [hlength, List.length_map, List.length_map]
  · intro hnodup
    refine ⟨ds, hrun, ?_⟩
    have hgroups := Merge.groups_of_nodup (partials ds) (by rw [hkeys]; exact hnodup.map hinj)
    refine (hgroups.map _).trans (List.Perm.of_eq ?_)
    rw [hpieces, List.map_map]
    apply List.map_congr_left
    intro c hc
    obtain ⟨text, htext⟩ := Option.isSome_iff_exists.mp (hdumps c hc)
    rw [Function.comp_apply, FunctionCall.piece, htext]
    exact codec.parse_dump c.args text htext

end Gemini

/-- **Tool calls by id.** For every interleaving of their fragments, Claude's and OpenAI's calls
come together again, one group for each id. Gemini's do if and only if no two calls have the same
name. -/
theorem tool_calls_grouped (codec : JsonCodec) (truncate : Bytes → Int)
    (hcodec : codec.ThrowsOnText)
    (hparsed : ∀ text j, codec.parse text = some j → (codec.dump j).isSome) :
    (∀ payloads movess calls, List.Forall₂ (Tells codec ClaudeTells) payloads movess →
      Carries movess.flatten calls → ∃ deltas, claudeDeltas codec truncate payloads = .ok deltas ∧
        (groups deltas).Perm (calls.map fun c => (c.id, c.arguments))) ∧
    (∀ payloads movess calls, List.Forall₂ (OpenaiPayload codec) payloads movess →
      Carries movess.flatten calls → ∃ deltas, openaiDeltas codec truncate payloads = .ok deltas ∧
        (groups deltas).Perm (calls.map fun c => (c.id, c.arguments))) ∧
    (∀ payloads callss, List.Forall₂ (Tells codec GeminiTells) payloads callss →
      ((∃ deltas, geminiDeltas codec truncate payloads = .ok deltas ∧
        ((groups deltas).map fun g => codec.parse g.2).Perm
          (callss.flatten.map fun c => some c.args)) ↔
        (callss.flatten.map (·.name)).Nodup)) := by
  refine ⟨?_, ?_, ?_⟩
  · intro payloads movess calls htells hcalls
    exact claudeDeltas_groups codec truncate htells hcalls
  · intro payloads movess calls htells hcalls
    exact openaiDeltas_groups codec truncate htells hcalls
  · intro payloads callss htells
    exact geminiDeltas_groups_iff truncate hcodec hparsed htells

/-! ### Two calls of one tool -/

def claudeStart (index : Int) (id : Bytes) : Json :=
  .obj [(ascii "content_block",
      .obj [(ascii "id", .str id), (ascii "name", .str (ascii "t")),
        (ascii "type", .str (ascii "tool_use"))]),
    (ascii "index", .int index), (ascii "type", .str (ascii "content_block_start"))]

def claudeArgument (index : Int) (fragment : Bytes) : Json :=
  .obj [(ascii "delta",
      .obj [(ascii "partial_json", .str fragment),
        (ascii "type", .str (ascii "input_json_delta"))]),
    (ascii "index", .int index), (ascii "type", .str (ascii "content_block_delta"))]

def openaiEntry (index : Int) (id fragment : Bytes) : Json :=
  .obj [(ascii "choices", .arr [.obj [(ascii "delta", .obj [(ascii "tool_calls", .arr [
    .obj [(ascii "function", .obj [(ascii "arguments", .str fragment)]), (ascii "id", .str id),
      (ascii "index", .int index)]])])]])]

def geminiCall (name : Bytes) : Json :=
  .obj [(ascii "candidates", .arr [.obj [(ascii "content", .obj [(ascii "parts", .arr [
    .obj [(ascii "functionCall", .obj [(ascii "args", .obj []), (ascii "name", .str name)])]])])]])]

theorem parse_write {j : Json} (h : Json.plain j = true) :
    Json.plainCodec.parse (Json.write j) = some j :=
  Json.plainCodec.parse_dump j _ (if_pos h)

theorem tells_write {μ : Type} {event : Json → List μ → Prop} {j : Json} {moves : List μ}
    (hplain : Json.plain j = true) (h : event j moves) :
    Tells Json.plainCodec event (Json.write j) moves :=
  ⟨j, parse_write hplain, h⟩

theorem claudeStart_tells (index : Nat) (id : Bytes) (fits : index < 2 ^ 31) :
    Tells Json.plainCodec ClaudeTells (Json.write (claudeStart index id)) [.opens index id] :=
  tells_write (by simp [claudeStart, Json.plain, Json.plainMembers, Json.plainMember])
    (.toolUse rfl rfl fits rfl rfl rfl rfl)

theorem claudeArgument_tells (index : Nat) (fragment : Bytes) (fits : index < 2 ^ 31) :
    Tells Json.plainCodec ClaudeTells (Json.write (claudeArgument index fragment))
      [.argument index fragment] :=
  tells_write (by simp [claudeArgument, Json.plain, Json.plainMembers, Json.plainMember])
    (.inputJson rfl rfl fits rfl rfl rfl)

theorem usageTyped_of_none {j : Json} {key inputKey outputKey : Bytes} (h : j.find key = none) :
    UsageTyped j key inputKey outputKey := by
  intro usage husage
  rw [h] at husage
  cases husage

theorem openaiEntry_tells (index : Nat) (id fragment : Bytes) (fits : index < 2 ^ 31) :
    OpenaiPayload Json.plainCodec (Json.write (openaiEntry index id fragment))
      [.opens index id, .argument index fragment] := by
  right
  refine ⟨fun h => ?_, tells_write ?_ ?_⟩
  · have hhead : ch '\x7b' = ch '[' := Option.some.inj (congrArg List.head? h)
    exact absurd hhead (by decide)
  · simp [openaiEntry, Json.plain, Json.plainItems, Json.plainMembers, Json.plainMember]
  · have hentry : List.Forall₂ EntryTells
        [.obj [(ascii "function", .obj [(ascii "arguments", .str fragment)]), (ascii "id", .str id),
          (ascii "index", .int index)]]
        [[.opens index id, .argument index fragment]] := .cons (.entry rfl fits rfl trivial) .nil
    exact OpenaiTells.choice (j := openaiEntry index id fragment) rfl rfl hentry
      (usageTyped_of_none rfl)

theorem geminiCall_tells (name : Bytes) :
    Tells Json.plainCodec GeminiTells (Json.write (geminiCall name)) [⟨name, .obj []⟩] := by
  apply tells_write
  · simp [geminiCall, Json.plain, Json.plainItems, Json.plainMembers, Json.plainMember]
  · have hpart : List.Forall₂ PartTells
        [.obj [(ascii "functionCall", .obj [(ascii "args", .obj []), (ascii "name", .str name)])]]
        [[⟨name, .obj []⟩]] := .cons (.call rfl rfl rfl rfl) .nil
    exact GeminiTells.candidate (j := geminiCall name) rfl trivial rfl trivial rfl hpart
      (usageTyped_of_none rfl)

/-- Two calls of Claude whose fragments alternate. -/
def sampleMoves : List (List Move) :=
  [[.opens 0 (ascii "a")], [.opens 1 (ascii "b")], [.argument 0 (ascii "[1")],
    [.argument 1 (ascii "[2")], [.argument 0 (ascii "]")], [.argument 1 (ascii "]")]]

def samplePayloads : List Bytes :=
  [Json.write (claudeStart 0 (ascii "a")), Json.write (claudeStart 1 (ascii "b")),
    Json.write (claudeArgument 0 (ascii "[1")), Json.write (claudeArgument 1 (ascii "[2")),
    Json.write (claudeArgument 0 (ascii "]")), Json.write (claudeArgument 1 (ascii "]"))]

def sampleCalls : List IndexedCall := [⟨0, ascii "a", ascii "[1]"⟩, ⟨1, ascii "b", ascii "[2]"⟩]

theorem samplePayloads_tell :
    List.Forall₂ (Tells Json.plainCodec ClaudeTells) samplePayloads sampleMoves :=
  .cons (claudeStart_tells 0 _ (by decide)) (.cons (claudeStart_tells 1 _ (by decide))
    (.cons (claudeArgument_tells 0 _ (by decide)) (.cons (claudeArgument_tells 1 _ (by decide))
      (.cons (claudeArgument_tells 0 _ (by decide))
        (.cons (claudeArgument_tells 1 _ (by decide)) .nil)))))

theorem sampleMoves_carry : Carries sampleMoves.flatten sampleCalls where
  own_index := by decide
  own_id := by decide
  opened index id h := by
    simp only [sampleMoves, List.flatten_cons, List.flatten_nil, List.cons_append, List.nil_append,
      List.mem_cons, Move.opens.injEq, reduceCtorEq, List.not_mem_nil, or_false] at h
    rcases h with ⟨rfl, rfl⟩ | ⟨rfl, rfl⟩
    · exact ⟨_, List.mem_cons_self, rfl, rfl⟩
    · exact ⟨_, List.mem_cons_of_mem _ List.mem_cons_self, rfl, rfl⟩
  started := by decide
  fragments := by decide

theorem sample_calls_grouped :
    (∃ deltas, claudeDeltas Json.plainCodec (fun _ => 0) samplePayloads = .ok deltas ∧
      (groups deltas).Perm [(ascii "a", ascii "[1]"), (ascii "b", ascii "[2]")]) ∧
    (∃ deltas, openaiDeltas Json.plainCodec (fun _ => 0)
      [Json.write (openaiEntry 0 (ascii "a") (ascii "[1]"))] = .ok deltas ∧
      (groups deltas).Perm [(ascii "a", ascii "[1]")]) ∧
    (∃ deltas, geminiDeltas Json.plainCodec (fun _ => 0)
        [Json.write (geminiCall (ascii "f")), Json.write (geminiCall (ascii "g"))] = .ok deltas ∧
      ((groups deltas).map fun g => Json.plainCodec.parse g.2).Perm [some (.obj []),
        some (.obj [])]) := by
  obtain ⟨hclaude, hopenai, hgemini⟩ :=
    tool_calls_grouped Json.plainCodec (fun _ => 0) Json.plainCodec_throwsOnText
      Json.plainCodec_parsed_dumps
  refine ⟨hclaude _ _ sampleCalls samplePayloads_tell sampleMoves_carry, ?_, ?_⟩
  · apply hopenai _ [[.opens 0 (ascii "a"), .argument 0 (ascii "[1]")]]
      [⟨0, ascii "a", ascii "[1]"⟩]
    · exact .cons (openaiEntry_tells 0 _ _ (by decide)) .nil
    · refine ⟨by decide, by decide, ?_, by decide, by decide⟩
      intro index id h
      simp only [List.flatten_cons, List.flatten_nil, List.append_nil, List.mem_cons,
        Move.opens.injEq, reduceCtorEq, List.not_mem_nil, or_false] at h
      obtain ⟨rfl, rfl⟩ := h
      exact ⟨_, List.mem_cons_self, rfl, rfl⟩
  · have htells : List.Forall₂ (Tells Json.plainCodec GeminiTells)
        [Json.write (geminiCall (ascii "f")), Json.write (geminiCall (ascii "g"))]
        [[⟨ascii "f", .obj []⟩], [⟨ascii "g", .obj []⟩]] :=
      .cons (geminiCall_tells _) (.cons (geminiCall_tells _) .nil)
    exact (hgemini _ _ htells).mpr (by decide)

theorem same_tool_joined :
    List.Forall₂ (Tells Json.plainCodec GeminiTells)
      [Json.write (geminiCall (ascii "f")), Json.write (geminiCall (ascii "f"))]
      [[⟨ascii "f", .obj []⟩], [⟨ascii "f", .obj []⟩]] ∧
    ¬ ∃ deltas, geminiDeltas Json.plainCodec (fun _ => 0)
        [Json.write (geminiCall (ascii "f")), Json.write (geminiCall (ascii "f"))] = .ok deltas ∧
      ((groups deltas).map fun g => Json.plainCodec.parse g.2).Perm [some (.obj []),
        some (.obj [])] := by
  -- Gemini calls one tool twice: both calls come under one id.
  have htells : List.Forall₂ (Tells Json.plainCodec GeminiTells)
      [Json.write (geminiCall (ascii "f")), Json.write (geminiCall (ascii "f"))]
      [[⟨ascii "f", .obj []⟩], [⟨ascii "f", .obj []⟩]] :=
    .cons (geminiCall_tells _) (.cons (geminiCall_tells _) .nil)
  refine ⟨htells, fun h => ?_⟩
  have hnodup := (geminiDeltas_groups_iff (fun _ => 0) Json.plainCodec_throwsOnText
    Json.plainCodec_parsed_dumps
    htells).mp h
  exact absurd hnodup (by decide)

end Euxis.Inference
