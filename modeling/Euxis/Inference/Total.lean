import Euxis.Inference.ToolCalls

/-!
# When an event stops the stream

The fields that `dispatch_event` reads must have the types it reads them at, and a tool call of
Claude must begin at an index that is not negative. Any other event ends the stream with an
exception or outside of the table.
-/

namespace Euxis.Inference

open Json (hasType isArithmetic isString)
open Outcome (Returns returns_bind_const returns_bind_pure)

variable (codec : JsonCodec) (truncate : Bytes → Int)

/-! ## What the events must be -/

/-- The `int` that is read. -/
def intAt (j : Json) (key : Bytes) : Int :=
  match Json.valueInt32 truncate j key 0 with
  | .ok i => i
  | .error _ => 0

structure BlockStartTyped (j block : Json) : Prop where
  place : hasType isArithmetic j (ascii "index") = true
  object : block.IsObject
  type : hasType isString block (ascii "type") = true
  tool : block.findStr (ascii "type") = some (ascii "tool_use") →
    0 ≤ intAt truncate j (ascii "index") ∧
    hasType isString block (ascii "id") = true ∧ hasType isString block (ascii "name") = true

structure BlockDeltaTyped (j delta : Json) : Prop where
  place : hasType isArithmetic j (ascii "index") = true
  object : delta.IsObject
  type : hasType isString delta (ascii "type") = true
  text : delta.findStr (ascii "type") = some (ascii "text_delta") →
    hasType isString delta (ascii "text") = true
  part : delta.findStr (ascii "type") = some (ascii "input_json_delta") →
    hasType isString delta (ascii "partial_json") = true

structure ClaudeTyped (j : Json) : Prop where
  type : hasType isString j (ascii "type") = true
  start : j.findStr (ascii "type") = some (ascii "content_block_start") →
    BlockStartTyped truncate j ((j.find (ascii "content_block")).getD (.obj []))
  change : j.findStr (ascii "type") = some (ascii "content_block_delta") →
    BlockDeltaTyped j ((j.find (ascii "delta")).getD (.obj []))
  counts : j.findStr (ascii "type") = some (ascii "message_delta") →
    UsageTyped j (ascii "usage") (ascii "input_tokens") (ascii "output_tokens")

/-- Only the first element of the array is read. -/
def FirstTyped (j : Json) (key : Bytes) (typed : Json → Prop) : Prop :=
  ∀ v more, arrayAt j key = v :: more → typed v

structure ChoiceTyped (choice : Json) : Prop where
  object : choice.IsObject
  calls : ∀ tc ∈ arrayAt ((choice.find (ascii "delta")).getD (.obj [])) (ascii "tool_calls"),
    tc.IsObject ∧ hasType isArithmetic tc (ascii "index") = true

structure OpenaiTyped (j : Json) : Prop where
  choice : FirstTyped j (ascii "choices") ChoiceTyped
  counts : UsageTyped j (ascii "usage") (ascii "prompt_tokens") (ascii "completion_tokens")

/-- A part that has a text is not looked at for a call. -/
def PartTyped (part : Json) : Prop :=
  part.findStr (ascii "text") = none → ∀ fc, part.find (ascii "functionCall") = some fc →
    fc.IsObject → hasType isString fc (ascii "name") = true

structure ContentTyped (content : Json) : Prop where
  object : content.IsObject
  parts : ∀ part ∈ ((content.find (ascii "parts")).getD (.arr [])).elements, PartTyped part

structure CandidateTyped (cand : Json) : Prop where
  object : cand.IsObject
  content : ContentTyped ((cand.find (ascii "content")).getD (.obj []))

structure GeminiTyped (j : Json) : Prop where
  candidate : FirstTyped j (ascii "candidates") CandidateTyped
  counts : UsageTyped j (ascii "usageMetadata") (ascii "promptTokenCount")
    (ascii "candidatesTokenCount")

/-- A payload that is no JSON object is passed over. -/
def Typed (event : Json → Prop) (payload : Bytes) : Prop :=
  ∀ j, codec.parse payload = some j → j.IsObject → event j

section Payloads

variable {codec} {event : Json → Prop} {payload : Bytes}

theorem typed_iff_of_parse {members : List (Bytes × Json)}
    (h : codec.parse payload = some (.obj members)) :
    Typed codec event payload ↔ event (.obj members) := by
  simp [Typed, h, Json.IsObject]

theorem typed_of_no_object (h : ∀ members, codec.parse payload ≠ some (.obj members)) :
    Typed codec event payload := by
  intro j hparse hobj
  obtain ⟨members, rfl⟩ := hobj.exists_members
  exact absurd hparse (h members)

theorem firstTyped_nil {j : Json} {key : Bytes} {typed : Json → Prop} (h : arrayAt j key = []) :
    FirstTyped j key typed := by
  intro v more hv
  exact absurd (h.symm.trans hv) (by simp)

theorem firstTyped_cons {j v : Json} {more : List Json} {key : Bytes} (typed : Json → Prop)
    (h : arrayAt j key = v :: more) : FirstTyped j key typed ↔ typed v := by
  simp [FirstTyped, h]

end Payloads

/-! ## Single reads -/

section Reads

variable {α : Type} {j : Json} {key : Bytes}

theorem returns_lift_bind {β : Type} (x : Except JsonError α) (f : α → Except Fault β) :
    Returns (lift x >>= f) ↔ ∃ a, x = .ok a ∧ Returns (f a) := by
  cases x with
  | error e => simp [lift_error]
  | ok a => simp

theorem returns_str (f : Bytes → Except Fault α) :
    Returns (lift (j.valueStr key []) >>= f) ↔
      j.IsObject ∧ hasType isString j key = true ∧ Returns (f ((j.findStr key).getD [])) := by
  rw [returns_lift_bind]
  cases j with
  | obj members =>
    simp only [Json.valueStr, Json.hasType_obj, Json.findStr, Json.find, Json.IsObject, true_and]
    cases members.lookup key with
    | none => simp
    | some v => cases v <;> simp [isString]
  | _ => simp [Json.valueStr, Json.IsObject]

theorem returns_json (fallback : Json) (f : Json → Except Fault α) :
    Returns (lift (j.valueJson key fallback) >>= f) ↔ j.IsObject ∧
      Returns (f ((j.find key).getD fallback)) := by
  rw [returns_lift_bind]
  by_cases hobj : j.IsObject
  · rw [Json.valueJson_of_object j key fallback hobj]
    simp [hobj]
  · have hthrows : j.valueJson key fallback = .error .typeError := by
      cases j with
      | obj members => exact absurd trivial hobj
      | _ => rfl
    simp [hthrows, hobj]

theorem returns_int (f : Int → Except Fault α) :
    Returns (lift (Json.valueInt32 truncate j key 0) >>= f) ↔
      j.IsObject ∧ hasType isArithmetic j key = true ∧ Returns (f (intAt truncate j key)) := by
  rw [returns_lift_bind, ← and_assoc, ← Json.valueInt32_returns_iff truncate j key 0]
  unfold intAt
  cases Json.valueInt32 truncate j key 0 with
  | error e => simp
  | ok i => simp

end Reads

theorem usageDelta_returns (usage : Json) (inputKey outputKey : Bytes) :
    Returns (usageDelta truncate usage inputKey outputKey) ↔
      usage.IsObject ∧ hasType isArithmetic usage inputKey = true ∧
      hasType isArithmetic usage outputKey = true := by
  unfold usageDelta
  rw [returns_int, returns_int]
  simp [pure, Except.pure]
  tauto

theorem usageAt_returns (j : Json) (key inputKey outputKey : Bytes) :
    Returns (usageAt truncate j key inputKey outputKey) ↔ UsageTyped j key inputKey outputKey := by
  unfold usageAt UsageTyped
  split
  · rename_i members hfind
    rw [returns_bind_pure, usageDelta_returns]
    simp [hfind, Json.IsObject]
  · rename_i hother
    simp only [Outcome.returns_ok, true_iff]
    intro usage hfind hobj
    obtain ⟨members, rfl⟩ := hobj.exists_members
    exact absurd hfind (hother members)

/-! ## Claude -/

section Claude

variable (j : Json) (ctx : List ToolCallContext)

theorem getD_eq_iff {s : Option Bytes} {t : Bytes} (h : t ≠ []) : s.getD [] = t ↔ s = some t := by
  cases s with
  | none => simp [h.symm]
  | some s => simp

theorem claudeBlockStart_returns (hobj : j.IsObject) :
    Returns (claudeBlockStart truncate j ctx) ↔
      BlockStartTyped truncate j ((j.find (ascii "content_block")).getD (.obj [])) := by
  unfold claudeBlockStart
  rw [returns_int, returns_json, returns_str]
  generalize (j.find (ascii "content_block")).getD (.obj []) = block
  by_cases htool : block.findStr (ascii "type") = some (ascii "tool_use")
  · rw [if_pos ((getD_eq_iff (by decide)).mpr htool)]
    dsimp only
    by_cases hindex : 0 ≤ intAt truncate j (ascii "index")
    · rw [if_neg (by omega), if_neg (by omega), returns_str, returns_str]
      constructor
      · rintro ⟨-, hplace, -, hblock, htype, -, hid, -, hname, -⟩
        exact ⟨hplace, hblock, htype, fun _ => ⟨hindex, hid, hname⟩⟩
      · intro htyped
        obtain ⟨-, hid, hname⟩ := htyped.tool htool
        exact ⟨hobj, htyped.place, hobj, htyped.object, htyped.type, htyped.object, hid,
          htyped.object, hname, Outcome.returns_ok _⟩
    · constructor
      · rintro ⟨-, -, -, -, -, hret⟩
        -- One of the two checks throws before anything else is read.
        rw [if_pos (by omega : intAt truncate j (ascii "index") < 0)] at hret
        split_ifs at hret
        · exact absurd hret (Outcome.not_returns_error _)
        · exact absurd hret (Outcome.not_returns_error _)
      · intro htyped
        exact absurd (htyped.tool htool).1 hindex
  · rw [if_neg (mt (getD_eq_iff (by decide)).mp htool)]
    constructor
    · rintro ⟨-, hplace, -, hblock, htype, -⟩
      exact ⟨hplace, hblock, htype, fun h => absurd h htool⟩
    · intro htyped
      exact ⟨hobj, htyped.place, hobj, htyped.object, htyped.type, Outcome.returns_ok _⟩

theorem claudeBlockDelta_returns (hobj : j.IsObject) :
    Returns (claudeBlockDelta truncate j ctx) ↔
      BlockDeltaTyped j ((j.find (ascii "delta")).getD (.obj [])) := by
  unfold claudeBlockDelta
  rw [returns_int, returns_json, returns_str]
  generalize (j.find (ascii "delta")).getD (.obj []) = delta
  -- Which text is read depends on the type of the delta, so only that one has to be a string.
  by_cases htext : delta.findStr (ascii "type") = some (ascii "text_delta")
  · rw [if_pos ((getD_eq_iff (by decide)).mpr htext), returns_str]
    constructor
    · rintro ⟨-, hplace, -, hdelta, htype, -, hstr, -⟩
      refine ⟨hplace, hdelta, htype, fun _ => hstr, ?_⟩
      intro hpart
      rw [htext] at hpart
      exact absurd hpart (by decide)
    · intro htyped
      exact ⟨hobj, htyped.place, hobj, htyped.object, htyped.type, htyped.object, htyped.text htext,
        Outcome.returns_ok _⟩
  · rw [if_neg (mt (getD_eq_iff (by decide)).mp htext)]
    by_cases hpart : delta.findStr (ascii "type") = some (ascii "input_json_delta")
    · rw [if_pos ((getD_eq_iff (by decide)).mpr hpart), returns_str]
      constructor
      · rintro ⟨-, hplace, -, hdelta, htype, -, hstr, -⟩
        exact ⟨hplace, hdelta, htype, fun h => absurd h htext, fun _ => hstr⟩
      · intro htyped
        exact ⟨hobj, htyped.place, hobj, htyped.object, htyped.type, htyped.object,
          htyped.part hpart, Outcome.returns_ok _⟩
    · rw [if_neg (mt (getD_eq_iff (by decide)).mp hpart)]
      constructor
      · rintro ⟨-, hplace, -, hdelta, htype, -⟩
        exact ⟨hplace, hdelta, htype, fun h => absurd h htext, fun h => absurd h hpart⟩
      · intro htyped
        exact ⟨hobj, htyped.place, hobj, htyped.object, htyped.type, Outcome.returns_ok _⟩

theorem claudeMessageDelta_returns (hobj : j.IsObject) :
    Returns (claudeMessageDelta truncate j ctx) ↔
      UsageTyped j (ascii "usage") (ascii "input_tokens") (ascii "output_tokens") := by
  unfold claudeMessageDelta UsageTyped
  rw [returns_json]
  cases hfind : j.find (ascii "usage") with
  | none =>
    have hempty : Json.find (.obj []) = fun _ => none := rfl
    simp [hobj, hempty, pure, Except.pure]
  | some usage =>
    rw [Option.getD_some]
    split_ifs with hcounts
    · have husage : usage.IsObject := by
        rcases hcounts with h | h
        · obtain ⟨v, hv⟩ := Option.isSome_iff_exists.mp h
          exact Json.isObject_of_find hv
        · obtain ⟨v, hv⟩ := Option.isSome_iff_exists.mp h
          exact Json.isObject_of_find hv
      rw [returns_bind_pure, usageDelta_returns]
      simp [hobj, husage]
    · simp only [not_or, Option.not_isSome_iff_eq_none] at hcounts
      simp [hobj, hasType, hcounts.1, hcounts.2, pure, Except.pure]

theorem claudeEvent_returns (hobj : j.IsObject) : Returns (claudeEvent truncate j ctx) ↔
    ClaudeTyped truncate j := by
  unfold claudeEvent
  rw [returns_str]
  simp only [getD_eq_iff (show ascii "content_block_start" ≠ [] by decide),
    getD_eq_iff (show ascii "content_block_delta" ≠ [] by decide),
    getD_eq_iff (show ascii "message_delta" ≠ [] by decide)]
  -- An event has one type, and the other two conditions are void.
  have hkinds : ∀ {s t : Bytes}, s ≠ t → j.findStr (ascii "type") = some s →
      j.findStr (ascii "type") ≠ some t := by
    intro s t hne hs ht
    exact hne (Option.some.inj (hs.symm.trans ht))
  split_ifs with hstart hchange hcounts
  · rw [claudeBlockStart_returns truncate j ctx hobj]
    constructor
    · rintro ⟨-, htype, htyped⟩
      exact ⟨htype, fun _ => htyped, fun h => absurd h (hkinds (by decide) hstart),
        fun h => absurd h (hkinds (by decide) hstart)⟩
    · intro htyped
      exact ⟨hobj, htyped.type, htyped.start hstart⟩
  · rw [claudeBlockDelta_returns truncate j ctx hobj]
    constructor
    · rintro ⟨-, htype, htyped⟩
      exact ⟨htype, fun h => absurd h hstart, fun _ => htyped,
        fun h => absurd h (hkinds (by decide) hchange)⟩
    · intro htyped
      exact ⟨hobj, htyped.type, htyped.change hchange⟩
  · rw [claudeMessageDelta_returns truncate j ctx hobj]
    constructor
    · rintro ⟨-, htype, htyped⟩
      exact ⟨htype, fun h => absurd h hstart, fun h => absurd h hchange, fun _ => htyped⟩
    · intro htyped
      exact ⟨hobj, htyped.type, htyped.counts hcounts⟩
  · constructor
    · rintro ⟨-, htype, -⟩
      exact ⟨htype, fun h => absurd h hstart, fun h => absurd h hchange, fun h => absurd h hcounts⟩
    · intro htyped
      exact ⟨hobj, htyped.type, Outcome.returns_ok _⟩

theorem claudeDispatch_returns (payload : Bytes) :
    Returns (claudeDispatch codec truncate payload ctx) ↔
      Typed codec (ClaudeTyped truncate) payload := by
  unfold claudeDispatch
  split
  · rename_i members hparse
    rw [claudeEvent_returns truncate (.obj members) ctx trivial, typed_iff_of_parse hparse]
  · rename_i hother
    simp [typed_of_no_object hother]

end Claude

/-! ## OpenAI -/

section Openai

theorem openaiToolCall_returns (tc : Json) (ctx : ToolTable) :
    Returns (openaiToolCall truncate tc ctx) ↔ tc.IsObject ∧
      hasType isArithmetic tc (ascii "index") = true := by
  unfold openaiToolCall
  rw [returns_int]
  dsimp only
  rw [returns_json]
  constructor
  · rintro ⟨hobj, hplace, -⟩
    exact ⟨hobj, hplace⟩
  · rintro ⟨hobj, hplace⟩
    refine ⟨hobj, hplace, hobj, ?_⟩
    split
    · exact Outcome.returns_ok _
    · exact Outcome.returns_ok _

theorem openaiToolCalls_returns (tcs : List Json) (ctx : ToolTable) :
    Returns (openaiToolCalls truncate tcs ctx) ↔
      ∀ tc ∈ tcs, tc.IsObject ∧ hasType isArithmetic tc (ascii "index") = true := by
  induction tcs generalizing ctx with
  | nil => simp [openaiToolCalls]
  | cons tc rest ih =>
    rw [openaiToolCalls, List.forall_mem_cons, ← openaiToolCall_returns truncate tc ctx]
    apply returns_bind_const
    rintro ⟨ds, ctx⟩
    dsimp only
    rw [← ih ctx]
    exact returns_bind_pure _

theorem openaiChoice_returns (choice : Json) (ctx : ToolTable) :
    Returns (openaiChoice truncate choice ctx) ↔ ChoiceTyped choice := by
  unfold openaiChoice
  rw [returns_json]
  dsimp only
  rw [returns_bind_pure, openaiToolCalls_returns]
  exact ⟨fun ⟨hobj, hcalls⟩ => ⟨hobj, hcalls⟩, fun htyped => ⟨htyped.object, htyped.calls⟩⟩

theorem openaiEvent_returns (j : Json) (ctx : ToolTable) : Returns (openaiEvent truncate j ctx) ↔
    OpenaiTyped j := by
  unfold openaiEvent openaiUsage
  cases harray : arrayAt j (ascii "choices") with
  | nil =>
    dsimp only
    rw [Outcome.ok_bind, returns_bind_pure, usageAt_returns]
    exact ⟨fun hcounts => ⟨firstTyped_nil harray, hcounts⟩, fun htyped => htyped.counts⟩
  | cons choice more =>
    dsimp only
    rw [returns_bind_const fun _ => (returns_bind_pure _).trans (usageAt_returns truncate j _ _ _),
      openaiChoice_returns, ← firstTyped_cons ChoiceTyped harray]
    exact ⟨fun ⟨hchoice, hcounts⟩ => ⟨hchoice, hcounts⟩,
      fun htyped => ⟨htyped.choice, htyped.counts⟩⟩

theorem openaiDispatch_returns (payload : Bytes) (ctx : ToolTable) :
    Returns (openaiDispatch codec truncate payload ctx) ↔
      (payload ≠ ascii "[DONE]" → Typed codec OpenaiTyped payload) := by
  unfold openaiDispatch
  split
  · rename_i hdone
    simp [hdone]
  · rename_i hmore
    rw [forall_prop_of_true hmore]
    split
    · rename_i members hparse
      rw [openaiEvent_returns, typed_iff_of_parse hparse]
    · rename_i hother
      simp [typed_of_no_object hother]

end Openai

/-! ## Gemini -/

section Gemini

variable {codec} (hcodec : codec.ThrowsOnText)

include hcodec

theorem geminiPart_returns (part : Json) (hpart : (codec.dump part).isSome) :
    Returns (geminiPart codec part) ↔ PartTyped part := by
  unfold geminiPart PartTyped
  split
  · rename_i text _ htext
    simp [htext]
  · rename_i members htext hcall
    have hargs := dumps_getD hcodec (hcodec.find_dumps hpart hcall) (empty_dumps hcodec)
      (rfl : (Json.find (.obj members) (ascii "args")).getD (.obj []) = _)
    obtain ⟨text, hdump⟩ := Option.isSome_iff_exists.mp hargs
    rw [returns_str, returns_json, hdump]
    simp [htext, hcall, Json.IsObject, pure, Except.pure]
  · rename_i htext hother
    simp only [Outcome.returns_ok, true_iff]
    intro _ fc hcall hobj
    obtain ⟨members, rfl⟩ := hobj.exists_members
    exact absurd hcall (hother members)

theorem elements_dump {j : Json} (h : (codec.dump j).isSome) :
    ∀ v ∈ j.elements, (codec.dump v).isSome := by
  cases j with
  | arr items =>
    rw [Json.elements_arr]
    exact (hcodec.arr_dumps items).mp h
  | obj members =>
    intro v hv
    obtain ⟨m, hm, rfl⟩ := List.mem_map.mp hv
    exact (hcodec.members_dump members h m hm).2
  | null => simp [Json.elements, Json.items]
  | _ => simpa [Json.elements, Json.items] using h

theorem geminiCandidate_returns (cand : Json) (hcand : (codec.dump cand).isSome) :
    Returns (geminiCandidate codec cand) ↔ CandidateTyped cand := by
  unfold geminiCandidate
  have hcontent := dumps_getD hcodec hcand (empty_dumps hcodec)
    (rfl : (cand.find (ascii "content")).getD (.obj []) = _)
  have hparts := dumps_getD hcodec hcontent ((hcodec.arr_dumps []).mpr (by simp))
    (rfl : (((cand.find (ascii "content")).getD (.obj [])).find (ascii "parts")).getD (.arr []) = _)
  have heach := elements_dump hcodec hparts
  rw [returns_json, returns_json, returns_bind_pure, Outcome.returns_mapM_iff]
  constructor
  · rintro ⟨hobj, hcobj, hall⟩
    refine ⟨hobj, hcobj, ?_⟩
    intro part hpart
    exact (geminiPart_returns hcodec part (heach part hpart)).mp (hall part hpart)
  · intro htyped
    refine ⟨htyped.object, htyped.content.object, ?_⟩
    intro part hpart
    exact (geminiPart_returns hcodec part (heach part hpart)).mpr (htyped.content.parts part hpart)

theorem geminiDispatch_returns (hparsed : ∀ text j, codec.parse text = some j →
    (codec.dump j).isSome) (payload : Bytes) :
    Returns (geminiDispatch codec truncate payload) ↔ Typed codec GeminiTyped payload := by
  unfold geminiDispatch geminiUsage
  split
  · rename_i members hparse
    rw [typed_iff_of_parse hparse]
    cases harray : arrayAt (.obj members) (ascii "candidates") with
    | nil =>
      dsimp only
      rw [Outcome.ok_bind, returns_bind_pure, usageAt_returns]
      exact ⟨fun hcounts => ⟨firstTyped_nil harray, hcounts⟩, fun htyped => htyped.counts⟩
    | cons cand more =>
      have hfirst := hcodec.find_dumps (hparsed _ _ hparse) (find_of_arrayAt harray)
      have hcand := (hcodec.arr_dumps _).mp hfirst cand List.mem_cons_self
      dsimp only
      rw [returns_bind_const fun _ => (returns_bind_pure _).trans
        (usageAt_returns truncate _ _ _ _),
        geminiCandidate_returns hcodec cand hcand, ← firstTyped_cons CandidateTyped harray]
      exact ⟨fun ⟨hcandidate, hcounts⟩ => ⟨hcandidate, hcounts⟩,
        fun htyped => ⟨htyped.candidate, htyped.counts⟩⟩
  · rename_i hother
    simp [typed_of_no_object hother]

end Gemini

/-! ## Streams -/

theorem runEvents_returns {σ : Type} {dispatch : Bytes → σ → Except Fault (List ProviderDelta × σ)}
    {good : Bytes → Prop} (h : ∀ payload ctx, Returns (dispatch payload ctx) ↔ good payload)
    (ctx : σ) (payloads : List Bytes) :
    Returns (runEvents dispatch ctx payloads) ↔ ∀ payload ∈ payloads, good payload := by
  induction payloads generalizing ctx with
  | nil => simp [runEvents]
  | cons payload rest ih =>
    rw [runEvents, List.forall_mem_cons, ← h payload ctx]
    apply returns_bind_const
    rintro ⟨ds, ctx⟩
    rw [← ih ctx]
    exact returns_bind_pure _

/-- No exception and no access outside of the table, for exactly the streams of well typed
events. -/
theorem dispatch_total_iff (codec : JsonCodec) (truncate : Bytes → Int)
    (hcodec : codec.ThrowsOnText) (hparsed : ∀ text j, codec.parse text = some j →
      (codec.dump j).isSome) (payloads : List Bytes) :
    (Returns (claudeDeltas codec truncate payloads) ↔ ∀ payload ∈ payloads,
      Typed codec (ClaudeTyped truncate) payload) ∧
      (Returns (openaiDeltas codec truncate payloads) ↔
        ∀ payload ∈ payloads, payload ≠ ascii "[DONE]" → Typed codec OpenaiTyped payload) ∧
      (Returns (geminiDeltas codec truncate payloads) ↔ ∀ payload ∈ payloads,
        Typed codec GeminiTyped payload) := by
  refine ⟨?_, ?_, ?_⟩
  · exact runEvents_returns (fun payload ctx => claudeDispatch_returns codec truncate ctx payload)
      [] payloads
  · exact runEvents_returns (openaiDispatch_returns codec truncate) _ payloads
  · refine runEvents_returns ?_ () payloads
    intro payload _
    rw [Outcome.returns_map_iff]
    exact geminiDispatch_returns truncate hcodec hparsed payload

theorem dispatch_total_at_start :
    Returns (claudeDeltas Json.plainCodec (fun _ => 0)
      [Json.write (claudeStart 0 (ascii "a"))]) := by
  have htotal := dispatch_total_iff Json.plainCodec (fun _ => 0) Json.plainCodec_throwsOnText
    Json.plainCodec_parsed_dumps
    [Json.write (claudeStart 0 (ascii "a"))]
  have hparse := parse_write (j := claudeStart 0 (ascii "a")) (by decide)
  refine htotal.1.mpr (List.forall_mem_singleton.mpr ((typed_iff_of_parse hparse).mpr ?_))
  refine ⟨by decide, fun _ => ⟨by decide, trivial, by decide, fun _ => by decide⟩, ?_, ?_⟩
  · intro h
    exact absurd h (by decide)
  · intro h
    exact absurd h (by decide)

theorem untyped_events_stop :
    claudeDeltas Json.plainCodec (fun _ => 0) [Json.write (claudeStart (-1) (ascii "a"))] =
      .error .outOfBounds ∧
      openaiDeltas Json.plainCodec (fun _ => 0)
        [Json.write (.obj [(ascii "choices", .arr [.int 1])])] = .error (.thrown .typeError) ∧
      geminiDeltas Json.plainCodec (fun _ => 0)
        [Json.write (.obj [(ascii "candidates", .arr [.int 1])])] =
        .error (.thrown .typeError) := by
  -- A tool call at index -1 is written in front of the table.
  have hclaude := parse_write (j := claudeStart (-1) (ascii "a")) (by decide)
  have hopenai := parse_write (j := .obj [(ascii "choices", .arr [.int 1])]) (by decide)
  have hgemini := parse_write (j := .obj [(ascii "candidates", .arr [.int 1])]) (by decide)
  refine ⟨?_, ?_, ?_⟩
  · rw [claudeDeltas, runEvents, claudeDispatch, hclaude]
    rfl
  · rw [openaiDeltas, runEvents, openaiDispatch, if_neg, hopenai]
    · rfl
    · intro h
      have hhead : ch '\x7b' = ch '[' := Option.some.inj (congrArg List.head? h)
      exact absurd hhead (by decide)
  · rw [geminiDeltas, runEvents, geminiDispatch, hgemini]
    rfl

end Euxis.Inference
