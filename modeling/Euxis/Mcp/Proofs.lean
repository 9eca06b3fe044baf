import Euxis.Mcp.Host

/-!
# Which messages the server answers as the protocol says

What the server does with one framed message, and what follows for every sequence of them.
-/

namespace Euxis.Mcp

/-- What the code relies on: `dump` throws on a text that is not UTF-8 and on nothing else, a text
that was parsed or dumped is UTF-8, and ASCII in front of a text makes no difference. -/
structure Library.Lawful (lib : Library) : Prop where
  throwsOnText : lib.codec.ThrowsOnText
  bool_dumps : ∀ b, (lib.codec.dump (.bool b)).isSome
  int_dumps : ∀ i, (lib.codec.dump (.int i)).isSome
  ascii_append_dumps : ∀ s t, s.all (· < 128) = true →
    ((lib.codec.dump (.str (s ++ t))).isSome ↔ (lib.codec.dump (.str t)).isSome)
  text_dumps : ∀ j text, lib.codec.dump j = some text → (lib.codec.dump (.str text)).isSome
  parsed_dumps : ∀ text j, lib.codec.parse text = some j → (lib.codec.dump j).isSome
  what_ascii : ∀ j, (lib.what j).all (· < 128) = true
  maxSize_lt : lib.maxSize < 2 ^ 64

/-! ## The protocol -/

/-- A response of JSON-RPC 2.0 to a request with an id: a result or an error, not both. -/
structure IsResponse (id response : Json) : Prop where
  version : response.findStr (ascii "jsonrpc") = some (ascii "2.0")
  id_eq : response.find (ascii "id") = some id
  outcome : ((response.find (ascii "result")).isSome ∧ response.find (ascii "error") = none) ∨
    (response.find (ascii "result") = none ∧ ∃ error code message,
      response.find (ascii "error") = some error ∧
      error.find (ascii "code") = some (.int code) ∧
      error.find (ascii "message") = some (.str message))

def Reply.output : Reply → Bytes
  | eof | threw => []
  | handled output => output

/-- No throw, one response to a message with an id, and no output for one without. -/
structure Conforms (lib : Library) (message : Json) (reply : Reply) : Prop where
  returns : reply ≠ .threw
  answered : ∀ id, message.find (ascii "id") = some id → ∃ response text, IsResponse id response ∧
    lib.codec.dump response = some text ∧ reply = .handled (frameText text)
  silent : message.find (ascii "id") = none → reply.output = []

/-! ## When a message is answered -/

section

variable {ω : Type} (lib : Library) (world : ω) (host : Host ω)

def Dumps (j : Json) : Prop := (lib.codec.dump j).isSome

/-- The result of a handler can be sent. -/
def Sendable : HandlerResult → Prop
  | .returned _ => True
  | .raised what => Dumps lib (.str what)
  | .escaped => False

/-- The parameters are an object with a text under the key, or leave it out. -/
def NamedBy (request : Json) (key name : Bytes) : Prop :=
  ∃ members, (request.find (ascii "params")).getD emptyObject = .obj members ∧
    (members.lookup key).getD (.str []) = .str name

def CallAnswered (request : Json) : Prop :=
  ∃ name, NamedBy request (ascii "name") name ∧ ∀ handler ∈ host.handlers name,
    Sendable lib (handler world
      ((((request.find (ascii "params")).getD emptyObject).find (ascii "arguments")).getD
        emptyObject))

def ReadAnswered (request : Json) : Prop :=
  ∃ uri, NamedBy request (ascii "uri") uri ∧ ∀ handler ∈ host.resourceHandlers uri,
    Sendable lib (handler world uri)

/-- What an initialized server needs of a request, by its method. -/
def MethodAnswered (method : Bytes) (request : Json) : Prop :=
  if method = ascii "tools/list" then
    ∀ tool ∈ host.tools, Dumps lib (.str tool.name) ∧ Dumps lib (.str tool.description) ∧
      Dumps lib tool.inputSchema
  else if method = ascii "tools/call" then CallAnswered lib world host request
  else if method = ascii "resources/list" then
    ∀ r ∈ host.resources, Dumps lib (.str r.uri) ∧ Dumps lib (.str r.name) ∧
      Dumps lib (.str r.description) ∧ Dumps lib (.str r.mimeType)
  else if method = ascii "resources/read" then ReadAnswered lib world host request
  else True

/-- The message is an object with an id. As a request of JSON-RPC 2.0 it has a text as its method,
and an initialized server can carry that out and write down what comes of it. -/
def Answered (message : Json) : Prop :=
  (message.find (ascii "id")).isSome ∧
    (isRequest message → ∃ method, message.find (ascii "method") = some (.str method) ∧
      (host.initialized = true → method ≠ ascii "initialize" →
        method ≠ ascii "notifications/initialized" → MethodAnswered lib world host method message))

end

/-! ## Dumping -/

section

variable {lib : Library} (hlib : lib.Lawful)

include hlib

theorem dumps_obj (members : List (Bytes × Json))
    (hkeys : (Json.ordered members && members.all fun m => m.1.all (· < 128)) = true) :
    Dumps lib (.obj members) ↔ ∀ m ∈ members, Dumps lib m.2 := by
  rw [Bool.and_eq_true, List.all_eq_true] at hkeys
  obtain ⟨hordered, hkeys⟩ := hkeys
  unfold Dumps
  rw [hlib.throwsOnText.obj_iff hordered]
  constructor
  · intro h m hm
    exact (h m hm).2
  · intro h m hm
    exact ⟨hlib.throwsOnText.ascii_dumps m.1 (hkeys m hm), h m hm⟩

theorem dumps_arr (items : List Json) : Dumps lib (.arr items) ↔ ∀ j ∈ items, Dumps lib j :=
  hlib.throwsOnText.arr_dumps items

theorem dumps_ascii (s : Bytes) (h : s.all (· < 128) = true) : Dumps lib (.str s) :=
  hlib.throwsOnText.ascii_dumps s h

theorem dumps_find (j v : Json) (key : Bytes) (hj : Dumps lib j) (h : j.find key = some v) :
    Dumps lib v :=
  hlib.throwsOnText.find_dumps hj h

theorem dumps_makeResult (id result : Json) : Dumps lib (makeResult id result) ↔ Dumps lib id ∧
    Dumps lib result := by
  have heq : makeResult id result =
      .obj [(ascii "id", id), (ascii "jsonrpc", .str (ascii "2.0")), (ascii "result", result)] :=
    rfl
  rw [heq, dumps_obj hlib _ rfl]
  simp [dumps_ascii hlib (ascii "2.0") (by decide)]

theorem dumps_makeError (id : Json) (code : Int) (msg : Bytes) :
    Dumps lib (makeError id code msg) ↔ Dumps lib id ∧ Dumps lib (.str msg) := by
  have heq : makeError id code msg =
      .obj [(ascii "error", .obj [(ascii "code", .int code), (ascii "message", .str msg)]),
        (ascii "id", id), (ascii "jsonrpc", .str (ascii "2.0"))] := rfl
  have hcode : Dumps lib (.int code) := hlib.int_dumps code
  rw [heq, dumps_obj hlib _ rfl]
  simp [dumps_obj hlib [(ascii "code", .int code), (ascii "message", .str msg)] rfl,
    dumps_ascii hlib (ascii "2.0") (by decide), hcode, and_comm]

theorem dumps_emptyObject : Dumps lib emptyObject := (dumps_obj hlib [] rfl).mpr (by simp)

theorem dumps_initializeResult : Dumps lib initializeResult := by
  have htrue : Dumps lib (.bool true) := hlib.bool_dumps true
  have hlist : Dumps lib (.obj [(ascii "listChanged", .bool true)]) :=
    (dumps_obj hlib _ rfl).mpr (by simp [htrue])
  have heq : initializeResult = .obj [
      (ascii "capabilities", .obj [
        (ascii "resources", .obj [(ascii "listChanged", .bool true)]),
        (ascii "tools", .obj [(ascii "listChanged", .bool true)])]),
      (ascii "protocolVersion", .str protocolVersion),
      (ascii "serverInfo", .obj [
        (ascii "name", .str (ascii "euxis-gateway")),
        (ascii "version", .str (ascii "0.0.3"))])] := rfl
  rw [heq, dumps_obj hlib _ rfl]
  simp only [List.forall_mem_cons, List.not_mem_nil, false_implies, implies_true, and_true]
  refine ⟨(dumps_obj hlib _ rfl).mpr ?_, dumps_ascii hlib _ (by decide),
    (dumps_obj hlib _ rfl).mpr ?_⟩
  · simp [hlist]
  · simp [dumps_ascii hlib (ascii "euxis-gateway") (by decide),
      dumps_ascii hlib (ascii "0.0.3") (by decide)]

theorem dumps_listing (key : Bytes) (items : List Json) (hkey : key.all (· < 128) = true) :
    Dumps lib (Json.object [(key, .arr items)]) ↔ ∀ j ∈ items, Dumps lib j := by
  have heq : Json.object [(key, .arr items)] = .obj [(key, .arr items)] := rfl
  rw [heq, dumps_obj hlib _ (by simpa [Json.ordered] using hkey)]
  simp [dumps_arr hlib]

theorem dumps_toolJson (tool : McpTool) : Dumps lib (toolJson tool) ↔
    Dumps lib (.str tool.name) ∧ Dumps lib (.str tool.description) ∧
    Dumps lib tool.inputSchema := by
  have heq : toolJson tool = .obj [(ascii "description", .str tool.description),
      (ascii "inputSchema", tool.inputSchema), (ascii "name", .str tool.name)] := rfl
  rw [heq, dumps_obj hlib _ rfl]
  simp only [List.forall_mem_cons, List.not_mem_nil, false_implies, implies_true, and_true]
  tauto

theorem dumps_resourceJson (r : McpResource) : Dumps lib (resourceJson r) ↔
    Dumps lib (.str r.uri) ∧ Dumps lib (.str r.name) ∧ Dumps lib (.str r.description) ∧
    Dumps lib (.str r.mimeType) := by
  have heq : resourceJson r = .obj [(ascii "description", .str r.description),
      (ascii "mimeType", .str r.mimeType),
      (ascii "name", .str r.name), (ascii "uri", .str r.uri)] := rfl
  rw [heq, dumps_obj hlib _ rfl]
  simp only [List.forall_mem_cons, List.not_mem_nil, false_implies, implies_true, and_true]
  tauto

theorem dumps_toolContent (text : Bytes) (h : Dumps lib (.str text)) :
    Dumps lib (toolContent text) := by
  apply (dumps_listing hlib _ _ (by decide)).mpr
  simp only [List.mem_singleton, forall_eq]
  have heq : Json.object [(ascii "type", .str (ascii "text")), (ascii "text", .str text)] =
      .obj [(ascii "text", .str text), (ascii "type", .str (ascii "text"))] := rfl
  rw [heq, dumps_obj hlib _ rfl]
  simp [h, dumps_ascii hlib (ascii "text") (by decide)]

theorem dumps_resourceContents (uri text : Bytes) (huri : Dumps lib (.str uri))
    (h : Dumps lib (.str text)) : Dumps lib (resourceContents uri text) := by
  apply (dumps_listing hlib _ _ (by decide)).mpr
  simp only [List.mem_singleton, forall_eq]
  have heq : Json.object [(ascii "uri", .str uri),
      (ascii "mimeType", .str (ascii "application/json")), (ascii "text", .str text)] =
      .obj [(ascii "mimeType", .str (ascii "application/json")), (ascii "text", .str text),
        (ascii "uri", .str uri)] := rfl
  rw [heq, dumps_obj hlib _ rfl]
  simp [h, huri, dumps_ascii hlib (ascii "application/json") (by decide)]

end

/-! ## Sending -/

/-- A response comes out, and it can be written. -/
def Sends (lib : Library) (x : Except Thrown Json) : Prop :=
  ∃ response, x = .ok response ∧ Dumps lib response

theorem sends_ok (lib : Library) (response : Json) :
    Sends lib (.ok response) ↔ Dumps lib response := by
  simp [Sends]

theorem ofJson_ok {α : Type} (a : α) : ofJson (.ok a) = .ok a := rfl

theorem not_sends_error (lib : Library) (e : Thrown) : ¬ Sends lib (.error e) := by
  simp [Sends]

theorem value_of_find (j v fallback : Json) (key : Bytes) (h : j.find key = some v) :
    value j key fallback = .ok v := by
  cases j with
  | obj members =>
    have hlookup : members.lookup key = some v := h
    simp [value, hlookup]
  | _ => cases h

theorem value_eq (j fallback : Json) (key : Bytes) (h : j.IsObject) :
    value j key fallback = .ok ((j.find key).getD fallback) := by
  obtain ⟨members, rfl⟩ := h.exists_members
  rfl

theorem idOf_of_find (request id : Json) (h : request.find (ascii "id") = some id) :
    idOf request = .ok id :=
  value_of_find request id .null (ascii "id") h

theorem valueStr_eq_ok (j : Json) (key name : Bytes) : j.valueStr key [] = .ok name ↔
    ∃ members, j = .obj members ∧ (members.lookup key).getD (.str []) = .str name := by
  cases j with
  | obj members =>
    simp only [Json.valueStr, Json.obj.injEq, exists_eq_left']
    cases members.lookup key with
    | none => simp
    | some v => cases v <;> simp
  | _ => simp [Json.valueStr]

section

variable {ω : Type} {lib : Library} {world : ω} {host : Host ω} {request id : Json}
  (hlib : lib.Lawful)
  (hid : request.find (ascii "id") = some id) (hrequest : Dumps lib request)

include hlib hid hrequest

theorem dumps_id : Dumps lib id := dumps_find hlib request id (ascii "id") hrequest hid

theorem sends_result (result : Json) :
    Sends lib (do return makeResult (← idOf request) result) ↔ Dumps lib result := by
  rw [idOf_of_find request id hid]
  simp [pure, Except.pure, sends_ok, dumps_makeResult hlib, dumps_id hlib hid hrequest]

theorem sends_error (code : Int) (msg : Bytes) (h : Dumps lib (.str msg)) :
    Sends lib (do return makeError (← idOf request) code msg) := by
  rw [idOf_of_find request id hid]
  simp [pure, Except.pure, sends_ok, dumps_makeError hlib, dumps_id hlib hid hrequest, h]

theorem sends_labelled (code : Int) (label text : Bytes) (hlabel : label.all (· < 128) = true) :
    Sends lib (.ok (makeError id code (label ++ text))) ↔ Dumps lib (.str text) := by
  have hlabelled : Dumps lib (.str (label ++ text)) ↔ Dumps lib (.str text) :=
    hlib.ascii_append_dumps label text hlabel
  rw [sends_ok, dumps_makeError hlib, hlabelled]
  exact and_iff_right (dumps_id hlib hid hrequest)

theorem sends_guarded (label : Bytes) (result : HandlerResult) (answer : Bytes → Json)
    (hlabel : label.all (· < 128) = true)
    (hanswer : ∀ text, Dumps lib (.str text) → Dumps lib (answer text)) :
    Sends lib (guarded lib id label result answer) ↔ Sendable lib result := by
  have hid' := dumps_id hlib hid hrequest
  cases result with
  | returned v =>
    simp only [guarded, Sendable, iff_true]
    cases hdump : lib.codec.dump v with
    | some text =>
      rw [sends_ok, dumps_makeResult hlib]
      exact ⟨hid', hanswer text (hlib.text_dumps v text hdump)⟩
    | none =>
      exact (sends_labelled hlib hid hrequest _ label _ hlabel).mpr
        (dumps_ascii hlib _ (hlib.what_ascii v))
  | raised what =>
    simp only [guarded, Sendable]
    exact sends_labelled hlib hid hrequest _ label what hlabel
  | escaped => simp [guarded, Sendable, not_sends_error]

omit hid in
theorem dumps_params : Dumps lib ((request.find (ascii "params")).getD emptyObject) := by
  cases hparams : request.find (ascii "params") with
  | none => exact dumps_emptyObject hlib
  | some params => exact dumps_find hlib request params _ hrequest hparams

omit hid in
theorem dumps_namedBy {key name : Bytes} (h : NamedBy request key name) :
    Dumps lib (.str name) := by
  obtain ⟨members, hparams, hname⟩ := h
  have hobj := dumps_params hlib hrequest
  rw [hparams] at hobj
  cases hlookup : members.lookup key with
  | none =>
    rw [hlookup] at hname
    obtain rfl : [] = name := by simpa using hname
    exact dumps_ascii hlib [] rfl
  | some v =>
    rw [hlookup] at hname
    obtain rfl : v = .str name := hname
    exact dumps_find hlib _ _ key hobj hlookup

omit hlib hid hrequest in
theorem sends_named (key : Bytes) (act : Bytes → Except Thrown Json) (p : Bytes → Prop)
    (hact : ∀ name, NamedBy request key name → (Sends lib (act name) ↔ p name)) :
    Sends lib (ofJson (((request.find (ascii "params")).getD emptyObject).valueStr key []) >>=
      act) ↔ ∃ name, NamedBy request key name ∧ p name := by
  have hnamed : ∀ name, NamedBy request key name ↔
      ((request.find (ascii "params")).getD emptyObject).valueStr key [] = .ok name :=
    fun name => (valueStr_eq_ok _ key name).symm
  cases hvalue : ((request.find (ascii "params")).getD emptyObject).valueStr key [] with
  | error e =>
    constructor
    · intro h
      exact absurd h (not_sends_error lib _)
    · rintro ⟨name, hname, _⟩
      rw [hnamed, hvalue] at hname
      cases hname
  | ok found =>
    have hfound : NamedBy request key found := (hnamed found).mpr hvalue
    constructor
    · intro h
      exact ⟨found, hfound, (hact found hfound).mp h⟩
    · rintro ⟨name, hname, hp⟩
      rw [hnamed, hvalue, Except.ok.injEq] at hname
      subst hname
      exact (hact found hfound).mpr hp

theorem sends_toolsCall :
    Sends lib (handleToolsCall lib world host request) ↔ CallAnswered lib world host request := by
  unfold handleToolsCall
  rw [idOf_of_find request id hid, value_eq request emptyObject _ (Json.isObject_of_find hid)]
  apply sends_named
  intro name hnamed
  have hname := dumps_namedBy hlib hrequest hnamed
  cases hhandler : host.handlers name with
  | none =>
    simp only [pure, Except.pure, Option.mem_def, reduceCtorEq, false_implies,
      implies_true, iff_true]
    exact (sends_labelled hlib hid hrequest _ _ name (by decide)).mpr hname
  | some handler =>
    obtain ⟨members, hmembers, _⟩ := hnamed
    have hargs := value_eq ((request.find (ascii "params")).getD emptyObject) emptyObject
      (ascii "arguments")
      (by rw [hmembers]; trivial)
    simp only [hargs, Outcome.ok_bind, Option.mem_def, Option.some.injEq, forall_eq']
    exact sends_guarded hlib hid hrequest _ _ _ (by decide) fun text => dumps_toolContent hlib text

theorem sends_resourcesRead :
    Sends lib (handleResourcesRead lib world host request) ↔
      ReadAnswered lib world host request := by
  unfold handleResourcesRead
  rw [idOf_of_find request id hid, value_eq request emptyObject _ (Json.isObject_of_find hid)]
  apply sends_named
  intro uri hnamed
  have huri := dumps_namedBy hlib hrequest hnamed
  cases hhandler : host.resourceHandlers uri with
  | none =>
    simp only [pure, Except.pure, Option.mem_def, reduceCtorEq, false_implies,
      implies_true, iff_true]
    exact (sends_labelled hlib hid hrequest _ _ uri (by decide)).mpr huri
  | some handler =>
    simp only [Option.mem_def, Option.some.injEq, forall_eq']
    exact sends_guarded hlib hid hrequest _ _ _ (by decide) fun text => dumps_resourceContents hlib
      uri text huri

theorem sends_dispatch (method : Bytes) :
    Sends lib (dispatch lib world host method request) ↔
      MethodAnswered lib world host method request := by
  unfold dispatch MethodAnswered
  split
  · unfold handleToolsList
    rw [sends_result hlib hid hrequest, dumps_listing hlib _ _ (by decide)]
    simp [dumps_toolJson hlib]
  split
  · exact sends_toolsCall hlib hid hrequest
  split
  · unfold handleResourcesList
    rw [sends_result hlib hid hrequest, dumps_listing hlib _ _ (by decide)]
    simp [dumps_resourceJson hlib]
  split
  · exact sends_resourcesRead hlib hid hrequest
  split
  · exact iff_true_intro ((sends_result hlib hid hrequest _).mpr (dumps_emptyObject hlib))
  · exact iff_true_intro (sends_error hlib hid hrequest _ _ (dumps_ascii hlib _ (by decide)))

theorem sends_handleRequest : Sends lib (handleRequest lib world host request).2 ↔
    (isRequest request → ∃ method, request.find (ascii "method") = some (.str method) ∧
      (host.initialized = true → method ≠ ascii "initialize" →
        method ≠ ascii "notifications/initialized" →
        MethodAnswered lib world host method request)) := by
  unfold handleRequest
  split
  · rename_i hreq
    simp only [hreq, true_implies]
    obtain ⟨v, hv⟩ := Option.isSome_iff_exists.mp hreq.2
    have hmethod : methodOf request = ofJson v.getStr := by
      unfold methodOf
      rw [hv, Option.getD_some]
    rw [hmethod]
    cases v with
    | str method =>
      simp only [hv, Option.some.injEq, Json.str.injEq, exists_eq_left', Json.getStr, ofJson_ok]
      split
      · rename_i hinit
        simp only [hinit, ne_eq, not_true_eq_false, false_implies, implies_true, iff_true]
        exact (sends_result hlib hid hrequest _).mpr (dumps_initializeResult hlib)
      split
      · rename_i hnotify
        simp only [hnotify, ne_eq, not_true_eq_false, false_implies, implies_true, iff_true]
        exact (sends_result hlib hid hrequest _).mpr (dumps_emptyObject hlib)
      split
      · rename_i huninit
        simp only [huninit, Bool.false_eq_true, false_implies, iff_true]
        exact sends_error hlib hid hrequest _ _ (dumps_ascii hlib _ (by decide))
      · rename_i hinit hnotify huninit
        rw [sends_dispatch hlib hid hrequest]
        simp [hinit, hnotify, huninit]
    -- A method that is no string throws, whatever the state of the server is.
    | _ =>
      simp only [hv, Option.some.injEq, reduceCtorEq, false_and, exists_false, iff_false]
      exact not_sends_error lib _
  · rename_i hreq
    simp only [hreq, false_implies, iff_true]
    exact sends_error hlib hid hrequest _ _ (dumps_ascii hlib _ (by decide))

end

/-! ## What comes out is a response -/

theorem isResponse_makeResult (id result : Json) : IsResponse id (makeResult id result) where
  version := rfl
  id_eq := rfl
  outcome := Or.inl ⟨rfl, rfl⟩

theorem isResponse_makeError (id : Json) (code : Int) (msg : Bytes) :
    IsResponse id (makeError id code msg) where
  version := rfl
  id_eq := rfl
  outcome := Or.inr ⟨rfl, _, code, msg, rfl, rfl, rfl⟩

/-- Whatever is returned is a response, with the id that the message has. -/
def Responds (request : Json) (x : Except Thrown Json) : Prop :=
  ∀ response, x = .ok response → ∃ id, idOf request = .ok id ∧ IsResponse id response

section

variable {ω : Type} {lib : Library} {world : ω} {host : Host ω} {request : Json}

theorem responds_result (result : Json) :
    Responds request (do return makeResult (← idOf request) result) := by
  intro response h
  obtain ⟨id, hid, hresult⟩ := Outcome.ok_of_bind h
  obtain rfl : makeResult id result = response := Except.ok.inj hresult
  exact ⟨id, hid, isResponse_makeResult id result⟩

theorem responds_error (code : Int) (msg : Bytes) :
    Responds request (do return makeError (← idOf request) code msg) := by
  intro response h
  obtain ⟨id, hid, hresult⟩ := Outcome.ok_of_bind h
  obtain rfl : makeError id code msg = response := Except.ok.inj hresult
  exact ⟨id, hid, isResponse_makeError id code msg⟩

theorem guarded_isResponse {id response : Json} {label : Bytes} {result : HandlerResult}
    {answer : Bytes → Json} (h : guarded lib id label result answer = .ok response) :
    IsResponse id response := by
  cases result with
  | returned v =>
    simp only [guarded] at h
    split at h
    · rw [← Except.ok.inj h]
      exact isResponse_makeResult id _
    · rw [← Except.ok.inj h]
      exact isResponse_makeError id _ _
  | raised what =>
    rw [← Except.ok.inj h]
    exact isResponse_makeError id _ _
  | escaped => cases h

theorem responds_toolsCall : Responds request (handleToolsCall lib world host request) := by
  intro response h
  obtain ⟨id, hid, h⟩ := Outcome.ok_of_bind h
  obtain ⟨params, _, h⟩ := Outcome.ok_of_bind h
  obtain ⟨name, _, h⟩ := Outcome.ok_of_bind h
  refine ⟨id, hid, ?_⟩
  split at h
  · rw [← Except.ok.inj h]
    exact isResponse_makeError id _ _
  · obtain ⟨args, _, h⟩ := Outcome.ok_of_bind h
    exact guarded_isResponse h

theorem responds_resourcesRead : Responds request (handleResourcesRead lib world host request) := by
  intro response h
  obtain ⟨id, hid, h⟩ := Outcome.ok_of_bind h
  obtain ⟨params, _, h⟩ := Outcome.ok_of_bind h
  obtain ⟨uri, _, h⟩ := Outcome.ok_of_bind h
  refine ⟨id, hid, ?_⟩
  split at h
  · rw [← Except.ok.inj h]
    exact isResponse_makeError id _ _
  · exact guarded_isResponse h

theorem responds_dispatch (method : Bytes) :
    Responds request (dispatch lib world host method request) := by
  unfold dispatch
  split
  · exact responds_result _
  split
  · exact responds_toolsCall
  split
  · exact responds_result _
  split
  · exact responds_resourcesRead
  split
  · exact responds_result _
  · exact responds_error _ _

theorem responds_handleRequest : Responds request (handleRequest lib world host request).2 := by
  unfold handleRequest
  split
  · split
    · intro response h
      cases h
    split
    · exact responds_result _
    split
    · exact responds_result _
    split
    · exact responds_error _ _
    · exact responds_dispatch _
  · exact responds_error _ _

/-! ## One message -/

theorem IsResponse.ne_null {id response : Json} (h : IsResponse id response) :
    response ≠ .null := by
  rintro rfl
  cases h.id_eq

theorem answer_ok (lib : Library) (response : Json) (h : response ≠ .null) :
    answer lib (.ok response) = match writeFrame lib response with
      | none => .threw
      | some output => .handled output := by
  cases response with
  | null => exact absurd rfl h
  | _ => rfl

theorem frameText_ne_nil (body : Bytes) : frameText body ≠ [] := by
  simp [frameText, headerLine, ascii]

theorem conforms_answer_iff (x : Except Thrown Json) (h : Responds request x) :
    Conforms lib request (answer lib x) ↔ (request.find (ascii "id")).isSome ∧ Sends lib x := by
  cases x with
  | error e =>
    constructor
    · intro hconforms
      exact absurd rfl hconforms.returns
    · rintro ⟨_, hsends⟩
      exact absurd hsends (not_sends_error lib e)
  | ok response =>
    obtain ⟨id, hid, hresponse⟩ := h response rfl
    rw [sends_ok, answer_ok lib response hresponse.ne_null]
    unfold writeFrame Dumps
    cases hdump : lib.codec.dump response with
    | none =>
      simp only [Option.map_none, Option.isSome_none, Bool.false_eq_true, and_false, iff_false]
      intro hconforms
      exact hconforms.returns rfl
    | some text =>
      simp only [Option.map_some, Option.isSome_some, and_true]
      cases hfind : request.find (ascii "id") with
      | none =>
        simp only [Option.isSome_none, Bool.false_eq_true, iff_false]
        intro hconforms
        -- A message without an id must not be answered, but every response is written.
        exact frameText_ne_nil text (hconforms.silent hfind)
      | some found =>
        simp only [Option.isSome_some, iff_true]
        refine ⟨by simp, ?_, by simp [hfind]⟩
        intro id' hid'
        rw [idOf_of_find request id' hid', Except.ok.injEq] at hid
        subst hid
        exact ⟨response, text, hresponse, hdump, rfl⟩

theorem conforms_iff (hlib : lib.Lawful) (f : Framed lib) :
    Conforms lib f.message (answer lib (handleRequest lib world host f.message).2) ↔
      Answered lib world host f.message := by
  rw [conforms_answer_iff _ responds_handleRequest]
  unfold Answered
  apply and_congr_right
  intro hsome
  obtain ⟨id, hid⟩ := Option.isSome_iff_exists.mp hsome
  exact sends_handleRequest hlib hid (hlib.parsed_dumps f.body f.message f.parses)

theorem processOne_text (hlib : lib.Lawful) (f : Framed lib) (rest : Bytes) :
    processOne lib world host (f.text ++ rest) =
      ((handleRequest lib world host f.message).1, rest,
        answer lib (handleRequest lib world host f.message).2) := by
  unfold processOne
  rw [readFrame_text lib hlib.maxSize_lt f rest]

/-! ## Every sequence of messages -/

/-- The host after some messages, each in its world. -/
def hostAfter (lib : Library) (host : Host ω) (frames : List (ω × Framed lib)) : Host ω :=
  frames.foldl (fun host f => (handleRequest lib f.1 host f.2.message).1) host

/-- What `process_one` does with the frames on the input, one after the other. -/
def replies (lib : Library) (host : Host ω) (frames : List (ω × Framed lib)) : List Reply :=
  serve lib host (frames.flatMap (·.2.text)) (frames.map (·.1))

theorem replies_cons (hlib : lib.Lawful) (f : ω × Framed lib) (later : List (ω × Framed lib)) :
    replies lib host (f :: later) =
      answer lib (handleRequest lib f.1 host f.2.message).2 ::
        replies lib (handleRequest lib f.1 host f.2.message).1 later := by
  unfold replies
  rw [List.flatMap_cons, List.map_cons, serve, processOne_text hlib f.2]

end

/-- **Conformance.** The server treats every message of a sequence as the protocol says exactly if
it can answer each of them in the state in which it comes: a message without an id never is treated
so. -/
theorem conformance_iff {ω : Type} (lib : Library) (hlib : lib.Lawful) (host : Host ω)
    (frames : List (ω × Framed lib)) :
    List.Forall₂ (fun f reply => Conforms lib f.2.message reply) frames (replies lib host frames) ↔
      ∀ before f, before ++ [f] <+: frames →
        Answered lib f.1 (hostAfter lib host before) f.2.message := by
  induction frames generalizing host with
  | nil =>
    constructor
    · intro _ before f hpre
      simp at hpre
    · intro _
      exact .nil
  | cons g later ih =>
    rw [replies_cons hlib, List.forall₂_cons, conforms_iff hlib, ih]
    constructor
    · rintro ⟨hfirst, hlater⟩ before f hpre
      -- The first message meets the host as it is; the others are those of the run behind it.
      cases before with
      | nil =>
        obtain rfl : f = g := by simpa using hpre
        exact hfirst
      | cons b before =>
        rw [List.cons_append, List.cons_prefix_cons] at hpre
        obtain ⟨rfl, hpre⟩ := hpre
        exact hlater before f hpre
    · intro hall
      refine ⟨hall [] g (by simp), ?_⟩
      intro before f hpre
      exact hall (g :: before) f (by simpa using hpre)

/-! ### Two sequences -/

def sampleWhat : Bytes :=
  ascii "[json.exception.type_error.316] invalid UTF-8 byte at index 0: 0xFF"

/-- The codec of the values without floats, as a library. -/
def sampleLibrary : Library where
  codec :=
    { Json.textCodec with
      parse := fun text => (Json.read text).filter Json.plain
      parse_dump := Json.plainCodec.parse_dump }
  what _ := sampleWhat
  maxSize := 2 ^ 62

theorem sampleLibrary_dump (j : Json) : (sampleLibrary.codec.dump j).isSome ↔ Json.plain j = true :=
  Json.textCodec_isSome j

theorem sampleLibrary_lawful : sampleLibrary.Lawful where
  throwsOnText := ⟨Json.textCodec_throwsOnText.ascii_dumps, Json.textCodec_throwsOnText.arr_dumps,
    Json.textCodec_throwsOnText.obj_dumps, Json.textCodec_throwsOnText.members_dump⟩
  bool_dumps b := (sampleLibrary_dump _).mpr (by simp [Json.plain])
  int_dumps i := (sampleLibrary_dump _).mpr (by simp [Json.plain])
  ascii_append_dumps s t _ := by simp [sampleLibrary_dump, Json.plain]
  text_dumps j text _ := (sampleLibrary_dump _).mpr (by simp [Json.plain])
  parsed_dumps text j h := by
    rw [sampleLibrary_dump]
    exact (Option.filter_eq_some_iff.mp h).2
  what_ascii _ := show sampleWhat.all (· < 128) = true by decide +kernel
  maxSize_lt := by decide

def sampleFrame (message : Json) (hplain : Json.plain message = true)
    (hfits : (Json.write message).length ≤ 2 ^ 62) : Framed sampleLibrary :=
  have hdump : sampleLibrary.codec.dump message = some (Json.write message) := if_pos hplain
  { message
    body := Json.write message
    parses := sampleLibrary.codec.parse_dump _ _ hdump
    body_ne_nil := sampleLibrary.codec.dump_ne_nil _ _ hdump
    fits := hfits
    before_other := by simp
    after_other := by simp }

def sampleRequest (id : Int) (method : Json) : Json :=
  Json.object [(ascii "jsonrpc", .str (ascii "2.0")), (ascii "id", .int id),
    (ascii "method", method)]

def sampleHost : Host Unit :=
  registerTool {} ⟨ascii "get_metrics", ascii "Return current gateway metrics", emptyObject⟩
    fun _ _ => .returned emptyObject

def initializeFrame : Framed sampleLibrary :=
  sampleFrame (sampleRequest 1 (.str (ascii "initialize"))) (by decide) (by decide +kernel)

def listFrame : Framed sampleLibrary :=
  sampleFrame (sampleRequest 2 (.str (ascii "tools/list"))) (by decide) (by decide +kernel)

theorem initialized_list_conforms :
    List.Forall₂ (fun f reply => Conforms sampleLibrary f.2.message reply) [((), initializeFrame),
      ((), listFrame)]
      (replies sampleLibrary sampleHost [((), initializeFrame), ((), listFrame)]) := by
  apply (conformance_iff sampleLibrary sampleLibrary_lawful sampleHost _).mpr
  intro before f hpre
  cases before with
  | nil =>
    obtain rfl : f = ((), initializeFrame) := by simpa using hpre
    exact ⟨rfl, fun _ => ⟨_, rfl, fun _ hne => absurd rfl hne⟩⟩
  | cons b before =>
    rw [List.cons_append, List.cons_prefix_cons] at hpre
    obtain ⟨rfl, hpre⟩ := hpre
    cases before with
    | nil =>
      obtain rfl : f = ((), listFrame) := by simpa using hpre
      refine ⟨rfl, fun _ => ⟨_, rfl, fun _ _ _ => ?_⟩⟩
      intro tool htool
      obtain rfl := List.mem_singleton.mp htool
      exact ⟨(sampleLibrary_dump _).mpr rfl, (sampleLibrary_dump _).mpr rfl,
        (sampleLibrary_dump _).mpr rfl⟩
    | cons c before =>
      rw [List.cons_append, List.cons_prefix_cons] at hpre
      simp at hpre

def numberMethodFrame : Framed sampleLibrary :=
  sampleFrame (sampleRequest 1 (.int 5)) (by decide) (by decide +kernel)

theorem number_method_throws :
    ¬ ∀ (lib : Library), lib.Lawful → ∀ (host : Host Unit) (frames : List (Unit × Framed lib)),
    List.Forall₂ (fun f reply => Conforms lib f.2.message reply) frames
      (replies lib host frames) := by
  intro h
  have hall := h sampleLibrary sampleLibrary_lawful sampleHost [((), numberMethodFrame)]
  rw [replies_cons sampleLibrary_lawful, List.forall₂_cons] at hall
  exact hall.1.returns rfl

end Euxis.Mcp
