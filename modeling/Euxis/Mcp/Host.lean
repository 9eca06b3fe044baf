import Euxis.Mcp.Stdio
import Euxis.Outcome

/-!
# The MCP host: `apps/gateway/src/mcp.cpp`

The dispatcher of the requests and its handlers, and the server that answers one frame at a time.
What the registered handlers do besides looking at their arguments comes from a parameter, the world
at the time of the call.
-/

namespace Euxis.Mcp

structure McpTool where
  name : Bytes
  description : Bytes
  inputSchema : Json

structure McpResource where
  uri : Bytes
  name : Bytes
  description : Bytes
  mimeType : Bytes

/-- How a handler ends: with a value, with a `std::exception` and its text, or with something else
thrown. -/
inductive HandlerResult where
  | returned (value : Json)
  | raised (what : Bytes)
  | escaped

inductive Thrown where
  | json (e : JsonError)
  | handler
  deriving DecidableEq, Repr

def ofJson {α : Type} (x : Except JsonError α) : Except Thrown α := x.mapError .json

structure Host (ω : Type) where
  initialized : Bool := false
  tools : List McpTool := []
  handlers : Bytes → Option (ω → Json → HandlerResult) := fun _ => none
  resources : List McpResource := []
  resourceHandlers : Bytes → Option (ω → Bytes → HandlerResult) := fun _ => none

variable {ω : Type}

def registerTool (host : Host ω) (tool : McpTool) (handler : ω → Json → HandlerResult) : Host ω :=
  { host with
    tools := host.tools ++ [tool]
    handlers := Function.update host.handlers tool.name (some handler) }

def registerResource (host : Host ω) (resource : McpResource)
    (handler : ω → Bytes → HandlerResult) : Host ω :=
  { host with
    resources := host.resources ++ [resource]
    resourceHandlers := Function.update host.resourceHandlers resource.uri (some handler) }

/-! ## Responses -/

def makeResult (id result : Json) : Json :=
  Json.object [(ascii "jsonrpc", .str (ascii "2.0")), (ascii "id", id), (ascii "result", result)]

def makeError (id : Json) (code : Int) (msg : Bytes) : Json :=
  Json.object [
    (ascii "jsonrpc", .str (ascii "2.0")),
    (ascii "id", id),
    (ascii "error", Json.object [(ascii "code", .int code), (ascii "message", .str msg)])]

/-- `j.value(key, default)` with a JSON default. -/
def value (j : Json) (key : Bytes) (fallback : Json) : Except Thrown Json :=
  match j with
  | .obj members => .ok ((members.lookup key).getD fallback)
  | _ => .error (.json .typeError)

def idOf (req : Json) : Except Thrown Json := value req (ascii "id") .null

def emptyObject : Json := .obj []

/-! ## Handlers -/

def protocolVersion : Bytes := ascii "2024-11-05"

def listChanged : Json := Json.object [(ascii "listChanged", .bool true)]

def initializeResult : Json :=
  Json.object [
    (ascii "protocolVersion", .str protocolVersion),
    (ascii "capabilities",
      Json.object [(ascii "tools", listChanged), (ascii "resources", listChanged)]),
    (ascii "serverInfo", Json.object [
      (ascii "name", .str (ascii "euxis-gateway")),
      (ascii "version", .str (ascii "0.0.3"))])]

def handleInitialize (req : Json) : Except Thrown Json := do
  return makeResult (← idOf req) initializeResult

def toolJson (tool : McpTool) : Json :=
  Json.object [
    (ascii "name", .str tool.name),
    (ascii "description", .str tool.description),
    (ascii "inputSchema", tool.inputSchema)]

def handleToolsList (host : Host ω) (req : Json) : Except Thrown Json := do
  return makeResult (← idOf req) (Json.object [(ascii "tools", .arr (host.tools.map toolJson))])

/-- A handler inside `try`: an exception of the standard library becomes an error, anything else
goes on. -/
def guarded (lib : Library) (id : Json) (label : Bytes) (result : HandlerResult)
    (answer : Bytes → Json) : Except Thrown Json :=
  match result with
  | .returned v =>
    match lib.codec.dump v with
    | some text => .ok (makeResult id (answer text))
    | none => .ok (makeError id (-32603) (label ++ lib.what v))
  | .raised what => .ok (makeError id (-32603) (label ++ what))
  | .escaped => .error .handler

def toolContent (text : Bytes) : Json :=
  Json.object [(ascii "content",
    .arr [Json.object [(ascii "type", .str (ascii "text")), (ascii "text", .str text)]])]

def handleToolsCall (lib : Library) (world : ω) (host : Host ω) (req : Json) : Except Thrown Json :=
  do
  let id ← idOf req
  let params ← value req (ascii "params") emptyObject
  let toolName ← ofJson (params.valueStr (ascii "name") [])
  match host.handlers toolName with
  | none => return makeError id (-32601) (ascii "Unknown tool: " ++ toolName)
  | some handler =>
    -- `params` is an object here, so this cannot throw inside the `try` of the source
    let args ← value params (ascii "arguments") emptyObject
    guarded lib id (ascii "Tool error: ") (handler world args) toolContent

def resourceJson (r : McpResource) : Json :=
  Json.object [
    (ascii "uri", .str r.uri),
    (ascii "name", .str r.name),
    (ascii "description", .str r.description),
    (ascii "mimeType", .str r.mimeType)]

def handleResourcesList (host : Host ω) (req : Json) : Except Thrown Json := do
  return makeResult (← idOf req)
    (Json.object [(ascii "resources", .arr (host.resources.map resourceJson))])

def resourceContents (uri text : Bytes) : Json :=
  Json.object [(ascii "contents", .arr [Json.object [
    (ascii "uri", .str uri),
    (ascii "mimeType", .str (ascii "application/json")),
    (ascii "text", .str text)]])]

def handleResourcesRead (lib : Library) (world : ω) (host : Host ω) (req : Json) :
    Except Thrown Json := do
  let id ← idOf req
  let params ← value req (ascii "params") emptyObject
  let uri ← ofJson (params.valueStr (ascii "uri") [])
  match host.resourceHandlers uri with
  | none => return makeError id (-32602) (ascii "Unknown resource URI: " ++ uri)
  | some handler =>
    guarded lib id (ascii "Resource error: ") (handler world uri) (resourceContents uri)

def handlePing (req : Json) : Except Thrown Json := do
  return makeResult (← idOf req) emptyObject

/-! ## The dispatcher -/

def isRequest (request : Json) : Prop :=
  request.findStr (ascii "jsonrpc") = some (ascii "2.0") ∧ (request.find (ascii "method")).isSome

instance (request : Json) : Decidable (isRequest request) := inferInstanceAs (Decidable (_ ∧ _))

/-- `request["method"].get<std::string>()` -/
def methodOf (request : Json) : Except Thrown Bytes :=
  ofJson ((request.find (ascii "method")).getD .null).getStr

/-- The methods that need an initialized server. -/
def dispatch (lib : Library) (world : ω) (host : Host ω) (method : Bytes) (request : Json) :
    Except Thrown Json :=
  if method = ascii "tools/list" then handleToolsList host request
  else if method = ascii "tools/call" then handleToolsCall lib world host request
  else if method = ascii "resources/list" then handleResourcesList host request
  else if method = ascii "resources/read" then handleResourcesRead lib world host request
  else if method = ascii "ping" then handlePing request
  else do return makeError (← idOf request) (-32601) (ascii "Method not found")

def handleRequest (lib : Library) (world : ω) (host : Host ω) (request : Json) :
    Host ω × Except Thrown Json :=
  if isRequest request then
    match methodOf request with
    | .error e => (host, .error e)
    | .ok method =>
      if method = ascii "initialize" then
        ({ host with initialized := true }, handleInitialize request)
      else if method = ascii "notifications/initialized" then
        (host, do return makeResult (← idOf request) emptyObject)
      else if host.initialized = false then
        (host, do return makeError (← idOf request) (-32002) (ascii "Server not initialized"))
      else (host, dispatch lib world host method request)
  else (host, do return makeError (← idOf request) (-32600) (ascii "Invalid Request"))

/-! ## The server -/

/-- How a call of `process_one` ends, with what it wrote. -/
inductive Reply where
  | eof
  | threw
  | handled (output : Bytes)
  deriving DecidableEq, Repr

def answer (lib : Library) (response : Except Thrown Json) : Reply :=
  match response with
  | .error _ => .threw
  | .ok .null => .handled []
  | .ok response =>
    match writeFrame lib response with
    | none => .threw
    | some output => .handled output

def processOne (lib : Library) (world : ω) (host : Host ω) (input : Bytes) :
    Host ω × Bytes × Reply :=
  match readFrame lib input with
  | (rest, .nothing) => (host, rest, .eof)
  | (rest, .threw) => (host, rest, .threw)
  | (rest, .message m) =>
    let (host, response) := handleRequest lib world host m
    (host, rest, answer lib response)

/-- One call of `process_one` after the other, each in its world. -/
def serve (lib : Library) (host : Host ω) (input : Bytes) : List ω → List Reply
  | [] => []
  | world :: later =>
    let (host, rest, reply) := processOne lib world host input
    reply :: serve lib host rest later

end Euxis.Mcp
