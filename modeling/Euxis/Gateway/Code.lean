import Euxis.Audit.Code
import Mathlib.Logic.Function.Basic

/-!
# The session store of the gateway: `apps/gateway/src/state.cpp`

The routes of `routes_sessions.cpp` with the files they read and write. A file is found at the
directories and the name that its path leads to; there are no symbolic links, and file operations
succeed.
-/

namespace Euxis.Gateway

/-! ## Paths -/

/-- `operator/` of `std::filesystem::path`. -/
def appendPath (p q : Bytes) : Bytes :=
  if q.head? = some (ch '/') then q
  else if p = [] ∨ p.getLast? = some (ch '/') then p ++ q
  else p ++ ch '/' :: q

def walk (place : List Bytes) (part : Bytes) : List Bytes :=
  if part = [] ∨ part = ascii "." then place
  else if part = ascii ".." then place.dropLast
  else place ++ [part]

/-- Where the system call finds a path. The path ends at its first zero byte. -/
def resolve (cwd : List Bytes) (p : Bytes) : List Bytes :=
  let s := p.takeWhile (· ≠ 0)
  (s.splitOn (ch '/')).foldl walk (if s.head? = some (ch '/') then [] else cwd)

/-- The process: `EUXIS_HOME`, `HOME` and the working directory. `getenv` returns a C string. -/
structure Env where
  euxisHome : Option Bytes
  userHome : Option Bytes
  cwd : List Bytes
  euxisHome_text : ∀ h ∈ euxisHome, 0 ∉ h
  userHome_text : ∀ h ∈ userHome, 0 ∉ h

/-- It throws when neither variable is set. -/
def euxisHome (env : Env) : Option Bytes :=
  match env.euxisHome with
  | some home => some home
  | none => env.userHome.map (appendPath · (ascii ".euxis"))

def gatewayDataDir (env : Env) : Option Bytes :=
  (euxisHome env).map fun home => appendPath (appendPath home (ascii "data")) (ascii "gateway")

def sessionsDir (env : Env) : Option Bytes :=
  (gatewayDataDir env).map (appendPath · (ascii "sessions"))

def auditDir (env : Env) : Option Bytes := (gatewayDataDir env).map (appendPath · (ascii "audit"))

/-! ## Files -/

abbrev Files := List Bytes → Option Bytes

/-- `std::ofstream f(path, std::ios::app)`, with `bytes` written to it. -/
def appendFile (files : Files) (place : List Bytes) (bytes : Bytes) : Files :=
  Function.update files place (some ((files place).getD [] ++ bytes))

/-- One line at the end of a file, and whether it got there: when `dump` throws, the file is open
already. -/
def persistLine (codec : JsonCodec) (files : Files) (place : List Bytes) (entry : Json) :
    Files × Bool :=
  match codec.dump entry with
  | none => (appendFile files place [], false)
  | some line => (appendFile files place (line ++ [ch '\n']), true)

def sessionFile (dir sessionId : Bytes) : Bytes := appendPath dir (sessionId ++ ascii ".jsonl")

def persistMessage (codec : JsonCodec) (env : Env) (files : Files) (sessionId : Bytes)
    (entry : Json) : Files × Bool :=
  match sessionsDir env with
  | none => (files, false)
  | some dir => persistLine codec files (resolve env.cwd (sessionFile dir sessionId)) entry

def auditLog (codec : JsonCodec) (env : Env) (files : Files) (event : Json) : Files × Bool :=
  match auditDir env with
  | none => (files, false)
  | some dir =>
    persistLine codec files (resolve env.cwd (appendPath dir (ascii "gateway_audit.jsonl"))) event

/-- The lines that parse. -/
def parseLines (codec : JsonCodec) (content : Bytes) : List Json :=
  (Audit.getLines content).filterMap fun line => if line = [] then none else codec.parse line

def loadSessionFromDisk (codec : JsonCodec) (env : Env) (files : Files) (sessionId : Bytes) :
    Option (List Json) :=
  (sessionsDir env).map fun dir =>
    match files (resolve env.cwd (sessionFile dir sessionId)) with
    | none => []
    | some content => parseLines codec content

/-! ## Requests -/

structure Request where
  /-- The `Authorization` header. -/
  authorization : Option Bytes
  body : Bytes

structure Response where
  status : Nat
  body : Bytes
  deriving DecidableEq, Repr

/-- `res.set_content(j.dump(), ..)`. The server answers 500 to an exception that leaves a
handler. -/
def respond (codec : JsonCodec) (status : Nat) (j : Json) : Response :=
  match codec.dump j with
  | some text => { status, body := text }
  | none => { status := 500, body := [] }

def extractBearer (req : Request) : Bytes :=
  match req.authorization with
  | none => []
  | some val => if (ascii "Bearer ").isPrefixOf val then val.drop 7 else []

structure AuthError where
  statusCode : Nat
  message : Bytes

def verifyBearerToken (token expected : Bytes) : Except AuthError Unit :=
  if expected = [] then .error { statusCode := 500, message := ascii "No auth token configured" }
  else if token = [] then .error { statusCode := 401, message := ascii "Missing bearer token" }
  else if token ≠ expected then
    .error { statusCode := 401, message := ascii "Invalid bearer token" }
  else .ok ()

def kMaxRequestBodySize : Nat := 1024 * 1024

/-- The answer to a request that is not allowed. -/
def authorizeRequest (codec : JsonCodec) (authToken : Bytes) (req : Request) : Option Response :=
  if kMaxRequestBodySize < req.body.length then
    some { status := 413, body := ascii "\x7b\"error\":\"request body too large\"\x7d" }
  else
    match verifyBearerToken (extractBearer req) authToken with
    | .error e => some (respond codec e.statusCode (Json.object [(ascii "error", .str e.message)]))
    | .ok () => none

/-! ## `POST /api/sessions` -/

/-- A request, and what its two calls of `timestamp()` return. -/
structure Post where
  req : Request
  now : Bytes
  later : Bytes

/-- The session and the content that a body names. -/
def readMessage (codec : JsonCodec) (body : Bytes) : Except JsonError (Bytes × Bytes) :=
  match codec.parse body with
  | none => .error .parseError
  | some j => do
    let sessionId ← j.valueStr (ascii "session_id") []
    let content ← j.valueStr (ascii "content") []
    .ok (sessionId, content)

def messageEntry (content now : Bytes) : Json :=
  Json.object [(ascii "role", .str (ascii "user")), (ascii "content", .str content),
    (ascii "timestamp", .str now)]

def messageEvent (sessionId later : Bytes) : Json :=
  Json.object [(ascii "event", .str (ascii "session.message")),
    (ascii "session_id", .str sessionId), (ascii "timestamp", .str later)]

def invalidJson : Response := { status := 400, body := ascii "\x7b\"error\":\"invalid json\"\x7d" }

def fieldsRequired : Response :=
  { status := 400, body := ascii "\x7b\"error\":\"session_id and content required\"\x7d" }

def postSession (codec : JsonCodec) (env : Env) (authToken : Bytes) (files : Files) (post : Post) :
    Files × Response :=
  match authorizeRequest codec authToken post.req with
  | some refusal => (files, refusal)
  | none =>
    match readMessage codec post.req.body with
    | .error _ => (files, invalidJson)
    | .ok (sessionId, content) =>
      if sessionId = [] ∨ content = [] then (files, fieldsRequired)
      else
        let entry := messageEntry content post.now
        match persistMessage codec env files sessionId entry with
        | (files, false) => (files, invalidJson)
        | (files, true) =>
          match auditLog codec env files (messageEvent sessionId post.later) with
          | (files, false) => (files, invalidJson)
          | (files, true) =>
            match codec.dump entry with
            | none => (files, invalidJson)
            | some text => (files, { status := 200, body := text })

/-- A sequence of posts. -/
def postAll (codec : JsonCodec) (env : Env) (authToken : Bytes) (files : Files)
    (posts : List Post) : Files :=
  posts.foldl (fun files post => (postSession codec env authToken files post).1) files

/-! ## `GET /api/sessions/(\w+)` -/

/-- The class `\w`, in the C locale. -/
def isWord (b : UInt8) : Bool := Bytes.isAlnum b || b == ch '_'

def sessionsPath : Bytes := ascii "/api/sessions/"

/-- `std::regex_match` of the route, and its first group. -/
def matchSession (path : Bytes) : Option Bytes :=
  if sessionsPath.isPrefixOf path then
    let group := path.drop sessionsPath.length
    if group ≠ [] ∧ group.all isWord then some group else none
  else none

inductive GetRoute where
  | health
  | ready
  | session (sessionId : Bytes)
  | adminConfig
  deriving DecidableEq, Repr

/-- The `Get` routes, in the order of `register_routes`. -/
def routeGet (path : Bytes) : Option GetRoute :=
  if path = ascii "/health" then some .health
  else if path = ascii "/ready" then some .ready
  else
    match matchSession path with
    | some sessionId => some (.session sessionId)
    | none => if path = ascii "/api/admin/config" then some .adminConfig else none

def historyBody (sessionId : Bytes) (history : List Json) : Json :=
  Json.object [(ascii "session_id", .str sessionId), (ascii "messages", .arr history)]

def getSession (codec : JsonCodec) (env : Env) (authToken : Bytes) (files : Files) (req : Request)
    (sessionId : Bytes) : Response :=
  match authorizeRequest codec authToken req with
  | some refusal => refusal
  | none =>
    match loadSessionFromDisk codec env files sessionId with
    | none => { status := 500, body := [] }
    | some history => respond codec 200 (historyBody sessionId history)

/-- What the session handler answers to a path, if the path is routed to it. -/
def getPath (codec : JsonCodec) (env : Env) (authToken : Bytes) (files : Files) (req : Request)
    (path : Bytes) : Option Response :=
  match routeGet path with
  | some (.session sessionId) => some (getSession codec env authToken files req sessionId)
  | _ => none

end Euxis.Gateway
