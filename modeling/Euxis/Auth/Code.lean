import Euxis.Policy.Code
import Euxis.Router.Code
import Mathlib.Data.List.Sort

/-!
# Credentials: `apps/cli/src/auth_profile_store.cpp`, `apps/cli/src/provider_executor.cpp`

The store of auth profiles, how it picks one, and what the executor then sends. A call is followed
up to the command that it runs.
-/

namespace Euxis.Auth

/-! ## The store -/

inductive ProfileType where
  | apiKey
  | oauth
  deriving DecidableEq, Repr

inductive CooldownReason where
  | rateLimit
  | authError
  | billingError
  | unsupportedMethod
  deriving DecidableEq, Repr

structure AuthProfile where
  id : Bytes
  provider : Bytes
  type : ProfileType := .apiKey
  label : Bytes := []
  apiKey : Bytes := []
  accessToken : Bytes := []
  refreshToken : Bytes := []
  email : Bytes := []
  expiresAt : Int := 0
  source : Bytes := []
  lastUsedAt : Int := 0
  deriving DecidableEq, Repr

structure ResolvedAuth where
  profileId : Bytes
  provider : Bytes
  token : Bytes
  isOauth : Bool
  deriving DecidableEq, Repr

structure CooldownEntry where
  untilMs : Int
  consecutive : Int
  reason : CooldownReason
  deriving DecidableEq, Repr

structure Store where
  profiles : List AuthProfile
  fallbackChains : List (Bytes × List Bytes)
  cooldowns : List (Bytes × CooldownEntry)
  sessionPin : Bytes

def defaultFallbacks : List (Bytes × List Bytes) :=
  [(ascii "claude", [ascii "openai", ascii "gemini", ascii "ollama"]),
   (ascii "anthropic", [ascii "openai", ascii "gemini", ascii "ollama"]),
   (ascii "openai", [ascii "claude", ascii "gemini", ascii "ollama"]),
   (ascii "gemini", [ascii "claude", ascii "openai", ascii "ollama"]),
   (ascii "ollama", [ascii "claude", ascii "openai", ascii "gemini"])]

def isCooledDown (store : Store) (now : Int) (id : Bytes) : Bool :=
  match store.cooldowns.lookup id with
  | none => false
  | some entry => now < entry.untilMs

/-- The profile passes the first loop of `pick_best`. -/
def eligible (store : Store) (now : Int) (provider : Bytes) (p : AuthProfile) : Bool :=
  p.provider = provider && !isCooledDown store now p.id &&
    !(p.type = .oauth && 0 < p.expiresAt && p.expiresAt ≤ now)

def isCliImport (p : AuthProfile) : Bool :=
  p.source = ascii "claude_code_import" || p.source = ascii "gemini_import"

def resolved (p : AuthProfile) : ResolvedAuth :=
  { profileId := p.id, provider := p.provider,
    token := if p.type = .oauth then p.accessToken else p.apiKey,
    isOauth := p.type = .oauth }

/-- The comparator of the sort. -/
def sortsBefore (a b : AuthProfile) : Bool :=
  if isCliImport a ≠ isCliImport b then isCliImport a
  else if a.type ≠ b.type then a.type = .oauth
  else a.lastUsedAt < b.lastUsedAt

/-- `std::stable_sort` with the comparator. -/
def stableSort (l : List AuthProfile) : List AuthProfile :=
  l.insertionSort fun a b => sortsBefore b a = false

def candidates (store : Store) (now : Int) (provider : Bytes) : List AuthProfile :=
  let gathered := store.profiles.filter (eligible store now provider)
  if gathered.any isCliImport then gathered.filter (·.source ≠ ascii "env") else gathered

def pickBest (store : Store) (now : Int) (provider : Bytes) : Option ResolvedAuth :=
  let candidates := candidates store now provider
  match if store.sessionPin = [] then none else candidates.find? (·.id = store.sessionPin) with
  | some pinned => some (resolved pinned)
  | none => (stableSort candidates).head?.map resolved

def resolveWithFallback (store : Store) (now : Int) (provider : Bytes) : Option ResolvedAuth :=
  match pickBest store now provider with
  | some auth => some auth
  | none => ((store.fallbackChains.lookup provider).getD []).findSome? (pickBest store now)

/-! ## What the executor sends -/

/-- What `curl` is called with. -/
structure HttpRequest where
  url : Bytes
  headers : List Bytes
  body : Bytes
  stream : Bool

inductive Command where
  /-- An error before anything is run. -/
  | refuse (error : Bytes)
  /-- The body has no text. -/
  | throws
  | mock
  | mcp (server prompt : Bytes)
  | ollama (model prompt : Bytes)
  | cli (binary : Bytes) (args : List Bytes) (env : List (Bytes × Bytes))
  | http (request : HttpRequest)

/-- The environment of a call. `credentials` is the Claude credentials file, when it exists and
parses. -/
structure Machine where
  getenv : Bytes → Option Bytes
  credentials : Option Json
  breakerOpen : Bytes → Bool

def knownProviders : List Bytes :=
  [ascii "claude", ascii "openai", ascii "gemini", ascii "ollama", ascii "opencode", ascii "aider",
    ascii "sgpt",
   ascii "kiro", ascii "mcp"]

def cliEnv (m : Machine) : List (Bytes × Bytes) :=
  [ascii "OPENAI_API_KEY", ascii "ANTHROPIC_API_KEY", ascii "GEMINI_API_KEY"].filterMap fun name =>
    (m.getenv name).map fun v => (name, v)

def executeViaCli (m : Machine) (provider prompt : Bytes) : Command :=
  if provider = ascii "claude" then
    .cli (ascii "claude")
      [ascii "--model", ascii "sonnet", ascii "--permission-mode", ascii "dontAsk",
        ascii "--no-session-persistence",
       ascii "-p", ascii "--", prompt] (cliEnv m)
  else if provider = ascii "gemini" then .cli (ascii "gemini") [ascii "ask", prompt] (cliEnv m)
  else if provider = ascii "opencode" then .cli (ascii "opencode") [ascii "run", prompt] (cliEnv m)
  else if provider = ascii "aider" then
    .cli (ascii "aider")
      [ascii "--message", prompt, ascii "--no-git", ascii "--no-auto-commits", ascii "--light-mode"]
      (cliEnv m)
  else if provider = ascii "sgpt" then .cli (ascii "sgpt") [prompt] (cliEnv m)
  else if provider = ascii "kiro" then .cli (ascii "kiro") [ascii "chat", prompt] (cliEnv m)
  else .refuse (ascii "No CLI bridge implemented for " ++ provider)

/-- The token of the credentials file. Any exception on the way gives the empty token. -/
def credentialsToken (m : Machine) : Bytes :=
  match m.getenv (ascii "HOME"), m.credentials with
  | some _, some creds =>
    match creds.find (ascii "claudeAiOauth") with
    | some oauth => (oauth.valueStr (ascii "accessToken") []).toOption.getD []
    | none => []
  | _, _ => []

def resolveAnthropicToken (m : Machine) : Bytes :=
  match m.getenv (ascii "ANTHROPIC_API_KEY") with
  | some (b :: rest) => b :: rest
  | _ => credentialsToken m

def jsonHeader : Bytes := ascii "Content-Type: application/json"

def orDefault (model fallback : Bytes) : Bytes := if model = [] then fallback else model

def userMessage (prompt : Bytes) : Json :=
  .arr [.obj [(ascii "content", .str prompt), (ascii "role", .str (ascii "user"))]]

/-- `body.dump()`, and the call of `curl` with it. -/
def send (codec : JsonCodec) (url : Bytes) (headers : List Bytes) (body : Json) (stream : Bool) :
    Command :=
  match codec.dump body with
  | none => .throws
  | some body => .http { url, headers, body, stream }

def executeClaude (codec : JsonCodec) (m : Machine) (model prompt : Bytes)
    (auth : Option ResolvedAuth) (stream : Bool) : Command :=
  let token := (auth.map (·.token)).getD (resolveAnthropicToken m)
  if token = [] then .refuse (ascii "No Anthropic auth found.")
  else
    let body := (((Json.null.set (ascii "model")
      (.str (orDefault model (ascii "claude-sonnet-4-6")))).set
      (ascii "max_tokens") (.int 4096)).set (ascii "messages") (userMessage prompt))
    send codec (ascii "https://api.anthropic.com/v1/messages")
      [jsonHeader, ascii "anthropic-version: 2023-06-01", ascii "x-api-key: " ++ token]
      (if stream then body.set (ascii "stream") (.bool true) else body) stream

/-- The token of `execute_api`: the profile's, or the variable's. -/
def apiToken (m : Machine) (name : Bytes) (auth : Option ResolvedAuth) : Bytes :=
  (auth.map (·.token)).getD ((m.getenv name).getD [])

/-- `execute_api`, which is called for OpenAI and Gemini only. It does not stream. -/
def executeApi (codec : JsonCodec) (m : Machine) (provider model prompt : Bytes)
    (auth : Option ResolvedAuth) : Command :=
  if provider = ascii "openai" then
    let token := apiToken m (ascii "OPENAI_API_KEY") auth
    if token = [] then .refuse (ascii "No OpenAI auth")
    else
      send codec (ascii "https://api.openai.com/v1/chat/completions") [jsonHeader,
        ascii "Authorization: Bearer " ++ token]
        ((Json.null.set (ascii "model") (.str (orDefault model (ascii "gpt-4o")))).set
          (ascii "messages") (userMessage prompt)) false
  else
    let token := apiToken m (ascii "GEMINI_API_KEY") auth
    if token = [] then .refuse (ascii "No Gemini auth")
    else
      send codec
        (ascii "https://generativelanguage.googleapis.com/v1beta/models/" ++
          (orDefault model (ascii "gemini-2.5-flash-lite") ++ ascii ":generateContent"))
        [jsonHeader, ascii "x-goog-api-key: " ++ token]
        (Json.null.set (ascii "contents")
          (.arr [.obj [(ascii "parts", .arr [.obj [(ascii "text", .str prompt)]])]])) false

def effectiveProvider (provider : Bytes) : Bytes :=
  if provider = ascii "anthropic" then ascii "claude" else provider

def isCliTool (provider : Bytes) : Bool :=
  provider = ascii "opencode" || provider = ascii "aider" || provider = ascii "sgpt" || provider =
    ascii "kiro"

/-- `execute`, up to the command it runs. -/
def execute (codec : JsonCodec) (m : Machine) (store : Store) (now : Int)
    (selection : Router.ModelSelection) (prompt : Bytes) (explicitAuth : Option ResolvedAuth)
    (stream : Bool) (capability : Option Policy.AgentCapabilityToken) : Command :=
  let provider := effectiveProvider selection.provider
  if capability.any fun token => provider ∉ token.allowedProviders then
    .refuse (ascii "provider not allowed by capability token")
  else if provider ∉ knownProviders then .refuse (ascii "Unknown provider: " ++ provider)
  else if (m.getenv (ascii "EUXIS_TEST_MOCK_EXECUTION")).isSome then
    match m.getenv (ascii "EUXIS_TEST_MOCK_EXECUTION_FAIL") with
    | some (b :: rest) => .refuse (b :: rest)
    | _ => .mock
  else if m.breakerOpen provider then .refuse (ascii "provider circuit open: " ++ provider)
  else if provider = ascii "mcp" then .mcp selection.model prompt
  else if provider = ascii "ollama" then
    .ollama (orDefault selection.model (ascii "qwen2.5-coder:7b")) prompt
  else
    let auth := explicitAuth <|> resolveWithFallback store now provider
    if auth.any (·.isOauth) || isCliTool provider then executeViaCli m provider prompt
    else if provider = ascii "claude" then executeClaude codec m selection.model prompt auth stream
    else executeApi codec m provider selection.model prompt auth

end Euxis.Auth
