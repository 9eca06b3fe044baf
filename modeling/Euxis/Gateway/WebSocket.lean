import Euxis.Gateway.Code

/-!
# WebSocket messages of the gateway: `apps/gateway/src/server.cpp`

The handler that `setup_ws_handlers` installs, beside the check that the HTTP routes make of the
same token.
-/

namespace Euxis.Gateway

/-- The token, as `register_routes` and `setup_ws_handlers` read it from the configuration. -/
def configToken (raw : Json) : Except JsonError Bytes :=
  match ((raw.find (ascii "gateway")).bind (·.find (ascii "auth"))).bind (·.find (ascii "token"))
    with
  | none => .ok []
  | some token => token.valueStr (ascii "value") []

/-- A string field of a message. What is missing or no string counts as empty. -/
def messageStr (message : Json) (key : Bytes) : Bytes := (message.findStr key).getD []

def wsError (message : Bytes) : Json :=
  Json.object [(ascii "type", .str (ascii "error")), (ascii "message", .str message)]

def wsPong (clientId : Bytes) : Json :=
  Json.object [(ascii "type", .str (ascii "pong")), (ascii "client_id", .str clientId)]

def dispatchAck (agent : Bytes) : Json :=
  Json.object [(ascii "type", .str (ascii "dispatch_ack")), (ascii "agent", .str agent),
    (ascii "status", .str (ascii "accepted"))]

def subscribed (channel : Bytes) : Json :=
  Json.object [(ascii "type", .str (ascii "subscribed")), (ascii "channel", .str channel)]

/-- What comes after the check. -/
def wsCommand (message : Json) : Json :=
  let type := messageStr message (ascii "type")
  if type = ascii "dispatch" then dispatchAck (messageStr message (ascii "agent"))
  else if type = ascii "subscribe" then subscribed (messageStr message (ascii "channel"))
  else wsError (ascii "Unknown message type")

def wsHandler (wsAuthToken clientId : Bytes) (message : Json) : Json :=
  if messageStr message (ascii "type") = ascii "ping" then wsPong clientId
  else if wsAuthToken ≠ [] ∧ messageStr message (ascii "token") ≠ wsAuthToken then
    wsError (ascii "Authentication required")
  else wsCommand message

/-- The constructor of the server throws on a token of another type. -/
def setupWsHandlers (raw : Json) : Except JsonError (Bytes → Json → Json) :=
  (configToken raw).map wsHandler

/-! ## The two checks compared -/

/-- A message that asks the gateway to act. -/
def isCommand (message : Json) : Bool :=
  messageStr message (ascii "type") = ascii "dispatch" ∨
    messageStr message (ascii "type") = ascii "subscribe"

def acknowledges (answer : Json) : Bool :=
  messageStr answer (ascii "type") = ascii "dispatch_ack" ∨
    messageStr answer (ascii "type") = ascii "subscribed"

/-- A request that carries the token of a message. -/
def carrying (message : Json) : Request :=
  { authorization := some (ascii "Bearer " ++ messageStr message (ascii "token")), body := [] }

/-- The string at `gateway.auth.token.value`, if there is one. -/
def configuredToken (raw : Json) : Bytes :=
  match ((raw.find (ascii "gateway")).bind (·.find (ascii "auth"))).bind (·.find (ascii "token"))
    with
  | none => []
  | some token => messageStr token (ascii "value")

/-- A command is acknowledged only if the HTTP check would let its token pass. -/
def Authenticated (raw : Json) (handler : Bytes → Json → Json) (clientId : Bytes) (message : Json) :
    Prop :=
  isCommand message → acknowledges (handler clientId message) →
    ∃ authToken, configToken raw = .ok authToken ∧
      verifyBearerToken (extractBearer (carrying message)) authToken = .ok ()

theorem valueStr_messageStr (j : Json) (key s : Bytes) (h : j.valueStr key [] = .ok s) :
    messageStr j key = s := by
  cases j with
  | obj members =>
    simp only [Json.valueStr] at h
    simp only [messageStr, Json.findStr, Json.find]
    split at h
    · rename_i hnone
      simpa [hnone] using h
    · rename_i t hstr
      simpa [hstr] using h
    · cases h
  | _ => cases h

theorem configToken_ok (raw : Json) (token : Bytes) (h : configToken raw = .ok token) :
    configuredToken raw = token := by
  unfold configToken at h
  unfold configuredToken
  split at h
  · exact Except.ok.inj h
  · rename_i found hfound
    exact valueStr_messageStr found (ascii "value") token h

theorem setupWsHandlers_ok (raw : Json) (handler : Bytes → Json → Json)
    (h : setupWsHandlers raw = .ok handler) :
    configToken raw = .ok (configuredToken raw) ∧ handler = wsHandler (configuredToken raw) := by
  unfold setupWsHandlers at h
  cases htoken : configToken raw with
  | error e => rw [htoken] at h; cases h
  | ok token =>
    rw [htoken] at h
    rw [configToken_ok raw token htoken]
    exact ⟨rfl, (Except.ok.inj h).symm⟩

theorem extractBearer_carrying (message : Json) :
    extractBearer (carrying message) = messageStr message (ascii "token") := by
  have hstarts : (ascii "Bearer ").isPrefixOf
      (ascii "Bearer " ++ messageStr message (ascii "token")) = true := by
    rw [List.isPrefixOf_iff_prefix]
    exact List.prefix_append _ _
  simp only [extractBearer, carrying, hstarts, if_true]
  exact List.drop_left' (by decide)

theorem verifyBearerToken_ok_iff (token expected : Bytes) :
    verifyBearerToken token expected = .ok () ↔ expected ≠ [] ∧ token = expected := by
  unfold verifyBearerToken
  by_cases hexpected : expected = []
  · simp [hexpected]
  · by_cases htoken : token = []
    · have hne : ¬ [] = expected := fun h => hexpected h.symm
      simp [hexpected, htoken, hne]
    · by_cases heq : token = expected
      · simp [hexpected, heq]
      · simp [hexpected, htoken, heq]

theorem isCommand_not_ping (message : Json) (h : isCommand message = true) :
    messageStr message (ascii "type") ≠ ascii "ping" := by
  intro hping
  rw [isCommand, hping] at h
  exact absurd h (by decide)

theorem acknowledges_wsError (message : Bytes) : acknowledges (wsError message) = false := rfl

theorem acknowledges_wsCommand (message : Json) (h : isCommand message = true) :
    acknowledges (wsCommand message) = true := by
  simp only [isCommand, decide_eq_true_eq] at h
  unfold wsCommand
  rcases h with hdispatch | hsubscribe
  · rw [if_pos hdispatch]
    rfl
  · have hne : ¬ messageStr message (ascii "type") = ascii "dispatch" := by
      rw [hsubscribe]
      decide
    rw [if_neg hne, if_pos hsubscribe]
    rfl

theorem acknowledges_wsHandler (token clientId : Bytes) (message : Json)
    (h : isCommand message = true) :
    acknowledges (wsHandler token clientId message) = true ↔
      token = [] ∨ messageStr message (ascii "token") = token := by
  unfold wsHandler
  rw [if_neg (isCommand_not_ping message h)]
  by_cases hrefused : token ≠ [] ∧ messageStr message (ascii "token") ≠ token
  · rw [if_pos hrefused, acknowledges_wsError]
    simp [hrefused]
  · rw [if_neg hrefused, acknowledges_wsCommand message h]
    simp only [true_iff]
    by_cases htoken : token = []
    · exact Or.inl htoken
    · right
      by_contra hne
      exact hrefused ⟨htoken, hne⟩

/-- The two checks agree on a message exactly when a token is configured, or the message is no
command. -/
theorem authenticated_iff (raw : Json) (handler : Bytes → Json → Json)
    (hsetup : setupWsHandlers raw = .ok handler) (clientId : Bytes) (message : Json) :
    Authenticated raw handler clientId message ↔ configuredToken raw ≠ [] ∨
      ¬ isCommand message := by
  obtain ⟨htoken, rfl⟩ := setupWsHandlers_ok raw handler hsetup
  unfold Authenticated
  simp only [htoken, Except.ok.injEq, exists_eq_left', extractBearer_carrying,
    verifyBearerToken_ok_iff]
  by_cases hcommand : isCommand message = true
  · rw [acknowledges_wsHandler _ _ _ hcommand]
    by_cases htoken : configuredToken raw = []
    · simp [hcommand, htoken]
    · simp [hcommand, htoken]
  · simp [hcommand]

def tokenConfig (value : Json) : Json :=
  Json.object [(ascii "gateway", Json.object [(ascii "auth", Json.object [(ascii "token",
    Json.object [(ascii "value", value)])])])]

def dispatchMessage (token : Bytes) : Json :=
  Json.object [(ascii "type", .str (ascii "dispatch")), (ascii "agent", .str (ascii "qa")),
    (ascii "token", .str token)]

theorem configured_token_authenticates :
    Authenticated (tokenConfig (.str (ascii "s3"))) (wsHandler (ascii "s3")) (ascii "c1")
      (dispatchMessage (ascii "s3")) :=
  (authenticated_iff (tokenConfig (.str (ascii "s3"))) (wsHandler (ascii "s3")) rfl (ascii "c1")
    (dispatchMessage (ascii "s3"))).mpr (Or.inl (by decide))

theorem missing_token_acknowledged :
    ∃ handler, setupWsHandlers (.obj []) = .ok handler ∧
      handler (ascii "c1") (dispatchMessage []) = dispatchAck (ascii "qa") ∧
      ¬ Authenticated (.obj []) handler (ascii "c1") (dispatchMessage []) := by
  refine ⟨wsHandler [], rfl, rfl, ?_⟩
  intro hauth
  obtain ⟨authToken, htoken, hverify⟩ := hauth rfl rfl
  obtain rfl := Except.ok.inj htoken
  exact ((verifyBearerToken_ok_iff _ _).mp hverify).1 rfl

end Euxis.Gateway
