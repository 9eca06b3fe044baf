import Euxis.Auth.Code
import Euxis.Json.RoundTrip

/-!
# Which credential reaches which provider

The store picks a profile of the provider it was asked for. The executor asks with the fallback
chain, and then sends what it gets to the provider of the call.
-/

namespace Euxis.Auth

/-! ## Picking a profile -/

section Store

variable (store : Store) (now : Int)

theorem mem_candidates (provider : Bytes) (p : AuthProfile)
    (h : p ∈ candidates store now provider) :
    p ∈ store.profiles ∧ eligible store now provider p = true := by
  unfold candidates at h
  simp only at h
  split at h
  · exact List.mem_filter.mp (List.mem_filter.mp h).1
  · exact List.mem_filter.mp h

theorem candidates_ne_nil (provider : Bytes) (p : AuthProfile) (hp : p ∈ store.profiles)
    (h : eligible store now provider p = true) : candidates store now provider ≠ [] := by
  have hgathered : p ∈ store.profiles.filter (eligible store now provider) :=
    List.mem_filter.mpr ⟨hp, h⟩
  unfold candidates
  simp only
  split
  · rename_i hany
    obtain ⟨q, hq, hcli⟩ := List.any_eq_true.mp hany
    apply List.ne_nil_of_mem (a := q)
    rw [List.mem_filter]
    refine ⟨hq, ?_⟩
    unfold isCliImport at hcli
    simp only [Bool.or_eq_true, decide_eq_true_eq] at hcli
    rcases hcli with hcli | hcli
    · rw [hcli]
      decide
    · rw [hcli]
      decide
  · exact List.ne_nil_of_mem hgathered

theorem pickBest_mem (provider : Bytes) (auth : ResolvedAuth)
    (h : pickBest store now provider = some auth) :
    ∃ p ∈ store.profiles, p.provider = provider ∧ auth = resolved p := by
  have hprofile : ∀ p ∈ candidates store now provider, p ∈ store.profiles ∧
      p.provider = provider := by
    intro p hp
    obtain ⟨hmem, helig⟩ := mem_candidates store now provider p hp
    unfold eligible at helig
    simp only [Bool.and_eq_true, decide_eq_true_eq] at helig
    exact ⟨hmem, helig.1.1⟩
  unfold pickBest at h
  simp only at h
  split at h
  · rename_i pinned hpin
    split at hpin
    · cases hpin
    · obtain ⟨hmem, hprov⟩ := hprofile pinned (List.mem_of_find?_eq_some hpin)
      exact ⟨pinned, hmem, hprov, (Option.some.inj h).symm⟩
  · obtain ⟨p, hp, rfl⟩ := Option.map_eq_some_iff.mp h
    have hsorted : p ∈ stableSort (candidates store now provider) := List.mem_of_head? hp
    unfold stableSort at hsorted
    rw [List.mem_insertionSort] at hsorted
    obtain ⟨hmem, hprov⟩ := hprofile p hsorted
    exact ⟨p, hmem, hprov, rfl⟩

theorem pickBest_eq_none_iff (provider : Bytes) :
    pickBest store now provider = none ↔ ∀ p ∈ store.profiles,
      eligible store now provider p = false := by
  constructor
  · intro h p hp
    by_contra helig
    have hne := candidates_ne_nil store now provider p hp (by simpa using helig)
    unfold pickBest at h
    simp only at h
    split at h
    · cases h
    · rw [Option.map_eq_none_iff, List.head?_eq_none_iff] at h
      -- A sorted list is empty only if the list was.
      unfold stableSort at h
      rw [← List.length_eq_zero_iff, List.length_insertionSort, List.length_eq_zero_iff] at h
      exact hne h
  · intro h
    cases hpick : pickBest store now provider with
    | none => rfl
    | some auth =>
      exfalso
      have hempty : candidates store now provider = [] := by
        rw [List.eq_nil_iff_forall_not_mem]
        intro p hp
        obtain ⟨hmem, helig⟩ := mem_candidates store now provider p hp
        rw [h p hmem] at helig
        cases helig
      unfold pickBest at hpick
      simp [hempty, stableSort] at hpick

end Store

/-! ## Whose token a request carries -/

def Endpoint (provider : Bytes) : Prop :=
  provider = ascii "claude" ∨ provider = ascii "openai" ∨ provider = ascii "gemini"

def ownVariable (provider : Bytes) : Bytes :=
  if provider = ascii "claude" then ascii "ANTHROPIC_API_KEY"
  else if provider = ascii "openai" then ascii "OPENAI_API_KEY"
  else ascii "GEMINI_API_KEY"

/-- The token is that of a profile of the provider, of its own variable, or of its own credentials
file. -/
def Owned (m : Machine) (store : Store) (provider token : Bytes) : Prop :=
  (∃ p ∈ store.profiles, p.provider = provider ∧ (resolved p).token = token) ∨
    m.getenv (ownVariable provider) = some token ∨ provider = ascii "claude" ∧
    credentialsToken m = token

def authSchemes : List Bytes :=
  [ascii "x-api-key: ", ascii "Authorization: Bearer ", ascii "x-goog-api-key: "]

/-- The address is the endpoint of the provider. -/
def SentTo (provider url : Bytes) : Prop :=
  if provider = ascii "claude" then url = ascii "https://api.anthropic.com/v1/messages"
  else if provider = ascii "openai" then url = ascii "https://api.openai.com/v1/chat/completions"
  else ascii "https://generativelanguage.googleapis.com/v1beta/models/" <+: url

/-- A request goes to the endpoint of the provider, with no token of somebody else in a header. -/
def Isolated (m : Machine) (store : Store) (provider : Bytes) : Command → Prop
  | .http r => SentTo provider r.url ∧
      ∀ scheme ∈ authSchemes, ∀ token, scheme ++ token ∈ r.headers → Owned m store provider token
  | _ => True

/-- The gates in front of the dispatch let the call through. -/
def Admitted (m : Machine) (provider : Bytes) (capability : Option Policy.AgentCapabilityToken) :
    Prop :=
  (∀ token ∈ capability, provider ∈ token.allowedProviders) ∧
    m.getenv (ascii "EUXIS_TEST_MOCK_EXECUTION") = none ∧ m.breakerOpen provider = false

/-- The prompt is text, and so is the model where it is part of the body. -/
def IsText (codec : JsonCodec) (provider model prompt : Bytes) : Prop :=
  (codec.dump (.str prompt)).isSome ∧ (provider ≠ ascii "gemini" → (codec.dump (.str model)).isSome)

/-- The provider has no eligible profile, and the best profile of the first provider of its chain
that has one is an API key that is not also one of the provider's own. -/
def FallsBackToKey (m : Machine) (store : Store) (now : Int) (provider : Bytes) : Prop :=
  (∀ p ∈ store.profiles, eligible store now provider p = false) ∧
    ∃ q, ((store.fallbackChains.lookup provider).getD []).find?
        (fun q => store.profiles.any (eligible store now q)) = some q ∧
      ∃ auth, pickBest store now q = some auth ∧ auth.isOauth = false ∧ auth.token ≠ [] ∧
        ¬ Owned m store provider auth.token

/-! ## One request -/

/-- The token of a request without a CLI. -/
def tokenFor (m : Machine) (provider : Bytes) (auth : Option ResolvedAuth) : Bytes :=
  (auth.map (·.token)).getD
    (if provider = ascii "claude" then resolveAnthropicToken m
      else (m.getenv (ownVariable provider)).getD [])

def authScheme (provider : Bytes) : Bytes :=
  if provider = ascii "claude" then ascii "x-api-key: "
  else if provider = ascii "openai" then ascii "Authorization: Bearer "
  else ascii "x-goog-api-key: "

def sendTo (codec : JsonCodec) (m : Machine) (provider model prompt : Bytes)
    (auth : Option ResolvedAuth) (stream : Bool) : Command :=
  if provider = ascii "claude" then executeClaude codec m model prompt auth stream
  else executeApi codec m provider model prompt auth

theorem set_dumps {codec : JsonCodec} (hcodec : codec.ThrowsOnText) {members : List (Bytes × Json)}
    (hordered : Json.ordered members = true)
    (hkeys : members.all (fun m => m.1.all (· < 128)) = true) :
    (codec.dump (.obj members)).isSome ↔ ∀ m ∈ members, (codec.dump m.2).isSome := by
  rw [hcodec.obj_iff hordered]
  rw [List.all_eq_true] at hkeys
  constructor
  · intro h m hm
    exact (h m hm).2
  · intro h m hm
    exact ⟨hcodec.ascii_dumps m.1 (hkeys m hm), h m hm⟩

theorem userMessage_dumps {codec : JsonCodec} (hcodec : codec.ThrowsOnText) (prompt : Bytes) :
    (codec.dump (userMessage prompt)).isSome ↔ (codec.dump (.str prompt)).isSome := by
  have hrole : (codec.dump (.str (ascii "user"))).isSome := hcodec.ascii_dumps _ (by decide)
  rw [userMessage, hcodec.arr_dumps]
  simp only [List.mem_singleton, forall_eq]
  rw [set_dumps hcodec rfl rfl]
  simp [hrole]

theorem orDefault_dumps {codec : JsonCodec} (hcodec : codec.ThrowsOnText) (model fallback : Bytes)
    (h : fallback.all (· < 128) = true) :
    (codec.dump (.str (orDefault model fallback))).isSome ↔ (codec.dump (.str model)).isSome := by
  unfold orDefault
  split
  · rename_i hmodel
    subst hmodel
    simp only [hcodec.ascii_dumps fallback h, hcodec.ascii_dumps [] rfl]
  · rfl

/-- What is sent: nothing without a token, and otherwise a body that is text, to the endpoint, with
the token in the header of the provider. -/
structure Request (codec : JsonCodec) (provider model prompt token : Bytes) (command : Command) :
    Prop where
  refused : token = [] → ∃ e, command = .refuse e
  sent : token ≠ [] → ∃ url others body stream, SentTo provider url ∧
    (∀ scheme ∈ authSchemes, ∀ rest, scheme ++ rest ∉ others) ∧
    command = send codec url (others ++ [authScheme provider ++ token]) body stream ∧
    ((codec.dump body).isSome ↔ IsText codec provider model prompt)

theorem jsonHeader_plain : ∀ scheme ∈ authSchemes, ∀ rest :
    Bytes, scheme ++ rest ∉ [jsonHeader] := by
  intro scheme hscheme rest hrest
  rw [List.mem_singleton] at hrest
  simp only [authSchemes, List.mem_cons, List.not_mem_nil, or_false] at hscheme
  rcases hscheme with rfl | rfl | rfl
  · exact absurd (show ascii "x" = ascii "C" from congrArg (List.take 1) hrest) (by decide)
  · exact absurd (show ascii "A" = ascii "C" from congrArg (List.take 1) hrest) (by decide)
  · exact absurd (show ascii "x" = ascii "C" from congrArg (List.take 1) hrest) (by decide)

theorem version_plain : ∀ scheme ∈ authSchemes, ∀ rest : Bytes,
    scheme ++ rest ∉ [jsonHeader, ascii "anthropic-version: 2023-06-01"] := by
  intro scheme hscheme rest hrest
  rw [List.mem_cons] at hrest
  rcases hrest with hrest | hrest
  · exact jsonHeader_plain scheme hscheme rest (List.mem_singleton.mpr hrest)
  · rw [List.mem_singleton] at hrest
    simp only [authSchemes, List.mem_cons, List.not_mem_nil, or_false] at hscheme
    rcases hscheme with rfl | rfl | rfl
    · exact absurd (show ascii "x" = ascii "a" from congrArg (List.take 1) hrest) (by decide)
    · exact absurd (show ascii "A" = ascii "a" from congrArg (List.take 1) hrest) (by decide)
    · exact absurd (show ascii "x" = ascii "a" from congrArg (List.take 1) hrest) (by decide)

section

variable {codec : JsonCodec} (hcodec : codec.ThrowsOnTextOnly)

include hcodec

theorem executeClaude_request (m : Machine) (model prompt : Bytes) (auth : Option ResolvedAuth)
    (stream : Bool) :
    Request codec (ascii "claude") model prompt (tokenFor m (ascii "claude") auth)
      (executeClaude codec m model prompt auth stream) := by
  have htoken : tokenFor m (ascii "claude") auth =
      (auth.map (·.token)).getD (resolveAnthropicToken m) := by
    rw [tokenFor, if_pos rfl]
  rw [htoken]
  have hmodel := orDefault_dumps hcodec.toThrowsOnText model (ascii "claude-sonnet-4-6") (by decide)
  have hmessage := userMessage_dumps hcodec.toThrowsOnText prompt
  have hmax := hcodec.int_dumps 4096
  have hstream := hcodec.bool_dumps true
  constructor
  · intro h
    exact ⟨_, if_pos h⟩
  · intro h
    refine ⟨_, _, _, stream, rfl, version_plain, if_neg h, ?_⟩
    have htext : IsText codec (ascii "claude") model prompt ↔
        (codec.dump (.str model)).isSome ∧ (codec.dump (.str prompt)).isSome := by
      simp [IsText, and_comm, show ascii "claude" ≠ ascii "gemini" by decide]
    rw [htext]
    -- The body has one member more when the answer is streamed.
    cases stream
    · exact (set_dumps hcodec.toThrowsOnText
        (show Json.ordered [(ascii "max_tokens", .int 4096), (ascii "messages", userMessage prompt),
          (ascii "model", .str (orDefault model (ascii "claude-sonnet-4-6")))] = true from
            rfl) rfl).trans
        (by simp [hmodel, hmessage, hmax, and_comm])
    · exact (set_dumps hcodec.toThrowsOnText
        (show Json.ordered [(ascii "max_tokens", .int 4096), (ascii "messages", userMessage prompt),
          (ascii "model", .str (orDefault model (ascii "claude-sonnet-4-6"))),
          (ascii "stream", .bool true)] = true
          from rfl) rfl).trans (by simp [hmodel, hmessage, hmax, hstream, and_comm])

theorem executeApi_request (m : Machine) (provider model prompt : Bytes)
    (auth : Option ResolvedAuth) (hp : provider = ascii "openai" ∨ provider = ascii "gemini") :
    Request codec provider model prompt (tokenFor m provider auth)
      (executeApi codec m provider model prompt auth) := by
  have hmodel := orDefault_dumps hcodec.toThrowsOnText model (ascii "gpt-4o") (by decide)
  have hmessage := userMessage_dumps hcodec.toThrowsOnText prompt
  unfold executeApi
  rcases hp with rfl | rfl
  · rw [if_pos rfl]
    constructor
    · intro h
      exact ⟨_, if_pos h⟩
    · intro h
      refine ⟨_, _, _, false, rfl, jsonHeader_plain, if_neg h, ?_⟩
      have htext : IsText codec (ascii "openai") model prompt ↔
          (codec.dump (.str model)).isSome ∧ (codec.dump (.str prompt)).isSome := by
        simp [IsText, and_comm, show ascii "openai" ≠ ascii "gemini" by decide]
      rw [htext]
      exact (set_dumps hcodec.toThrowsOnText
        (show Json.ordered [(ascii "messages", userMessage prompt),
          (ascii "model", .str (orDefault model (ascii "gpt-4o")))] = true from rfl) rfl).trans
        (by simp [hmodel, hmessage, and_comm])
  · rw [if_neg (by decide)]
    constructor
    · intro h
      exact ⟨_, if_pos h⟩
    · intro h
      refine ⟨_, _, _, false, ⟨_, rfl⟩, jsonHeader_plain, if_neg h, ?_⟩
      have htext : IsText codec (ascii "gemini") model prompt ↔
          (codec.dump (.str prompt)).isSome := by simp [IsText]
      -- Gemini's body holds the prompt three objects deep, and no model.
      have hpart : (codec.dump (.obj [(ascii "text", .str prompt)])).isSome ↔
          (codec.dump (.str prompt)).isSome :=
        (set_dumps hcodec.toThrowsOnText rfl rfl).trans (by simp)
      have hparts : (codec.dump
          (.obj [(ascii "parts", .arr [.obj [(ascii "text", .str prompt)]])])).isSome ↔
          (codec.dump (.str prompt)).isSome :=
        (set_dumps hcodec.toThrowsOnText rfl rfl).trans (by simp [hcodec.arr_dumps, hpart])
      rw [htext]
      exact (set_dumps hcodec.toThrowsOnText
        (show Json.ordered [(ascii "contents",
          .arr [.obj [(ascii "parts", .arr [.obj [(ascii "text", .str prompt)]])]])] = true from
            rfl) rfl).trans
        (by simp [hcodec.arr_dumps, hparts])

theorem sendTo_request (m : Machine) (provider model prompt : Bytes) (auth : Option ResolvedAuth)
    (stream : Bool) (hp : Endpoint provider) :
    Request codec provider model prompt (tokenFor m provider auth)
      (sendTo codec m provider model prompt auth stream) := by
  unfold sendTo
  by_cases hclaude : provider = ascii "claude"
  · rw [if_pos hclaude, hclaude]
    exact executeClaude_request hcodec m model prompt auth stream
  · rw [if_neg hclaude]
    exact executeApi_request hcodec m provider model prompt auth (hp.resolve_left hclaude)

end

theorem authScheme_mem (provider : Bytes) : authScheme provider ∈ authSchemes := by
  unfold authScheme
  split_ifs
  · decide
  · decide
  · decide

theorem authScheme_unique {scheme scheme' token token' : Bytes} (h : scheme ∈ authSchemes)
    (h' : scheme' ∈ authSchemes) (heq : scheme ++ token = scheme' ++ token') : token = token' := by
  simp only [authSchemes, List.mem_cons, List.not_mem_nil, or_false] at h h'
  have hthree : List.take 3 (scheme ++ token) = List.take 3 (scheme' ++ token') := by rw [heq]
  rcases h with rfl | rfl | rfl <;> rcases h' with rfl | rfl | rfl
  · exact List.append_cancel_left heq
  · exact absurd (show ascii "x-a" = ascii "Aut" from hthree) (by decide)
  · exact absurd (show ascii "x-a" = ascii "x-g" from hthree) (by decide)
  · exact absurd (show ascii "Aut" = ascii "x-a" from hthree) (by decide)
  · exact List.append_cancel_left heq
  · exact absurd (show ascii "Aut" = ascii "x-g" from hthree) (by decide)
  · exact absurd (show ascii "x-g" = ascii "x-a" from hthree) (by decide)
  · exact absurd (show ascii "x-g" = ascii "Aut" from hthree) (by decide)
  · exact List.append_cancel_left heq

theorem request_isolated_iff {codec : JsonCodec} (m : Machine) (store : Store)
    {provider model prompt token : Bytes} {command : Command}
    (h : Request codec provider model prompt token command) :
    Isolated m store provider command ↔
      token = [] ∨ ¬ IsText codec provider model prompt ∨ Owned m store provider token := by
  by_cases htoken : token = []
  · obtain ⟨e, rfl⟩ := h.refused htoken
    simp [Isolated, htoken]
  · obtain ⟨url, others, body, stream, hurl, hothers, rfl, hbody⟩ := h.sent htoken
    unfold send
    rcases hdump : codec.dump body with _ | text
    · have hno : ¬ IsText codec provider model prompt := by
        rw [← hbody, hdump]
        simp
      simp [Isolated, hno]
    · have hyes : IsText codec provider model prompt := by
        rw [← hbody, hdump]
        rfl
      simp only [Isolated, htoken, hyes, not_true_eq_false, false_or, hurl, true_and]
      constructor
      · intro hall
        exact hall (authScheme provider) (authScheme_mem provider) token (by simp)
      -- No other header has a scheme, and no scheme begins another: the header tells the token.
      · intro howned scheme hscheme rest hrest
        rcases List.mem_append.mp hrest with hrest | hrest
        · exact absurd hrest (hothers scheme hscheme rest)
        · rw [authScheme_unique hscheme (authScheme_mem provider) (List.mem_singleton.mp hrest)]
          exact howned

theorem tokenFor_owned (m : Machine) (store : Store) (provider : Bytes) (auth : Option ResolvedAuth)
    (hauth : ∀ a, auth = some a → ∃ p ∈ store.profiles, p.provider = provider ∧ a = resolved p)
    (htoken : tokenFor m provider auth ≠ []) :
    Owned m store provider (tokenFor m provider auth) := by
  cases auth with
  | some a =>
    obtain ⟨p, hp, hprovider, rfl⟩ := hauth a rfl
    exact Or.inl ⟨p, hp, hprovider, rfl⟩
  | none =>
    by_cases hclaude : provider = ascii "claude"
    · subst hclaude
      simp only [tokenFor, Option.map_none, Option.getD_none, if_true, resolveAnthropicToken]
      split
      · rename_i b rest henv
        exact Or.inr (Or.inl henv)
      · exact Or.inr (Or.inr ⟨rfl, rfl⟩)
    · simp only [tokenFor, Option.map_none, Option.getD_none, hclaude, if_false] at htoken ⊢
      refine Or.inr (Or.inl ?_)
      cases henv : m.getenv (ownVariable provider) with
      | none =>
        rw [henv] at htoken
        exact absurd rfl htoken
      | some v => rfl

/-! ## The call -/

theorem endpoint_known (provider : Bytes) (hp : Endpoint provider) :
    provider ∈ knownProviders ∧ provider ≠ ascii "mcp" ∧ provider ≠ ascii "ollama" ∧
      isCliTool provider = false := by
  rcases hp with rfl | rfl | rfl
  · decide
  · decide
  · decide

theorem execute_admitted (codec : JsonCodec) (m : Machine) (store : Store) (now : Int)
    (selection : Router.ModelSelection) (prompt : Bytes) (stream : Bool)
    (capability : Option Policy.AgentCapabilityToken)
    (hp : Endpoint (effectiveProvider selection.provider))
    (hgate : Admitted m (effectiveProvider selection.provider) capability) :
    execute codec m store now selection prompt none stream capability =
      (if (resolveWithFallback store now (effectiveProvider selection.provider)).any
        (·.isOauth) then
        executeViaCli m (effectiveProvider selection.provider) prompt
      else sendTo codec m (effectiveProvider selection.provider) selection.model prompt
        (resolveWithFallback store now (effectiveProvider selection.provider)) stream) := by
  obtain ⟨hcap, hmock, hbreaker⟩ := hgate
  obtain ⟨hknown, hmcp, hollama, htool⟩ := endpoint_known _ hp
  have hcap' : capability.any
      (fun token => decide (effectiveProvider selection.provider ∉ token.allowedProviders)) =
      false := by
    cases capability with
    | none => rfl
    | some token => simpa using hcap token rfl
  unfold execute sendTo
  simp only [hcap', hknown, hmock, hbreaker, hmcp, hollama, htool, Bool.false_eq_true,
    if_false, not_true, Option.isSome_none, Bool.or_false]
  rfl

theorem execute_refused (codec : JsonCodec) (m : Machine) (store : Store) (now : Int)
    (selection : Router.ModelSelection) (prompt : Bytes) (stream : Bool)
    (capability : Option Policy.AgentCapabilityToken)
    (hgate : ¬ Admitted m (effectiveProvider selection.provider) capability) :
    Isolated m store (effectiveProvider selection.provider)
      (execute codec m store now selection prompt none stream capability) := by
  unfold execute
  simp only
  split
  · trivial
  · rename_i hcap
    split
    · trivial
    · split
      · split
        · trivial
        · trivial
      · rename_i hmock
        split
        · trivial
        · rename_i hbreaker
          -- Past all three gates the call would be admitted.
          exfalso
          apply hgate
          refine ⟨?_, by simpa using hmock, by simpa using hbreaker⟩
          intro token htoken
          rw [htoken] at hcap
          simpa using hcap

theorem executeViaCli_isolated (m : Machine) (store : Store) (provider prompt : Bytes) :
    Isolated m store provider (executeViaCli m provider prompt) := by
  unfold executeViaCli
  split_ifs
  all_goals trivial

theorem findSome?_pickBest (store : Store) (now : Int) (chain : List Bytes) (auth : ResolvedAuth)
    (h : chain.findSome? (pickBest store now) = some auth) :
    ∃ q, chain.find? (fun q => store.profiles.any (eligible store now q)) = some q ∧
      pickBest store now q = some auth := by
  induction chain with
  | nil => cases h
  | cons q rest ih =>
    rw [List.findSome?_cons] at h
    cases hpick : pickBest store now q with
    | some a =>
      rw [hpick] at h
      refine ⟨q, List.find?_cons_of_pos ?_, hpick.trans h⟩
      rw [List.any_eq_true]
      -- A provider that yields a profile has one that is eligible.
      by_contra hno
      have hnone : pickBest store now q = none := by
        rw [pickBest_eq_none_iff]
        intro p hp
        by_contra helig
        exact hno ⟨p, hp, by simpa using helig⟩
      rw [hnone] at hpick
      cases hpick
    | none =>
      rw [hpick] at h
      obtain ⟨q', hq', hauth⟩ := ih h
      refine ⟨q', ?_, hauth⟩
      rw [List.find?_cons_of_neg, hq']
      rw [List.any_eq_true]
      rintro ⟨p, hp, helig⟩
      rw [(pickBest_eq_none_iff store now q).mp hpick p hp] at helig
      cases helig

theorem fallsBackToKey_iff (m : Machine) (store : Store) (now : Int) (provider q : Bytes)
    (auth : ResolvedAuth) (hpick : pickBest store now provider = none)
    (hq : ((store.fallbackChains.lookup provider).getD []).find?
      (fun q => store.profiles.any (eligible store now q)) = some q)
    (hqauth : pickBest store now q = some auth) :
    FallsBackToKey m store now provider ↔
      auth.isOauth = false ∧ auth.token ≠ [] ∧ ¬ Owned m store provider auth.token := by
  constructor
  · rintro ⟨-, q', hq', auth', hauth', hkey⟩
    obtain rfl := Option.some.inj (hq'.symm.trans hq)
    obtain rfl := Option.some.inj (hauth'.symm.trans hqauth)
    exact hkey
  · intro hkey
    exact ⟨(pickBest_eq_none_iff store now provider).mp hpick, q, hq, auth, hqauth, hkey⟩

theorem resolveWithFallback_cases (m : Machine) (store : Store) (now : Int) (provider : Bytes) :
    ((∀ a, resolveWithFallback store now provider = some a →
        ∃ p ∈ store.profiles, p.provider = provider ∧ a = resolved p) ∧
          ¬ FallsBackToKey m store now provider) ∨
    ∃ auth, resolveWithFallback store now provider = some auth ∧
      (FallsBackToKey m store now provider ↔
        auth.isOauth = false ∧ auth.token ≠ [] ∧ ¬ Owned m store provider auth.token) := by
  unfold resolveWithFallback
  cases hpick : pickBest store now provider with
  | some auth =>
    refine Or.inl ⟨?_, ?_⟩
    · intro a ha
      rw [← Option.some.inj ha]
      exact pickBest_mem store now provider auth hpick
    · rintro ⟨hnone, -⟩
      rw [(pickBest_eq_none_iff store now provider).mpr hnone] at hpick
      cases hpick
  | none =>
    simp only
    -- Only where the provider has no profile of its own is the chain asked.
    cases hchain : ((store.fallbackChains.lookup provider).getD []).findSome? (pickBest store now)
      with
    | none =>
      refine Or.inl ⟨fun _ ha => (Option.some_ne_none _ ha.symm).elim, ?_⟩
      rintro ⟨-, q, hq, auth, hauth, -⟩
      rw [List.findSome?_eq_none_iff] at hchain
      rw [hchain q (List.mem_of_find?_eq_some hq)] at hauth
      cases hauth
    | some auth =>
      obtain ⟨q, hq, hqauth⟩ := findSome?_pickBest store now _ auth hchain
      exact Or.inr ⟨auth, rfl, fallsBackToKey_iff m store now provider q auth hpick hq hqauth⟩

theorem admitted_isolated_iff {codec : JsonCodec} (hcodec : codec.ThrowsOnTextOnly) (m : Machine)
    (store : Store) (now : Int) (provider model prompt : Bytes) (stream : Bool)
    (hp : Endpoint provider) :
    Isolated m store provider
        (if (resolveWithFallback store now provider).any (·.isOauth) then
          executeViaCli m provider prompt
        else sendTo codec m provider model prompt (resolveWithFallback store now provider) stream) ↔
      ¬ (IsText codec provider model prompt ∧ FallsBackToKey m store now provider) := by
  have hsend (auth : Option ResolvedAuth) :=
    request_isolated_iff m store (sendTo_request hcodec m provider model prompt auth stream hp)
  rcases resolveWithFallback_cases m store now provider with ⟨hown, hno⟩ | ⟨auth, hres, hfalls⟩
  · simp only [hno, and_false, not_false_eq_true, iff_true]
    split
    · exact executeViaCli_isolated m store provider prompt
    · rw [hsend]
      by_cases htoken : tokenFor m provider (resolveWithFallback store now provider) = []
      · exact Or.inl htoken
      · exact Or.inr (Or.inr (tokenFor_owned m store provider _ hown htoken))
  · rw [hres, hfalls]
    cases hoauth : auth.isOauth with
    | true =>
      -- a login goes to the CLI, with no header at all
      simp only [Option.any_some, hoauth, if_true, Bool.true_eq_false, false_and, and_false,
        not_false_eq_true, iff_true]
      exact executeViaCli_isolated m store provider prompt
    | false =>
      simp only [Option.any_some, hoauth, Bool.false_eq_true, if_false, true_and]
      rw [hsend]
      have htoken : tokenFor m provider (some auth) = auth.token := rfl
      rw [htoken, ne_eq, not_and_or, not_and_or, not_not, not_not, or_left_comm]

/-- **Credential isolation.** A call without an explicit auth keeps to the credentials of its
provider, unless it is let through with a text, and the fallback chain yields the API key of another
provider. -/
theorem credential_isolation_iff (codec : JsonCodec) (hcodec : codec.ThrowsOnTextOnly) (m : Machine)
    (store : Store) (now : Int) (selection : Router.ModelSelection) (prompt : Bytes) (stream : Bool)
    (capability : Option Policy.AgentCapabilityToken)
    (hp : Endpoint (effectiveProvider selection.provider)) :
    Isolated m store (effectiveProvider selection.provider)
        (execute codec m store now selection prompt none stream capability) ↔
      ¬ (Admitted m (effectiveProvider selection.provider) capability ∧
        IsText codec (effectiveProvider selection.provider) selection.model prompt ∧
        FallsBackToKey m store now (effectiveProvider selection.provider)) := by
  by_cases hgate : Admitted m (effectiveProvider selection.provider) capability
  · rw [execute_admitted codec m store now selection prompt stream capability hp hgate,
      admitted_isolated_iff hcodec m store now _ selection.model prompt stream hp]
    simp only [hgate, true_and]
  · simp only [hgate, false_and, not_false_eq_true, iff_true]
    exact execute_refused codec m store now selection prompt stream capability hgate

def quietMachine : Machine :=
  { getenv := fun _ => none, credentials := none, breakerOpen := fun _ => false }

def openaiKey : AuthProfile :=
  { id := ascii "openai:api_key", provider := ascii "openai", apiKey := ascii "sk-openai",
    source := ascii "manual" }

def claudeKey : AuthProfile :=
  { id := ascii "claude:api_key", provider := ascii "claude", apiKey := ascii "sk-ant",
    source := ascii "manual" }

def storeOf (profiles : List AuthProfile) : Store :=
  { profiles, fallbackChains := defaultFallbacks, cooldowns := [], sessionPin := [] }

def claudeCall : Router.ModelSelection :=
  { provider := ascii "claude", model := [], tier := .code, routeReason := [], taskClass := [] }

theorem credential_isolated_with_own_key :
    Isolated quietMachine (storeOf [openaiKey, claudeKey]) (ascii "claude")
      (execute Json.plainCodec quietMachine (storeOf [openaiKey, claudeKey]) 0 claudeCall
        (ascii "hello") none false none) :=
  (credential_isolation_iff Json.plainCodec Json.plainCodec_throwsOnTextOnly quietMachine
    (storeOf [openaiKey, claudeKey]) 0
    claudeCall (ascii "hello") false none (Or.inl rfl)).mpr (by
      rintro ⟨-, -, hnone, -⟩
      exact absurd (hnone claudeKey (by decide)) (by decide))

theorem openai_key_sent_to_anthropic :
    (∃ r, execute Json.plainCodec quietMachine (storeOf [openaiKey]) 0 claudeCall (ascii "hello")
      none false none = .http r ∧
      r.url = ascii "https://api.anthropic.com/v1/messages" ∧
      ascii "x-api-key: sk-openai" ∈ r.headers) ∧
    ¬ Isolated quietMachine (storeOf [openaiKey]) (ascii "claude")
      (execute Json.plainCodec quietMachine (storeOf [openaiKey]) 0 claudeCall (ascii "hello") none
        false none) := by
  have hcommand : ∃ r, execute Json.plainCodec quietMachine (storeOf [openaiKey]) 0 claudeCall
      (ascii "hello") none false none =
      .http r ∧ r.url = ascii "https://api.anthropic.com/v1/messages" ∧
        ascii "x-api-key: sk-openai" ∈ r.headers :=
    ⟨_, rfl, rfl, by decide⟩
  refine ⟨hcommand, ?_⟩
  obtain ⟨r, hr, -, hheader⟩ := hcommand
  rw [hr]
  rintro ⟨-, howned⟩
  rcases howned (ascii "x-api-key: ") (by decide) (ascii "sk-openai") hheader
    with ⟨p, hp, hprovider, -⟩ | henv | ⟨-, hfile⟩
  · rw [List.mem_singleton.mp hp] at hprovider
    exact absurd hprovider (by decide)
  · cases henv
  · exact absurd hfile (by decide)

end Euxis.Auth
