import Euxis.Attest.Untrusted
import Euxis.Auth.Code
import Euxis.Interrupted
import Euxis.Json.RoundTrip
import Euxis.Overlay

/-!
# Reloading the profiles: `reload` and `load_from_json`

The loader clears the profiles and then writes the store while it reads the file. What the library
throws is caught around all of it, and the store stays as it is then.
-/

namespace Euxis.Auth

open Attest (valueInt64)
open Interrupted Overlay
open Outcome (Returns)

/-! ## The code -/

section Code

variable (codec : JsonCodec) (truncate : Bytes → Int64) (truncate32 : Bytes → Int)

def profileFromJson (pj : Json) : Except JsonError AuthProfile := do
  let id ← pj.valueStr (ascii "id") []
  let provider ← pj.valueStr (ascii "provider") []
  let type ← pj.valueStr (ascii "type") []
  let label ← pj.valueStr (ascii "label") []
  let apiKey ← pj.valueStr (ascii "api_key") []
  let accessToken ← pj.valueStr (ascii "access_token") []
  let refreshToken ← pj.valueStr (ascii "refresh_token") []
  let email ← pj.valueStr (ascii "email") []
  let expiresAt ← valueInt64 truncate pj (ascii "expires_at") 0
  let source ← pj.valueStr (ascii "source") []
  let lastUsedAt ← valueInt64 truncate pj (ascii "last_used_at") 0
  return {
    id, provider, label, apiKey, accessToken, refreshToken, email, source
    type := if type = ascii "oauth" then .oauth else .apiKey
    expiresAt := expiresAt.toInt
    lastUsedAt := lastUsedAt.toInt }

/-- `get<std::vector<std::string>>()`. -/
def chainFromJson : Json → Except JsonError (List Bytes)
  | .arr items => items.mapM Json.getStr
  | _ => .error .typeError

def chainEntry (item : Bytes × Json) : Except JsonError (Bytes × List Bytes) :=
  (chainFromJson item.2).map (item.1, ·)

def reasonFromText (text : Bytes) : CooldownReason :=
  if text = ascii "auth" then .authError
  else if text = ascii "billing" then .billingError
  else if text = ascii "unsupported_method" then .unsupportedMethod
  else .rateLimit

def cooldownEntry (item : Bytes × Json) : Except JsonError (Bytes × CooldownEntry) := do
  let untilMs ← valueInt64 truncate item.2 (ascii "until_ms") 0
  let consecutive ← Json.valueInt32 truncate32 item.2 (ascii "consecutive") 0
  let reason ← item.2.valueStr (ascii "reason") (ascii "rate_limit")
  return (item.1, { untilMs := untilMs.toInt, consecutive, reason := reasonFromText reason })

/-- `profiles_.push_back`. -/
def addProfile (store : Store) (p : AuthProfile) : Store :=
  { store with profiles := store.profiles ++ [p] }

def setChain (store : Store) (entry : Bytes × List Bytes) : Store :=
  { store with fallbackChains := put store.fallbackChains entry.1 entry.2 }

def setCooldown (store : Store) (entry : Bytes × CooldownEntry) : Store :=
  { store with cooldowns := put store.cooldowns entry.1 entry.2 }

def loadProfiles (j : Json) (store : Store) : Store × Option JsonError :=
  match j.find (ascii "profiles") with
  | none => (store, none)
  | some v =>
    loadEach (profileFromJson truncate) addProfile { store with profiles := [] } v.elements

/-- The members of a section, or none when the file does not have it. -/
def sectionItems (j : Json) (key : Bytes) : List (Bytes × Json) :=
  ((j.find key).map Json.items).getD []

def loadChains (j : Json) (store : Store) : Store × Option JsonError :=
  loadEach chainEntry setChain store (sectionItems j (ascii "fallback_chains"))

def loadCooldowns (j : Json) (store : Store) : Store × Option JsonError :=
  loadEach (cooldownEntry truncate truncate32) setCooldown store
    (sectionItems j (ascii "cooldowns"))

def loadFromJson (j : Json) (store : Store) : Store × Option JsonError :=
  andThen (andThen (loadProfiles truncate j store) (loadChains j))
    (loadCooldowns truncate truncate32 j)

/-- `reload`, with the content of the file if it exists. -/
def reload (file : Option Bytes) (store : Store) : Store :=
  match file.bind codec.parse with
  | none => store
  | some j => (loadFromJson truncate truncate32 j store).1

end Code

/-! ## The format of the file -/

section Format

open Json (hasType isString isNumber isArithmetic isObject)

def textIn (j : Json) (key : Bytes) : Bytes := (j.findStr key).getD []

variable (truncate : Bytes → Int64) (truncate32 : Bytes → Int)

def timeIn (j : Json) (key : Bytes) : Int :=
  match j.find key with
  | some (.int i) => (Int64.ofInt i).toInt
  | some (.float text) => (truncate text).toInt
  | _ => 0

/-- A truth value counts as a number here. -/
def countIn (j : Json) (key : Bytes) : Int :=
  match j.find key with
  | some (.int i) => (Int32.ofInt i).toInt
  | some (.float text) => (Int32.ofInt (truncate32 text)).toInt
  | some (.bool b) => if b then 1 else 0
  | _ => 0

def profileOf (pj : Json) : AuthProfile where
  id := textIn pj (ascii "id")
  provider := textIn pj (ascii "provider")
  type := if textIn pj (ascii "type") = ascii "oauth" then .oauth else .apiKey
  label := textIn pj (ascii "label")
  apiKey := textIn pj (ascii "api_key")
  accessToken := textIn pj (ascii "access_token")
  refreshToken := textIn pj (ascii "refresh_token")
  email := textIn pj (ascii "email")
  expiresAt := timeIn truncate pj (ascii "expires_at")
  source := textIn pj (ascii "source")
  lastUsedAt := timeIn truncate pj (ascii "last_used_at")

def chainOf (v : Json) : List Bytes :=
  v.elements.map fun
    | .str s => s
    | _ => []

def cooldownOf (v : Json) : CooldownEntry where
  untilMs := timeIn truncate v (ascii "until_ms")
  consecutive := countIn truncate32 v (ascii "consecutive")
  reason := reasonFromText ((v.findStr (ascii "reason")).getD (ascii "rate_limit"))

/-- The store after is what the file says. Its profiles take the place of all others; a chain or a
cooldown that it names has the file's value, and the file says nothing about the others. -/
structure Describes (j : Json) (before after : Store) : Prop where
  profiles : after.profiles =
    ((j.find (ascii "profiles")).map fun v => v.elements.map (profileOf truncate)).getD
      before.profiles
  chains : ∀ key, after.fallbackChains.lookup key =
    ((last (sectionItems j (ascii "fallback_chains")) key).map chainOf).or
      (before.fallbackChains.lookup key)
  cooldowns : ∀ key, after.cooldowns.lookup key =
    ((last (sectionItems j (ascii "cooldowns")) key).map (cooldownOf truncate truncate32)).or
      (before.cooldowns.lookup key)

end Format

/-! ## The loader reads the format -/

section Reading

open Json (hasType isString isNumber isArithmetic isObject)

variable (truncate : Bytes → Int64) (truncate32 : Bytes → Int)

end Reading

/-! ## What is written -/

/-- Profiles that take the place of all others, and entries that are set under their keys. -/
structure Writes where
  profiles : Option (List AuthProfile)
  chains : List (Bytes × List Bytes)
  cooldowns : List (Bytes × CooldownEntry)

def Writes.apply (w : Writes) (store : Store) : Store :=
  { store with
    profiles := w.profiles.getD store.profiles
    fallbackChains := overlay store.fallbackChains w.chains
    cooldowns := overlay store.cooldowns w.cooldowns }

section Written

variable (truncate : Bytes → Int64) (truncate32 : Bytes → Int) (j : Json) (store : Store)

end Written

/-! ## All or nothing -/

section AllOrNothing

variable (codec : JsonCodec) (truncate : Bytes → Int64) (truncate32 : Bytes → Int)
  (file : Option Bytes) (store : Store)

end AllOrNothing

/-! A store with one profile, and a file in which the id of the only profile is a number. -/

end Euxis.Auth
