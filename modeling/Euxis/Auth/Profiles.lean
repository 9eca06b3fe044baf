import Euxis.Auth.Code

/-!
# Adding and removing profiles

`add_api_key` and `add_oauth` look for a profile by an id that joins the provider and a label or an
e-mail. Both kinds of profiles share these ids, and so do providers whose names hold a colon.
-/

namespace Euxis.Auth

/-! ## The code -/

def profileId (provider name fallback : Bytes) : Bytes :=
  provider ++ ascii ":" ++ if name = [] then fallback else name

/-- Change the first profile with the id, or add a new one at the end. -/
def upsertProfile (id : Bytes) (change : AuthProfile → AuthProfile) (fresh : AuthProfile) :
    List AuthProfile → List AuthProfile
  | [] => [fresh]
  | p :: rest => if p.id = id then change p :: rest else p :: upsertProfile id change fresh rest

def addApiKey (provider key label : Bytes) (store : Store) : Store :=
  let id := profileId provider label (ascii "api_key")
  { store with
    profiles := upsertProfile id (fun p => { p with apiKey := key, label }) {
      id, provider
      type := .apiKey
      label := if label = [] then ascii "API Key" else label
      apiKey := key
      source := ascii "manual" } store.profiles }

def addOauth (provider accessToken refreshToken : Bytes) (expiresAt : Int) (email : Bytes)
    (store : Store) : Store :=
  let id := profileId provider email (ascii "oauth")
  { store with
    profiles := upsertProfile id (fun p => { p with accessToken, refreshToken, expiresAt, email }) {
      id, provider
      type := .oauth
      label := if email = [] then ascii "OAuth" else email
      accessToken, refreshToken, expiresAt, email
      source := ascii "browser_oauth" } store.profiles }

def removeProfile (id : Bytes) (store : Store) : Store :=
  { store with
    profiles := store.profiles.filter (·.id ≠ id)
    cooldowns := store.cooldowns.filter (·.1 ≠ id)
    sessionPin := if store.sessionPin = id then [] else store.sessionPin }

inductive Op where
  | addApiKey (provider key label : Bytes)
  | addOauth (provider accessToken refreshToken : Bytes) (expiresAt : Int) (email : Bytes)
  | removeProfile (id : Bytes)

def step (store : Store) : Op → Store
  | .addApiKey provider key label => addApiKey provider key label store
  | .addOauth provider accessToken refreshToken expiresAt email =>
    addOauth provider accessToken refreshToken expiresAt email store
  | .removeProfile id => removeProfile id store

def run (store : Store) (ops : List Op) : Store := ops.foldl step store

/-! ## One profile changes -/

section Upsert

variable (id : Bytes) (change : AuthProfile → AuthProfile) (fresh : AuthProfile)
  (profiles : List AuthProfile)

theorem upsertProfile_of_none (h : profiles.find? (·.id = id) = none) :
    upsertProfile id change fresh profiles = profiles ++ [fresh] := by
  induction profiles with
  | nil => rfl
  | cons p rest ih =>
    rw [List.find?_cons] at h
    by_cases hp : p.id = id
    · simp [hp] at h
    · simp only [hp, decide_false] at h
      rw [upsertProfile, if_neg hp, ih h, List.cons_append]

theorem upsertProfile_of_some {p : AuthProfile} (h : profiles.find? (·.id = id) = some p) :
    ∃ before after, profiles = before ++ p :: after ∧
      upsertProfile id change fresh profiles = before ++ change p :: after := by
  induction profiles with
  | nil => simp at h
  | cons q rest ih =>
    rw [List.find?_cons] at h
    by_cases hq : q.id = id
    · simp only [hq, decide_true, Option.some.injEq] at h
      subst h
      exact ⟨[], rest, rfl, by rw [upsertProfile, if_pos hq]; rfl⟩
    · simp only [hq, decide_false] at h
      obtain ⟨before, after, hrest, hupsert⟩ := ih h
      exact ⟨q :: before, after, by rw [hrest]; rfl, by rw [upsertProfile, if_neg hq, hupsert]; rfl⟩

end Upsert

/-! ## When a key takes effect -/

/-- An API key of the provider. -/
def IsKey (provider key : Bytes) (p : AuthProfile) : Prop :=
  p.provider = provider ∧ (resolved p).isOauth = false ∧ (resolved p).token = key

/-- The provider has the key, and the profiles of the others are as before. -/
structure TakesEffect (provider key : Bytes) (before after : Store) : Prop where
  stored : ∃ p ∈ after.profiles, IsKey provider key p
  others : after.profiles.filter (·.provider ≠ provider) =
    before.profiles.filter (·.provider ≠ provider)

/-- The profile that is found under the id is an API key of the provider. Or else the provider has
the key from elsewhere, and nothing of another provider is written. -/
def OwnSlot (provider key label : Bytes) (store : Store) (p : AuthProfile) : Prop :=
  (p.provider = provider ∧ p.type = .apiKey) ∨
    ((∃ q ∈ store.profiles, IsKey provider key q) ∧
      (p.provider = provider ∨ (p.apiKey = key ∧ p.label = label)))

def Clear (provider key label : Bytes) (store : Store) : Prop :=
  ∀ p, store.profiles.find? (·.id = profileId provider label (ascii "api_key")) = some p →
    OwnSlot provider key label store p

theorem isKey_iff (provider key : Bytes) (p : AuthProfile) :
    IsKey provider key p ↔ p.provider = provider ∧ p.type = .apiKey ∧ p.apiKey = key := by
  unfold IsKey resolved
  cases p.type with
  | apiKey => simp
  | oauth => simp

section Key

variable (provider key label : Bytes)

def rekeyed (p : AuthProfile) : AuthProfile := { p with apiKey := key, label }

theorem rekeyed_eq_iff (p : AuthProfile) : rekeyed key label p = p ↔ p.apiKey = key ∧
    p.label = label := by
  unfold rekeyed
  obtain ⟨id, provider, type, oldLabel, apiKey, accessToken, refreshToken, email, expiresAt, source,
    lastUsedAt⟩ := p
  simp only [AuthProfile.mk.injEq, true_and, and_true]
  constructor
  · rintro ⟨hlabel, hkey⟩
    exact ⟨hkey.symm, hlabel.symm⟩
  · rintro ⟨hkey, hlabel⟩
    exact ⟨hlabel.symm, hkey.symm⟩

section Rekeyed

variable (before rest : List AuthProfile) (p : AuthProfile)

theorem exists_key_rekeyed_iff :
    (∃ q ∈ before ++ rekeyed key label p :: rest, IsKey provider key q) ↔
      (p.provider = provider ∧ p.type = .apiKey) ∨ ∃ q ∈ before ++ p :: rest,
      IsKey provider key q := by
  have hself : IsKey provider key (rekeyed key label p) ↔ p.provider = provider ∧
      p.type = .apiKey := by
    rw [isKey_iff]
    simp [rekeyed]
  constructor
  · rintro ⟨q, hq, hkey⟩
    rcases List.mem_append.mp hq with hq | hq
    · exact Or.inr ⟨q, List.mem_append_left _ hq, hkey⟩
    · rcases List.mem_cons.mp hq with rfl | hq
      · exact Or.inl (hself.mp hkey)
      · exact Or.inr ⟨q, List.mem_append_right _ (List.mem_cons_of_mem _ hq), hkey⟩
  · rintro (hown | ⟨q, hq, hkey⟩)
    · exact ⟨_, List.mem_append_right _ List.mem_cons_self, hself.mpr hown⟩
    · rcases List.mem_append.mp hq with hq | hq
      · exact ⟨q, List.mem_append_left _ hq, hkey⟩
      · rcases List.mem_cons.mp hq with rfl | hq
        · obtain ⟨hprovider, htype, -⟩ := (isKey_iff provider key q).mp hkey
          exact ⟨_, List.mem_append_right _ List.mem_cons_self, hself.mpr ⟨hprovider, htype⟩⟩
        · exact ⟨q, List.mem_append_right _ (List.mem_cons_of_mem _ hq), hkey⟩

theorem others_rekeyed_iff :
    (before ++ rekeyed key label p :: rest).filter (·.provider ≠ provider) =
      (before ++ p :: rest).filter (·.provider ≠ provider) ↔
      p.provider = provider ∨ (p.apiKey = key ∧ p.label = label) := by
  have hprovider : (rekeyed key label p).provider = p.provider := rfl
  rw [List.filter_append, List.filter_append, List.append_cancel_left_eq, List.filter_cons,
    List.filter_cons, hprovider]
  by_cases hp : p.provider = provider
  · simp [hp]
  · simp [hp, rekeyed_eq_iff]

end Rekeyed

end Key

/-- **Adding a key.** After any calls, the key takes effect exactly when its id is free or belongs
to an API key of the provider (or when there is nothing to do). -/
theorem add_api_key_takes_effect_iff (start : Store) (ops : List Op) (provider key label : Bytes) :
    TakesEffect provider key (run start ops) (addApiKey provider key label (run start ops)) ↔
      Clear provider key label (run start ops) := by
  generalize run start ops = store
  unfold Clear
  cases hfind : store.profiles.find? (·.id = profileId provider label (ascii "api_key")) with
  | none =>
    refine ⟨fun _ => nofun, fun _ => ⟨?_, ?_⟩⟩
    · rw [addApiKey]
      dsimp only
      rw [upsertProfile_of_none _ _ _ _ hfind]
      exact ⟨_, List.mem_append_right _
        List.mem_cons_self, by rw [isKey_iff]; exact ⟨rfl, rfl, rfl⟩⟩
    · rw [addApiKey]
      dsimp only
      rw [upsertProfile_of_none _ _ _ _ hfind, List.filter_append]
      simp
  | some p =>
    -- The id is taken: the key is written into that profile, whatever its provider and type are.
    obtain ⟨before, rest, hprofiles, hafter⟩ :=
      upsertProfile_of_some (profileId provider label (ascii "api_key"))
      (rekeyed key label) _ store.profiles hfind
    have hkey := exists_key_rekeyed_iff provider key label before rest p
    have hothers := others_rekeyed_iff provider key label before rest p
    rw [← hafter, ← hprofiles] at hkey hothers
    simp only [Option.some.injEq, forall_eq']
    unfold OwnSlot
    constructor
    · rintro ⟨hstored, hsame⟩
      rcases hkey.mp hstored with hown | hexists
      · exact Or.inl hown
      · exact Or.inr ⟨hexists, hothers.mp hsame⟩
    · rintro (hown | ⟨hexists, hsame⟩)
      · exact ⟨hkey.mpr (Or.inl hown), hothers.mpr (Or.inl hown.1)⟩
      · exact ⟨hkey.mpr (Or.inr hexists), hothers.mpr hsame⟩

/-! An OAuth profile of an e-mail, and then a key with the e-mail as its label. -/

def noProfiles : Store :=
  { profiles := [], fallbackChains := [], cooldowns := [], sessionPin := [] }

def signedIn : Store :=
  run noProfiles [.addOauth (ascii "openai") (ascii "token") [] 0 (ascii "me")]

theorem key_lost_in_oauth_profile :
    (addApiKey (ascii "openai") (ascii "key") (ascii "me") signedIn).profiles.map resolved =
        [{ profileId := ascii "openai:me", provider := ascii "openai", token := ascii "token",
           isOauth := true }] ∧
      ¬ TakesEffect (ascii "openai") (ascii "key") signedIn
        (addApiKey (ascii "openai") (ascii "key") (ascii "me") signedIn) := by
  have hresolved : (addApiKey (ascii "openai") (ascii "key") (ascii "me") signedIn).profiles.map
      resolved =
      [{ profileId := ascii "openai:me", provider := ascii "openai", token := ascii "token",
         isOauth := true }] := by
    decide +kernel
  refine ⟨hresolved, ?_⟩
  rintro ⟨⟨p, hp, -, hkind, -⟩, -⟩
  have hmem := List.mem_map_of_mem (f := resolved) hp
  rw [hresolved, List.mem_singleton] at hmem
  rw [hmem] at hkind
  cases hkind

-- Two providers share an id when one of their names holds a colon: the key is written into the
-- profile of the other.
example :
    (run noProfiles [.addApiKey (ascii "a") (ascii "old") (ascii "b:c"),
      .addApiKey (ascii "a:b") (ascii "key") (ascii "c")]).profiles.map
      (fun p => (p.provider, p.apiKey)) = [(ascii "a", ascii "key")] := by
  decide +kernel

end Euxis.Auth
