import Euxis.Policy.Code

/-!
# When a capability token binds its fields

The canonical string joins nine fields with `:` and two lists with `,`, and escapes nothing.
-/

namespace Euxis.Policy

/-! ## The canonical string as one join -/

/-- The nine strings that `canonical_string` puts side by side. -/
def fields (t : AgentCapabilityToken) : List Bytes :=
  [t.agentId, t.sessionId, joinList t.allowedProviders (ascii ","),
    joinList t.allowedTools (ascii ","),
    Bytes.decimalInt t.maxTokenBudget.toInt, flag t.filesystemReadOnly, flag t.networkDenyAll,
    t.issuedAt, t.expiresAt]

theorem canonicalString_eq (t : AgentCapabilityToken) :
    canonicalString t = Bytes.join (ch ':') (fields t) := by
  delta canonicalString fields
  simp only [Bytes.join_cons_cons, Bytes.join_singleton, List.append_assoc]
  rfl

@[simp] theorem joinList_singleton (x delim : Bytes) : joinList [x] delim = x := rfl

theorem foldl_join (sep : UInt8) (front : Bytes) (rest : List Bytes) :
    rest.foldl (fun a b => a ++ [sep] ++ b) front = Bytes.join sep (front :: rest) := by
  induction rest generalizing front with
  | nil => simp
  | cons y ys ih =>
    rw [List.foldl_cons, ih, Bytes.join_cons_cons]
    cases ys with
    | nil => simp
    | cons z zs => simp

theorem joinList_eq (v : List Bytes) : joinList v (ascii ",") = Bytes.join (ch ',') v := by
  cases v with
  | nil => rfl
  | cons front rest => exact foldl_join (ch ',') front rest

theorem flag_injective (a b : Bool) (h : flag a = flag b) : a = b := by
  revert h
  cases a <;> cases b <;> decide

theorem flag_free (b : Bool) : ch ':' ∉ flag b := by
  cases b <;> decide

/-! ## Names that a list holds alone -/

/-- One name, neither empty nor with a separator in it. Only such a list is read back from its
join. -/
def SingleName (v : List Bytes) : Prop := ∃ x, v = [x] ∧ x ≠ [] ∧ ch ',' ∉ x ∧ ch ':' ∉ x

theorem join_free (v : List Bytes) (h : ch ',' ∉ Bytes.join (ch ',') v) (hv : v ≠ []) :
    v = [Bytes.join (ch ',') v] := by
  match v with
  | [x] => simp
  | x :: y :: ys => simp at h

theorem single_unique (v : List Bytes) (x : Bytes) (hx : x ≠ []) (hc : ch ',' ∉ x)
    (h : joinList v (ascii ",") = x) : v = [x] := by
  rw [joinList_eq] at h
  have hv : v ≠ [] := by
    rintro rfl
    exact hx h.symm
  rw [← h] at hc ⊢
  exact join_free v hc hv

theorem list_ambiguous (v : List Bytes) (h : ¬ SingleName v)
    (hfree : ch ':' ∉ joinList v (ascii ",")) :
    ∃ w, w ≠ v ∧ joinList w (ascii ",") = joinList v (ascii ",") := by
  match v with
  | [] => exact ⟨[[]], by simp, rfl⟩
  | [x] =>
    rw [joinList_singleton] at hfree
    by_cases hx : x = []
    · exact ⟨[], by simp, by rw [hx]; rfl⟩
    by_cases hc : ch ',' ∈ x
    · obtain ⟨a, b, rfl⟩ := List.append_of_mem hc
      exact ⟨[a, b], by simp, by simp [joinList, ascii]⟩
    · exact absurd ⟨x, rfl, hx, hc, hfree⟩ h
  | x :: y :: ys => exact ⟨[joinList (x :: y :: ys) (ascii ",")], by simp, rfl⟩

/-! ## Binding -/

/-- The token without its signature: the nine fields that are signed. -/
def unsigned (t : AgentCapabilityToken) : AgentCapabilityToken := { t with hmacSignature := [] }

/-- Every token that differs from `t` in a signed field has another canonical string. -/
def Binds (t : AgentCapabilityToken) : Prop :=
  ∀ t', unsigned t' ≠ unsigned t → canonicalString t' ≠ canonicalString t

/-- Under the signature that `key` gives `t`, only `t` itself is ever accepted. -/
def Protected (hmac : Bytes → Bytes → Bytes) (key : Bytes) (t : AgentCapabilityToken) : Prop :=
  t.hmacSignature = hexEncode (hmac key (canonicalString t)) →
    ∀ t' now, t'.hmacSignature = t.hmacSignature → verifyCapabilityToken hmac t' key now = true →
      t' = t

/-- No field holds a separator, and each list is one name. -/
structure Unambiguous (t : AgentCapabilityToken) : Prop where
  agent : ch ':' ∉ t.agentId
  session : ch ':' ∉ t.sessionId
  providers : SingleName t.allowedProviders
  tools : SingleName t.allowedTools
  issued : ch ':' ∉ t.issuedAt
  expires : ch ':' ∉ t.expiresAt

theorem fields_free (t : AgentCapabilityToken) (h : Unambiguous t) :
    ∀ x ∈ fields t, ch ':' ∉ x := by
  obtain ⟨p, hp, _, _, hpf⟩ := h.providers
  obtain ⟨q, hq, _, _, hqf⟩ := h.tools
  intro x hx
  simp only [fields, hp, hq, joinList_singleton, List.mem_cons, List.not_mem_nil, or_false] at hx
  rcases hx with rfl | rfl | rfl | rfl | rfl | rfl | rfl | rfl | rfl
  · exact h.agent
  · exact h.session
  · exact hpf
  · exact hqf
  · exact Bytes.decimalInt_not_mem _ _ (by decide)
  · exact flag_free _
  · exact flag_free _
  · exact h.issued
  · exact h.expires

theorem unsigned_of_fields (t t' : AgentCapabilityToken) (h : Unambiguous t)
    (hf : fields t' = fields t) : unsigned t' = unsigned t := by
  obtain ⟨p, hp, hp0, hpc, _⟩ := h.providers
  obtain ⟨q, hq, hq0, hqc, _⟩ := h.tools
  simp only [fields, hp, hq, joinList_singleton, List.cons.injEq, and_true] at hf
  obtain ⟨ha, hs, hps, hts, hb, hr, hd, hi, he⟩ := hf
  have hp' := single_unique _ p hp0 hpc hps
  have hq' := single_unique _ q hq0 hqc hts
  have hb' := Int32.toInt_inj.mp (Bytes.decimalInt_injective _ _ hb)
  have hr' := flag_injective _ _ hr
  have hd' := flag_injective _ _ hd
  cases t; cases t'
  simp_all [unsigned]

theorem binds_of_unambiguous (t : AgentCapabilityToken) (h : Unambiguous t) : Binds t := by
  intro t' hne heq
  rw [canonicalString_eq, canonicalString_eq] at heq
  apply hne
  apply unsigned_of_fields t t' h
  exact Bytes.join_reads_back (ch ':') (fields t) (fields t') (by simp [fields]) (by simp [fields])
    (fields_free t h) heq

/-! ## Every other token has a double -/

theorem not_binds_of_colon (t : AgentCapabilityToken)
    (h : ch ':' ∈ t.agentId ∨ ch ':' ∈ t.sessionId ∨
      ch ':' ∈ joinList t.allowedProviders (ascii ",") ∨
      ch ':' ∈ joinList t.allowedTools (ascii ",") ∨ ch ':' ∈ t.issuedAt ∨ ch ':' ∈ t.expiresAt) :
    ¬ Binds t := by
  -- It is enough to name a double: a token with the same string and another signed field.
  suffices hd : ∃ t', unsigned t' ≠ unsigned t ∧ canonicalString t' = canonicalString t by
    obtain ⟨t', hne, heq⟩ := hd
    exact fun hb => hb t' hne heq
  rcases h with h | h | h | h | h | h <;> obtain ⟨a, b, hab⟩ := List.append_of_mem h
  · refine ⟨{ t with agentId := a, sessionId := b ++ ch ':' :: t.sessionId }, ?_, ?_⟩
    · simp [unsigned, hab]
    · simp [canonicalString_eq, fields, hab]
  · refine ⟨{ t with agentId := t.agentId ++ ch ':' :: a, sessionId := b }, ?_, ?_⟩
    · simp [unsigned]
    · simp [canonicalString_eq, fields, hab]
  · refine ⟨{ t with sessionId := t.sessionId ++ ch ':' :: a, allowedProviders := [b] }, ?_, ?_⟩
    · simp [unsigned]
    · simp [canonicalString_eq, fields, hab]
  · refine ⟨{ t with sessionId := t.sessionId ++ ch ':' :: joinList t.allowedProviders (ascii ",")
                     allowedProviders := [a], allowedTools := [b] }, ?_, ?_⟩
    · simp [unsigned]
    · simp [canonicalString_eq, fields, hab]
  · refine ⟨{ t with issuedAt := a, expiresAt := b ++ ch ':' :: t.expiresAt }, ?_, ?_⟩
    · simp [unsigned, hab]
    · simp [canonicalString_eq, fields, hab]
  · refine ⟨{ t with issuedAt := t.issuedAt ++ ch ':' :: a, expiresAt := b }, ?_, ?_⟩
    · simp [unsigned]
    · simp [canonicalString_eq, fields, hab]

theorem free_of_binds (t : AgentCapabilityToken) (hb : Binds t) :
    ch ':' ∉ t.agentId ∧ ch ':' ∉ t.sessionId ∧ ch ':' ∉ joinList t.allowedProviders (ascii ",") ∧
      ch ':' ∉ joinList t.allowedTools (ascii ",") ∧ ch ':' ∉ t.issuedAt ∧
      ch ':' ∉ t.expiresAt := by
  have h := fun hc => not_binds_of_colon t hc hb
  tauto

theorem unambiguous_of_binds (t : AgentCapabilityToken) (hb : Binds t) : Unambiguous t := by
  obtain ⟨ha, hs, hp, hq, hi, he⟩ := free_of_binds t hb
  refine ⟨ha, hs, ?_, ?_, hi, he⟩
  · by_contra hn
    obtain ⟨w, hne, heq⟩ := list_ambiguous t.allowedProviders hn hp
    refine hb { t with allowedProviders := w } ?_ ?_
    · simp [unsigned, hne]
    · simp [canonicalString_eq, fields, heq]
  · by_contra hn
    obtain ⟨w, hne, heq⟩ := list_ambiguous t.allowedTools hn hq
    refine hb { t with allowedTools := w } ?_ ?_
    · simp [unsigned, hne]
    · simp [canonicalString_eq, fields, heq]

theorem binds_iff (t : AgentCapabilityToken) : Binds t ↔ Unambiguous t :=
  ⟨unambiguous_of_binds t, binds_of_unambiguous t⟩

/-! ## The signature -/

theorem readHex_encoded : ∀ n < 256, readHex [hexDigit (n / 16), hexDigit (n % 16)] = some n := by
  decide +kernel

theorem hexDecodePairs_encode (data : Bytes) : hexDecodePairs (hexEncode data) = some data := by
  induction data with
  | nil => rfl
  | cons b data ih =>
    have hb := readHex_encoded b.toNat b.toNat_lt
    simp only [hexEncode] at ih
    simp [hexEncode, hexDecodePairs, hb, ih]

theorem hexEncode_length (data : Bytes) : (hexEncode data).length = data.length * 2 := by
  simp [hexEncode, List.length_flatMap]

theorem hexDecode_encode (data : Bytes) (n : Nat) (h : data.length = n) :
    hexDecode (hexEncode data) n = some data := by
  rw [hexDecode, hexEncode_length, h, if_neg (by simp), hexDecodePairs_encode]

theorem verify_iff (hmac : Bytes → Bytes → Bytes) (hlen : ∀ k m, (hmac k m).length = hmacBytes)
    (t : AgentCapabilityToken) (key m : Bytes) (now : Int)
    (hsig : t.hmacSignature = hexEncode (hmac key m)) :
    verifyCapabilityToken hmac t key now = true ↔
      ¬ (t.expiresAt ≠ [] ∧ t.expiresAt ≤ Clock.isoTime now) ∧
      hmac key m = hmac key (canonicalString t) := by
  unfold verifyCapabilityToken
  rw [hsig, hexDecode_encode _ _ (hlen key m)]
  by_cases hexp : t.expiresAt ≠ [] ∧ t.expiresAt ≤ Clock.isoTime now
  · simp [hexp]
  · rw [if_neg hexp]
    simp only [beq_iff_eq, hexp, not_false_eq_true, true_and]

theorem eq_of_unsigned (t t' : AgentCapabilityToken) (hu : unsigned t' = unsigned t)
    (hs : t'.hmacSignature = t.hmacSignature) : t' = t :=
  calc t' = { unsigned t' with hmacSignature := t'.hmacSignature } := rfl
    _ = { unsigned t with hmacSignature := t.hmacSignature } := by rw [hu, hs]
    _ = t := rfl

theorem protected_of_binds (hmac : Bytes → Bytes → Bytes) (key : Bytes) (t : AgentCapabilityToken)
    (hlen : ∀ k m, (hmac k m).length = hmacBytes)
    (hcoll : ∀ m, hmac key m = hmac key (canonicalString t) → m = canonicalString t)
    (hb : Binds t) : Protected hmac key t := by
  intro hsig t' now hsame hok
  rw [verify_iff hmac hlen t' key (canonicalString t) now (by rw [hsame, hsig])] at hok
  have hcanon := hcoll _ hok.2.symm
  have hun : unsigned t' = unsigned t := Classical.not_not.mp fun hne => hb t' hne hcanon
  exact eq_of_unsigned t t' hun hsame

/-! ## Issued tokens -/

section Issued

variable (hmac : Bytes → Bytes → Bytes) (agentId sessionId : Bytes) (providers tools : List Bytes)
  (budget : Int32) (key : Bytes) (issued now : Int)

theorem issued_not_binds :
    ¬ Binds (issueCapabilityToken hmac agentId sessionId providers tools budget key issued now) :=
  not_binds_of_colon _ (Or.inr (Or.inr (Or.inr (Or.inr (Or.inl (Clock.colon_mem_isoTime issued))))))

/-- The issued token with the border between its two times moved left, into `issued_at`. -/
def moveExpiry (t : AgentCapabilityToken) (issued : Int) : AgentCapabilityToken :=
  { t with
    issuedAt := Clock.isoDate (Clock.gmtime issued)
    expiresAt := Clock.pad2 (Clock.gmtime issued).min ++ ch ':' ::
      (Clock.pad2 (Clock.gmtime issued).sec ++ ch 'Z' :: ch ':' :: t.expiresAt) }

theorem moveExpiry_canonical :
    canonicalString (moveExpiry
        (issueCapabilityToken hmac agentId sessionId providers tools budget key issued now)
          issued) =
      canonicalString (issueCapabilityToken hmac agentId sessionId providers tools budget key
        issued now) := by
  simp [canonicalString_eq, fields, moveExpiry, issueCapabilityToken, Clock.isoTime]

theorem moveExpiry_accepted (hlen : ∀ k m, (hmac k m).length = hmacBytes) (later : Int)
    (hlate : Clock.isoTime later < (moveExpiry
      (issueCapabilityToken hmac agentId sessionId providers tools budget key issued now)
        issued).expiresAt) :
    verifyCapabilityToken hmac (moveExpiry
      (issueCapabilityToken hmac agentId sessionId providers tools budget key issued now) issued)
        key later = true := by
  rw [verify_iff hmac hlen _ key _ later rfl, moveExpiry_canonical]
  exact ⟨fun h => h.2 hlate, rfl⟩

end Issued

/-! ## The token as a whole -/

/-- A token is bound to its fields, and safe under its signature, exactly when no separator occurs
in a field and each list is one name. The times of an issued token hold colons, so no issued token
is. -/
theorem capability_token_bound_iff (hmac : Bytes → Bytes → Bytes) (key : Bytes)
    (t : AgentCapabilityToken) (hlen : ∀ k m, (hmac k m).length = hmacBytes)
    (hcoll : ∀ m, hmac key m = hmac key (canonicalString t) → m = canonicalString t) :
    (Binds t ∧ Protected hmac key t ↔ Unambiguous t) ∧
      ∀ agentId sessionId providers tools budget issued now,
        ¬ Unambiguous (issueCapabilityToken hmac agentId sessionId providers tools budget key
          issued now) := by
  refine ⟨⟨fun h => (binds_iff t).mp h.1, fun h => ?_⟩, ?_⟩
  · have hb := (binds_iff t).mpr h
    exact ⟨hb, protected_of_binds hmac key t hlen hcoll hb⟩
  · intro agentId sessionId providers tools budget issued now h
    exact issued_not_binds hmac agentId sessionId providers tools budget key issued now
      ((binds_iff _).mpr h)

/-- HMAC-SHA256 of the canonical string of `dayToken`, under the key 0, 1, ..., 31. -/
def dayTag : Bytes :=
  [126, 204, 10, 88, 192, 132, 173, 46, 251, 41, 153, 91, 24, 148, 162, 180, 143, 228, 127, 69,
    29, 99, 176, 153, 91, 10, 180, 73, 61, 155, 47, 199]

/-- A token whose times are days, without a clock time. -/
def dayToken : AgentCapabilityToken :=
  { agentId := ascii "sentinel", sessionId := ascii "s1", allowedProviders := [ascii "claude"]
    allowedTools := [ascii "read"], issuedAt := ascii "2026-03-01", expiresAt := ascii "2026-03-02"
    hmacSignature := hexEncode dayTag }

def dayHmac (_ m : Bytes) : Bytes :=
  if m = canonicalString dayToken then dayTag else List.replicate 32 0

theorem dayHmac_length (k m : Bytes) : (dayHmac k m).length = hmacBytes := by
  unfold dayHmac
  split
  · rfl
  · exact List.length_replicate

theorem dayHmac_no_collision (k m : Bytes)
    (h : dayHmac k m = dayHmac k (canonicalString dayToken)) : m = canonicalString dayToken := by
  by_contra hm
  rw [dayHmac, if_neg hm, dayHmac, if_pos rfl] at h
  exact absurd h (by decide)

theorem dayToken_bound :
    Binds dayToken ∧ Protected dayHmac ((List.range 32).map UInt8.ofNat) dayToken ↔
      Unambiguous dayToken :=
  (capability_token_bound_iff dayHmac _ dayToken dayHmac_length (dayHmac_no_collision _)).1

/-- The token of one agent, issued at 2026-03-01T10:45:00Z for one hour. -/
def issuedAtQuarterTo (hmac : Bytes → Bytes → Bytes) (key : Bytes) : AgentCapabilityToken :=
  issueCapabilityToken hmac (ascii "sentinel") (ascii "s1") [ascii "claude"] [ascii "read"] 4096 key
    1772361900 1772361900

theorem moved_expiry_accepted (hmac : Bytes → Bytes → Bytes)
    (hlen : ∀ k m, (hmac k m).length = hmacBytes) (key : Bytes) :
    ∃ t', canonicalString t' = canonicalString (issuedAtQuarterTo hmac key) ∧
      unsigned t' ≠ unsigned (issuedAtQuarterTo hmac key) ∧
      t'.hmacSignature = (issuedAtQuarterTo hmac key).hmacSignature ∧
      t'.expiresAt = ascii "45:00Z:2026-03-01T11:45:00Z" ∧
      verifyCapabilityToken hmac (issuedAtQuarterTo hmac key) key 1803859200 = false ∧
      verifyCapabilityToken hmac t' key 1803859200 = true := by
  refine ⟨moveExpiry (issuedAtQuarterTo hmac key) 1772361900, ?_, ?_, rfl, ?_, ?_, ?_⟩
  · exact moveExpiry_canonical hmac _ _ _ _ _ key 1772361900 1772361900
  · intro h
    have := congrArg AgentCapabilityToken.issuedAt h
    simp only [unsigned, moveExpiry, issuedAtQuarterTo, issueCapabilityToken] at this
    exact absurd this (by decide)
  · simp only [moveExpiry, issuedAtQuarterTo, issueCapabilityToken]
    decide
  · rw [verifyCapabilityToken, if_pos]
    simp only [issuedAtQuarterTo, issueCapabilityToken]
    decide
  · apply moveExpiry_accepted hmac _ _ _ _ _ key 1772361900 1772361900 hlen
    simp only [moveExpiry, issueCapabilityToken]
    decide

theorem capability_token_expiry_moved :
    (¬ ∀ t t', unsigned t' ≠ unsigned t → canonicalString t' ≠ canonicalString t) ∧
      ¬ ∃ (hmac : Bytes → Bytes → Bytes) (key : Bytes), (∀ k m, (hmac k m).length = hmacBytes) ∧
        ∀ t' now, t'.hmacSignature = (issuedAtQuarterTo hmac key).hmacSignature →
          verifyCapabilityToken hmac t' key now = true → t' = issuedAtQuarterTo hmac key := by
  -- Two different tokens with one canonical string: no HMAC and no key protect the issued one.
  constructor
  · intro h
    obtain ⟨t', hcanon, hne, -⟩ := moved_expiry_accepted dayHmac dayHmac_length []
    exact h _ t' hne hcanon
  · rintro ⟨hmac, key, hlen, h⟩
    obtain ⟨t', -, hne, hsig, -, -, haccepted⟩ := moved_expiry_accepted hmac hlen key
    exact hne (congrArg unsigned (h t' _ hsig haccepted))

end Euxis.Policy
