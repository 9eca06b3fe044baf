import Euxis.Json.Value
import Euxis.Wire

/-!
# Agent cards in binary

`libs/a2a/src/agent_card.cpp`, the part that serialises a card to bytes. Every string stands behind
its length, the capabilities stand behind their number. The optional fields of a card are not
written.
-/

namespace Euxis.A2a

open Wire (putWord takeWord times)

/-! ## Cards -/

structure AuthSchema where
  type : Bytes
  description : Bytes

structure Capability where
  name : Bytes
  description : Bytes
  inputSchema : Option Json := none
  outputSchema : Option Json := none

structure AgentCard where
  name : Bytes
  description : Bytes
  url : Bytes
  version : Bytes
  capabilities : List Capability
  auth : Option AuthSchema := none
  identityDid : Option Bytes := none
  metadata : Json := .null

/-! ## Writing -/

def writeStr (s : Bytes) : Bytes := putWord s.length ++ s

def writeCapability (cap : Capability) : Bytes := writeStr cap.name ++ writeStr cap.description

def toMsgpack (card : AgentCard) : Bytes :=
  writeStr card.name ++
    (writeStr card.description ++
      (writeStr card.url ++
        (writeStr card.version ++
          (putWord card.capabilities.length ++ card.capabilities.flatMap writeCapability))))

/-- The size of the buffer, computed before anything is written. -/
def payloadSize (card : AgentCard) : Nat :=
  (4 + card.name.length) + (4 + card.description.length) + (4 + card.url.length) +
    (4 + card.version.length) + 4 +
    (card.capabilities.map fun cap => (4 + cap.name.length) + (4 + cap.description.length)).sum

/-! ## Reading -/

/-- `p` is what stands between the cursor and the end. The number of bytes left is cast to 32 bits
before the length is compared with it. -/
def readInto (p : Bytes) : Except Bytes (Bytes × Bytes) :=
  match takeWord p with
  | none => .error (ascii "msgpack: truncated string length")
  | some (len, p) =>
    if len > p.length % 2 ^ 32 then .error (ascii "msgpack: string length exceeds buffer")
    else .ok (p.take len, p.drop len)

def readCount (p : Bytes) : Except Bytes (Nat × Bytes) :=
  match takeWord p with
  | none => .error (ascii "msgpack: truncated capability count")
  | some (numCaps, p) =>
    if numCaps > 10000 then .error (ascii "msgpack: unreasonable capability count")
    else .ok (numCaps, p)

def readCapability (p : Bytes) : Except Bytes (Capability × Bytes) := do
  let (name, p) ← readInto p
  let (description, p) ← readInto p
  return ({ name, description }, p)

/-- The card, and what the cursor has not passed. -/
def readCard (p : Bytes) : Except Bytes (AgentCard × Bytes) := do
  let (name, p) ← readInto p
  let (description, p) ← readInto p
  let (url, p) ← readInto p
  let (version, p) ← readInto p
  let (numCaps, p) ← readCount p
  let (capabilities, p) ← times readCapability numCaps p
  return ({ name, description, url, version, capabilities }, p)

def fromMsgpack (data : Bytes) : Except Bytes AgentCard := do
  let (card, _) ← readCard data
  return card

/-! ## The fields that are not written -/

def Capability.Plain (cap : Capability) : Prop := cap.inputSchema = none ∧ cap.outputSchema = none

structure AgentCard.Plain (card : AgentCard) : Prop where
  capabilities : ∀ cap ∈ card.capabilities, cap.Plain
  auth : card.auth = none
  identityDid : card.identityDid = none
  metadata : card.metadata = .null

/-! ## The size -/

theorem writeStr_length (s : Bytes) : (writeStr s).length = 4 + s.length := by
  rw [writeStr, List.length_append, Wire.putWord_length]

theorem toMsgpack_length (card : AgentCard) : (toMsgpack card).length = payloadSize card := by
  have hcap : ∀ cap, (writeCapability cap).length = (4 + cap.name.length) +
      (4 + cap.description.length) := by
    intro cap
    rw [writeCapability, List.length_append, writeStr_length, writeStr_length]
  simp only [toMsgpack, payloadSize, List.length_append, writeStr_length, Wire.putWord_length,
    List.length_flatMap, hcap]
  omega

/-! ## What is written is read -/

theorem readInto_writeStr (s rest : Bytes) (h : s.length + rest.length < 2 ^ 32) :
    readInto (writeStr s ++ rest) = .ok (s, rest) := by
  have hword : takeWord (writeStr s ++ rest) = some (s.length, s ++ rest) := by
    rw [writeStr, List.append_assoc]
    exact Wire.takeWord_putWord s.length (s ++ rest) (by omega)
  have hlen : ¬ s.length > (s ++ rest).length % 2 ^ 32 := by
    rw [List.length_append, Nat.mod_eq_of_lt h]
    omega
  simp only [readInto, hword, if_neg hlen, List.take_left', List.drop_left']

theorem readCount_putWord (n : Nat) (rest : Bytes) (h : n ≤ 10000) :
    readCount (putWord n ++ rest) = .ok (n, rest) := by
  simp only [readCount, Wire.takeWord_putWord n rest (by omega), if_neg (Nat.not_lt.mpr h)]

theorem readCapability_write (cap : Capability) (rest : Bytes) (hplain : cap.Plain)
    (h : (writeCapability cap ++ rest).length < 2 ^ 32) :
    readCapability (writeCapability cap ++ rest) = .ok (cap, rest) := by
  simp only [writeCapability, List.length_append, writeStr_length] at h
  have hname := readInto_writeStr cap.name (writeStr cap.description ++ rest)
    (by rw [List.length_append, writeStr_length]; omega)
  have hdescription := readInto_writeStr cap.description rest (by omega)
  obtain ⟨name, description, input, output⟩ := cap
  obtain ⟨rfl, rfl⟩ := hplain
  simp only [readCapability, writeCapability, List.append_assoc, hname, hdescription,
    Outcome.ok_bind]
  rfl

theorem readCard_write (card : AgentCard) (rest : Bytes) (hplain : card.Plain)
    (hcaps : card.capabilities.length ≤ 10000) (h : (toMsgpack card ++ rest).length < 2 ^ 32) :
    readCard (toMsgpack card ++ rest) = .ok (card, rest) := by
  obtain ⟨name, description, url, version, capabilities, auth, identityDid, metadata⟩ := card
  obtain ⟨hplain, hauth, hdid, hmeta⟩ := hplain
  dsimp only at hplain hauth hdid hmeta hcaps
  subst hauth hdid hmeta
  simp only [toMsgpack, List.length_append, writeStr_length, Wire.putWord_length] at h
  have hlist : times readCapability capabilities.length (capabilities.flatMap writeCapability ++
      rest) = .ok (capabilities, rest) := by
    apply Wire.times_write
    intro cap more hsuffix
    apply readCapability_write
    · exact hplain cap (hsuffix.subset List.mem_cons_self)
    · obtain ⟨before, hbefore⟩ := hsuffix
      rw [← hbefore] at h
      simp only [List.flatMap_append, List.flatMap_cons, List.length_append] at h ⊢
      omega
  simp only [readCard, toMsgpack, List.append_assoc]
  rw [readInto_writeStr, Outcome.ok_bind, readInto_writeStr, Outcome.ok_bind, readInto_writeStr,
    Outcome.ok_bind,
    readInto_writeStr, Outcome.ok_bind, readCount_putWord _ _ hcaps, Outcome.ok_bind, hlist,
    Outcome.ok_bind]
  · rfl
  all_goals
    simp only [List.length_append, writeStr_length, Wire.putWord_length]
    omega

/-! ## What is read is written -/

theorem readInto_ok (p s rest : Bytes) (h : readInto p = .ok (s, rest)) :
    p = writeStr s ++ rest := by
  unfold readInto at h
  split at h
  · cases h
  · rename_i len q hword
    obtain ⟨rfl, hlen⟩ := Wire.takeWord_some p q len hword
    split at h
    · cases h
    · rename_i hle
      obtain ⟨rfl, rfl⟩ := Prod.mk.inj (Except.ok.inj h)
      have hfits : len ≤ q.length := (Nat.not_lt.mp hle).trans (Nat.mod_le q.length (2 ^ 32))
      rw [writeStr, List.length_take, Nat.min_eq_left hfits, List.append_assoc,
        List.take_append_drop]

theorem readCount_ok (p rest : Bytes) (n : Nat) (h : readCount p = .ok (n, rest)) :
    p = putWord n ++ rest := by
  unfold readCount at h
  split at h
  · cases h
  · rename_i count q hword
    split at h
    · cases h
    · obtain ⟨rfl, rfl⟩ := Prod.mk.inj (Except.ok.inj h)
      exact (Wire.takeWord_some p q count hword).1

theorem readCapability_ok (p : Bytes) (cap : Capability) (rest : Bytes)
    (h : readCapability p = .ok (cap, rest)) : p = writeCapability cap ++ rest := by
  obtain ⟨⟨name, q⟩, hname, h⟩ := Outcome.ok_of_bind h
  obtain ⟨⟨description, r⟩, hdescription, h⟩ := Outcome.ok_of_bind h
  obtain ⟨rfl, rfl⟩ := Prod.mk.inj (Except.ok.inj h)
  rw [readInto_ok p name q hname, readInto_ok q description r hdescription, writeCapability,
    List.append_assoc]

theorem readCard_ok (p : Bytes) (card : AgentCard) (rest : Bytes)
    (h : readCard p = .ok (card, rest)) : p = toMsgpack card ++ rest := by
  obtain ⟨⟨name, p1⟩, h1, h⟩ := Outcome.ok_of_bind h
  obtain ⟨⟨description, p2⟩, h2, h⟩ := Outcome.ok_of_bind h
  obtain ⟨⟨url, p3⟩, h3, h⟩ := Outcome.ok_of_bind h
  obtain ⟨⟨version, p4⟩, h4, h⟩ := Outcome.ok_of_bind h
  obtain ⟨⟨numCaps, p5⟩, h5, h⟩ := Outcome.ok_of_bind h
  obtain ⟨⟨capabilities, p6⟩, h6, h⟩ := Outcome.ok_of_bind h
  obtain ⟨rfl, rfl⟩ := Prod.mk.inj (Except.ok.inj h)
  obtain ⟨hcaps, rfl⟩ := Wire.times_ok readCapability_ok numCaps p5 capabilities p6 h6
  rw [readInto_ok p name p1 h1, readInto_ok p1 description p2 h2, readInto_ok p2 url p3 h3,
    readInto_ok p3 version p4 h4, readCount_ok p4 p5 _ h5, hcaps]
  simp only [toMsgpack, List.append_assoc]

/-! ## The codec -/

/-- A card without optional fields comes back, and the bytes that the reader has passed when it
accepts are the bytes of the card it returns. -/
theorem fromMsgpack_toMsgpack :
    (∀ card : AgentCard, card.Plain → card.capabilities.length ≤ 10000 →
      (toMsgpack card).length < 2 ^ 32 → fromMsgpack (toMsgpack card) = .ok card) ∧
    ∀ (data : Bytes) (card : AgentCard), data.length < 2 ^ 32 → fromMsgpack data = .ok card →
      toMsgpack card <+: data ∧ ∃ rest, readCard data = .ok (card, rest) ∧
      data = toMsgpack card ++ rest := by
  constructor
  · intro card hplain hcaps hsize
    have hread := readCard_write card [] hplain hcaps (by rw [List.append_nil]; exact hsize)
    rw [List.append_nil] at hread
    rw [fromMsgpack, hread]
    rfl
  · intro data card _ h
    obtain ⟨⟨found, rest⟩, hread, h⟩ := Outcome.ok_of_bind h
    obtain rfl := Except.ok.inj h
    have hdata := readCard_ok data found rest hread
    exact ⟨⟨rest, hdata.symm⟩, rest, hread, hdata⟩

def sampleCard : AgentCard where
  name := ascii "scout"
  description := []
  url := ascii "ws://a"
  version := ascii "1"
  capabilities := [⟨ascii "scan", ascii "files", none, none⟩]

theorem sampleCard_roundTrip :
    fromMsgpack (toMsgpack sampleCard) = .ok sampleCard ∧
      toMsgpack sampleCard <+: toMsgpack sampleCard ++ [7] := by
  have hplain : sampleCard.Plain := by
    refine ⟨?_, rfl, rfl, rfl⟩
    intro cap hcap
    obtain rfl := List.mem_singleton.mp hcap
    exact ⟨rfl, rfl⟩
  refine ⟨fromMsgpack_toMsgpack.1 sampleCard hplain (by decide) (by decide +kernel), ?_⟩
  exact (fromMsgpack_toMsgpack.2 (toMsgpack sampleCard ++ [7]) sampleCard (by decide +kernel) rfl).1

end Euxis.A2a
