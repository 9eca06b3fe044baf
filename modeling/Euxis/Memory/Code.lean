import Euxis.Audit.Code
import Mathlib.Logic.Function.Basic

/-!
# The encrypted memory store: `libs/memory/src/store.cpp`, `libs/memory/src/entry.cpp`

One agent's store file, the vector of entries that a process caches and the index over it.
AES-256-GCM and base64 come from libsodium and are the parameter `Sodium`.
-/

namespace Euxis.Memory

/-! ## Entries -/

inductive MemoryTier where
  | hot
  | relevant
  | crossAgent
  deriving DecidableEq, Repr

def tierLabel : MemoryTier → Bytes
  | .hot => ascii "hot"
  | .relevant => ascii "relevant"
  | .crossAgent => ascii "cross_agent"

/-- It throws on any other label. -/
def tierFromLabel (label : Bytes) : Option MemoryTier :=
  if label = ascii "hot" then some .hot
  else if label = ascii "relevant" then some .relevant
  else if label = ascii "cross_agent" then some .crossAgent
  else none

structure EncryptedMemoryEntry where
  entryId : Bytes
  tier : MemoryTier
  ciphertextB64 : Bytes
  createdAt : Bytes
  agentDid : Bytes
  deriving DecidableEq, Repr

def toJson (e : EncryptedMemoryEntry) : Json :=
  Json.object [(ascii "entry_id", .str e.entryId), (ascii "tier", .str (tierLabel e.tier)),
    (ascii "ciphertext", .str e.ciphertextB64), (ascii "created_at", .str e.createdAt),
    (ascii "agent_did", .str e.agentDid)]

/-- `at` throws on a missing member, and `get` on one that is no string. -/
def fromJson (j : Json) : Option EncryptedMemoryEntry := do
  let entryId ← j.findStr (ascii "entry_id")
  let label ← j.findStr (ascii "tier")
  let tier ← tierFromLabel label
  let ciphertextB64 ← j.findStr (ascii "ciphertext")
  let createdAt ← j.findStr (ascii "created_at")
  let agentDid ← j.findStr (ascii "agent_did")
  some { entryId, tier, ciphertextB64, createdAt, agentDid }

/-! ## Encryption -/

/-- `crypto_aead_aes256gcm_ABYTES` -/
def tagBytes : Nat := 16

/-- What libsodium computes: each operation is the inverse of the other. -/
structure Sodium where
  encrypt : (data aad iv key : Bytes) → Option Bytes
  decrypt : (ciphertext aad iv key : Bytes) → Option Bytes
  bin2base64 : Bytes → Bytes
  base642bin : Bytes → Option Bytes
  encrypt_length : ∀ data aad iv key ciphertext, encrypt data aad iv key = some ciphertext →
    ciphertext.length = data.length + tagBytes
  decrypt_encrypt : ∀ data aad iv key ciphertext, encrypt data aad iv key = some ciphertext →
    decrypt ciphertext aad iv key = some data
  base642bin_bin2base64 : ∀ data, base642bin (bin2base64 data) = some data

variable (sodium : Sodium)

def base64Decode (encoded : Bytes) : Bytes := (sodium.base642bin encoded).getD []

/-- `decrypt_aad`, with its error in words. -/
def decryptAad (ciphertext key iv aad : Bytes) : Except Bytes Bytes :=
  if ciphertext.length < tagBytes then .error (ascii "Decryption failed")
  else
    match sodium.decrypt ciphertext aad iv key with
    | none => .error (ascii "Authentication failed")
    | some plaintext => .ok plaintext

def ivBytes : Nat := 12

/-- The body of `retrieve`, once the entry is found. -/
def openEntry (key : Bytes) (e : EncryptedMemoryEntry) : Except Bytes Bytes :=
  let raw := base64Decode sodium e.ciphertextB64
  if raw.length < ivBytes then .error (ascii "Invalid ciphertext: too short")
  else
    match decryptAad sodium (raw.drop ivBytes) key (raw.take ivBytes) (tierLabel e.tier) with
    | .error message => .error (ascii "Decryption failed: " ++ message)
    | .ok plaintext => .ok plaintext

/-! ## The store -/

structure State where
  file : Option Bytes
  cache : List EncryptedMemoryEntry
  cacheIndex : Bytes → Option Nat
  cacheValid : Bool

/-- The constructor: nothing is read yet. -/
def openStore (file : Option Bytes) : State :=
  { file, cache := [], cacheIndex := fun _ => none, cacheValid := false }

variable (codec : JsonCodec)

def kMaxEntries : Nat := 100000

def readLine (line : Bytes) : Option EncryptedMemoryEntry := (codec.parse line).bind fromJson

/-- The loop of `load_entries_from_disk`, after `count` entries. -/
def loadLoop : Nat → List Bytes → List EncryptedMemoryEntry
  | _, [] => []
  | count, line :: rest =>
    if kMaxEntries ≤ count then []
    else if line = [] then loadLoop count rest
    else
      match readLine codec line with
      | some e => e :: loadLoop (count + 1) rest
      | none => loadLoop count rest

def loadEntriesFromDisk (file : Option Bytes) : List EncryptedMemoryEntry :=
  loadLoop codec 0 (Audit.fileLines file)

/-- `cache_index_[cache_[i].entry_id] = i`, for every `i`. -/
def buildIndex (cache : List EncryptedMemoryEntry) : Bytes → Option Nat :=
  cache.zipIdx.foldl (fun index p => Function.update index p.1.entryId (some p.2)) fun _ => none

def entries (st : State) : State :=
  if st.cacheValid then st
  else
    let cache := loadEntriesFromDisk codec st.file
    { st with cache, cacheIndex := buildIndex cache, cacheValid := true }

/-- `save_entry`, and whether it returned. When `dump` throws, the file is open already. -/
def saveEntry (st : State) (entry : EncryptedMemoryEntry) (opens : Bool) : State × Bool :=
  if ¬ opens then (st, true)
  else
    match codec.dump (toJson entry) with
    | none => ({ st with file := Audit.written st.file [] }, false)
    | some text =>
      let st := { st with file := Audit.written st.file (text ++ [ch '\n']) }
      if st.cacheValid then
        ({ st with
            cacheIndex := Function.update st.cacheIndex entry.entryId (some st.cache.length)
            cache := st.cache ++ [entry] }, true)
      else (st, true)

/-- The agent of the store. Its key is derived from the master key and from `agentDid`. -/
structure Agent where
  key : Bytes
  agentDid : Bytes

def isKeyZeroed (key : Bytes) : Bool := key.all (· == 0)

/-- What a call of `store` draws: the random numbers, the clock, and whether the file opens for
appending. -/
structure Draw where
  iv : Bytes
  entryId : Bytes
  createdAt : Bytes
  opens : Bool
  iv_length : iv.length = ivBytes

inductive StoreResult where
  | stored (entry : EncryptedMemoryEntry)
  | refused (message : Bytes)
  | threw
  deriving DecidableEq, Repr

variable (agent : Agent)

def buildEntry (tier : MemoryTier) (draw : Draw) (ciphertext : Bytes) : EncryptedMemoryEntry where
  entryId := draw.entryId
  tier := tier
  ciphertextB64 := sodium.bin2base64 (draw.iv ++ ciphertext)
  createdAt := draw.createdAt
  agentDid := agent.agentDid

def store (st : State) (content : Bytes) (tier : MemoryTier) (draw : Draw) : State × StoreResult :=
  if isKeyZeroed agent.key then (st, .refused (ascii "Agent keys have been destroyed"))
  else
    match sodium.encrypt content (tierLabel tier) draw.iv agent.key with
    | none => (st, .refused (ascii "Encryption failed: " ++ ascii "Encryption failed"))
    | some ciphertext =>
      let entry := buildEntry sodium agent tier draw ciphertext
      match saveEntry codec st entry draw.opens with
      | (st, false) => (st, .threw)
      | (st, true) => (st, .stored entry)

/-- The index never points behind the end of the vector. -/
def retrieve (st : State) (entryId : Bytes) : State × Except Bytes Bytes :=
  if isKeyZeroed agent.key then (st, .error (ascii "Agent keys have been destroyed"))
  else
    let st := entries codec st
    match (st.cacheIndex entryId).bind (st.cache[·]?) with
    | none => (st, .error (ascii "Entry not found: " ++ entryId))
    | some e => (st, openEntry sodium agent.key e)

/-! ## Runs -/

inductive Event where
  | store (content : Bytes) (tier : MemoryTier) (draw : Draw)
  | retrieve (entryId : Bytes)
  | restart

/-- A store, and what it has promised to keep: the id and the content of each call that returned
success. -/
structure Sys where
  st : State
  promised : List (Bytes × Bytes)

def promise (sys : Sys) (content : Bytes) : StoreResult → List (Bytes × Bytes)
  | .stored entry => sys.promised ++ [(entry.entryId, content)]
  | _ => sys.promised

/-- Contents are not empty, and ids are drawn once. -/
def step (sys : Sys) : Event → Option Sys
  | .store content tier draw =>
    if content = [] ∨ draw.entryId ∈ sys.promised.map (·.1) then none
    else
      let (st, result) := store sodium codec agent sys.st content tier draw
      some { st, promised := promise sys content result }
  | .retrieve entryId => some { sys with st := (retrieve sodium codec agent sys.st entryId).1 }
  | .restart => some { sys with st := openStore sys.st.file }

end Euxis.Memory
