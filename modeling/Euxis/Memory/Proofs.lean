import Euxis.Attest.Base64
import Euxis.Audit.Proofs
import Euxis.Json.RoundTrip
import Euxis.Lines
import Euxis.Memory.Code
import Euxis.Trace

/-!
# Durability of the encrypted memory

The file, the cached vector and the index hold the same entries, as long as no append fails to open
and no reload meets more entries than it reads. Each entry then opens to the content that was
stored.
-/

namespace Euxis.Memory

/-! ## Entries -/

theorem fromJson_toJson (e : EncryptedMemoryEntry) : fromJson (toJson e) = some e := by
  obtain ⟨entryId, tier, ciphertextB64, createdAt, agentDid⟩ := e
  cases tier <;> rfl

section Files

variable (codec : JsonCodec)

theorem readLine_dump (e : EncryptedMemoryEntry) (text : Bytes)
    (h : codec.dump (toJson e) = some text) : readLine codec text = some e := by
  rw [readLine, codec.parse_dump _ _ h, Option.bind_some, fromJson_toJson]

/-- Every entry of the file, without the bound of the loader. -/
def fileEntries (file : Option Bytes) : List EncryptedMemoryEntry :=
  (Audit.entries file).filterMap (readLine codec)

theorem loadLoop_eq (count : Nat) (lines : List Bytes) :
    loadLoop codec count lines =
      ((lines.filter (· ≠ [])).filterMap (readLine codec)).take (kMaxEntries - count) := by
  induction lines generalizing count with
  | nil => simp [loadLoop]
  | cons line rest ih =>
    unfold loadLoop
    by_cases hcount : kMaxEntries ≤ count
    · rw [if_pos hcount, Nat.sub_eq_zero_of_le hcount, List.take_zero]
    · rw [if_neg hcount]
      by_cases hline : line = []
      · rw [if_pos hline, ih, hline]
        simp
      · rw [if_neg hline, List.filter_cons_of_pos (by simpa using hline)]
        cases hread : readLine codec line with
        | none => simp only [ih, List.filterMap_cons_none hread]
        | some e =>
          have hsub : kMaxEntries - count = kMaxEntries - (count + 1) + 1 := by omega
          simp only [ih, List.filterMap_cons_some hread]
          rw [hsub, List.take_succ_cons]

theorem loadEntries_eq (file : Option Bytes) :
    loadEntriesFromDisk codec file = (fileEntries codec file).take kMaxEntries :=
  loadLoop_eq codec 0 _

theorem entries_getD (file : Option Bytes) :
    Audit.entries file = Lines.nonEmpty (file.getD []) := by
  cases file with
  | none => rfl
  | some content => exact Audit.entries_some content

/-! ## The index -/

theorem buildIndex_append (cache : List EncryptedMemoryEntry) (e : EncryptedMemoryEntry) :
    buildIndex (cache ++ [e]) = Function.update (buildIndex cache) e.entryId
      (some cache.length) := by
  simp [buildIndex, List.zipIdx_append]

theorem buildIndex_getElem (cache : List EncryptedMemoryEntry)
    (hnodup : (cache.map (·.entryId)).Nodup) (i : Nat) (e : EncryptedMemoryEntry)
    (h : cache[i]? = some e) : buildIndex cache e.entryId = some i := by
  induction cache using List.reverseRecOn with
  | nil => simp at h
  | append_singleton cache last ih =>
    rw [List.map_append, List.nodup_append] at hnodup
    rw [buildIndex_append]
    rcases Nat.lt_or_ge i cache.length with hi | hi
    · rw [List.getElem?_append_left hi] at h
      have hne : e.entryId ≠ last.entryId := by
        apply hnodup.2.2 _ (List.mem_map_of_mem (List.mem_of_getElem? h))
        simp
      rw [Function.update_of_ne hne]
      exact ih hnodup.1 h
    · rw [List.getElem?_append_right hi, List.getElem?_singleton] at h
      split at h
      · rename_i hzero
        have hlen : i = cache.length := by omega
        rw [← Option.some.inj h, Function.update_self, hlen]
      · cases h

theorem buildIndex_none (cache : List EncryptedMemoryEntry) (entryId : Bytes)
    (h : entryId ∉ cache.map (·.entryId)) : buildIndex cache entryId = none := by
  induction cache using List.reverseRecOn with
  | nil => rfl
  | append_singleton cache last ih =>
    rw [List.map_append, List.mem_append, not_or] at h
    rw [buildIndex_append, Function.update_of_ne (by simpa using h.2)]
    exact ih h.1

/-! ## The file -/

variable {codec} {file : Option Bytes} {all : List EncryptedMemoryEntry}

theorem fileEntries_of_reads (h : Lines.Reads (readLine codec) (file.getD []) all) :
    fileEntries codec file = all := by
  rw [fileEntries, entries_getD]
  exact h.filterMap_eq

theorem reads_written (h : Lines.Reads (readLine codec) (file.getD []) all)
    (entry : EncryptedMemoryEntry) (text : Bytes) (hdump : codec.dump (toJson entry) = some text) :
    Lines.Reads (readLine codec) ((Audit.written file (text ++ [ch '\n'])).getD [])
      (all ++ [entry]) :=
  h.append text entry ⟨codec.dump_ne_nil _ _ hdump, codec.dump_one_line _ _ hdump⟩
    (readLine_dump codec entry text hdump)

end Files

/-! ## The invariant -/

section Runs

variable (sodium : Sodium) (codec : JsonCodec) (agent : Agent)

/-- An entry that opens to what was promised. -/
def Keeps (e : EncryptedMemoryEntry) (p : Bytes × Bytes) : Prop :=
  e.entryId = p.1 ∧ openEntry sodium agent.key e = .ok p.2

/-- The file, the cache and the promises agree on the entries. -/
structure Holds (all : List EncryptedMemoryEntry) (sys : Sys) : Prop where
  disk : Lines.Reads (readLine codec) (sys.st.file.getD []) all
  keeps : List.Forall₂ (Keeps sodium agent) all sys.promised
  unique : (sys.promised.map (·.1)).Nodup
  keyed : isKeyZeroed agent.key = true → sys.promised = []
  warm : sys.st.cacheValid = true → sys.st.cache = all ∧ sys.st.cacheIndex = buildIndex all
  cold : sys.st.cacheValid = false → all.length ≤ kMaxEntries

/-- The condition on a step: the append opens, and no reload will meet more than it reads. -/
def Ok (sys : Sys) : Event → Prop
  | .store _ _ draw =>
    draw.opens = true ∧
      (sys.st.cacheValid = true ∨ (fileEntries codec sys.st.file).length < kMaxEntries)
  | .retrieve _ => True
  | .restart => (fileEntries codec sys.st.file).length ≤ kMaxEntries

variable {sodium codec agent} {all : List EncryptedMemoryEntry} {sys : Sys}

theorem keeps_ids {promised : List (Bytes × Bytes)}
    (h : List.Forall₂ (Keeps sodium agent) all promised) :
    all.map (·.entryId) = promised.map (·.1) := by
  induction h with
  | nil => rfl
  | cons hkeep _ ih => rw [List.map_cons, List.map_cons, ih, hkeep.1]

theorem Holds.entries_eq (h : Holds sodium codec agent all sys) :
    (entries codec sys.st).cache = all ∧ (entries codec sys.st).cacheIndex = buildIndex all ∧
      (entries codec sys.st).file = sys.st.file ∧ (entries codec sys.st).cacheValid = true := by
  unfold entries
  cases hv : sys.st.cacheValid with
  | true => exact ⟨(h.warm hv).1, (h.warm hv).2, rfl, hv⟩
  | false =>
    have hload : loadEntriesFromDisk codec sys.st.file = all := by
      rw [loadEntries_eq, fileEntries_of_reads h.disk, List.take_of_length_le (h.cold hv)]
    simp [hload]

theorem Holds.retrieve_eq (h : Holds sodium codec agent all sys) (p : Bytes × Bytes)
    (hp : p ∈ sys.promised) : (retrieve sodium codec agent sys.st p.1).2 = .ok p.2 := by
  have hkey : ¬ isKeyZeroed agent.key = true := by
    intro hz
    rw [h.keyed hz] at hp
    cases hp
  obtain ⟨i, hi, rfl⟩ := List.getElem_of_mem hp
  have hlen := h.keeps.length_eq
  have hkeep := (List.forall₂_iff_get.mp h.keeps).2 i (by omega) hi
  obtain ⟨hcache, hindex, -, -⟩ := h.entries_eq
  have hget : all[i]? = some all[i] := List.getElem?_eq_getElem (by omega)
  have hat : buildIndex all sys.promised[i].1 = some i := by
    have := buildIndex_getElem all (by rw [keeps_ids h.keeps]; exact h.unique) i _ hget
    rwa [show all[i].entryId = sys.promised[i].1 from hkeep.1] at this
  unfold retrieve
  rw [if_neg hkey]
  simp only [hcache, hindex, hat, Option.bind_some, hget]
  exact hkeep.2

/-! ## One step -/

theorem buildEntry_keeps (content ciphertext : Bytes) (tier : MemoryTier) (draw : Draw)
    (h : sodium.encrypt content (tierLabel tier) draw.iv agent.key = some ciphertext) :
    Keeps sodium agent (buildEntry sodium agent tier draw ciphertext) (draw.entryId, content) := by
  have hraw : base64Decode sodium (sodium.bin2base64 (draw.iv ++ ciphertext)) = draw.iv ++
      ciphertext := by
    rw [base64Decode, sodium.base642bin_bin2base64]
    rfl
  have hlen := sodium.encrypt_length _ _ _ _ _ h
  have hdec := sodium.decrypt_encrypt _ _ _ _ _ h
  refine ⟨rfl, ?_⟩
  unfold openEntry decryptAad
  simp only [buildEntry, hraw]
  rw [if_neg (by rw [List.length_append, draw.iv_length]; omega), ← draw.iv_length, List.drop_left,
    List.take_left, if_neg (by omega), hdec]

/-- The store after a saved entry. A cold cache stays as it is. -/
def appended (st : State) (entry : EncryptedMemoryEntry) (text : Bytes) : State where
  file := Audit.written st.file (text ++ [ch '\n'])
  cache := if st.cacheValid then st.cache ++ [entry] else st.cache
  cacheIndex :=
    if st.cacheValid then Function.update st.cacheIndex entry.entryId (some st.cache.length)
    else st.cacheIndex
  cacheValid := st.cacheValid

theorem saveEntry_opens (st : State) (entry : EncryptedMemoryEntry) (text : Bytes)
    (h : codec.dump (toJson entry) = some text) :
    saveEntry codec st entry true = (appended st entry text, true) := by
  unfold saveEntry appended
  simp only [h, not_true, if_false]
  cases st.cacheValid <;> rfl

variable (sodium codec agent) in
theorem store_cases (st : State) (content : Bytes) (tier : MemoryTier) (draw : Draw) :
    (∃ message, store sodium codec agent st content tier draw = (st, .refused message)) ∨
      store sodium codec agent st content tier draw = ({ st with file := Audit.written st.file [] },
        .threw) ∨
      ∃ entry, isKeyZeroed agent.key = false ∧ Keeps sodium agent entry (draw.entryId, content) ∧
        ((draw.opens = false ∧
          store sodium codec agent st content tier draw = (st, .stored entry)) ∨
          (draw.opens = true ∧ ∃ text, codec.dump (toJson entry) = some text ∧
            store sodium codec agent st content tier draw =
              (appended st entry text, .stored entry))) := by
  unfold store
  by_cases hzero : isKeyZeroed agent.key = true
  · rw [if_pos hzero]
    exact Or.inl ⟨_, rfl⟩
  · rw [if_neg hzero]
    cases henc : sodium.encrypt content (tierLabel tier) draw.iv agent.key with
    | none => exact Or.inl ⟨_, rfl⟩
    | some ciphertext =>
      right
      have hkeeps := buildEntry_keeps content ciphertext tier draw henc
      dsimp only
      generalize buildEntry sodium agent tier draw ciphertext = entry at hkeeps ⊢
      -- A file that does not open is not noticed: `store` returns the entry all the same.
      cases hopens : draw.opens with
      | false => exact Or.inr ⟨entry, by simpa using hzero, hkeeps, Or.inl ⟨rfl, rfl⟩⟩
      | true =>
        cases hdump : codec.dump (toJson entry) with
        | none =>
          left
          simp only [saveEntry, hdump, not_true, if_false]
        | some text =>
          rw [saveEntry_opens st entry text hdump]
          exact Or.inr ⟨entry, by simpa using hzero, hkeeps, Or.inr ⟨rfl, text, hdump, rfl⟩⟩

theorem promise_stored (sys : Sys) (content : Bytes) {entryId : Bytes}
    (entry : EncryptedMemoryEntry) (h : entry.entryId = entryId) :
    promise sys content (.stored entry) = sys.promised ++ [(entryId, content)] := by
  rw [promise, h]

theorem step_store_cases {content : Bytes} {tier : MemoryTier} {draw : Draw} {sys' : Sys}
    (hstep : step sodium codec agent sys (.store content tier draw) = some sys') :
    draw.entryId ∉ sys.promised.map (·.1) ∧
      ((∃ file, file.getD [] = sys.st.file.getD [] ∧
        sys' = { sys with st := { sys.st with file } }) ∨
        ∃ entry, isKeyZeroed agent.key = false ∧ Keeps sodium agent entry (draw.entryId, content) ∧
          sys'.promised = sys.promised ++ [(draw.entryId, content)] ∧
          ((draw.opens = false ∧ sys'.st = sys.st) ∨
            (draw.opens = true ∧ ∃ text, codec.dump (toJson entry) = some text ∧
              sys'.st = appended sys.st entry text))) := by
  simp only [step] at hstep
  split at hstep
  · cases hstep
  · rename_i hfresh
    rw [not_or] at hfresh
    rw [Option.some.injEq] at hstep
    subst hstep
    refine ⟨hfresh.2, ?_⟩
    -- A refused call and one that throws promise nothing; the other two promise the entry.
    rcases store_cases sodium codec agent sys.st content tier draw with
      ⟨message, hs⟩ | hs | ⟨entry, hkey, hkeeps, ⟨hclosed, hs⟩ | ⟨hopens, text, hdump, hs⟩⟩
    · rw [hs]
      exact Or.inl ⟨sys.st.file, rfl, rfl⟩
    · rw [hs]
      exact Or.inl ⟨_, by simp [Audit.written], rfl⟩
    · rw [hs]
      exact Or.inr ⟨entry, hkey, hkeeps, promise_stored sys content entry hkeeps.1,
        Or.inl ⟨hclosed, rfl⟩⟩
    · rw [hs]
      exact Or.inr ⟨entry, hkey, hkeeps, promise_stored sys content entry hkeeps.1,
        Or.inr ⟨hopens, text, hdump, rfl⟩⟩

theorem Holds.append (h : Holds sodium codec agent all sys) (entry : EncryptedMemoryEntry)
    (p : Bytes × Bytes) (text : Bytes) (hkey : isKeyZeroed agent.key = false)
    (hkeeps : Keeps sodium agent entry p) (hdump : codec.dump (toJson entry) = some text)
    (hnew : p.1 ∉ sys.promised.map (·.1))
    (hroom : sys.st.cacheValid = true ∨ all.length < kMaxEntries) :
    Holds sodium codec agent (all ++ [entry])
      { st := appended sys.st entry text, promised := sys.promised ++ [p] } where
  disk := reads_written h.disk entry text hdump
  keeps := List.rel_append h.keeps (.cons hkeeps .nil)
  unique := by
    rw [List.map_append, List.nodup_append]
    refine ⟨h.unique, by simp, ?_⟩
    rintro x hx y hy rfl
    rw [List.map_singleton, List.mem_singleton] at hy
    exact hnew (hy ▸ hx)
  keyed hz := by
    rw [hz] at hkey
    cases hkey
  warm hv := by
    have hv : sys.st.cacheValid = true := hv
    obtain ⟨hcache, hindex⟩ := h.warm hv
    simp only [appended, hv, if_true, hcache, hindex, buildIndex_append, and_self]
  -- Without a cache the entry is found after a reload only if it lies within the bound.
  cold hv := by
    have hv : sys.st.cacheValid = false := hv
    rw [hv] at hroom
    simp only [Bool.false_eq_true, false_or] at hroom
    rw [List.length_append, List.length_singleton]
    omega

theorem Holds.same (h : Holds sodium codec agent all sys) (st : State)
    (hfile : st.file.getD [] = sys.st.file.getD [])
    (hwarm : st.cacheValid = true → st.cache = all ∧ st.cacheIndex = buildIndex all)
    (hcold : st.cacheValid = false → all.length ≤ kMaxEntries) :
    Holds sodium codec agent all { sys with st } where
  disk := by
    rw [hfile]
    exact h.disk
  keeps := h.keeps
  unique := h.unique
  keyed := h.keyed
  warm := hwarm
  cold := hcold

variable (sodium codec agent) in
theorem retrieve_state (st : State) (entryId : Bytes) :
    (retrieve sodium codec agent st entryId).1 = st ∨
      (retrieve sodium codec agent st entryId).1 = entries codec st := by
  unfold retrieve
  split
  · exact Or.inl rfl
  · right
    dsimp only
    split <;> rfl

theorem Holds.next (h : Holds sodium codec agent all sys) (e : Event) (sys' : Sys)
    (hok : Ok codec sys e) (hstep : step sodium codec agent sys e = some sys') :
    ∃ all', Holds sodium codec agent all' sys' := by
  cases e with
  | store content tier draw =>
    obtain ⟨hopens, hroom⟩ := hok
    rw [fileEntries_of_reads h.disk] at hroom
    obtain ⟨hnew, ⟨file, hfile, rfl⟩ | ⟨entry, hkey, hkeeps, hpromised,
      ⟨hclosed, -⟩ | ⟨-, text, hdump, hst⟩⟩⟩ :=
      step_store_cases hstep
    · exact ⟨all, h.same _ hfile h.warm h.cold⟩
    · rw [hclosed] at hopens
      cases hopens
    · obtain ⟨st', promised'⟩ := sys'
      dsimp only at hpromised hst
      subst hpromised hst
      exact ⟨_, h.append entry (draw.entryId, content) text hkey hkeeps hdump hnew hroom⟩
  | retrieve entryId =>
    simp only [step, Option.some.injEq] at hstep
    subst hstep
    refine ⟨all, ?_⟩
    obtain ⟨hcache, hindex, hfile, hvalid⟩ := h.entries_eq
    -- A lookup may fill the cache, and what it fills it with is what the file holds.
    rcases retrieve_state sodium codec agent sys.st entryId with hst | hst
    · rw [hst]
      exact h
    · rw [hst]
      exact h.same _ (by rw [hfile]) (fun _ => ⟨hcache, hindex⟩) (by simp [hvalid])
  | restart =>
    simp only [step, Option.some.injEq] at hstep
    subst hstep
    have hroom : (fileEntries codec sys.st.file).length ≤ kMaxEntries := hok
    rw [fileEntries_of_reads h.disk] at hroom
    exact ⟨all, h.same _ rfl (fun hv => by cases hv) fun _ => hroom⟩

/-! ## Every run -/

def start : Sys := { st := openStore none, promised := [] }

theorem holds_start : Holds sodium codec agent [] start where
  disk := Lines.Reads.empty
  keeps := .nil
  unique := by simp [start]
  keyed _ := rfl
  warm hv := by cases hv
  cold _ := by simp

theorem holds_of_reaches (h : Trace.Reaches (step sodium codec agent) (Ok codec) start sys) :
    ∃ all, Holds sodium codec agent all sys := by
  apply h.keeps fun sys => ∃ all, Holds sodium codec agent all sys
  · exact ⟨[], holds_start⟩
  · rintro s e s' ⟨all, hs⟩ hok hstep
    exact hs.next e s' hok hstep

/-- Where every step meets the condition, every promise is kept in every state. -/
theorem stored_content_durable (sodium : Sodium) (codec : JsonCodec) (agent : Agent) (sys : Sys)
    (h : Trace.Reaches (step sodium codec agent) (Ok codec) start sys) :
    ∀ p ∈ sys.promised, (retrieve sodium codec agent sys.st p.1).2 = .ok p.2 := by
  obtain ⟨all, hs⟩ := holds_of_reaches h
  exact hs.retrieve_eq

/-! ## The condition is exact -/

theorem retrieve_none (st : State) (entryId content : Bytes)
    (h : (entries codec st).cacheIndex entryId = none) :
    (retrieve sodium codec agent st entryId).2 ≠ .ok content := by
  unfold retrieve
  split
  · simp
  · simp [h]

theorem entries_cold_none (st : State) (hcold : st.cacheValid = false) (entryId : Bytes)
    (h : entryId ∉ ((fileEntries codec st.file).take kMaxEntries).map (·.entryId)) :
    (entries codec st).cacheIndex entryId = none := by
  unfold entries
  rw [hcold]
  simp only [Bool.false_eq_true, if_false, loadEntries_eq]
  exact buildIndex_none _ entryId h

theorem Holds.restart_breaks (h : Holds sodium codec agent all sys)
    (hlong : kMaxEntries < all.length) :
    ∃ p ∈ sys.promised, (retrieve sodium codec agent (openStore sys.st.file) p.1).2 ≠ .ok p.2 := by
  have hlen := h.keeps.length_eq
  refine ⟨sys.promised[kMaxEntries], List.getElem_mem _,
    retrieve_none _ _ _ (entries_cold_none _ rfl _ ?_)⟩
  rw [show (openStore sys.st.file).file = sys.st.file from rfl, fileEntries_of_reads h.disk,
    List.map_take, keeps_ids h.keeps]
  intro hmem
  have hdrop : sys.promised[kMaxEntries].1 ∈ (sys.promised.map (·.1)).drop kMaxEntries := by
    rw [List.drop_eq_getElem_cons (by rw [List.length_map]; omega), List.getElem_map]
    exact List.mem_cons_self
  exact List.disjoint_take_drop h.unique le_rfl hmem hdrop

theorem Holds.append_breaks (h : Holds sodium codec agent all sys) (entry : EncryptedMemoryEntry)
    (text : Bytes) (content : Bytes) (hdump : codec.dump (toJson entry) = some text)
    (hnew : entry.entryId ∉ all.map (·.entryId)) (hcold : sys.st.cacheValid = false)
    (hfull : kMaxEntries ≤ all.length) :
    (retrieve sodium codec agent (appended sys.st entry text) entry.entryId).2 ≠ .ok content := by
  apply retrieve_none
  apply entries_cold_none (appended sys.st entry text) hcold
  rw [show (appended sys.st entry text).file = Audit.written sys.st.file (text ++ [ch '\n']) from
    rfl,
    fileEntries_of_reads (reads_written h.disk entry text hdump),
    List.take_append_of_le_length hfull, List.map_take]
  exact fun hmem => hnew (List.mem_of_mem_take hmem)

/-- After the first step that misses the condition, a promise is broken: a store that returned
success, or one that a restart has cut off. -/
theorem condition_exact (sys sys' : Sys) (e : Event)
    (h : Trace.Reaches (step sodium codec agent) (Ok codec) start sys)
    (hstep : step sodium codec agent sys e = some sys') (hbad : ¬ Ok codec sys e)
    (he : e = .restart ∨ sys'.promised ≠ sys.promised) :
    ∃ p ∈ sys'.promised, (retrieve sodium codec agent sys'.st p.1).2 ≠ .ok p.2 := by
  obtain ⟨all, hs⟩ := holds_of_reaches h
  cases e with
  | retrieve entryId => exact absurd trivial hbad
  | restart =>
    simp only [step, Option.some.injEq] at hstep
    subst hstep
    apply hs.restart_breaks
    rw [← fileEntries_of_reads hs.disk]
    exact Nat.lt_of_not_le hbad
  | store content tier draw =>
    have hgrows := he.resolve_left (by simp)
    obtain ⟨hnew, ⟨file, -, rfl⟩ | ⟨entry, -, hkeeps, hpromised, hwritten⟩⟩ :=
      step_store_cases hstep
    · exact absurd rfl hgrows
    · have hid : entry.entryId = draw.entryId := hkeeps.1
      rw [← keeps_ids hs.keeps, ← hid] at hnew
      rw [hpromised, ← hid]
      refine ⟨(entry.entryId, content), by simp, ?_⟩
      rcases hwritten with ⟨-, hst⟩ | ⟨hopens, text, hdump, hst⟩
      -- The file did not open: the entry is promised and nowhere to be found.
      · rw [hst]
        apply retrieve_none
        rw [hs.entries_eq.2.1]
        exact buildIndex_none all _ hnew
      · simp only [Ok, hopens, true_and, not_or, fileEntries_of_reads hs.disk] at hbad
        rw [hst]
        exact hs.append_breaks entry text content hdump hnew (by simpa using hbad.1)
          (Nat.le_of_not_lt hbad.2)

end Runs

/-! ## Samples -/

/-- Sixteen bytes of tag and standard base64, in the place of libsodium. -/
def sampleSodium : Sodium where
  encrypt data _ _ _ := some (data ++ List.replicate tagBytes 0)
  decrypt ciphertext _ _ _ := some (ciphertext.take (ciphertext.length - tagBytes))
  bin2base64 := Attest.base64Encode
  base642bin encoded := (Attest.base64Decode encoded).toOption
  encrypt_length := by
    intro data aad iv key ciphertext h
    rw [← Option.some.inj h]
    simp
  decrypt_encrypt := by
    intro data aad iv key ciphertext h
    rw [← Option.some.inj h]
    simp
  base642bin_bin2base64 := by
    intro data
    rw [Attest.base64Decode_encode]
    rfl

def sampleAgent : Agent := { key := List.replicate 32 1, agentDid := ascii "did:euxis:a" }

def sampleDraw (entryId : Bytes) (opens : Bool) : Draw where
  iv := List.replicate 12 7
  entryId := entryId
  createdAt := ascii "2026-01-01T00:00:00.000Z"
  opens := opens
  iv_length := rfl

theorem sample_content_durable :
    ∃ sys, Trace.Reaches (step sampleSodium Json.textCodec sampleAgent) (Ok Json.textCodec) start
      sys ∧ sys.promised = [(ascii "a1", ascii "first"), (ascii "b2", ascii "second")] ∧
      ∀ p ∈ sys.promised,
        (retrieve sampleSodium Json.textCodec sampleAgent sys.st p.1).2 = .ok p.2 := by
  have hstart : Trace.Reaches (step sampleSodium Json.textCodec sampleAgent) (Ok Json.textCodec)
      start start := .start
  have hfirst := hstart.next (Event.store (ascii "first") .hot (sampleDraw (ascii "a1") true))
    ⟨rfl, Or.inr (by decide)⟩ rfl
  have hrestart := hfirst.next .restart (by unfold Ok; decide +kernel) rfl
  have hsecond := hrestart.next
    (Event.store (ascii "second") .relevant (sampleDraw (ascii "b2") true))
    ⟨rfl, Or.inr (by decide +kernel)⟩ rfl
  exact ⟨_, hsecond, rfl, stored_content_durable _ _ _ _ hsecond⟩

theorem failed_open_loses_content :
    ∃ sys, Trace.Reaches (step sampleSodium Json.textCodec sampleAgent) (fun _ _ => True) start
      sys ∧ sys.promised = [(ascii "a1", ascii "first")] ∧
      (retrieve sampleSodium Json.textCodec sampleAgent sys.st (ascii "a1")).2 =
        .error (ascii "Entry not found: a1") := by
  refine ⟨_, .next (.store (ascii "first") .hot (sampleDraw (ascii "a1") false)) .start trivial rfl,
    rfl, ?_⟩
  rfl

end Euxis.Memory
