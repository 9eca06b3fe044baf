import Euxis.Audit.Code
import Euxis.Chain
import Euxis.Json.RoundTrip

/-!
# The audit chain

The entries of a file are its non-empty lines. `verify_chain` accepts a file exactly when its
entries are linked in the sense of `Chain.lean`.
-/

namespace Euxis.Audit

/-! ## Entries -/

def entries (file : Option Bytes) : List Bytes := (fileLines file).filter (· ≠ [])

theorem getLines_filter (content : Bytes) :
    (getLines content).filter (· ≠ []) = (content.splitOn (ch '\n')).filter (· ≠ []) := by
  rcases splitOn_getLines content with h | h
  · rw [h]
  · rw [h, List.filter_append]
    simp

theorem entries_some (content : Bytes) :
    entries (some content) = (content.splitOn (ch '\n')).filter (· ≠ []) := getLines_filter content

theorem entries_append (a b : Bytes) :
    entries (some (a ++ ch '\n' :: b)) = entries (some a) ++ entries (some b) := by
  simp only [entries_some, List.splitOn_append_cons_self, List.filter_append]

theorem entries_line (line : Bytes) (hne : line ≠ []) (hline : ch '\n' ∉ line) :
    entries (some line) = [line] := by
  rw [entries_some, List.splitOn_eq_singleton hline]
  simp [hne]

theorem entries_empty : entries (some []) = [] := by decide

/-! ## Verification -/

section Verify

variable (hash : Bytes → Bytes) (parse : Bytes → Except JsonError Json)

/-- The head that a line records. -/
def link (line : Bytes) : Option Bytes :=
  match parse line with
  | .error _ => none
  | .ok entry => (entry.valueStr prevHashKey []).toOption

theorem verifyLoop_iff (expected : Bytes) (lines : List Bytes) :
    verifyLoop hash parse expected lines = .ok true ↔
      Chain.Linked hash (link parse) expected (lines.filter (· ≠ [])) := by
  induction lines generalizing expected with
  | nil => simp [verifyLoop, Chain.Linked]
  | cons line rest ih =>
    unfold verifyLoop
    by_cases hline : line = []
    · simp [hline, ih]
    · rw [if_neg hline, List.filter_cons_of_pos (by simpa using hline)]
      simp only [Chain.Linked, link]
      cases hp : parse line with
      | error e => cases e <;> simp
      | ok entry =>
        simp only
        cases hv : entry.valueStr prevHashKey [] with
        | error e => simp [bind, Except.bind, Except.toOption]
        | ok prev =>
          simp only [bind, Except.bind, Except.toOption, Option.some.injEq]
          by_cases hprev : prev = expected
          · rw [if_neg (by simpa using hprev), ih]
            simp [hprev]
          · rw [if_pos hprev]
            simp [hprev]

theorem verifyChain_iff (file : Option Bytes) :
    verifyChain hash parse file = .ok true ↔ Chain.Linked hash (link parse) [] (entries file) :=
  verifyLoop_iff hash parse [] (fileLines file)

/-- A line that `verify_chain` reads without a throw: an object whose `prev_hash` is a string or
absent. -/
def WellTyped (line : Bytes) : Prop :=
  ∃ members, parse line = .ok (.obj members) ∧
    (members.lookup prevHashKey = none ∨ ∃ s, members.lookup prevHashKey = some (.str s))

theorem valueStr_wellTyped (members : List (Bytes × Json))
    (h : members.lookup prevHashKey = none ∨ ∃ s, members.lookup prevHashKey = some (.str s)) :
    ∃ s, (Json.obj members).valueStr prevHashKey [] = .ok s := by
  rcases h with h | ⟨s, h⟩
  · exact ⟨[], by simp [Json.valueStr, h]⟩
  · exact ⟨s, by simp [Json.valueStr, h]⟩

theorem verifyLoop_total (expected : Bytes) (lines : List Bytes)
    (h : ∀ line ∈ lines, line ≠ [] → WellTyped parse line) :
    ∃ b, verifyLoop hash parse expected lines = .ok b := by
  induction lines generalizing expected with
  | nil => exact ⟨true, rfl⟩
  | cons line rest ih =>
    have hrest : ∀ l ∈ rest, l ≠ [] → WellTyped parse l :=
      fun l hl => h l (List.mem_cons_of_mem _ hl)
    unfold verifyLoop
    by_cases hline : line = []
    · rw [if_pos hline]
      exact ih expected hrest
    · obtain ⟨members, hp, hm⟩ := h line List.mem_cons_self hline
      obtain ⟨s, hs⟩ := valueStr_wellTyped members hm
      rw [if_neg hline, hp]
      simp only [hs, bind, Except.bind]
      split
      · exact ⟨false, rfl⟩
      · exact ih (hash line) hrest

theorem verifyChain_false_or_true (file : Option Bytes)
    (h : ∀ line ∈ entries file, WellTyped parse line) :
    verifyChain hash parse file = .ok true ∨ verifyChain hash parse file = .ok false := by
  obtain ⟨b, hb⟩ := verifyLoop_total hash parse [] (fileLines file) fun line hl hne =>
    h line (List.mem_filter.mpr ⟨hl, by simpa using hne⟩)
  cases b with
  | true => exact Or.inl hb
  | false => exact Or.inr hb

end Verify

/-! ## The head pins the log -/

/-- The hash of the last entry, and the empty string for a log without entries. -/
def headHash (hash : Bytes → Bytes) (file : Option Bytes) : Bytes :=
  Chain.headOf hash [] (entries file)

theorem chain_head_pins_log (hash : Bytes → Bytes) (parse : Bytes → Except JsonError Json)
    (hinj : Function.Injective hash) (hne : ∀ line, hash line ≠ []) (file file' : Option Bytes)
    (hv : verifyChain hash parse file = .ok true) (hh : headHash hash file' = headHash hash file) :
    (verifyChain hash parse file' = .ok true → entries file' = entries file) ∧
      ((∀ line ∈ entries file', WellTyped parse line) → entries file' ≠ entries file →
        verifyChain hash parse file' = .ok false) := by
  have hpin : verifyChain hash parse file' = .ok true → entries file' = entries file := by
    intro hv'
    rw [verifyChain_iff] at hv hv'
    exact Chain.linked_unique hash (link parse) hinj [] hne _ _ hv' hv hh
  refine ⟨hpin, fun htyped hdiff => ?_⟩
  rcases verifyChain_false_or_true hash parse file' htyped with h | h
  · exact absurd (hpin h) hdiff
  · exact h

def firstLine : Bytes := ascii "\x7b\"event_type\":\"load\"\x7d"

def firstHash : Bytes := ascii "5b5557e1a5b40b2834603c549c07702c82c0e14e494a214c77ebe2990994ec52"

def secondLine : Bytes :=
  ascii "\x7b\"event_type\":\"exec\",\"prev_hash\":\"" ++ firstHash ++ ascii "\"\x7d"

def secondHash : Bytes := ascii "9488d1127ce00f8751332556482dc04154dbe2bb74566056d0e50855d9152420"

/-- SHA-256 on the two lines, and the line itself behind an `x` elsewhere. -/
def sampleHash (line : Bytes) : Bytes :=
  if line = firstLine then firstHash else if line = secondLine then secondHash else ch 'x' :: line

def sampleUnhash (h : Bytes) : Bytes :=
  if h = firstHash then firstLine else if h = secondHash then secondLine else h.tail

theorem firstHash_head : firstHash.head? = some (ch '5') := by decide +kernel

theorem secondHash_head : secondHash.head? = some (ch '9') := by decide +kernel

theorem ne_of_head (s t : Bytes) (a b : UInt8) (hs : s.head? = some a) (ht : t.head? = some b)
    (hab : a ≠ b) : s ≠ t := by
  rintro rfl
  rw [hs] at ht
  exact hab (Option.some.inj ht)

theorem sampleHash_ne_nil (line : Bytes) : sampleHash line ≠ [] := by
  unfold sampleHash
  split_ifs
  · intro h
    simpa [h] using firstHash_head
  · intro h
    simpa [h] using secondHash_head
  · simp

theorem sampleUnhash_hash (line : Bytes) : sampleUnhash (sampleHash line) = line := by
  have h1 : ch 'x' :: line ≠ firstHash := ne_of_head _ _ _ _ rfl firstHash_head (by decide)
  have h2 : ch 'x' :: line ≠ secondHash := ne_of_head _ _ _ _ rfl secondHash_head (by decide)
  have h3 : secondHash ≠ firstHash := ne_of_head _ _ _ _ secondHash_head firstHash_head (by decide)
  unfold sampleHash
  split_ifs with hf hs
  · rw [hf, sampleUnhash, if_pos rfl]
  · rw [hs, sampleUnhash, if_neg h3, if_pos rfl]
  · rw [sampleUnhash, if_neg h1, if_neg h2, List.tail_cons]

theorem sampleHash_injective : Function.Injective sampleHash :=
  Function.LeftInverse.injective sampleUnhash_hash

def sampleParse : Bytes → Except JsonError Json := Json.textCodec.read fun _ => .parseError

theorem chain_head_pins_two_entries :
    entries (some (ch '\n' :: firstLine ++ ascii "\n\n" ++ secondLine)) =
      entries (some (firstLine ++ ascii "\n" ++ secondLine ++ ascii "\n")) :=
  (chain_head_pins_log sampleHash sampleParse sampleHash_injective sampleHash_ne_nil
    (some (firstLine ++ ascii "\n" ++ secondLine ++ ascii "\n"))
    (some (ch '\n' :: firstLine ++ ascii "\n\n" ++ secondLine))
    (by decide +kernel) (by decide +kernel)).1 (by decide +kernel)

/-! ## Appending -/

section Append

variable (codec : JsonCodec) (failure : Bytes → JsonError) (hash : Bytes → Bytes)

/-- What the file must always satisfy: it verifies, and the logger holds its head. -/
def InStep (st : State) : Prop :=
  verifyChain hash (codec.read failure) st.file = .ok true ∧ st.prevHash = headHash hash st.file

/-- Nothing, or a line feed at the end: the next entry starts a line of its own. -/
def Terminated (file : Option Bytes) : Prop :=
  file.getD [] = [] ∨ (file.getD []).getLast? = some (ch '\n')

theorem scan_eq (file : Option Bytes) : scan hash file = headHash hash file := by
  have h : ∀ (lines : List Bytes) (start : Bytes),
      lines.foldl (fun prev line => if line = [] then prev else hash line) start =
        Chain.headOf hash start (lines.filter (· ≠ [])) := by
    intro lines
    induction lines with
    | nil => intro start; rfl
    | cons line rest ih =>
      intro start
      rw [List.foldl_cons, ih]
      by_cases hline : line = []
      · simp [hline]
      · rw [if_neg hline, List.filter_cons_of_pos (by simpa using hline)]
        rfl
  exact h (fileLines file) []

theorem entries_getD (file : Option Bytes) : entries (some (file.getD [])) = entries file := by
  cases file with
  | none => exact entries_empty
  | some content => rfl

theorem entries_written (file : Option Bytes) (line : Bytes) (hf : Terminated file)
    (hne : line ≠ []) (hline : ch '\n' ∉ line) :
    entries (written file (line ++ [ch '\n'])) = entries file ++ [line] := by
  have hlast : entries (some (line ++ [ch '\n'])) = [line] := by
    rw [entries_append, entries_line line hne hline, entries_empty, List.append_nil]
  rw [← entries_getD file]
  unfold written
  rcases hf with hf | hf
  · rw [hf, List.nil_append, hlast, entries_empty, List.nil_append]
  · obtain ⟨init, hinit⟩ := List.getLast?_eq_some_iff.mp hf
    rw [hinit, List.append_assoc, List.singleton_append, entries_append, hlast, entries_append,
      entries_empty, List.append_nil]

theorem terminated_written (file : Option Bytes) (line : Bytes) :
    Terminated (written file (line ++ [ch '\n'])) := by
  right
  simp [written]

theorem entry_members (call : Call) : ∃ members, call.entry = .obj members := by
  cases call <;> exact ⟨_, rfl⟩

theorem link_dumped (call : Call) (prev line : Bytes)
    (h : codec.dump (call.entry.set prevHashKey (.str prev)) = some line) :
    link (codec.read failure) line = some prev := by
  obtain ⟨members, hm⟩ := entry_members call
  have hv : (call.entry.set prevHashKey (.str prev)).valueStr prevHashKey [] = .ok prev := by
    rw [hm]
    simp [Json.set, Json.valueStr, Json.lookup_setMember]
  simp only [link, JsonCodec.read_of_dump failure h, hv]
  rfl

theorem inStep_written (st : State) (call : Call) (line : Bytes)
    (hst : InStep codec failure hash st) (hf : Terminated st.file)
    (h : codec.dump (call.entry.set prevHashKey (.str st.prevHash)) = some line) :
    InStep codec failure hash
      { file := written st.file (line ++ [ch '\n']), prevHash := hash line } := by
  have he := entries_written st.file line hf (codec.dump_ne_nil _ _ h) (codec.dump_one_line _ _ h)
  obtain ⟨hv, hp⟩ := hst
  rw [verifyChain_iff] at hv
  refine ⟨?_, ?_⟩
  · rw [verifyChain_iff, he, Chain.linked_snoc]
    refine ⟨hv, ?_⟩
    rw [link_dumped codec failure call st.prevHash line h, hp]
    rfl
  · simp only [headHash, he, Chain.headOf_snoc]

/-- A call leaves bytes behind only when they are durable. -/
def Op.Clean : Op → Prop
  | .append _ outcome => outcome = .openFails ∨ outcome = .shortWrite 0 ∨ outcome = .durable
  | .reopen => True

theorem step_inStep (st : State) (op : Op) (hop : op.Clean) (hst : InStep codec failure hash st)
    (hf : Terminated st.file) :
    InStep codec failure hash (step codec hash st op) ∧
      Terminated (step codec hash st op).file := by
  cases op with
  | reopen => exact ⟨⟨hst.1, scan_eq hash st.file⟩, hf⟩
  | append call outcome =>
    simp only [step, append]
    cases hd : codec.dump (call.entry.set prevHashKey (.str st.prevHash)) with
    | none => exact ⟨hst, hf⟩
    | some line =>
      rcases hop with rfl | rfl | rfl
      · exact ⟨hst, hf⟩
      · -- The file may have come into being, without a byte in it.
        have he : entries (written st.file (line.take 0)) = entries st.file := by
          rw [List.take_zero, written, List.append_nil, entries_getD]
        have hw : written st.file (line.take 0) = some (st.file.getD []) := by simp [written]
        obtain ⟨hv, hp⟩ := hst
        rw [verifyChain_iff] at hv
        refine ⟨⟨?_, ?_⟩, ?_⟩
        · show verifyChain hash (codec.read failure) (written st.file (line.take 0)) = .ok true
          rw [verifyChain_iff, he]
          exact hv
        · show st.prevHash = headHash hash (written st.file (line.take 0))
          rw [headHash, he]
          exact hp
        · show Terminated (written st.file (line.take 0))
          rw [hw]
          exact hf
      · exact ⟨inStep_written codec failure hash st call line hst hf hd,
          terminated_written st.file line⟩

theorem run_inStep (st : State) (ops : List Op) (hops : ∀ op ∈ ops, op.Clean)
    (hst : InStep codec failure hash st) (hf : Terminated st.file) :
    InStep codec failure hash (run codec hash st ops) := by
  induction ops generalizing st with
  | nil => exact hst
  | cons op ops ih =>
    have hop := hops op List.mem_cons_self
    obtain ⟨hst', hf'⟩ := step_inStep codec failure hash st op hop hst hf
    exact ih (step codec hash st op) (fun o ho => hops o (List.mem_cons_of_mem _ ho)) hst' hf'

end Append

/-- From a verifying file that ends its last line, in a run in which no append fails with bytes
already written, the file verifies and the logger holds its head after every step. -/
theorem audit_chain_crash_safe (codec : JsonCodec) (failure : Bytes → JsonError)
    (hash : Bytes → Bytes) (file : Option Bytes) (ops : List Op)
    (hv : verifyChain hash (codec.read failure) file = .ok true) (hf : Terminated file)
    (hops : ∀ op ∈ ops, op.Clean) :
    ∀ done, done <+: ops →
      InStep codec failure hash (run codec hash (openLogger hash file) done) := by
  intro done hpre
  apply run_inStep codec failure hash _ done (fun op hop => hops op (hpre.subset hop)) ⟨hv,
    scan_eq hash file⟩ hf

def sampleCall : Call := .log 0 (ascii "load") (ascii "grep") .null

theorem audit_chain_safe_after_failed_open :
    InStep Json.textCodec (fun _ => .parseError) sampleHash
      (run Json.textCodec sampleHash (openLogger sampleHash none)
      [.append sampleCall .openFails, .reopen, .append sampleCall .durable]) := by
  apply audit_chain_crash_safe Json.textCodec (fun _ => .parseError) sampleHash none
    [.append sampleCall .openFails, .reopen, .append sampleCall .durable] (by decide)
    (Or.inl rfl) ?_ _
    List.prefix_rfl
  intro op hop
  simp only [List.mem_cons, List.not_mem_nil, or_false] at hop
  rcases hop with rfl | rfl | rfl
  · exact Or.inl rfl
  · trivial
  · exact Or.inr (Or.inr rfl)

def sampleLine : Bytes :=
  ascii "\x7b\"details\":null,\"event_type\":\"load\",\"prev_hash\":\"\",\"skill_name\":\"grep\"," ++
    ascii "\"timestamp\":\"1970-01-01T00:00:00Z\"\x7d"

theorem audit_chain_broken_by_short_write :
    (∀ hash : Bytes → Bytes, verifyChain hash sampleParse
      (run Json.textCodec hash (openLogger hash none) [.append sampleCall (.shortWrite 1)]).file =
        .ok false) ∧
    (∀ hash : Bytes → Bytes, (∀ line, hash line ≠ []) →
      (run Json.textCodec hash (openLogger hash none) [.append sampleCall .fsyncFails]).prevHash ≠
        headHash hash (run Json.textCodec hash (openLogger hash none)
          [.append sampleCall .fsyncFails]).file) := by
  -- One byte reaches the disk; and the whole entry reaches it, but `fsync` fails.
  have hopen : ∀ hash : Bytes → Bytes, openLogger hash none = { file := none, prevHash := [] } :=
    fun _ => rfl
  have hd : Json.textCodec.dump (sampleCall.entry.set prevHashKey (.str [])) = some sampleLine := by
    decide +kernel
  constructor
  · intro hash
    have hfile : (run Json.textCodec hash (openLogger hash none)
        [.append sampleCall (.shortWrite 1)]).file = some (ascii "\x7b") := by
      simp only [hopen, run, List.foldl_cons, List.foldl_nil, step, append, hd]
      decide +kernel
    rw [hfile]
    rfl
  · intro hash hne
    have hfile : (run Json.textCodec hash (openLogger hash none) [.append sampleCall .fsyncFails]) =
        { file := some (sampleLine ++ [ch '\n']), prevHash := [] } := by
      simp only [hopen, run, List.foldl_cons, List.foldl_nil, step, append, hd]
      rfl
    -- The line is whole on disk, but the logger keeps the head it had before.
    have he : entries (some (sampleLine ++ [ch '\n'])) = [sampleLine] := by decide +kernel
    rw [hfile, headHash, he]
    exact (hne sampleLine).symm

end Euxis.Audit
