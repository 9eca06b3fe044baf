import Euxis.Lifecycle.Code
import Euxis.Lines
import Euxis.Gateway.Proofs
import Euxis.Trace
import Euxis.Json.RoundTrip

/-!
# Lifecycles across restarts

What the two files hold while calls run and the process stops, and what a new process loads from
them.
-/

namespace Euxis.Lifecycle

open Files Gateway

/-! ## What a restart should find -/

/-- The state that a history ends in. -/
def lastTo (ts : List Transition) : AgentState := (ts.getLast?.map (·.toState)).getD .idle

/-- Each transition starts where the one before it ended, and is allowed. -/
def Chained : AgentState → List Transition → Prop
  | _, [] => True
  | s, t :: rest =>
    t.fromState = s ∧ t.toState ∈ validTransitions t.fromState ∧ Chained t.toState rest

def Coherent (m : Manager) : Prop :=
  ∀ agent : AgentName, getState m agent.text = lastTo (history m agent.text) ∧
    Chained .idle (history m agent.text)

/-- Text that `dump` writes. -/
def Text (codec : JsonCodec) (s : Bytes) : Prop := (codec.dump (.str s)).isSome

/-- The steps that keep the two files in step: names without a zero byte, sessions in UTF-8, and no
stop between the line in the log and the state file, but for a file that is cut off already and
stands for the state anyway. -/
def Sound (codec : JsonCodec) (sys : System) : Event → Prop
  | .transition agent _ session _ => 0 ∉ agent.text ∧ Text codec session
  | .write => True
  | .stop _ =>
    ∀ call ∈ sys.call, call.phase ≠ .openState ∧ (call.phase = .writeState → call.t.toState = .idle)

instance (codec : JsonCodec) (sys : System) (e : Event) : Decidable (Sound codec sys e) :=
  match e with
  | .transition _ _ _ _ => inferInstanceAs (Decidable (_ ∧ (codec.dump _).isSome = true))
  | .write => inferInstanceAs (Decidable True)
  | .stop _ => inferInstanceAs (Decidable (∀ call ∈ sys.call, _))

/-! ## States and histories -/

theorem stateFromString_toString (s : AgentState) : stateFromString (stateToString s) = s := by
  cases s <;> decide

theorem readState_toString (s : AgentState) : readState (.file (stateToString s)) = s := by
  cases s <;> decide

theorem readState_empty : readState (.file []) = .idle := by decide

theorem validTransitions_ne (s s' : AgentState) (h : s' ∈ validTransitions s) : s ≠ s' := by
  rintro rfl
  cases s <;> exact absurd h (by decide)

def recorded (ts : List Transition) (agent : Bytes) : List Transition := ts.filter (·.agent = agent)

theorem recorded_append (ts : List Transition) (t : Transition) (agent : Bytes) :
    recorded (ts ++ [t]) agent = if t.agent = agent then recorded ts agent ++ [t]
      else recorded ts agent := by
  unfold recorded
  rw [List.filter_append]
  split <;> simp [*]

theorem lastTo_append (ts : List Transition) (t : Transition) : lastTo (ts ++ [t]) = t.toState := by
  simp [lastTo]

theorem chained_append (s : AgentState) (ts : List Transition) (t : Transition) (h : Chained s ts)
    (hfrom : t.fromState = (ts.getLast?.map (·.toState)).getD s)
    (hto : t.toState ∈ validTransitions t.fromState) : Chained s (ts ++ [t]) := by
  induction ts generalizing s with
  | nil => exact ⟨by simpa using hfrom, hto, trivial⟩
  | cons u rest ih =>
    refine ⟨h.1, h.2.1, ih u.toState h.2.2 ?_⟩
    rw [hfrom, List.getLast?_cons]
    cases hl : rest.getLast? with
    | none => simp
    | some v => simp

/-! ## The log -/

section

variable {codec : JsonCodec}

theorem json_members (t : Transition) :
    t.json = .obj [(ascii "agent", .str t.agent), (ascii "from", .str (stateToString t.fromState)),
      (ascii "session", .str t.session), (ascii "state", .str (stateToString t.toState)),
      (ascii "ts", .str t.timestamp)] := rfl

theorem readEntry_json (t : Transition) : readEntry t.json = .ok t := by
  have hfrom := stateFromString_toString t.fromState
  have hto := stateFromString_toString t.toState
  have h : readEntry t.json =
      .ok { t with
        fromState := stateFromString (stateToString t.fromState)
        toState := stateFromString (stateToString t.toState) } := rfl
  rw [h, hfrom, hto]

theorem readTransition_dump (t : Transition) (line : Bytes) (h : codec.dump t.json = some line) :
    readTransition codec line = some t := by
  unfold readTransition
  rw [codec.parse_dump _ _ h, Option.bind_some, readEntry_json]
  rfl

theorem loadTransitions_reads (content : Bytes) (ts : List Transition)
    (h : Lines.Reads (readTransition codec) content ts) : loadTransitions codec content = ts := by
  rw [← h.filterMap_eq, Lines.nonEmpty, ← Audit.getLines_filter, List.filterMap_filter]
  unfold loadTransitions
  congr 1
  funext line
  by_cases hl : line = [] <;> simp [hl]

theorem stateToString_ascii (s : AgentState) : (stateToString s).all (· < 128) = true := by
  cases s <;> decide

theorem json_dumps (hdumps : codec.ThrowsOnText) (t : Transition) (hs : Text codec t.session)
    (ht : Text codec t.timestamp) : (codec.dump t.json).isSome ↔ Text codec t.agent := by
  have hstate : ∀ s, (codec.dump (.str (stateToString s))).isSome := fun s =>
    hdumps.ascii_dumps _ (stateToString_ascii s)
  have hkey : ∀ s : Bytes, s.all (· < 128) = true → (codec.dump (.str s)).isSome :=
    hdumps.ascii_dumps
  rw [json_members, hdumps.obj_iff rfl]
  constructor
  · intro h
    exact (h (ascii "agent", .str t.agent) (by simp)).2
  · intro ha m hm
    simp only [List.mem_cons, List.not_mem_nil, or_false] at hm
    rcases hm with rfl | rfl | rfl | rfl | rfl
    · exact ⟨hkey (ascii "agent") (by decide), ha⟩
    · exact ⟨hkey (ascii "from") (by decide), hstate _⟩
    · exact ⟨hkey (ascii "session") (by decide), hs⟩
    · exact ⟨hkey (ascii "state") (by decide), hstate _⟩
    · exact ⟨hkey (ascii "ts") (by decide), ht⟩

theorem newTransition_text (hdumps : codec.ThrowsOnText) (m : Manager) (agent : Bytes)
    (newState : AgentState) (session : Bytes) (now : Int) (h : Text codec session) :
    Text codec (newTransition m agent newState session now).session ∧
      Text codec (newTransition m agent newState session now).timestamp := by
  constructor
  · simp only [newTransition]
    split
    · exact hdumps.ascii_dumps _ (by decide)
    · exact h
  · apply hdumps.ascii_dumps
    rw [List.all_eq_true]
    intro b hb
    simpa [UInt8.lt_iff_toNat_lt] using Clock.isoTime_ascii now b hb

end

/-! ## The state files -/

def logName : Bytes := ascii "transitions.jsonl"

theorem name_logName : Name logName := by decide

theorem name_stateName (agent : Bytes) (hne : agent ≠ []) (hslash : ch '/' ∉ agent)
    (hnul : 0 ∉ agent) : Name (stateName agent) := by
  have hlen : 2 < (stateName agent).length := by
    have h6 : (ascii ".state").length = 6 := by decide
    simp only [stateName, List.length_append]
    omega
  refine ⟨?_, ?_, ?_, ?_, ?_⟩
  · simp [stateName, hne]
  · unfold stateName
    rw [List.mem_append, not_or]
    exact ⟨hslash, by decide⟩
  · unfold stateName
    rw [List.mem_append, not_or]
    exact ⟨hnul, by decide⟩
  · intro h
    rw [h] at hlen
    exact absurd hlen (by decide)
  · intro h
    rw [h] at hlen
    exact absurd hlen (by decide)

theorem stateName_injective (a b : Bytes) (h : stateName a = stateName b) : a = b :=
  List.append_cancel_right h

theorem stateName_ne_log (agent : Bytes) : stateName agent ≠ logName := by
  intro h
  have hlast := congrArg List.getLast? h
  have hstate : (ascii ".state").getLast? = some (ch 'e') := by decide
  rw [stateName, List.getLast?_append, hstate, Option.some_or] at hlast
  exact absurd hlast (by decide)

/-- The state that a new process finds in the file of an agent. -/
def stateOf (tree : Tree) (place : Place) (agent : Bytes) : AgentState :=
  ((nodeAt tree (place ++ [stateName agent])).map readState).getD .idle

theorem loadState_apply (states : Bytes → Option AgentState) (entry : Bytes × Node) (agent : Bytes)
    (hne : agent ≠ []) :
    loadState states entry agent =
      if entry.1 = stateName agent then some (readState entry.2) else states agent := by
  have hiff : (extension entry.1 = ascii ".state" ∧ stem entry.1 = agent) ↔
      entry.1 = stateName agent :=
    extension_eq_iff entry.1 agent (ascii "state") hne (by decide) (by decide)
  unfold loadState
  by_cases hn : entry.1 = stateName agent
  · obtain ⟨hext, hstem⟩ := hiff.mpr hn
    rw [if_pos hn, if_pos hext, hstem, Function.update_self]
  · rw [if_neg hn]
    split
    · rename_i hext
      rw [Function.update_of_ne]
      rintro rfl
      exact hn (hiff.mp ⟨hext, rfl⟩)
    · rfl

theorem foldl_loadState_not_mem (order : List (Bytes × Node)) (states : Bytes → Option AgentState)
    (agent : Bytes) (hne : agent ≠ []) (h : stateName agent ∉ order.map (·.1)) :
    order.foldl loadState states agent = states agent := by
  induction order generalizing states with
  | nil => rfl
  | cons entry rest ih =>
    rw [List.map_cons, List.mem_cons, not_or] at h
    rw [List.foldl_cons, ih _ h.2, loadState_apply _ _ _ hne, if_neg (Ne.symm h.1)]

theorem foldl_loadState_mem (order : List (Bytes × Node)) (states : Bytes → Option AgentState)
    (agent : Bytes) (node : Node) (hne : agent ≠ []) (hnodup : (order.map (·.1)).Nodup)
    (h : (stateName agent, node) ∈ order) :
    order.foldl loadState states agent = some (readState node) := by
  induction order generalizing states with
  | nil => cases h
  | cons entry rest ih =>
    rw [List.map_cons, List.nodup_cons] at hnodup
    rw [List.foldl_cons]
    rcases List.mem_cons.mp h with rfl | hrest
    · rw [foldl_loadState_not_mem rest _ agent hne hnodup.1, loadState_apply _ _ _ hne, if_pos rfl]
    · exact ih _ hnodup.2 hrest

theorem getState_load (codec : JsonCodec) (cfg : Config) (tree : Tree) (place : Place)
    (order : List (Bytes × Node)) (horder : order.Perm (list tree place)) (agent : Bytes)
    (hne : agent ≠ []) :
    getState (loadFromDisk codec cfg tree order) agent = stateOf tree place agent := by
  have hnodup : (order.map (·.1)).Nodup := (horder.map (·.1)).nodup_iff.mpr (nodup_list tree place)
  unfold getState loadFromDisk stateOf
  dsimp only
  cases hn : nodeAt tree (place ++ [stateName agent]) with
  | none =>
    rw [foldl_loadState_not_mem order _ agent hne]
    · rfl
    · intro hmem
      obtain ⟨⟨name, node⟩, hin, rfl⟩ := List.mem_map.mp hmem
      have := (mem_list tree place _ node).mp (horder.mem_iff.mp hin)
      rw [hn] at this
      cases this
  | some node =>
    have hin := horder.mem_iff.mpr ((mem_list tree place _ node).mpr hn)
    rw [foldl_loadState_mem order _ agent node hne hnodup hin]
    rfl

/-! ## The invariant -/

section

variable (codec : JsonCodec) (cfg : Config) (place : Place)

/-- The directory, and the transitions that its log holds. -/
structure Books (tree : Tree) (ts : List Transition) : Prop where
  located : locate tree cfg.cwd cfg.lifecycleDir = some place
  dir : nodeAt tree place = some .dir
  log_file : nodeAt tree (place ++ [logName]) ≠ some .dir
  state_file : ∀ agent, nodeAt tree (place ++ [stateName agent]) ≠ some .dir
  reads : Lines.Reads (readTransition codec) (contentAt tree (place ++ [logName])) ts
  text : ∀ t ∈ ts, Text codec t.agent
  chained : ∀ agent, Chained .idle (recorded ts agent)

/-- File, log and memory agree on an agent. -/
structure Settled (tree : Tree) (m : Manager) (ts : List Transition) (agent : Bytes) : Prop where
  file : stateOf tree place agent = lastTo (recorded ts agent)
  memory : Text codec agent → getState m agent = lastTo (recorded ts agent)

/-- How far the files are behind the memory while a call runs. -/
def Behind (tree : Tree) (ts : List Transition) (t : Transition) : Phase → Prop
  | .openLog | .writeLog =>
    Text codec t.session ∧ Text codec t.timestamp ∧
      stateOf tree place t.agent = lastTo (recorded ts t.agent) ∧
      (Text codec t.agent → t.fromState = lastTo (recorded ts t.agent))
  | .openState =>
    stateOf tree place t.agent = t.fromState ∧ lastTo (recorded ts t.agent) = t.toState
  | .writeState => stateOf tree place t.agent = .idle ∧ lastTo (recorded ts t.agent) = t.toState

structure Active (tree : Tree) (m : Manager) (ts : List Transition) (call : Call) : Prop where
  ne_nil : call.t.agent ≠ []
  no_slash : ch '/' ∉ call.t.agent
  no_nul : 0 ∉ call.t.agent
  allowed : call.t.toState ∈ validTransitions call.t.fromState
  memory : getState m call.t.agent = call.t.toState
  others : ∀ agent, agent ≠ [] → agent ≠ call.t.agent → Settled codec place tree m ts agent
  behind : Behind codec place tree ts call.t call.phase

def Consistent (tree : Tree) (m : Manager) (ts : List Transition) : Option Call → Prop
  | none => ∀ agent, agent ≠ [] → Settled codec place tree m ts agent
  | some call => Active codec place tree m ts call

def Inv (sys : System) : Prop :=
  ∃ ts, Books codec cfg place sys.tree ts ∧ Consistent codec place sys.tree sys.manager ts sys.call

end

/-! ## What the file operations change -/

section

variable {codec : JsonCodec} {cfg : Config} {place : Place} {tree : Tree} {ts : List Transition}

theorem lifecycleDir_text (cfg : Config) : 0 ∉ cfg.lifecycleDir :=
  appendPath_text _ _ cfg.dataDir_text (by decide)

theorem edited_log (h : Books codec cfg place tree ts) (change : Bytes → Bytes) :
    edited cfg tree cfg.transitionsFile change =
      tree.insert (place ++ [logName]) (.file (change (contentAt tree (place ++ [logName])))) := by
  have hl := locate_name (lifecycleDir_text cfg) h.located h.dir name_logName
  unfold edited
  rw [show cfg.transitionsFile = appendPath cfg.lifecycleDir logName from rfl,
    edit_eq tree cfg.cwd _ _ change hl h.log_file]
  rfl

theorem edited_state (h : Books codec cfg place tree ts) (agent content : Bytes)
    (hn : Name (stateName agent)) :
    edited cfg tree (cfg.stateFile agent) (fun _ => content) =
      tree.insert (place ++ [stateName agent]) (.file content) := by
  have hl := locate_name (lifecycleDir_text cfg) h.located h.dir hn
  unfold edited
  rw [show cfg.stateFile agent = appendPath cfg.lifecycleDir (stateName agent) from rfl,
    edit_eq tree cfg.cwd _ _ _ hl (h.state_file agent)]
  rfl

theorem child_ne (name other : Bytes) (h : other ≠ name) : place ++ [other] ≠ place ++ [name] := by
  simpa using h

theorem contentAt_insert (tree : Tree) (place : Place) (name content : Bytes) :
    contentAt (tree.insert (place ++ [name]) (.file content)) (place ++ [name]) = content := by
  unfold contentAt
  rw [nodeAt_insert _ _ _ (by simp)]

theorem not_dir_insert (tree : Tree) (name other content : Bytes)
    (h : nodeAt tree (place ++ [other]) ≠ some .dir) :
    nodeAt (tree.insert (place ++ [name]) (.file content)) (place ++ [other]) ≠ some .dir := by
  by_cases hn : other = name
  · subst hn
    rw [nodeAt_insert _ _ _ (by simp)]
    simp
  · rw [nodeAt_insert_ne _ _ _ _ (child_ne name other hn)]
    exact h

theorem dir_insert (tree : Tree) (name content : Bytes) (h : nodeAt tree place = some .dir) :
    nodeAt (tree.insert (place ++ [name]) (.file content)) place = some .dir := by
  rw [nodeAt_insert_ne]
  · exact h
  · simp

theorem Books.insert_log (h : Books codec cfg place tree ts) (content : Bytes)
    (ts' : List Transition) (hreads : Lines.Reads (readTransition codec) content ts')
    (htext : ∀ t ∈ ts', Text codec t.agent) (hchain : ∀ agent, Chained .idle (recorded ts' agent)) :
    Books codec cfg place (tree.insert (place ++ [logName]) (.file content)) ts' where
  located := locate_grows (grows_insert _ _ _ h.log_file) h.located
  dir := dir_insert _ _ _ h.dir
  log_file := not_dir_insert _ _ _ _ h.log_file
  state_file agent := not_dir_insert _ _ _ _ (h.state_file agent)
  reads := by
    rw [contentAt_insert]
    exact hreads
  text := htext
  chained := hchain

theorem contentAt_insert_ne (tree : Tree) (name other content : Bytes) (h : other ≠ name) :
    contentAt (tree.insert (place ++ [name]) (.file content)) (place ++ [other]) =
      contentAt tree (place ++ [other]) := by
  unfold contentAt
  rw [nodeAt_insert_ne _ _ _ _ (child_ne name other h)]

theorem Books.insert_state (h : Books codec cfg place tree ts) (agent content : Bytes) :
    Books codec cfg place (tree.insert (place ++ [stateName agent]) (.file content)) ts where
  located := locate_grows (grows_insert _ _ _ (h.state_file agent)) h.located
  dir := dir_insert _ _ _ h.dir
  log_file := not_dir_insert _ _ _ _ h.log_file
  state_file other := not_dir_insert _ _ _ _ (h.state_file other)
  reads := by
    rw [contentAt_insert_ne _ _ _ _ (Ne.symm (stateName_ne_log agent))]
    exact h.reads
  text := h.text
  chained := h.chained

theorem stateOf_insert_log (tree : Tree) (content agent : Bytes) :
    stateOf (tree.insert (place ++ [logName]) (.file content)) place agent =
      stateOf tree place agent := by
  unfold stateOf
  rw [nodeAt_insert_ne _ _ _ _ (child_ne logName _ (stateName_ne_log agent))]

theorem stateOf_insert_self (tree : Tree) (content agent : Bytes) :
    stateOf (tree.insert (place ++ [stateName agent]) (.file content)) place agent =
      readState (.file content) := by
  unfold stateOf
  rw [nodeAt_insert _ _ _ (by simp)]
  rfl

theorem stateOf_insert_ne (tree : Tree) (content agent other : Bytes) (h : other ≠ agent) :
    stateOf (tree.insert (place ++ [stateName agent]) (.file content)) place other =
      stateOf tree place other := by
  unfold stateOf
  rw [nodeAt_insert_ne _ _ _ _ (child_ne _ _ (fun he => h (stateName_injective _ _ he)))]

end

/-! ## Steps -/

section

variable {codec : JsonCodec} {cfg : Config} {place : Place} {sys : System}

theorem Settled.of_eq {tree tree' : Tree} {m m' : Manager} {ts ts' : List Transition}
    {agent : Bytes} (h : Settled codec place tree m ts agent)
    (hfile : stateOf tree' place agent = stateOf tree place agent)
    (hmem : getState m' agent = getState m agent) (hlog : recorded ts' agent = recorded ts agent) :
    Settled codec place tree' m' ts' agent where
  file := by rw [hfile, hlog, h.file]
  memory ht := by rw [hmem, hlog, h.memory ht]

theorem begin_inv (hdumps : codec.ThrowsOnText) (agent : AgentName) (newState : AgentState)
    (session : Bytes) (now : Int) (h : Inv codec cfg place sys) (hcall : sys.call = none)
    (hnul : 0 ∉ agent.text) (hs : Text codec session) :
    Inv codec cfg place (beginTransition sys agent.text newState session now) := by
  obtain ⟨ts, hbooks, hcons⟩ := h
  unfold beginTransition
  split
  · rename_i hallowed
    rw [hcall] at hcons
    have hsettled := hcons agent.text agent.ne_nil
    obtain ⟨hsession, htime⟩ :=
      newTransition_text hdumps sys.manager agent.text newState session now hs
    refine ⟨ts, hbooks, ?_⟩
    exact
      { ne_nil := agent.ne_nil
        no_slash := agent.no_slash
        no_nul := hnul
        allowed := hallowed
        memory := by simp [getState, newTransition]
        -- The memory is ahead of both files from now on, but for this agent only.
        others := by
          intro other hne hother
          have hkept : Function.update sys.manager.states agent.text (some newState) other =
              sys.manager.states other :=
            Function.update_of_ne hother _ _
          refine (hcons other hne).of_eq rfl ?_ rfl
          unfold getState
          dsimp only
          rw [hkept]
        behind := ⟨hsession, htime, hsettled.file, hsettled.memory⟩ }
  · exact ⟨ts, hbooks, hcons⟩

section

variable {m : Manager} {ts : List Transition} {t : Transition} {tree : Tree}

theorem openLog_inv (hbooks : Books codec cfg place tree ts)
    (h : Active codec place tree m ts ⟨t, .openLog⟩) :
    Inv codec cfg place (writeStep codec cfg ⟨tree, m, some ⟨t, .openLog⟩⟩ ⟨t, .openLog⟩) := by
  refine ⟨ts, ?_, ?_⟩
  · simp only [writeStep]
    rw [edited_log hbooks]
    exact hbooks.insert_log _ ts hbooks.reads hbooks.text hbooks.chained
  · simp only [writeStep]
    rw [edited_log hbooks]
    obtain ⟨hsession, htime, hfile, hfrom⟩ := h.behind
    exact
      { ne_nil := h.ne_nil
        no_slash := h.no_slash
        no_nul := h.no_nul
        allowed := h.allowed
        memory := h.memory
        others := fun other hne hother => (h.others other hne hother).of_eq
          (stateOf_insert_log _ _ _) rfl rfl
        behind := ⟨hsession, htime, by rw [stateOf_insert_log]; exact hfile, hfrom⟩ }

theorem writeLog_throws (hdumps : codec.ThrowsOnText) (hbooks : Books codec cfg place tree ts)
    (h : Active codec place tree m ts ⟨t, .writeLog⟩) (hdump : codec.dump t.json = none) :
    Inv codec cfg place ⟨tree, m, none⟩ := by
  obtain ⟨hsession, htime, hfile, -⟩ := h.behind
  have hagent : ¬ Text codec t.agent := by
    rw [← json_dumps hdumps t hsession htime, hdump]
    simp
  refine ⟨ts, hbooks, ?_⟩
  intro agent hne
  by_cases heq : agent = t.agent
  · subst heq
    exact ⟨hfile, fun ht => absurd ht hagent⟩
  · exact h.others agent hne heq

theorem writeLog_books (hdumps : codec.ThrowsOnText) (hbooks : Books codec cfg place tree ts)
    (h : Active codec place tree m ts ⟨t, .writeLog⟩) (line : Bytes)
    (hdump : codec.dump t.json = some line) :
    Books codec cfg place
      (edited cfg tree cfg.transitionsFile (· ++ (line ++ [ch '\n']))) (ts ++ [t]) := by
  obtain ⟨hsession, htime, -, hfrom⟩ := h.behind
  have hagent : Text codec t.agent := by
    rw [← json_dumps hdumps t hsession htime, hdump]
    rfl
  rw [edited_log hbooks]
  refine hbooks.insert_log _ _ ?_ ?_ ?_
  · exact hbooks.reads.append line t ⟨codec.dump_ne_nil _ _ hdump, codec.dump_one_line _ _ hdump⟩
      (readTransition_dump t line hdump)
  · intro u hu
    rcases List.mem_append.mp hu with hu | hu
    · exact hbooks.text u hu
    · rw [List.mem_singleton.mp hu]
      exact hagent
  · intro agent
    rw [recorded_append]
    split
    · rename_i heq
      subst heq
      exact chained_append _ _ _ (hbooks.chained _) (hfrom hagent) h.allowed
    · exact hbooks.chained agent

theorem writeLog_inv (hdumps : codec.ThrowsOnText) (hbooks : Books codec cfg place tree ts)
    (h : Active codec place tree m ts ⟨t, .writeLog⟩) :
    Inv codec cfg place (writeStep codec cfg ⟨tree, m, some ⟨t, .writeLog⟩⟩ ⟨t, .writeLog⟩) := by
  simp only [writeStep]
  cases hdump : codec.dump t.json with
  | none => exact writeLog_throws hdumps hbooks h hdump
  | some line =>
    obtain ⟨hsession, htime, hfile, hfrom⟩ := h.behind
    have hagent : Text codec t.agent := by
      rw [← json_dumps hdumps t hsession htime, hdump]
      rfl
    refine ⟨ts ++ [t], writeLog_books hdumps hbooks h line hdump, ?_⟩
    simp only
    rw [edited_log hbooks]
    exact
      { ne_nil := h.ne_nil
        no_slash := h.no_slash
        no_nul := h.no_nul
        allowed := h.allowed
        memory := h.memory
        others := by
          intro other hne hother
          refine (h.others other hne hother).of_eq (stateOf_insert_log _ _ _) rfl ?_
          rw [recorded_append, if_neg (Ne.symm hother)]
        -- The log is one line ahead of the state file: in this phase a stop does harm.
        behind := by
          refine ⟨?_, ?_⟩
          · rw [stateOf_insert_log, hfrom hagent]
            exact hfile
          · rw [recorded_append, if_pos rfl, lastTo_append] }

theorem openState_inv (hbooks : Books codec cfg place tree ts)
    (h : Active codec place tree m ts ⟨t, .openState⟩) :
    Inv codec cfg place (writeStep codec cfg ⟨tree, m, some ⟨t, .openState⟩⟩ ⟨t, .openState⟩) := by
  have hname := name_stateName t.agent h.ne_nil h.no_slash h.no_nul
  simp only [writeStep]
  rw [edited_state hbooks t.agent [] hname]
  refine ⟨ts, hbooks.insert_state t.agent [], ?_⟩
  exact
    { ne_nil := h.ne_nil
      no_slash := h.no_slash
      no_nul := h.no_nul
      allowed := h.allowed
      memory := h.memory
      others := fun other hne hother => (h.others other hne hother).of_eq
        (stateOf_insert_ne _ _ _ _ hother) rfl rfl
      behind := ⟨by rw [stateOf_insert_self, readState_empty], h.behind.2⟩ }

theorem writeState_inv (hbooks : Books codec cfg place tree ts)
    (h : Active codec place tree m ts ⟨t, .writeState⟩) :
    Inv codec cfg place (writeStep codec cfg ⟨tree, m, some ⟨t, .writeState⟩⟩ ⟨t,
      .writeState⟩) := by
  have hname := name_stateName t.agent h.ne_nil h.no_slash h.no_nul
  simp only [writeStep]
  rw [edited_state hbooks t.agent _ hname, h.memory]
  refine ⟨ts, hbooks.insert_state t.agent _, ?_⟩
  intro agent hne
  by_cases heq : agent = t.agent
  · subst heq
    constructor
    · rw [stateOf_insert_self, readState_toString]
      exact h.behind.2.symm
    · intro _
      exact h.memory.trans h.behind.2.symm
  · exact (h.others agent hne heq).of_eq (stateOf_insert_ne _ _ _ _ heq) rfl rfl

end

theorem write_inv (hdumps : codec.ThrowsOnText) (h : Inv codec cfg place sys) (sys' : System)
    (hstep : step codec cfg sys .write = some sys') : Inv codec cfg place sys' := by
  obtain ⟨tree, m, call⟩ := sys
  obtain ⟨ts, hbooks, hcons⟩ := h
  obtain ⟨call, rfl, rfl⟩ := Option.map_eq_some_iff.mp hstep
  obtain ⟨t, phase⟩ := call
  cases phase with
  | openLog => exact openLog_inv hbooks hcons
  | writeLog => exact writeLog_inv hdumps hbooks hcons
  | openState => exact openState_inv hbooks hcons
  | writeState => exact writeState_inv hbooks hcons

/-! ## Stops -/

theorem stop_cases (order : List (Bytes × Node)) (sys' : System)
    (h : step codec cfg sys (.stop order) = some sys') :
    order.Perm (listing cfg sys.tree) ∧
      sys' = { sys with manager := loadFromDisk codec cfg sys.tree order, call := none } := by
  simp only [step] at h
  split at h
  · exact ⟨by assumption, (Option.some.inj h).symm⟩
  · cases h

variable {ts : List Transition} {order : List (Bytes × Node)}

theorem loaded_state (hbooks : Books codec cfg place sys.tree ts)
    (horder : order.Perm (listing cfg sys.tree)) (agent : Bytes) (hne : agent ≠ []) :
    getState (loadFromDisk codec cfg sys.tree order) agent = stateOf sys.tree place agent := by
  apply getState_load codec cfg sys.tree place order _ agent hne
  simpa [listing, hbooks.located] using horder

theorem loaded_history (hbooks : Books codec cfg place sys.tree ts) (order : List (Bytes × Node))
    (agent : Bytes) :
    history (loadFromDisk codec cfg sys.tree order) agent = recorded ts agent := by
  have hl := locate_name (lifecycleDir_text cfg) hbooks.located hbooks.dir name_logName
  have hcontent : logContent cfg sys.tree = contentAt sys.tree (place ++ [logName]) := by
    unfold logContent
    rw [show cfg.transitionsFile = appendPath cfg.lifecycleDir logName from rfl, hl]
  unfold history loadFromDisk recorded
  simp only
  rw [hcontent, loadTransitions_reads _ _ hbooks.reads]

theorem coherent_load_iff (hbooks : Books codec cfg place sys.tree ts)
    (horder : order.Perm (listing cfg sys.tree)) :
    Coherent (loadFromDisk codec cfg sys.tree order) ↔
      ∀ agent : AgentName, stateOf sys.tree place agent.text = lastTo (recorded ts agent.text) := by
  unfold Coherent
  constructor
  · intro h agent
    rw [← loaded_state hbooks horder _ agent.ne_nil, (h agent).1, loaded_history hbooks]
  · intro h agent
    rw [loaded_state hbooks horder _ agent.ne_nil, loaded_history hbooks]
    exact ⟨h agent, hbooks.chained _⟩

/-- Where the files stand in each phase of a call decides what a stop leaves. -/
theorem files_end_iff (hcons : Consistent codec place sys.tree sys.manager ts sys.call) :
    (∀ agent : AgentName, stateOf sys.tree place agent.text = lastTo (recorded ts agent.text)) ↔
      Sound codec sys (.stop order) := by
  cases hcall : sys.call with
  | none =>
    rw [hcall] at hcons
    constructor
    · intro _ call hc
      rw [hcall] at hc
      cases hc
    · intro _ agent
      exact (hcons _ agent.ne_nil).file
  | some call =>
    rw [hcall] at hcons
    obtain ⟨t, phase⟩ := call
    have hothers : ∀ agent : AgentName, agent.text ≠ t.agent →
        stateOf sys.tree place agent.text = lastTo (recorded ts agent.text) := fun agent hne =>
      (hcons.others _ agent.ne_nil hne).file
    -- Only the agent of the running call can be out of step.
    have hiff : (∀ agent : AgentName,
        stateOf sys.tree place agent.text = lastTo (recorded ts agent.text)) ↔
        stateOf sys.tree place t.agent = lastTo (recorded ts t.agent) := by
      constructor
      · intro h
        exact h ⟨t.agent, hcons.ne_nil, hcons.no_slash⟩
      · intro h agent
        by_cases heq : agent.text = t.agent
        · rw [heq, h]
        · exact hothers agent heq
    rw [hiff]
    simp only [Sound, hcall, Option.mem_def, Option.some.injEq, forall_eq']
    have hbehind := hcons.behind
    cases phase with
    | openLog => exact ⟨fun _ => ⟨by simp, by simp⟩, fun _ => hbehind.2.2.1⟩
    | writeLog => exact ⟨fun _ => ⟨by simp, by simp⟩, fun _ => hbehind.2.2.1⟩
    -- The old state is still in its file, and no transition leads to the state itself.
    | openState =>
      rw [hbehind.1, hbehind.2]
      exact ⟨fun h => absurd h (validTransitions_ne _ _ hcons.allowed), fun h => absurd rfl h.1⟩
    | writeState =>
      rw [hbehind.1, hbehind.2]
      exact ⟨fun h => ⟨by simp, fun _ => h.symm⟩, fun h => (h.2 rfl).symm⟩

theorem stop_inv (h : Inv codec cfg place sys) (sys' : System) (hok : Sound codec sys (.stop order))
    (hstep : step codec cfg sys (.stop order) = some sys') : Inv codec cfg place sys' := by
  obtain ⟨ts, hbooks, hcons⟩ := h
  obtain ⟨horder, rfl⟩ := stop_cases order sys' hstep
  refine ⟨ts, hbooks, ?_⟩
  intro agent hne
  have hfile : stateOf sys.tree place agent = lastTo (recorded ts agent) := by
    by_cases hslash : ch '/' ∈ agent
    · cases hcall : sys.call with
      | none =>
        rw [hcall] at hcons
        exact (hcons agent hne).file
      | some call =>
        rw [hcall] at hcons
        apply (hcons.others agent hne _).file
        rintro rfl
        exact hcons.no_slash hslash
    · exact (files_end_iff hcons).mpr hok ⟨agent, hne, hslash⟩
  exact ⟨hfile, fun _ => (loaded_state hbooks horder agent hne).trans hfile⟩

theorem step_inv (hdumps : codec.ThrowsOnText) (h : Inv codec cfg place sys) (e : Event)
    (sys' : System) (hok : Sound codec sys e) (hstep : step codec cfg sys e = some sys') :
    Inv codec cfg place sys' := by
  cases e with
  | transition agent newState session now =>
    simp only [step] at hstep
    split at hstep
    · rename_i hcall
      rw [← Option.some.inj hstep]
      exact begin_inv hdumps agent newState session now h hcall hok.1 hok.2
    · cases hstep
  | write => exact write_inv hdumps h sys' hstep
  | stop order => exact stop_inv h sys' hok hstep

end

theorem start_inv (codec : JsonCodec) (cfg : Config) (tree : Tree) (sys : System)
    (h : start cfg tree = some sys) (hnew : listing cfg sys.tree = []) :
    ∃ place, Inv codec cfg place sys := by
  obtain ⟨tree', hmake, rfl⟩ := Option.map_eq_some_iff.mp h
  obtain ⟨-, place, hl, hd⟩ := createDirectories_spec hmake
  have hempty : ∀ name, nodeAt tree' (place ++ [name]) = none := by
    intro name
    cases hn : nodeAt tree' (place ++ [name]) with
    | none => rfl
    | some node =>
      have hmem := (mem_list tree' place name node).mpr hn
      simp only [listing, hl] at hnew
      rw [hnew] at hmem
      cases hmem
  refine ⟨place, [], ?_, ?_⟩
  · exact
      { located := hl
        dir := hd
        log_file := by simp [hempty]
        state_file := by simp [hempty]
        reads := by
          have hc : contentAt tree' (place ++ [logName]) = [] := by simp [contentAt, hempty]
          rw [hc]
          exact Lines.Reads.empty
        text := by simp
        chained := fun _ => trivial }
  · intro agent _
    exact ⟨by simp [stateOf, hempty, recorded, lastTo], fun _ => rfl⟩

/-- After calls and stops that keep the files in step, a restart is coherent exactly when the stop
before it does not fall between a line of the log and its state file. -/
theorem restart_coherent_iff (codec : JsonCodec) (hdumps : codec.ThrowsOnText) (cfg : Config)
    (tree : Tree) (first sys sys' : System) (hstart : start cfg tree = some first)
    (hnew : listing cfg first.tree = [])
    (hrun : Trace.Reaches (step codec cfg) (Sound codec) first sys) (order : List (Bytes × Node))
    (hstop : step codec cfg sys (.stop order) = some sys') :
    Coherent sys'.manager ↔ Sound codec sys (.stop order) := by
  obtain ⟨place, hfirst⟩ := start_inv codec cfg tree first hstart hnew
  obtain ⟨ts, hbooks, hcons⟩ := hrun.keeps (Inv codec cfg place) hfirst
    fun s e s' hinv hok hnext => step_inv hdumps hinv e s' hok hnext
  obtain ⟨horder, rfl⟩ := stop_cases order sys' hstop
  rw [coherent_load_iff hbooks horder]
  exact files_end_iff hcons

/-! ## Two runs -/

def sampleConfig : Config where
  dataDir := ascii "/d"
  cwd := []
  dataDir_text := by decide

def sampleFirst : System where
  tree := ((∅ : Tree).insert [ascii "d"] .dir).insert [ascii "d", ascii "lifecycle"] .dir
  manager := { states := fun _ => none, transitions := [] }
  call := none

theorem start_sample : start sampleConfig ∅ = some sampleFirst := by rfl

def sampleAgent : AgentName where
  text := ascii "a"
  ne_nil := by decide
  no_slash := by decide

/-- One transition, cut off after `writes` file operations. -/
def sampleEvents (writes : Nat) : List Event :=
  .transition sampleAgent .ready [] 0 :: List.replicate writes .write

def sampleRun (ok : System → Event → Prop) [∀ s e, Decidable (ok s e)] (writes : Nat) :
    Option System :=
  Trace.run (step Json.textCodec sampleConfig) ok sampleFirst (sampleEvents writes)

def reload (sys : System) : Manager :=
  loadFromDisk Json.textCodec sampleConfig sys.tree (listing sampleConfig sys.tree)

theorem stop_sample (sys : System) :
    step Json.textCodec sampleConfig sys (.stop (listing sampleConfig sys.tree)) =
      some { sys with manager := reload sys, call := none } := by
  simp [step, reload]

theorem restart_after_whole_call :
    ∃ sys, Trace.Reaches (step Json.textCodec sampleConfig) (Sound Json.textCodec) sampleFirst sys ∧
      Coherent (reload sys) ∧ getState (reload sys) (ascii "a") = .ready := by
  have hval : (sampleRun (Sound Json.textCodec) 4).map
      (fun sys => (sys.call, getState (reload sys) (ascii "a"))) =
      some (none, .ready) := by decide +kernel
  obtain ⟨sys, hrun, hstate⟩ := Option.map_eq_some_iff.mp hval
  simp only [Prod.mk.injEq] at hstate
  have hreach := Trace.Reaches.of_run (sampleEvents 4) .start hrun
  have hok : Sound Json.textCodec sys (.stop (listing sampleConfig sys.tree)) := by
    intro call hcall
    rw [hstate.1] at hcall
    cases hcall
  exact ⟨sys, hreach,
    (restart_coherent_iff Json.textCodec Json.textCodec_throwsOnText sampleConfig ∅
      sampleFirst sys _
    start_sample (by decide) hreach _ (stop_sample sys)).mpr hok, hstate.2⟩

theorem restart_forgets_transition :
    ¬ ∀ (codec : JsonCodec) (_ : codec.ThrowsOnText) (cfg : Config) (tree : Tree) (first sys sys' :
      System), start cfg tree = some first → listing cfg first.tree = [] →
      Trace.Reaches (step codec cfg) (fun _ _ => True) first sys →
      ∀ order, step codec cfg sys (.stop order) = some sys' → Coherent sys'.manager := by
  -- The process stops between the line in the log and the state file.
  intro hclaim
  have hval : (sampleRun (fun _ _ => True) 2).map (fun sys =>
      (getState (reload sys) (ascii "a"), lastTo (history (reload sys) (ascii "a")))) =
        some (.idle, .ready) := by
    decide +kernel
  obtain ⟨sys, hrun, hstate⟩ := Option.map_eq_some_iff.mp hval
  have hreach := Trace.Reaches.of_run (sampleEvents 2) .start hrun
  have h := (hclaim Json.textCodec Json.textCodec_throwsOnText sampleConfig ∅ sampleFirst sys _
    start_sample
    (by decide) hreach _ (stop_sample sys) sampleAgent).1
  simp only [Prod.mk.injEq] at hstate
  have hagent : sampleAgent.text = ascii "a" := rfl
  rw [hagent, hstate.1, hstate.2] at h
  cases h

end Euxis.Lifecycle
