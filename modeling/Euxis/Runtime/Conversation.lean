import Mathlib.Data.List.Forall2
import Euxis.Runtime.AgentLoop
import Euxis.Runtime.Interaction
import Euxis.Session.Proofs

/-!
# Sessions that are saved and loaded

`libs/runtime/src/agent_session.cpp` and `tool_registry.cpp` as a whole: agents send messages,
switch models and branches, and keep their conversations in one session store, which may be the one
in memory or the one on disk.
-/

namespace Euxis.Runtime.Conversation

open Session

/-! ## Tools -/

structure ToolDeclaration where
  name : Bytes
  description : Bytes
  inputSchema : Json

/-- `InMemoryToolRegistry`, the declarations by name. -/
abbrev Tools := AList fun _ : Bytes => ToolDeclaration

def registerTool (tools : Tools) (decl : ToolDeclaration) : Tools := tools.insert decl.name decl

def removeTool (tools : Tools) (name : Bytes) : Tools := tools.erase name

/-! ## The interfaces -/

/-- `ISessionStore`, as far as a session uses it. -/
structure Store (σ : Type) where
  save : σ → SessionSnapshot → σ × Except Failure Unit
  load : σ → Bytes → Bytes → Except Failure SessionSnapshot

def memoryStore : Store Sessions :=
  ⟨fun sessions snapshot => (Memory.save sessions snapshot, .ok ()), Memory.load⟩

def fileStore (mp : Msgpack) (cfg : Config) : Store Files.Tree :=
  ⟨File.save mp cfg, File.load mp cfg⟩

/-- `IProvider`, with a state of its own, and the order in which the hash map of tools is walked. -/
structure Setting (π : Type) where
  switchModel : π → ModelSpec → Bool × π
  execute : π → ModelSpec → Bytes → AgentLoop.ProviderResponse × π
  walk : Tools → List ToolDeclaration

/-! ## One session -/

inductive SessionEvent where
  | messageSent
  | responseReceived
  | modelSwitched
  | branchCreated
  | sessionSaved
  | sessionLoaded
  deriving DecidableEq

/-- `delivered` keeps account of what each handler was called with. -/
structure AgentSession where
  sessionId : Bytes
  agentId : Bytes
  branchId : Bytes := mainBranch
  systemPrompt : Bytes := []
  systemContext : Bytes := []
  hasStore : Bool := true
  tools : Tools := ∅
  currentModel : ModelSpec
  messages : List SessionMessage := []
  handlers : Nat := 0
  delivered : List (Nat × SessionEvent × Bytes) := []

def label : Session.Role → Bytes
  | .user => ascii "User: "
  | .assistant => ascii "Assistant: "
  | .system => ascii "System: "

variable {π σ : Type} (setting : Setting π) (store : Store σ)

namespace AgentSession

def emit (s : AgentSession) (event : SessionEvent) (detail : Bytes := []) : AgentSession :=
  { s with
      delivered := s.delivered ++ (List.range s.handlers).map fun handler => (handler, event, detail) }

def buildContext (s : AgentSession) : Bytes :=
  let tools := setting.walk s.tools
  (if s.systemPrompt = [] then [] else s.systemPrompt ++ ascii "\n\n")
    ++ (if s.systemContext = [] then [] else s.systemContext ++ ascii "\n\n")
    ++ (if tools = [] then [] else
      ascii "Available tools:\n"
        ++ tools.flatMap (fun tool => ascii "- " ++ tool.name ++ ascii ": " ++ tool.description ++
          ascii "\n") ++ ascii "\n")
    ++ s.messages.flatMap fun msg => label msg.role ++ msg.content ++ ascii "\n\n"

def record (s : AgentSession) (role : Session.Role) (content model durationMs : Bytes) :
    AgentSession :=
  let msg : SessionMessage :=
    { role, content, agentId := s.agentId, model, timestamp := [], durationMs,
      decisionTraceHash := [] }
  { s with messages := s.messages ++ [msg] }

def send (s : AgentSession) (p : π) (message : Bytes) :
    AgentSession × π × AgentLoop.ProviderResponse :=
  let s := (s.record .user message [] (ascii "0.0")).emit .messageSent message
  let (result, p) := setting.execute p s.currentModel (s.buildContext setting)
  let s := (s.record .assistant result.output s.currentModel.model result.durationMs).emit
    .responseReceived result.output
  (s, p, result)

def appendSystemContext (s : AgentSession) (context : Bytes) : AgentSession :=
  { s with
      systemContext := (if s.systemContext = [] then [] else s.systemContext ++ ascii "\n") ++ context }

def switchModel (s : AgentSession) (p : π) (spec : ModelSpec) : AgentSession × π × Bool :=
  let (ok, p) := setting.switchModel p spec
  if ok then ({ s with currentModel := spec }.emit .modelSwitched spec.model, p, ok) else (s, p, ok)

def branch (s : AgentSession) (name : Bytes) : AgentSession :=
  { s with branchId := name }.emit .branchCreated name

def compact (s : AgentSession) (keepN : Nat) : AgentSession :=
  if s.messages.length > keepN then
    { s with messages := s.messages.drop (s.messages.length - keepN) }
  else s

def snapshot (s : AgentSession) : SessionSnapshot :=
  { sessionId := s.sessionId, branchId := s.branchId, agentId := s.agentId, messages := s.messages }

def noStore : Failure := .unexpected (ascii "No session store configured")

def save (s : AgentSession) (kept : σ) : AgentSession × σ × Except Failure Unit :=
  if !s.hasStore then (s, kept, .error noStore)
  else
    match store.save kept s.snapshot with
    | (kept, .ok ()) => (s.emit .sessionSaved, kept, .ok ())
    | (kept, .error e) => (s, kept, .error e)

def load (s : AgentSession) (kept : σ) (branch : Bytes) : AgentSession × Except Failure Unit :=
  if !s.hasStore then (s, .error noStore)
  else
    match store.load kept s.sessionId branch with
    | .error e => (s, .error e)
    | .ok snap =>
      ({ s with branchId := snap.branchId, messages := snap.messages }.emit .sessionLoaded, .ok ())

end AgentSession

/-! ## Many sessions over one store -/

/-- The calls that do not use the store. -/
inductive Own where
  | send (message : Bytes)
  | registerTool (decl : ToolDeclaration)
  | removeTool (name : Bytes)
  | setSystemPrompt (prompt : Bytes)
  | appendSystemContext (context : Bytes)
  | switchModel (spec : ModelSpec)
  | branch (name : Bytes)
  | compact (keepN : Nat)
  | onEvent

inductive Command where
  | own (call : Own)
  | save
  | load (branch : Bytes)

inductive Reply where
  | none
  | response (r : AgentLoop.ProviderResponse)
  | switched (ok : Bool)
  | done (result : Except Failure Unit)

def AgentSession.own (s : AgentSession) (p : π) : Own → AgentSession × π × Reply
  | .send message =>
    let (s, p, r) := s.send setting p message
    (s, p, .response r)
  | .registerTool decl => ({ s with tools := Conversation.registerTool s.tools decl }, p, .none)
  | .removeTool name => ({ s with tools := Conversation.removeTool s.tools name }, p, .none)
  | .setSystemPrompt prompt => ({ s with systemPrompt := prompt }, p, .none)
  | .appendSystemContext context => (s.appendSystemContext context, p, .none)
  | .switchModel spec =>
    let (s, p, ok) := s.switchModel setting p spec
    (s, p, .switched ok)
  | .branch name => (AgentSession.branch s name, p, .none)
  | .compact keepN => (s.compact keepN, p, .done (.ok ()))
  | .onEvent => ({ s with handlers := s.handlers + 1 }, p, .none)

/-- What one command does to its session, the store and the provider. -/
def AgentSession.command (s : AgentSession) (kept : σ) (p : π) :
    Command → AgentSession × σ × π × Reply
  | .own call =>
    let (s, p, reply) := s.own setting p call
    (s, kept, p, reply)
  | .save =>
    let (s, kept, result) := s.save store kept
    (s, kept, p, .done result)
  | .load branch =>
    let (s, result) := s.load store kept branch
    (s, kept, p, .done result)

structure World (σ π : Type) where
  kept : σ
  provider : π
  sessions : List AgentSession
  replies : List Reply := []

/-- A command names its session by a number; where there is none nothing happens. -/
def step (w : World σ π) (c : Nat × Command) : World σ π :=
  match w.sessions[c.1]? with
  | none => w
  | some s =>
    let (s, kept, p, reply) := s.command setting store w.kept w.provider c.2
    { kept, provider := p, sessions := w.sessions.set c.1 s, replies := w.replies ++ [reply] }

def run (w : World σ π) (commands : List (Nat × Command)) : World σ π :=
  commands.foldl (step setting store) w

/-! ## The store on disk and the store in memory -/

def Command.Named : Command → Prop
  | .own (.branch name) => BranchName name
  | .load branch => BranchName branch
  | _ => True

structure AgentSession.Named (s : AgentSession) : Prop where
  session : SessionName s.sessionId
  branch : BranchName s.branchId

/-- The same reply, up to the text of a failure. -/
def Reply.Agrees : Reply → Reply → Prop
  | .done a, .done b => a.toOption = b.toOption
  | a, b => a = b

theorem Reply.Agrees.rfl (r : Reply) : r.Agrees r := by
  cases r <;> simp [Reply.Agrees]

variable {setting store} {mp : Msgpack} {cfg : Config} {base : Files.Place} {tree : Files.Tree}
  {sessions : Sessions}

theorem own_named {s : AgentSession} (hs : s.Named) (p : π) (c : Own) (hc : (Command.own c).Named) :
    (s.own setting p c).1.Named := by
  obtain ⟨hsession, hbranch⟩ := hs
  cases c with
  | branch name => exact ⟨hsession, hc⟩
  | switchModel spec =>
    simp only [AgentSession.own, AgentSession.switchModel]
    split <;> exact ⟨hsession, hbranch⟩
  | compact keepN =>
    simp only [AgentSession.own, AgentSession.compact]
    split <;> exact ⟨hsession, hbranch⟩
  | _ => exact ⟨hsession, hbranch⟩

theorem save_noStore {s : AgentSession} {kept : σ} (hs : s.hasStore = false) :
    s.save store kept = (s, kept, .error AgentSession.noStore) := by
  simp [AgentSession.save, hs]

theorem save_stored {s : AgentSession} {kept kept' : σ} (hs : s.hasStore = true)
    (h : store.save kept s.snapshot = (kept', .ok ())) :
    s.save store kept = (s.emit .sessionSaved, kept', .ok ()) := by
  rw [AgentSession.save, if_neg (by simp [hs]), h]

/-- What a load makes of the session, given the snapshot that was found. -/
def AgentSession.restored (s : AgentSession) : Option SessionSnapshot → AgentSession
  | none => s
  | some snap => { s with branchId := snap.branchId, messages := snap.messages }.emit .sessionLoaded

theorem load_found {s : AgentSession} {kept : σ} {branch : Bytes} {found : Option SessionSnapshot}
    (hs : s.hasStore = true) (h : (store.load kept s.sessionId branch).toOption = found) :
    (s.load store kept branch).1 = s.restored found ∧
      (s.load store kept branch).2.toOption = found.map fun _ => () := by
  unfold AgentSession.load
  rw [if_neg (by simp [hs])]
  cases hload : store.load kept s.sessionId branch with
  | error e =>
    rw [hload] at h
    subst h
    exact ⟨rfl, rfl⟩
  | ok snap =>
    rw [hload] at h
    subst h
    exact ⟨rfl, rfl⟩

theorem load_noStore {s : AgentSession} {kept : σ} {branch : Bytes} (hs : s.hasStore = false) :
    s.load store kept branch = (s, .error AgentSession.noStore) := by
  simp [AgentSession.load, hs]

theorem file_load_found (h : Refines mp cfg base tree sessions) {s : AgentSession} (hs : s.Named)
    (branch : Bytes) (hb : BranchName branch) :
    ((fileStore mp cfg).load tree s.sessionId branch).toOption =
      find sessions s.sessionId branch := by
  rw [← memory_load]
  exact Session.load_agrees h s.sessionId branch hs.session hb

theorem restored_named (h : Refines mp cfg base tree sessions) {s : AgentSession} (hs : s.Named)
    (branch : Bytes) (hb : BranchName branch) :
    (s.restored (find sessions s.sessionId branch)).Named := by
  cases hfind : find sessions s.sessionId branch with
  | none => exact hs
  | some snap =>
    obtain ⟨-, -, -, hbranch⟩ := h.keys _ _ _ hfind
    exact ⟨hs.session, by rw [← hbranch] at hb; exact hb⟩

theorem command_agrees (setting : Setting π) (h : Refines mp cfg base tree sessions)
    {s : AgentSession} (hs : s.Named) (p : π) (c : Command) (hc : c.Named) :
    ∃ s' p' tree' reply sessions' reply',
      s.command setting (fileStore mp cfg) tree p c = (s', tree', p', reply) ∧
      s.command setting memoryStore sessions p c = (s', sessions', p', reply') ∧
      s'.Named ∧ Refines mp cfg base tree' sessions' ∧ reply.Agrees reply' := by
  cases c with
  | own call => exact ⟨_, _, _, _, _, _, rfl, rfl, own_named hs p call hc, h, .rfl _⟩
  | save =>
    cases hstore : s.hasStore with
    | false =>
      refine ⟨s, p, tree, .done (.error AgentSession.noStore), sessions,
        .done (.error AgentSession.noStore), ?_, ?_, hs, h,
        .rfl _⟩ <;> rw [AgentSession.command, save_noStore hstore]
    | true =>
      obtain ⟨tree', hsave, href⟩ := file_save h s.snapshot hs.session hs.branch
      refine ⟨s.emit .sessionSaved, p, tree', .done (.ok ()), Memory.save sessions s.snapshot,
        .done (.ok ()), ?_, ?_, ⟨hs.session, hs.branch⟩, href, .rfl _⟩
      · rw [AgentSession.command, save_stored hstore hsave]
      · rw [AgentSession.command, save_stored hstore rfl]
  | load branch =>
    cases hstore : s.hasStore with
    | false =>
      refine ⟨s, p, tree, .done (.error AgentSession.noStore), sessions,
        .done (.error AgentSession.noStore), ?_, ?_, hs, h,
        .rfl _⟩ <;> rw [AgentSession.command, load_noStore hstore]
    | true =>
      -- Both stores answer with what the abstract one holds, but word a miss differently.
      obtain ⟨hfile, hfileResult⟩ := load_found hstore (file_load_found h hs branch hc)
      have hfound : (memoryStore.load sessions s.sessionId branch).toOption =
          find sessions s.sessionId branch :=
        memory_load sessions s.sessionId branch
      obtain ⟨hmemory, hmemoryResult⟩ := load_found hstore hfound
      refine ⟨_, p, tree, .done (s.load (fileStore mp cfg) tree branch).2, sessions,
        .done (s.load memoryStore sessions branch).2, ?_, ?_, restored_named h hs branch hc, h, ?_⟩
      · rw [AgentSession.command, ← hfile]
      · rw [AgentSession.command, ← hmemory]
      · exact hfileResult.trans hmemoryResult.symm

/-- The two worlds differ in where the snapshots are and in the texts of failures. -/
structure Related (mp : Msgpack) (cfg : Config) (base : Files.Place) (w : World Files.Tree π)
    (w' : World Sessions π) : Prop where
  refines : Refines mp cfg base w.kept w'.kept
  sessions : w.sessions = w'.sessions
  provider : w.provider = w'.provider
  replies : List.Forall₂ Reply.Agrees w.replies w'.replies
  named : ∀ s ∈ w'.sessions, s.Named

theorem step_related {w : World Files.Tree π} {w' : World Sessions π} (h : Related mp cfg base w w')
    (c : Nat × Command) (hc : c.2.Named) :
    Related mp cfg base (step setting (fileStore mp cfg) w c) (step setting memoryStore w' c) := by
  unfold step
  rw [h.sessions]
  cases hs : w'.sessions[c.1]? with
  | none => exact h
  | some s =>
    obtain ⟨s', p', tree', reply, sessions', reply', hfile, hmemory, hnamed, href, hreply⟩ :=
      command_agrees setting h.refines (h.named s (List.mem_of_getElem? hs)) w'.provider c.2 hc
    simp only [h.provider, hfile, hmemory]
    refine ⟨href, rfl, rfl, List.rel_append h.replies (.cons hreply .nil), ?_⟩
    intro x hx
    rcases List.mem_or_eq_of_mem_set hx with hx | rfl
    · exact h.named x hx
    · exact hnamed

theorem run_related (setting : Setting π) {w : World Files.Tree π} {w' : World Sessions π}
    (h : Related mp cfg base w w') (commands : List (Nat × Command))
    (hc : ∀ c ∈ commands, c.2.Named) :
    Related mp cfg base (run setting (fileStore mp cfg) w commands)
      (run setting memoryStore w' commands) := by
  induction commands generalizing w w' with
  | nil => exact h
  | cons c rest ih =>
    exact ih (step_related h c (hc c List.mem_cons_self)) fun d hd =>
      hc d (List.mem_cons_of_mem c hd)

theorem related_new (mp : Msgpack) (cfg : Config) (tree : Files.Tree) (hnew : NewStore cfg tree)
    (p : π) (sessions : List AgentSession) (hnamed : ∀ s ∈ sessions, s.Named) :
    ∃ base, Related mp cfg base ⟨tree, p, sessions, []⟩ ⟨∅, p, sessions, []⟩ := by
  obtain ⟨base, href⟩ := refines_new mp cfg tree hnew
  exact ⟨base, href, rfl, rfl, .nil, hnamed⟩

/-! ## What was saved last -/

def savedBy (w : World σ π) (c : Nat × Command) : List SessionSnapshot :=
  match w.sessions[c.1]?, c.2 with
  | some s, .save => if s.hasStore then [s.snapshot] else []
  | _, _ => []

/-- The snapshots that the sessions save along a run. -/
def saved (setting : Setting π) (store : Store σ) (w : World σ π) :
    List (Nat × Command) → List SessionSnapshot
  | [] => []
  | c :: rest => savedBy w c ++ saved setting store (step setting store w c) rest

def lastSaved (snapshots : List SessionSnapshot) (sessionId branch : Bytes) :
    Option SessionSnapshot :=
  snapshots.reverse.find? fun snap => snap.sessionId = sessionId ∧ snap.branchId = branch

theorem lastSaved_append (a b : List SessionSnapshot) (sessionId branch : Bytes) :
    lastSaved (a ++ b) sessionId branch =
      (lastSaved b sessionId branch).or (lastSaved a sessionId branch) := by
  rw [lastSaved, List.reverse_append, List.find?_append]
  rfl

theorem find_save_session (s : AgentSession) (kept : Sessions) (sessionId branch : Bytes) :
    find (s.save memoryStore kept).2.1 sessionId branch =
      (lastSaved (if s.hasStore then [s.snapshot] else []) sessionId branch).or
        (find kept sessionId branch) := by
  by_cases hstore : s.hasStore = true
  · rw [save_stored hstore rfl, if_pos hstore, find_save]
    unfold lastSaved
    rw [List.reverse_singleton, List.find?_singleton]
    by_cases hkey : sessionId = s.snapshot.sessionId ∧ branch = s.snapshot.branchId
    · rw [if_pos hkey, if_pos (by simp [hkey.1, hkey.2])]
      rfl
    · rw [if_neg hkey, if_neg]
      · rfl
      · intro h
        rw [decide_eq_true_eq] at h
        exact hkey ⟨h.1.symm, h.2.symm⟩
  · rw [save_noStore (by simpa using hstore), if_neg hstore]
    rfl

theorem find_step (setting : Setting π) (w : World Sessions π) (c : Nat × Command)
    (sessionId branch : Bytes) :
    find (step setting memoryStore w c).kept sessionId branch =
      (lastSaved (savedBy w c) sessionId branch).or (find w.kept sessionId branch) := by
  unfold step savedBy
  cases w.sessions[c.1]? with
  | none => rfl
  | some s =>
    obtain ⟨i, command⟩ := c
    cases command with
    | own call => rfl
    | load branch => rfl
    | save => exact find_save_session s w.kept sessionId branch

theorem find_run (setting : Setting π) (w : World Sessions π) (commands : List (Nat × Command))
    (sessionId branch : Bytes) :
    find (run setting memoryStore w commands).kept sessionId branch =
      (lastSaved (saved setting memoryStore w commands) sessionId branch).or
        (find w.kept sessionId branch) := by
  induction commands generalizing w with
  | nil => rfl
  | cons c rest ih =>
    rw [saved, lastSaved_append, Option.or_assoc, ← find_step setting]
    exact ih _

theorem saved_related {w : World Files.Tree π} {w' : World Sessions π}
    (h : Related mp cfg base w w') (commands : List (Nat × Command))
    (hc : ∀ c ∈ commands, c.2.Named) :
    saved setting (fileStore mp cfg) w commands = saved setting memoryStore w' commands := by
  induction commands generalizing w w' with
  | nil => rfl
  | cons c rest ih =>
    rw [saved, saved, savedBy, h.sessions]
    rw [ih (step_related h c (hc c List.mem_cons_self)) fun d hd =>
      hc d (List.mem_cons_of_mem c hd)]
    rfl

/-! ## One session, saved and loaded -/

def sampleSetting : Setting Unit where
  switchModel := fun _ _ => (true, ())
  execute := fun _ _ _ => ({ success := true, output := ascii "ok" }, ())
  walk := fun tools => tools.entries.map fun entry => entry.2

def sampleSession : AgentSession where
  sessionId := ascii "a"
  agentId := ascii "x"
  currentModel := { provider := ascii "ollama", model := ascii "m", tier := ascii "code" }

def sampleCommands : List (Nat × Command) :=
  [(0, .save), (0, .own (.send (ascii "hi"))), (0, .load mainBranch)]

theorem sampleSession_named : sampleSession.Named := ⟨sessionName_sample, mainBranch_name⟩

theorem sampleSessions_named : ∀ s ∈ [sampleSession], s.Named := by
  simp [sampleSession_named]

theorem sampleCommands_named : ∀ c ∈ sampleCommands, c.2.Named := by
  simp [sampleCommands, Command.Named, mainBranch_name]

/-! ## Every run over the files -/

/-- Whatever many sessions do over one store on disk, they are what they would be over the store in
memory: the same conversations, the same events, the same calls of the provider, and a failure
exactly where there it would fail. -/
theorem file_sessions_agree (setting : Setting π) (mp : Msgpack) (cfg : Config) (tree : Files.Tree)
    (hnew : NewStore cfg tree) (p : π) (sessions : List AgentSession)
    (hnamed : ∀ s ∈ sessions, s.Named) (commands : List (Nat × Command))
    (hc : ∀ c ∈ commands, c.2.Named) :
    (run setting (fileStore mp cfg) ⟨tree, p, sessions, []⟩ commands).sessions =
        (run setting memoryStore ⟨∅, p, sessions, []⟩ commands).sessions ∧
      (run setting (fileStore mp cfg) ⟨tree, p, sessions, []⟩ commands).provider =
        (run setting memoryStore ⟨∅, p, sessions, []⟩ commands).provider ∧
      List.Forall₂ Reply.Agrees (run setting (fileStore mp cfg) ⟨tree, p, sessions,
        []⟩ commands).replies
        (run setting memoryStore ⟨∅, p, sessions, []⟩ commands).replies := by
  obtain ⟨base, hrelated⟩ := related_new mp cfg tree hnew p sessions hnamed
  have h := run_related setting hrelated commands hc
  exact ⟨h.sessions, h.provider, h.replies⟩

theorem sample_sessions_agree :
    (run sampleSetting (fileStore sampleMsgpack sampleConfig) ⟨sampleTree, (), [sampleSession],
      []⟩ sampleCommands).sessions =
      (run sampleSetting memoryStore ⟨∅, (), [sampleSession], []⟩ sampleCommands).sessions :=
  (file_sessions_agree sampleSetting sampleMsgpack sampleConfig sampleTree newStore_sample ()
    [sampleSession] sampleSessions_named
    sampleCommands sampleCommands_named).1

/-- A load brings back the conversation that was saved last under the session's id and that branch,
by whichever session and through whatever else was saved; without such a save the session stays as
it was. -/
theorem load_restores_last_saved (setting : Setting π) (mp : Msgpack) (cfg : Config)
    (tree : Files.Tree) (hnew : NewStore cfg tree) (p : π) (sessions : List AgentSession)
    (hnamed : ∀ s ∈ sessions, s.Named) (commands : List (Nat × Command))
    (hc : ∀ c ∈ commands, c.2.Named) (s : AgentSession) (hs : s.Named) (hstore : s.hasStore = true)
    (branch : Bytes) (hb : BranchName branch) :
    let w := run setting (fileStore mp cfg) ⟨tree, p, sessions, []⟩ commands
    let found := lastSaved (saved setting (fileStore mp cfg) ⟨tree, p, sessions, []⟩ commands)
      s.sessionId branch
    (s.load (fileStore mp cfg) w.kept branch).1 = s.restored found ∧
      (s.load (fileStore mp cfg) w.kept branch).2.toOption = found.map fun _ => () := by
  obtain ⟨base, hrelated⟩ := related_new mp cfg tree hnew p sessions hnamed
  have h := run_related setting hrelated commands hc
  have hfind := find_run setting ⟨∅, p, sessions, []⟩ commands s.sessionId branch
  have hempty : find ∅ s.sessionId branch = none := rfl
  rw [hempty, Option.or_none] at hfind
  intro w found
  apply load_found hstore
  rw [file_load_found h.refines hs branch hb, hfind]
  simp only [found, saved_related hrelated commands hc]

theorem sample_load_restores :
    (sampleSession.load (fileStore sampleMsgpack sampleConfig)
      (run sampleSetting (fileStore sampleMsgpack sampleConfig)
        ⟨sampleTree, (), [sampleSession], []⟩ sampleCommands).kept mainBranch).1 =
      sampleSession.restored (some sampleSnapshot) :=
  (load_restores_last_saved sampleSetting sampleMsgpack sampleConfig sampleTree newStore_sample ()
    [sampleSession]
    sampleSessions_named sampleCommands sampleCommands_named sampleSession sampleSession_named
      rfl mainBranch
    mainBranch_name).1

end Euxis.Runtime.Conversation
