import Euxis.Metrics.Ledger
import Euxis.Json.Msgpack
import Euxis.Audit.Proofs
import Euxis.Lines
import Euxis.Outcome

/-!
# Which runs lose no session

The collector follows the ledger, and the session file holds the completed sessions of it.
-/

namespace Euxis.Metrics

/-! ## No outcome is lost -/

/-- A record of the session file and the session that it is about. -/
structure Carries (record : Json) (e : Ended) : Prop where
  session : record.findStr (ascii "session_id") = some e.sessionId
  agent : record.findStr (ascii "agent_id") = some e.agentId
  status : record.findStr (ascii "status") = some e.ending.status

/-- An agent's entry of the report counts its ended sessions. -/
def Counts {δ : Type} (doubles : Doubles δ) (ended : List Ended) :
    Option (AgentPerformance δ) → Prop
  | none => ended = []
  | some p => p.totalTasks = ended.length ∧
    p.failureRate = doubles.ratio (ended.countP (·.ending.status = failureStatus)) ended.length

/-- The session file holds one record for every ended session and no other, and the report counts
them all. -/
structure OutcomesKept {δ : Type} (codec : JsonCodec) (doubles : Doubles δ) (file : Option Bytes)
    (ended : List Ended) : Prop where
  recorded : ∀ e ∈ ended, ∃ record, Carries record e ∧
    (loadSessions codec file).filter (·.findStr (ascii "session_id") = some e.sessionId) = [record]
  known : ∀ record ∈ loadSessions codec file, ∃ e ∈ ended, Carries record e
  analysed : ∃ report, analyzeAgentPerformance codec doubles file = .ok report ∧
    ∀ agentId, Counts doubles (ended.filter (·.agentId = agentId)) (report.lookup agentId)

/-! ## The collector follows the ledger -/

section

variable {τ : Type}

/-- An active session as the ledger has it. -/
def Collector.running (st : Collector τ) (sessionId : Bytes) : Option (Running τ) :=
  (st.active.lookup sessionId).map fun data =>
    { sessionId, agentId := data.agentId, startTime := data.startTime }

theorem Collector.running_sessionId (st : Collector τ) {sessionId : Bytes} {r : Running τ}
    (h : st.running sessionId = some r) : r.sessionId = sessionId := by
  obtain ⟨data, _, rfl⟩ := Option.map_eq_some_iff.mp h
  rfl

theorem Collector.running_eq_none (st : Collector τ) (sessionId : Bytes) :
    st.running sessionId = none ↔ st.active.lookup sessionId = none := by
  simp [Collector.running]

def Summary.ended (s : Summary) : Ended :=
  { sessionId := s.sessionId, agentId := s.agentId, ending := .completed s.status }

/-- The active sessions run, and the session file holds the completed ones. -/
structure Tracks (codec : JsonCodec) (st : Collector τ) (ledger : Ledger τ) : Prop where
  active : ∀ r : Running τ, r ∈ ledger.running ↔ st.running r.sessionId = some r
  written : ∃ summaries : List Summary,
    Lines.Reads codec.parse (st.sessions.getD []) (summaries.map Summary.toJson) ∧
      summaries.map Summary.ended = ledger.ended.filter (·.ending.isCompleted)

variable (codec : JsonCodec) (timer : Timer τ)

/-! ### What a call does to the active sessions -/

/-- Of the active sessions, those that meet a condition are gone, and the session file is as it
was. -/
structure Drops (p : Running τ → Bool) (st st' : Collector τ) : Prop where
  running : ∀ sid, st'.running sid = (st.running sid).filter fun r => !p r
  sessions : st'.sessions = st.sessions

theorem drops_none (p : Running τ → Bool) (st : Collector τ)
    (h : ∀ sid, ∀ r ∈ st.running sid, p r = false) : Drops p st st where
  running := by
    intro sid
    cases hr : st.running sid with
    | none => rfl
    | some r => simp [Option.filter, h sid r hr]
  sessions := rfl

theorem drops_erase (st : Collector τ) (sessionId : Bytes) (events : Option Bytes) :
    Drops (·.sessionId = sessionId) st { st with active := st.active.erase sessionId, events } where
  running := by
    intro sid
    unfold Collector.running
    by_cases hsid : sid = sessionId
    · subst hsid
      rw [AList.lookup_erase]
      cases st.active.lookup sid <;> simp [Option.filter]
    · rw [AList.lookup_erase_ne hsid]
      cases st.active.lookup sid <;> simp [Option.filter, hsid]
  sessions := rfl

theorem drops_absent (st : Collector τ) (sessionId : Bytes)
    (h : st.active.lookup sessionId = none) : Drops (·.sessionId = sessionId) st st := by
  apply drops_none
  intro sid r hr
  have hsid := st.running_sessionId hr
  have hne : sid ≠ sessionId := by
    rintro rfl
    rw [(st.running_eq_none sid).mpr h] at hr
    cases hr
  simpa [hsid] using hne

theorem taskFailed_drops (sessionId : Bytes) (ctx : TaskFailureContext) (now : Readings τ)
    (st : Collector τ) :
    Drops (·.sessionId = sessionId) st (taskFailed codec timer sessionId ctx now st).1 := by
  unfold taskFailed
  split
  · rename_i hnone
    exact drops_absent st sessionId hnone
  · exact drops_erase st sessionId _

theorem Drops.trans {p q : Running τ → Bool} {a b c : Collector τ} (h : Drops p a b)
    (h' : Drops q b c) : Drops (fun r => p r || q r) a c where
  running := by
    intro sid
    rw [h'.running, h.running, Option.filter_filter]
    congr 1
    funext r
    cases p r <;> cases q r <;> rfl
  sessions := h'.sessions.trans h.sessions

theorem failAll_drops (now : Bytes → Readings τ) (sids : List Bytes) (st : Collector τ)
    (h : (failAll codec timer now sids st).2 = some ()) :
    Drops (·.sessionId ∈ sids) st (failAll codec timer now sids st).1 := by
  induction sids generalizing st with
  | nil =>
    apply drops_none
    intro sid r hr
    simp
  | cons sid rest ih =>
    have hone := taskFailed_drops codec timer sid timeoutContext (now sid) st
    unfold failAll at h ⊢
    split at h
    · cases h
    · rename_i st1 heq
      simp only [heq] at hone ⊢
      have hboth := hone.trans (ih st1 h)
      have hp : (fun r : Running τ => decide (r.sessionId = sid) || decide (r.sessionId ∈ rest)) =
          fun r => decide (r.sessionId ∈ sid :: rest) := by
        funext r
        simp
      rwa [hp] at hboth

theorem mem_staleSessions (st : Collector τ) (current : τ) (timeoutSeconds : Int) (sid : Bytes) :
    sid ∈ staleSessions timer st current timeoutSeconds ↔
      ∃ r ∈ st.running sid, timer.exceeds current r.startTime timeoutSeconds = true := by
  unfold staleSessions Collector.running
  rw [List.mem_filter, List.mem_mergeSort]
  cases hlookup : st.active.lookup sid with
  | none => simp
  | some data =>
    have hkey : sid ∈ st.active.keys := by
      rw [← AList.mem_keys, ← AList.lookup_isSome, hlookup]
      rfl
    simp [hkey]

theorem Drops.congr {p q : Running τ → Bool} {st st' : Collector τ} (h : Drops p st st')
    (hpq : ∀ sid, ∀ r ∈ st.running sid, p r = q r) : Drops q st st' where
  running := by
    intro sid
    rw [h.running]
    cases hr : st.running sid with
    | none => rfl
    | some r => simp [Option.filter, hpq sid r hr]
  sessions := h.sessions

theorem cleanupStaleSessions_drops (timeoutSeconds : Int) (current : τ) (now : Bytes → Readings τ)
    (st : Collector τ) (h :
      (cleanupStaleSessions codec timer timeoutSeconds current now st).2.isSome) :
    Drops (fun r => timer.exceeds current r.startTime timeoutSeconds) st
      (cleanupStaleSessions codec timer timeoutSeconds current now st).1 := by
  have hfailed : (failAll codec timer now (staleSessions timer st current timeoutSeconds) st).2 =
      some () := by
    unfold cleanupStaleSessions at h
    cases hcase : (failAll codec timer now (staleSessions timer st current timeoutSeconds) st).2
      with
    | none => simp [hcase] at h
    | some u => rfl
  apply (failAll_drops codec timer now _ st hfailed).congr
  intro sid r hr
  have hsid := st.running_sessionId hr
  subst hsid
  by_cases hstale : timer.exceeds current r.startTime timeoutSeconds = true
  · rw [hstale]
    simpa using (mem_staleSessions timer st current timeoutSeconds _).mpr ⟨r, hr, hstale⟩
  · rw [Bool.not_eq_true] at hstale
    rw [hstale]
    simp only [decide_eq_false_iff_not]
    intro hmem
    obtain ⟨r', hr', hstale'⟩ := (mem_staleSessions timer st current timeoutSeconds _).mp hmem
    rw [Option.mem_unique hr' hr, hstale] at hstale'
    cases hstale'

/-! ### Steps -/

theorem filter_eq_singleton {α β : Type} [DecidableEq β] (f : α → β) (l : List α) (a : α)
    (hnodup : (l.map f).Nodup) (ha : a ∈ l) : l.filter (f · = f a) = [a] := by
  induction l with
  | nil => cases ha
  | cons b rest ih =>
    rw [List.map_cons, List.nodup_cons] at hnodup
    rw [List.filter_cons]
    rcases List.mem_cons.mp ha with rfl | hrest
    · have hnone : rest.filter (f · = f a) = [] := by
        rw [List.filter_eq_nil_iff]
        intro c hc heq
        apply hnodup.1
        rw [← of_decide_eq_true heq]
        exact List.mem_map_of_mem hc
      rw [if_pos (by simp), hnone]
    · have hne : f b ≠ f a := fun heq => hnodup.1 (heq ▸ List.mem_map_of_mem hrest)
      rw [if_neg (by simpa using hne)]
      exact ih hnodup.2 hrest

variable {codec timer} {st st' : Collector τ} {ledger : Ledger τ}

theorem Tracks.active_close (h : Tracks codec st ledger) (p : Running τ → Bool) (ending : Ending)
    (hrunning : ∀ sid, st'.running sid = (st.running sid).filter fun r => !p r) (r : Running τ) :
    r ∈ (ledger.close p ending).running ↔ st'.running r.sessionId = some r := by
  unfold Ledger.close
  rw [List.mem_filter, h.active, hrunning, Option.filter_eq_some_iff]

theorem Tracks.close (h : Tracks codec st ledger) (p : Running τ → Bool) (ending : Ending)
    (hending : ending.isCompleted = false) (hdrops : Drops p st st') :
    Tracks codec st' (ledger.close p ending) where
  active := h.active_close p ending hdrops.running
  written := by
    obtain ⟨summaries, hreads, hended⟩ := h.written
    refine ⟨summaries, ?_, ?_⟩
    · rw [hdrops.sessions]
      exact hreads
    · have hnone : ((ledger.running.filter p).map (Running.close ending)).filter
          (·.ending.isCompleted) = [] := by
        rw [List.filter_eq_nil_iff]
        intro e he
        obtain ⟨r, _, rfl⟩ := List.mem_map.mp he
        simpa [Running.close] using hending
      unfold Ledger.close
      rw [List.filter_append, hnone, List.append_nil]
      exact hended

theorem Tracks.started (h : Tracks codec st ledger) (agentId sessionId : Bytes)
    (ctx : TaskStartContext) (val : UInt64) (now : Readings τ) (hfresh : sessionId ∉ ledger.ids) :
    Tracks codec (taskStarted codec agentId sessionId ctx val now st).1
      (ledger.step timer (.started agentId sessionId ctx val now)) where
  active := by
    intro r
    -- The id is fresh, so the insertion replaces no running session.
    have hold : ∀ r ∈ ledger.running, r.sessionId ≠ sessionId := by
      rintro r hr rfl
      exact hfresh (List.mem_append_left _ (List.mem_map_of_mem hr))
    simp only [Ledger.step, List.mem_append, List.mem_singleton]
    have hrunning : ∀ sid, (taskStarted codec agentId sessionId ctx val now st).1.running sid =
        if sid = sessionId then some { sessionId, agentId, startTime := now.epoch }
        else st.running sid := by
      intro sid
      simp only [taskStarted, emitEvent, Collector.running]
      split
      · rename_i hsid
        rw [hsid, AList.lookup_insert]
        rfl
      · rename_i hsid
        rw [AList.lookup_insert_ne hsid]
    rw [hrunning]
    split
    · rename_i hsid
      constructor
      · rintro (hr | rfl)
        · exact absurd hsid (hold r hr)
        · rfl
      · intro heq
        right
        exact (Option.some.inj heq).symm
    · rename_i hsid
      rw [← h.active]
      constructor
      · rintro (hr | rfl)
        · exact hr
        · exact absurd rfl hsid
      · exact Or.inl
  written := h.written

theorem loadSessions_eq (codec : JsonCodec) (file : Option Bytes) :
    loadSessions codec file = (Lines.nonEmpty (file.getD [])).filterMap codec.parse := by
  unfold loadSessions
  cases file with
  | none => rfl
  | some content =>
    have hlines := Audit.getLines_filter content
    unfold Audit.fileLines Lines.nonEmpty
    rw [Option.getD_some, hlines]

theorem taskCompleted_some (sessionId : Bytes) (ctx : TaskCompletionContext) (now : Readings τ)
    (data : SessionData τ) (hdata : st.active.lookup sessionId = some data)
    (h : (taskCompleted codec timer sessionId ctx now st).2.isSome) :
    ∃ events line, codec.dump (completedSummary timer data sessionId ctx now).toJson = some line ∧
      (taskCompleted codec timer sessionId ctx now st).1 =
        { active := st.active.erase sessionId, events,
          sessions := some (st.sessions.getD [] ++ (line ++ [ch '\n'])) } := by
  unfold taskCompleted emitEvent appendSummary at h ⊢
  simp only [hdata] at h ⊢
  split at h
  · cases h
  · rename_i st1 hemit
    rw [Prod.mk.injEq] at hemit
    rw [← hemit.1] at h ⊢
    cases hdump : codec.dump (completedSummary timer data sessionId ctx now).toJson with
    | none => simp [hdump] at h
    | some line => exact ⟨_, line, rfl, rfl⟩

theorem Tracks.filter_running (h : Tracks codec st ledger) (hnodup : ledger.ids.Nodup)
    (sessionId : Bytes) :
    ledger.running.filter (·.sessionId = sessionId) = (st.running sessionId).toList := by
  cases hr : st.running sessionId with
  | none =>
    rw [Option.toList_none, List.filter_eq_nil_iff]
    intro r hmem heq
    rw [h.active, of_decide_eq_true heq, hr] at hmem
    cases hmem
  | some r =>
    have hsid := st.running_sessionId hr
    subst hsid
    exact filter_eq_singleton (·.sessionId) ledger.running r (List.nodup_append.mp hnodup).1
      ((h.active r).mpr hr)

theorem Tracks.completed (h : Tracks codec st ledger) (sessionId : Bytes)
    (ctx : TaskCompletionContext) (now : Readings τ) (hnodup : ledger.ids.Nodup)
    (hreturned : (taskCompleted codec timer sessionId ctx now st).2.isSome) :
    Tracks codec (taskCompleted codec timer sessionId ctx now st).1
      (ledger.step timer (.completed sessionId ctx now)) := by
  obtain ⟨summaries, hreads, hended⟩ := h.written
  have hmoved := h.filter_running hnodup sessionId
  cases hdata : st.active.lookup sessionId with
  -- A completion of a session that is not running does nothing, in the ledger and in the collector.
  | none =>
    have hstay : (taskCompleted codec timer sessionId ctx now st).1 = st := by
      unfold taskCompleted
      rw [hdata]
    rw [(st.running_eq_none sessionId).mpr hdata] at hmoved
    rw [hstay]
    refine ⟨h.active_close _ _ (drops_absent st sessionId hdata).running, summaries, hreads, ?_⟩
    simp only [Ledger.step, Ledger.close, hmoved, Option.toList_none, List.map_nil, List.append_nil]
    exact hended
  | some data =>
    obtain ⟨events, line, hdump, hafter⟩ :=
      taskCompleted_some sessionId ctx now data hdata hreturned
    have hdrops := drops_erase st sessionId events
    have hrunning : st.running sessionId =
        some { sessionId, agentId := data.agentId, startTime := data.startTime } := by
      simp [Collector.running, hdata]
    rw [hrunning] at hmoved
    rw [hafter]
    refine ⟨h.active_close _ _ hdrops.running,
      summaries ++ [completedSummary timer data sessionId ctx now], ?_, ?_⟩
    · rw [List.map_append, List.map_singleton]
      exact hreads.append line _ ⟨codec.dump_ne_nil _ _ hdump, codec.dump_one_line _ _ hdump⟩
        (codec.parse_dump _ _ hdump)
    · simp only [Ledger.step, Ledger.close, hmoved, Option.toList_some, List.map_singleton,
        List.map_append, List.filter_append, hended]
      rfl

theorem step_returned {call : Call τ} (h : step codec timer st call = some st') :
    (exec codec timer st call).2 = true ∧ st' = (exec codec timer st call).1 := by
  unfold step at h
  split at h
  · exact ⟨by assumption, (Option.some.inj h).symm⟩
  · cases h

theorem step_tracks {call : Call τ} (h : Tracks codec st ledger) (hnodup : ledger.ids.Nodup)
    (hfresh : ∀ sessionId ∈ call.startedId, sessionId ∉ ledger.ids)
    (hstep : step codec timer st call = some st') : Tracks codec st' (ledger.step timer call) := by
  obtain ⟨hreturned, rfl⟩ := step_returned hstep
  cases call with
  | started agentId sessionId ctx val now =>
    exact h.started agentId sessionId ctx val now (hfresh sessionId rfl)
  | completed sessionId ctx now => exact h.completed sessionId ctx now hnodup hreturned
  | failed sessionId ctx now =>
    exact h.close _ .failed rfl (taskFailed_drops codec timer sessionId ctx now st)
  | cleanup timeoutSeconds current now =>
    exact h.close _ .timedOut rfl (cleanupStaleSessions_drops codec timer timeoutSeconds current now
      st hreturned)

/-! ### Runs -/

theorem run_append (calls : List (Call τ)) (call : Call τ)
    (h : run codec timer (calls ++ [call]) = some st') :
    ∃ st, run codec timer calls = some st ∧ step codec timer st call = some st' := by
  unfold run at h
  rw [List.foldlM_append] at h
  obtain ⟨st, hrun, hstep⟩ := Option.bind_eq_some_iff.mp h
  refine ⟨st, hrun, ?_⟩
  simpa using hstep

/-- The collector follows the ledger through every run. -/
theorem run_tracks (calls : List (Call τ)) (hfresh : (startedIds calls).Nodup)
    (h : run codec timer calls = some st) : Tracks codec st (Ledger.run timer calls) := by
  induction calls using List.reverseRecOn generalizing st with
  | nil =>
    obtain rfl : {} = st := Option.some.inj h
    exact ⟨by simp [Ledger.run, Collector.running], [], Lines.Reads.empty, rfl⟩
  | append_singleton calls call ih =>
    rw [startedIds_append, List.nodup_append] at hfresh
    obtain ⟨before, hrun, hstep⟩ := run_append calls call h
    have hids := Ledger.run_ids timer calls
    rw [Ledger.run_append]
    refine step_tracks (ih hfresh.1 hrun) (hids.nodup_iff.mpr hfresh.1) ?_ hstep
    intro sessionId hstarted hmem
    exact hfresh.2.2 sessionId (hids.mem_iff.mp hmem) sessionId (Option.mem_toList.mpr hstarted) rfl

/-! ## When no outcome is lost -/

/-- A call that ends no session by a failure or a timeout. -/
def Call.Spares (timer : Timer τ) (st : Collector τ) : Call τ → Prop
  | started _ _ _ _ _ | completed _ _ _ => True
  | failed sessionId _ _ => st.active.lookup sessionId = none
  | cleanup timeoutSeconds current _ => staleSessions timer st current timeoutSeconds = []

theorem Tracks.forall_running (h : Tracks codec st ledger) (p : Running τ → Bool) :
    (∀ r ∈ ledger.running, p r = false) ↔ ∀ sid, ∀ r ∈ st.running sid, p r = false := by
  constructor
  · intro hall sid r hr
    have hsid := st.running_sessionId hr
    subst hsid
    exact hall r ((h.active r).mpr hr)
  · intro hall r hr
    exact hall r.sessionId r ((h.active r).mp hr)

theorem Tracks.allCompleted_step (h : Tracks codec st ledger) (call : Call τ) :
    (ledger.step timer call).AllCompleted ↔ ledger.AllCompleted ∧ call.Spares timer st := by
  cases call with
  | started agentId sessionId ctx val now => simp [Ledger.step, Ledger.AllCompleted, Call.Spares]
  | completed sessionId ctx now =>
    rw [Ledger.step, Ledger.allCompleted_close]
    simp [Ending.isCompleted, Call.Spares]
  | failed sessionId ctx now =>
    rw [Ledger.step, Ledger.allCompleted_close, h.forall_running]
    apply and_congr_right
    intro _
    simp only [Ending.isCompleted, Bool.false_eq_true, false_or, Call.Spares, ← st.running_eq_none,
      decide_eq_false_iff_not]
    constructor
    · intro hall
      rw [Option.eq_none_iff_forall_not_mem]
      intro r hr
      exact hall sessionId r hr (st.running_sessionId hr)
    · intro hnone sid r hr hsid
      rw [← st.running_sessionId hr, hsid, hnone] at hr
      cases hr
  -- The sessions that a cleanup ends leave no record, so it must not find any.
  | cleanup timeoutSeconds current now =>
    rw [Ledger.step, Ledger.allCompleted_close, h.forall_running]
    apply and_congr_right
    intro _
    simp only [Ending.isCompleted, Bool.false_eq_true, false_or, Call.Spares,
      List.eq_nil_iff_forall_not_mem, mem_staleSessions]
    constructor
    · rintro hall sid ⟨r, hr, hstale⟩
      rw [hall sid r hr] at hstale
      cases hstale
    · intro hall sid r hr
      by_contra hstale
      exact hall sid ⟨r, hr, by simpa using hstale⟩

/-- Before every call of a run, the call spares the sessions that are active. -/
def Spared (codec : JsonCodec) (timer : Timer τ) (calls : List (Call τ)) : Prop :=
  ∀ before call, before ++ [call] <+: calls → ∀ st, run codec timer before = some st →
    call.Spares timer st

theorem run_allCompleted (calls : List (Call τ)) (hfresh : (startedIds calls).Nodup)
    (h : run codec timer calls = some st) :
    (Ledger.run timer calls).AllCompleted ↔ Spared codec timer calls := by
  induction calls using List.reverseRecOn generalizing st with
  | nil => simp [Ledger.run, Ledger.AllCompleted, Spared]
  | append_singleton calls call ih =>
    rw [startedIds_append, List.nodup_append] at hfresh
    obtain ⟨before, hrun, _⟩ := run_append calls call h
    rw [Ledger.run_append, (run_tracks calls hfresh.1 hrun).allCompleted_step, ih hfresh.1 hrun]
    constructor
    · rintro ⟨hspared, hlast⟩ b c hpre st hst
      rcases List.prefix_concat_iff.mp hpre with heq | hpre
      · obtain ⟨rfl, hc⟩ := List.append_inj' heq rfl
        obtain rfl := List.singleton_inj.mp hc
        rw [hrun] at hst
        rw [← Option.some.inj hst]
        exact hlast
      · exact hspared b c hpre st hst
    · intro hspared
      refine ⟨?_, hspared calls call (List.prefix_refl _) before hrun⟩
      intro b c hpre
      exact hspared b c (hpre.trans (List.prefix_append _ _))

/-! ## The report -/

theorem Summary.carries (s : Summary) : Carries s.toJson s.ended where
  session := rfl
  agent := rfl
  status := rfl

end

def Summary.row (s : Summary) : Row :=
  { agentId := s.agentId, durationMs := .int s.durationMs, status := s.status }

theorem readRow_toJson (s : Summary) : readRow s.toJson = .ok s.row := rfl

theorem total_foldl (rows : List Row) (m : AgentMetrics) :
    (rows.foldl AgentMetrics.add m).total = m.total + rows.length := by
  induction rows generalizing m with
  | nil => rfl
  | cons row rest ih =>
    have hone : (m.add row).total = m.total + 1 := by
      unfold AgentMetrics.add
      split_ifs <;> rfl
    rw [List.foldl_cons, ih, hone, List.length_cons]
    omega

theorem failed_foldl (rows : List Row) (m : AgentMetrics) :
    (rows.foldl AgentMetrics.add m).failed = m.failed + rows.countP (·.status = failureStatus) := by
  induction rows generalizing m with
  | nil => rfl
  | cons row rest ih =>
    have hone : (m.add row).failed = m.failed + if row.status = failureStatus then 1 else 0 := by
      unfold AgentMetrics.add failureStatus
      by_cases hsuccess : row.status = ascii "SUCCESS"
      · rw [if_pos hsuccess, hsuccess, if_neg (by decide)]
        rfl
      · rw [if_neg hsuccess]
        split_ifs <;> rfl
    rw [List.foldl_cons, ih, hone, List.countP_cons]
    simp only [decide_eq_true_eq]
    omega

theorem agentMap_entry (rows : List Row) (agentId : Bytes) :
    (agentMap rows).entry agentId =
      if rows.filter (·.agentId = agentId) = [] then none
      else some ((rows.filter (·.agentId = agentId)).foldl AgentMetrics.add {}) := by
  unfold agentMap
  rw [(Merge.merged Row.agentId (AgentMetrics.add {}) AgentMetrics.add rows).2 agentId]
  cases rows.filter (·.agentId = agentId) with
  | nil => rfl
  | cons row rest => rfl

theorem mem_agentMap_order (rows : List Row) (agentId : Bytes) :
    agentId ∈ (agentMap rows).order ↔ rows.filter (·.agentId = agentId) ≠ [] := by
  unfold agentMap
  rw [(Merge.merged Row.agentId (AgentMetrics.add {}) AgentMetrics.add rows).1, Merge.mem_distinct]
  simp

theorem lookup_filterMap {α β : Type} [BEq α] [LawfulBEq α] (f : α → Option β)
    (keys : List α) (k : α) :
    (keys.filterMap fun a => (f a).map (a, ·)).lookup k = if k ∈ keys then f k else none := by
  induction keys with
  | nil => rfl
  | cons a rest ih =>
    rw [List.filterMap_cons]
    cases hf : f a with
    | none =>
      simp only [Option.map_none, ih, List.mem_cons]
      by_cases hk : k = a
      · subst hk
        simp [hf]
      · simp [hk]
    | some b =>
      simp only [Option.map_some, List.lookup_cons, ih, List.mem_cons]
      by_cases hk : k = a
      · subst hk
        simp [hf]
      · simp [hk, beq_false_of_ne hk]

section

variable {δ : Type} (codec : JsonCodec) (doubles : Doubles δ)

theorem analyze_summaries (file : Option Bytes) (summaries : List Summary)
    (h : loadSessions codec file = summaries.map Summary.toJson) :
    ∃ report, analyzeAgentPerformance codec doubles file = .ok report ∧
      ∀ agentId, Counts doubles ((summaries.filter (·.agentId = agentId)).map Summary.ended)
        (report.lookup agentId) := by
  have hrows : (loadSessions codec file).mapM readRow = .ok (summaries.map Summary.row) := by
    rw [h]
    exact Outcome.mapM_map_ok readRow Summary.toJson Summary.row readRow_toJson summaries
  unfold analyzeAgentPerformance
  rw [hrows]
  refine ⟨_, rfl, ?_⟩
  intro agentId
  have hfilter : (summaries.map Summary.row).filter (·.agentId = agentId) =
      (summaries.filter (·.agentId = agentId)).map Summary.row := by
    rw [List.filter_map]
    rfl
  rw [lookup_filterMap, agentMap_entry]
  simp only [mem_agentMap_order, hfilter]
  generalize summaries.filter (·.agentId = agentId) = mine
  by_cases hnone : mine = []
  · subst hnone
    rfl
  · have hlen : mine.length ≠ 0 := by simpa using hnone
    have hne : mine.map Summary.row ≠ [] := by simpa using hnone
    have htotal := total_foldl (mine.map Summary.row) {}
    have hfailed := failed_foldl (mine.map Summary.row) {}
    rw [List.length_map, Nat.zero_add] at htotal
    rw [List.countP_map, Nat.zero_add] at hfailed
    rw [if_pos hne, if_neg hne, Option.bind_some, AgentMetrics.reported, if_neg (by omega)]
    refine ⟨?_, ?_⟩
    · rw [List.length_map]
      exact htotal
    · rw [List.length_map, List.countP_map]
      unfold AgentMetrics.performance
      rw [htotal, hfailed]
      rfl

theorem OutcomesKept.of_summaries (file : Option Bytes) (summaries : List Summary)
    (h : loadSessions codec file = summaries.map Summary.toJson)
    (hnodup : (summaries.map (·.sessionId)).Nodup) :
    OutcomesKept codec doubles file (summaries.map Summary.ended) where
  recorded := by
    intro e he
    obtain ⟨s, hs, rfl⟩ := List.mem_map.mp he
    refine ⟨s.toJson, s.carries, ?_⟩
    have hids : (fun t :
        Summary => decide (t.toJson.findStr (ascii "session_id") = some s.ended.sessionId)) =
        fun t => decide (t.sessionId = s.sessionId) := by
      funext t
      simp only [t.carries.session, Option.some.injEq]
      rfl
    -- Each session has one summary, as no session id is started twice.
    have hone : summaries.filter (·.sessionId = s.sessionId) = [s] :=
      filter_eq_singleton (·.sessionId) summaries s hnodup hs
    rw [h, List.filter_map, Function.comp_def, hids, hone, List.map_singleton]
  known := by
    intro record hrecord
    rw [h] at hrecord
    obtain ⟨s, hs, rfl⟩ := List.mem_map.mp hrecord
    exact ⟨s.ended, List.mem_map_of_mem hs, s.carries⟩
  analysed := by
    obtain ⟨report, hreport, hcounts⟩ := analyze_summaries codec doubles file summaries h
    refine ⟨report, hreport, ?_⟩
    intro agentId
    have hfilter : (summaries.map Summary.ended).filter (·.agentId = agentId) =
        (summaries.filter (·.agentId = agentId)).map Summary.ended := by
      rw [List.filter_map]
      rfl
    rw [hfilter]
    exact hcounts agentId

variable {codec} {τ : Type} {st : Collector τ} {ledger : Ledger τ}

theorem Tracks.kept_iff (h : Tracks codec st ledger) (hnodup : ledger.ids.Nodup) :
    OutcomesKept codec doubles st.sessions ledger.ended ↔ ledger.AllCompleted := by
  obtain ⟨summaries, hreads, hended⟩ := h.written
  have hload : loadSessions codec st.sessions = summaries.map Summary.toJson := by
    rw [loadSessions_eq]
    exact hreads.filterMap_eq
  have hids : (ledger.ended.map (·.sessionId)).Nodup := (List.nodup_append.mp hnodup).2.1
  constructor
  · intro hkept e he
    obtain ⟨record, hcarries, hone⟩ := hkept.recorded e he
    have hmem : record ∈ loadSessions codec st.sessions := by
      have hin : record ∈ [record] := List.mem_singleton_self record
      rw [← hone] at hin
      exact List.mem_of_mem_filter hin
    rw [hload] at hmem
    obtain ⟨s, hs, rfl⟩ := List.mem_map.mp hmem
    have hs' : s.ended ∈ ledger.ended.filter (·.ending.isCompleted) := by
      rw [← hended]
      exact List.mem_map_of_mem hs
    obtain ⟨hin, hcompleted⟩ := List.mem_filter.mp hs'
    -- the record that carries the session is its summary, and the ids differ
    have hsid : s.ended.sessionId = e.sessionId := by
      have := s.carries.session.symm.trans hcarries.session
      exact Option.some.inj this
    rw [← List.inj_on_of_nodup_map hids hin he hsid]
    exact hcompleted
  · intro hall
    have hfilter : ledger.ended.filter (·.ending.isCompleted) = ledger.ended :=
      List.filter_eq_self.mpr hall
    rw [hfilter] at hended
    rw [← hended] at hids ⊢
    rw [List.map_map] at hids
    exact OutcomesKept.of_summaries codec doubles st.sessions summaries hload hids

end

/-- **Session outcomes.** A run keeps the outcome of every session exactly if each of its calls
spares the sessions that are active: one that fails or times out leaves no record. -/
theorem outcomes_kept_iff {τ δ : Type} (codec : JsonCodec) (timer : Timer τ) (doubles : Doubles δ)
    (calls : List (Call τ)) (hfresh : (startedIds calls).Nodup) (st : Collector τ)
    (hrun : run codec timer calls = some st) :
    OutcomesKept codec doubles st.sessions (Ledger.run timer calls).ended ↔
      Spared codec timer calls := by
  have hnodup : (Ledger.run timer calls).ids.Nodup :=
    (Ledger.run_ids timer calls).nodup_iff.mpr hfresh
  rw [(run_tracks calls hfresh hrun).kept_iff doubles hnodup]
  exact run_allCompleted calls hfresh hrun

/-! ### Two runs -/

def sampleTimer : Timer Int where
  elapsedMs now start := (now - start) * 1000
  exceeds now start timeout := timeout < now - start

/-- Quotients alone. -/
def sampleDoubles : Doubles (Nat × Nat) where
  ratio := Prod.mk
  mean _ := (0, 1)
  median _ := (0, 1)
  percentile _ _ := (0, 1)
  least _ := (0, 1)
  greatest _ := (0, 1)

def sampleStart : Call Int :=
  .started (ascii "qa") (ascii "s-1") {} 7 ⟨1700000000, 1700000000, 1700000000⟩

def sampleEnd : Call Int :=
  .completed (ascii "s-1") { status := ascii "SUCCESS" } ⟨1700000003, 1700000003, 1700000003⟩

theorem completed_session_kept :
    ∃ st, run Json.textCodec sampleTimer [sampleStart, sampleEnd] = some st ∧
    OutcomesKept Json.textCodec sampleDoubles st.sessions
      (Ledger.run sampleTimer [sampleStart, sampleEnd]).ended := by
  obtain ⟨st, hst⟩ := Option.isSome_iff_exists.mp
    (show (run Json.textCodec sampleTimer [sampleStart, sampleEnd]).isSome = true by decide +kernel)
  refine ⟨st, hst, ?_⟩
  apply (outcomes_kept_iff Json.textCodec sampleTimer sampleDoubles _ (by decide) st hst).mpr
  intro before call hpre _ _
  have hmem : call ∈ [sampleStart, sampleEnd] := hpre.subset (by simp)
  rcases List.mem_cons.mp hmem with rfl | hmem
  · exact trivial
  · rw [List.mem_singleton.mp hmem]
    exact trivial

def sampleFailure : Call Int := .failed (ascii "s-1") {} ⟨1700000003, 1700000003, 1700000003⟩

def sampleData : SessionData Int :=
  ⟨ascii "qa", 1700000000, generateCorrelationId 7, ascii "general", ascii "medium"⟩

/-- The event of the failure, which has a float. -/
def sampleEvent : Json :=
  event (ascii "Agent:TaskFailed") 1700000003 (failedProps sampleData (ascii "s-1") 3000 {})

def sampleText : Bytes := Json.write sampleEvent

/-- The codec of the values without floats, and of one event. -/
def sampleCodec : JsonCodec where
  dump j := if Json.write (Json.tag j) = Json.write (Json.tag sampleEvent) then some sampleText
    else Json.textCodec.dump j
  parse text := if text = sampleText then some sampleEvent else Json.read text
  parse_dump := by
    intro j text h
    split at h
    · rename_i heq
      have hj := Json.read_write _ (Json.plain_tag j)
      rw [heq, Json.read_write _ (Json.plain_tag sampleEvent)] at hj
      have hsame : j = sampleEvent := by
        rw [← Json.untag_tag j, ← Option.some.inj hj, Json.untag_tag]
      rw [if_pos (Option.some.inj h).symm, hsame]
    · have hread := Json.textCodec.parse_dump j text h
      have hne : text ≠ sampleText := by
        rintro rfl
        have hnone : Json.read sampleText = none := by decide +kernel
        rw [show Json.textCodec.parse = Json.read from rfl, hnone] at hread
        cases hread
      rw [if_neg hne]
      exact hread
  dump_ne_nil := by
    intro j text h
    split at h
    · rw [← Option.some.inj h]
      decide +kernel
    · exact Json.textCodec.dump_ne_nil j text h
  dump_one_line := by
    intro j text h
    split at h
    · rw [← Option.some.inj h]
      decide +kernel
    · exact Json.textCodec.dump_one_line j text h

theorem failed_session_lost :
    ¬ ∀ (codec : JsonCodec) (timer : Timer Int) (doubles : Doubles (Nat × Nat))
    (calls : List (Call Int)), (startedIds calls).Nodup → ∀ st, run codec timer calls = some st →
      OutcomesKept codec doubles st.sessions (Ledger.run timer calls).ended := by
  intro h
  have hrun : (run sampleCodec sampleTimer [sampleStart, sampleFailure]).map (·.sessions) =
      some none := by
    decide +kernel
  obtain ⟨st, hst, hsessions⟩ := Option.map_eq_some_iff.mp hrun
  have hkept := h sampleCodec sampleTimer sampleDoubles [sampleStart, sampleFailure]
    (by decide) st hst
  have hended : (Ledger.run sampleTimer [sampleStart, sampleFailure]).ended =
      [⟨ascii "s-1", ascii "qa", .failed⟩] := by
    decide
  rw [hended, hsessions] at hkept
  obtain ⟨record, _, hone⟩ := hkept.recorded _ (List.mem_singleton_self _)
  exact absurd hone (by simp [loadSessions, Audit.fileLines])

end Euxis.Metrics
