import Euxis.Json.Msgpack
import Euxis.Json.RoundTrip
import Euxis.Lines
import Euxis.Trace

/-!
# The fast collector

`libs/metrics/src/fast_collector.cpp`: threads put events into a bounded buffer, and a flush takes
all of them out and appends them to a file, line by line. A background thread flushes until it is
told to stop; so does whoever calls `flush` or `shutdown`. The file can be opened, and a text
reaches it in pieces of any size.
-/

namespace Euxis.Metrics.Fast

/-- The timestamp is the text of a double. -/
structure MetricEvent where
  eventType : Bytes
  timestamp : Bytes
  properties : Json

def MetricEvent.toJson (e : MetricEvent) : Json :=
  .obj [(ascii "event_type", .str e.eventType), (ascii "properties", e.properties),
    (ascii "timestamp", .float e.timestamp)]

/-- `FastMetricsBuffer::append`: a full buffer loses its oldest event. -/
def append (maxSize : Nat) (buffer : List MetricEvent) (e : MetricEvent) : List MetricEvent :=
  if maxSize ≤ buffer.length then buffer.tail ++ [e] else buffer ++ [e]

/-- The lines that `write_jsonl` writes: an event without a text ends the batch. -/
def writeJsonl (codec : JsonCodec) : List MetricEvent → List Bytes
  | [] => []
  | e :: rest =>
    match codec.dump e.toJson with
    | none => []
    | some line => line :: writeJsonl codec rest

/-- Where the background thread is: `none` if it was never started or has been joined. -/
inductive Loop where
  | none
  | checking
  | sleeping
  | writing (rest : Bytes)
  | ended

/-- What happened under the lock of the buffer. -/
inductive Entry where
  | append (e : MetricEvent)
  | drain

/-- `caller` is what a call of `flush` has still to write, and `log` the order in which the lock was
taken. -/
structure Collector where
  buffer : List MetricEvent := []
  shutdown : Bool := false
  loop : Loop := .none
  caller : Option Bytes := none
  file : Bytes := []
  log : List Entry := []

inductive Action where
  | record (e : MetricEvent)
  | startBackgroundFlush
  | check
  | wake
  | loopWrite (n : Nat)
  | loopDone
  | flush
  | write (n : Nat)
  | done
  | storeShutdown
  | join

section

variable (codec : JsonCodec) (maxSize : Nat)

def Collector.drainText (c : Collector) : Bytes := Lines.text (writeJsonl codec c.buffer)

def step (c : Collector) : Action → Option Collector
  | .record e => some { c with buffer := append maxSize c.buffer e, log := c.log ++ [.append e] }
  | .startBackgroundFlush =>
    match c.loop with
    | .none => some { c with loop := .checking }
    | _ => some c
  | .check =>
    match c.loop with
    | .checking => some { c with loop := if c.shutdown then .ended else .sleeping }
    | _ => none
  | .wake =>
    match c.loop with
    | .sleeping =>
      some { c with buffer := [], loop := .writing (c.drainText codec), log := c.log ++ [.drain] }
    | _ => none
  | .loopWrite n =>
    match c.loop with
    | .writing rest => some { c with file := c.file ++ rest.take n, loop := .writing (rest.drop n) }
    | _ => none
  | .loopDone =>
    match c.loop with
    | .writing [] => some { c with loop := .checking }
    | _ => none
  | .flush =>
    match c.caller with
    | none =>
      some { c with buffer := [], caller := some (c.drainText codec), log := c.log ++ [.drain] }
    | some _ => none
  | .write n =>
    match c.caller with
    | some rest => some { c with file := c.file ++ rest.take n, caller := some (rest.drop n) }
    | none => none
  | .done =>
    match c.caller with
    | some [] => some { c with caller := none }
    | _ => none
  | .storeShutdown => some { c with shutdown := true }
  | .join =>
    match c.loop with
    | .none => some c
    | .ended => some { c with loop := .none }
    | _ => none

end

/-- Two flushes do not write at the same time. -/
def Apart (c : Collector) : Action → Prop
  | .wake => c.caller = none
  | .flush => ∀ rest, c.loop ≠ .writing rest
  | _ => True

/-! ## What the log says -/

/-- The events between two drains, and those since the last one. -/
def stretches (log : List Entry) : List (List MetricEvent) × List MetricEvent :=
  log.foldl (fun s e =>
    match e with
    | .append e => (s.1, s.2 ++ [e])
    | .drain => (s.1 ++ [s.2], [])) ([], [])

def appended (log : List Entry) : List MetricEvent :=
  log.filterMap fun
    | .append e => some e
    | .drain => none

/-- The last `n`. -/
def newest (n : Nat) (l : List MetricEvent) : List MetricEvent := l.drop (l.length - n)

theorem stretches_append (log : List Entry) (e : MetricEvent) :
    stretches (log ++ [.append e]) = ((stretches log).1, (stretches log).2 ++ [e]) := by
  rw [stretches, List.foldl_concat]
  rfl

theorem stretches_drain (log : List Entry) :
    stretches (log ++ [.drain]) = ((stretches log).1 ++ [(stretches log).2], []) := by
  rw [stretches, List.foldl_concat]
  rfl

theorem appended_eq (log : List Entry) :
    appended log = (stretches log).1.flatten ++ (stretches log).2 := by
  induction log using List.reverseRecOn with
  | nil => rfl
  | append_singleton log e ih =>
    rw [appended, List.filterMap_append, ← appended, ih]
    cases e with
    | append e => rw [stretches_append, List.append_assoc]; rfl
    | drain => rw [stretches_drain, List.flatten_append]; simp

theorem append_newest {n : Nat} (hn : 0 < n) (l : List MetricEvent) (e : MetricEvent) :
    append n (newest n l) e = newest n (l ++ [e]) := by
  unfold append newest
  rw [List.length_drop, List.length_append, List.length_singleton]
  split
  · rename_i h
    rw [List.tail_drop, ← List.drop_append_of_le_length (by omega)]
    congr 1
    omega
  · rename_i h
    have h0 : l.length - n = 0 := by omega
    have h1 : l.length + 1 - n = 0 := by omega
    rw [h0, h1, List.drop_zero, List.drop_zero]

theorem newest_of_le {n : Nat} {l : List MetricEvent} (h : l.length ≤ n) : newest n l = l := by
  rw [newest, Nat.sub_eq_zero_of_le h, List.drop_zero]

/-! ## Runs -/

def Loop.isWriting : Loop → Bool
  | .writing _ => true
  | _ => false

/-- What a flush has taken out and not yet written. -/
def Collector.rest (c : Collector) : Bytes :=
  match c.loop with
  | .writing rest => rest
  | _ => c.caller.getD []

section

variable (codec : JsonCodec) (maxSize : Nat)

/-- The lines that the drains of a log give. -/
def written (log : List Entry) : List Bytes :=
  (stretches log).1.flatMap fun events => writeJsonl codec (newest maxSize events)

structure Logged (c : Collector) : Prop where
  apart : c.loop.isWriting = true → c.caller = none
  buffer : c.buffer = newest maxSize (stretches c.log).2
  file : c.file ++ c.rest = Lines.text (written codec maxSize c.log)

variable {codec maxSize}

theorem rest_of_not_writing {c : Collector} (h : c.loop.isWriting = false) :
    c.rest = c.caller.getD [] := by
  unfold Collector.rest
  split
  · rename_i hloop
    rw [hloop] at h
    cases h
  · rfl

theorem written_append (log : List Entry) (e : MetricEvent) :
    written codec maxSize (log ++ [.append e]) = written codec maxSize log := by
  rw [written, stretches_append]
  rfl

theorem text_written_drain (log : List Entry) :
    Lines.text (written codec maxSize (log ++ [.drain])) =
    Lines.text (written codec maxSize log) ++
      Lines.text (writeJsonl codec (newest maxSize (stretches log).2)) := by
  rw [written, stretches_drain, List.flatMap_append, List.flatMap_singleton, Lines.text,
    List.flatMap_append]
  rfl

theorem Logged.drained {c : Collector} (h : Logged codec maxSize c) (hnone : c.caller = none)
    (hloop : c.loop.isWriting = false) :
    c.file ++ c.drainText codec = Lines.text (written codec maxSize (c.log ++ [.drain])) := by
  have hfile := h.file
  rw [rest_of_not_writing hloop, hnone, Option.getD_none, List.append_nil] at hfile
  rw [text_written_drain, ← hfile, Collector.drainText, h.buffer]

theorem Logged.not_writing {c : Collector} (h : Logged codec maxSize c) {rest : Bytes}
    (hcaller : c.caller = some rest) : c.loop.isWriting = false := by
  cases hw : c.loop.isWriting with
  | true =>
    rw [h.apart hw] at hcaller
    cases hcaller
  | false => rfl

theorem Logged.moved {c : Collector} (h : Logged codec maxSize c) (hloop : c.loop.isWriting = false)
    {loop : Loop} (hmoved : loop.isWriting = false) :
    Logged codec maxSize { c with loop := loop } := by
  refine ⟨fun hw => absurd (hmoved.symm.trans hw) Bool.false_ne_true, h.buffer, ?_⟩
  have hfile := h.file
  rw [rest_of_not_writing hloop] at hfile
  rw [rest_of_not_writing]
  · exact hfile
  · exact hmoved

theorem isWriting_false {loop : Loop} (h : ∀ rest, loop ≠ .writing rest) :
    loop.isWriting = false := by
  cases loop with
  | writing rest => exact absurd rfl (h rest)
  | none | checking | sleeping | ended => rfl

theorem Logged.recorded {c : Collector} (h : Logged codec maxSize c) (hmax : 0 < maxSize)
    (e : MetricEvent) :
    Logged codec maxSize
      { c with buffer := append maxSize c.buffer e, log := c.log ++ [.append e] } := by
  refine ⟨h.apart, ?_, ?_⟩
  · rw [stretches_append, h.buffer, append_newest hmax]
  · rw [written_append]
    exact h.file

theorem newest_drained (log : List Entry) :
    newest maxSize (stretches (log ++ [.drain])).2 = [] := by
  rw [stretches_drain, newest, List.drop_nil]

theorem Logged.woken {c : Collector} (h : Logged codec maxSize c) (hnone : c.caller = none)
    (hloop : c.loop.isWriting = false) :
    Logged codec maxSize
      { c with buffer := [], loop := .writing (c.drainText codec), log := c.log ++ [.drain] } :=
  ⟨fun _ => hnone, (newest_drained c.log).symm, h.drained hnone hloop⟩

theorem Logged.flushed {c : Collector} (h : Logged codec maxSize c) (hnone : c.caller = none)
    (hloop : c.loop.isWriting = false) :
    Logged codec maxSize
      { c with buffer := [], caller := some (c.drainText codec), log := c.log ++ [.drain] } := by
  refine ⟨fun hw => absurd (hloop.symm.trans hw) Bool.false_ne_true,
    (newest_drained c.log).symm, ?_⟩
  rw [rest_of_not_writing]
  · exact h.drained hnone hloop
  · exact hloop

theorem Logged.loopWrote {c : Collector} (h : Logged codec maxSize c) {rest : Bytes}
    (hloop : c.loop = .writing rest) (n : Nat) :
    Logged codec maxSize
      { c with file := c.file ++ rest.take n, loop := .writing (rest.drop n) } := by
  refine ⟨fun _ => h.apart (by rw [hloop]; rfl), h.buffer, ?_⟩
  have hrest : c.rest = rest := by simp only [Collector.rest, hloop]
  have hfile := h.file
  rw [hrest] at hfile
  simp only [Collector.rest]
  rw [List.append_assoc, List.take_append_drop, hfile]

theorem Logged.wrote {c : Collector} (h : Logged codec maxSize c) {rest : Bytes}
    (hcaller : c.caller = some rest) (n : Nat) :
    Logged codec maxSize
      { c with file := c.file ++ rest.take n, caller := some (rest.drop n) } := by
  have hloop := h.not_writing hcaller
  have hfile := h.file
  rw [rest_of_not_writing hloop, hcaller, Option.getD_some] at hfile
  refine ⟨fun hw => absurd (hloop.symm.trans hw) Bool.false_ne_true, h.buffer, ?_⟩
  rw [rest_of_not_writing]
  · dsimp only
    rw [Option.getD_some, List.append_assoc, List.take_append_drop, hfile]
  · exact hloop

theorem Logged.loopDone {c : Collector} (h : Logged codec maxSize c)
    (hloop : c.loop = .writing []) :
    Logged codec maxSize { c with loop := .checking } := by
  have hnone := h.apart (by rw [hloop]; rfl)
  have hrest : c.rest = [] := by simp only [Collector.rest, hloop]
  have hfile := h.file
  rw [hrest] at hfile
  refine ⟨fun hw => absurd hw Bool.false_ne_true, h.buffer, ?_⟩
  rw [rest_of_not_writing rfl, hnone]
  exact hfile

theorem Logged.callerDone {c : Collector} (h : Logged codec maxSize c)
    (hcaller : c.caller = some []) :
    Logged codec maxSize { c with caller := none } := by
  have hloop := h.not_writing hcaller
  have hfile := h.file
  rw [rest_of_not_writing hloop, hcaller] at hfile
  refine ⟨fun _ => rfl, h.buffer, ?_⟩
  rw [rest_of_not_writing]
  · exact hfile
  · exact hloop

theorem step_logged {c c' : Collector} {a : Action} (hmax : 0 < maxSize)
    (h : Logged codec maxSize c) (hok : Apart c a) (hstep : step codec maxSize c a = some c') :
    Logged codec maxSize c' := by
  cases a with
  | record e =>
    cases hstep
    exact h.recorded hmax e
  | startBackgroundFlush =>
    simp only [step] at hstep
    split at hstep
    · rename_i hloop
      cases hstep
      exact h.moved (by rw [hloop]; rfl) rfl
    · cases hstep
      exact h
  | check =>
    simp only [step] at hstep
    split at hstep
    · rename_i hloop
      cases hstep
      exact h.moved (by rw [hloop]; rfl) (by split <;> rfl)
    · cases hstep
  | wake =>
    simp only [step] at hstep
    split at hstep
    · rename_i hloop
      cases hstep
      exact h.woken hok (by rw [hloop]; rfl)
    · cases hstep
  | loopWrite n =>
    simp only [step] at hstep
    split at hstep
    · rename_i rest hloop
      cases hstep
      exact h.loopWrote hloop n
    · cases hstep
  | loopDone =>
    simp only [step] at hstep
    split at hstep
    · rename_i hloop
      cases hstep
      exact h.loopDone hloop
    · cases hstep
  | flush =>
    simp only [step] at hstep
    split at hstep
    · rename_i hnone
      cases hstep
      -- The condition keeps a flush from starting while the background thread is writing.
      exact h.flushed hnone (isWriting_false hok)
    · cases hstep
  | write n =>
    simp only [step] at hstep
    split at hstep
    · rename_i rest hcaller
      cases hstep
      exact h.wrote hcaller n
    · cases hstep
  | done =>
    simp only [step] at hstep
    split at hstep
    · rename_i hcaller
      cases hstep
      exact h.callerDone hcaller
    · cases hstep
  | storeShutdown =>
    cases hstep
    exact ⟨h.apart, h.buffer, h.file⟩
  | join =>
    simp only [step] at hstep
    split at hstep
    · cases hstep
      exact h
    · rename_i hloop
      cases hstep
      exact h.moved (by rw [hloop]; rfl) rfl
    · cases hstep

/-! ## Reading the file back -/

theorem writeJsonl_clean (events : List MetricEvent) :
    ∀ line ∈ writeJsonl codec events, Lines.Clean line := by
  induction events with
  | nil => exact fun line h => absurd h List.not_mem_nil
  | cons e rest ih =>
    intro line hline
    unfold writeJsonl at hline
    split at hline
    · exact absurd hline List.not_mem_nil
    · rename_i text hdump
      rcases List.mem_cons.mp hline with rfl | hline
      · exact ⟨codec.dump_ne_nil _ _ hdump, codec.dump_one_line _ _ hdump⟩
      · exact ih line hline

theorem writeJsonl_parses (events : List MetricEvent)
    (h : ∀ e ∈ events, (codec.dump e.toJson).isSome = true) :
    (writeJsonl codec events).filterMap codec.parse = events.map MetricEvent.toJson := by
  induction events with
  | nil => rfl
  | cons e rest ih =>
    obtain ⟨text, hdump⟩ := Option.isSome_iff_exists.mp (h e List.mem_cons_self)
    unfold writeJsonl
    simp only [hdump]
    rw [List.filterMap_cons_some (codec.parse_dump _ _ hdump),
      ih fun e' he' => h e' (List.mem_cons_of_mem e he'), List.map_cons]

theorem written_parses {log : List Entry}
    (hdump : ∀ e ∈ appended log, (codec.dump e.toJson).isSome = true)
    (hshort : ∀ events ∈ (stretches log).1, events.length ≤ maxSize) :
    (written codec maxSize log).filterMap codec.parse =
      (stretches log).1.flatten.map MetricEvent.toJson := by
  rw [appended_eq] at hdump
  rw [written]
  generalize (stretches log).1 = closed at hdump hshort
  induction closed with
  | nil => rfl
  | cons events closed ih =>
    have hevents : ∀ e ∈ events, (codec.dump e.toJson).isSome = true := by
      intro e he
      exact hdump e (List.mem_append_left _ (List.mem_append_left _ he))
    rw [List.flatMap_cons, List.filterMap_append, newest_of_le (hshort events List.mem_cons_self),
      writeJsonl_parses events hevents, ih, List.flatten_cons, List.map_append]
    · intro e he
      rw [List.flatten_cons, List.append_assoc] at hdump
      exact hdump e (List.mem_append_right _ he)
    · exact fun events' h' => hshort events' (List.mem_cons_of_mem events h')

/-- In every interleaving of recording threads with the flushes of the background thread and of
callers, the buffer has the newest events since the last drain, and the file, with what a flush has
still to write, exactly the newest events of each stretch between two drains, up to one without a
text, in order. Where no stretch is longer than the buffer and every event has a text, nothing is
lost: the lines of the file and the buffer together are everything that was recorded. -/
theorem reaches_logged {c : Collector} (hmax : 0 < maxSize)
    (hreach : Trace.Reaches (step codec maxSize) Apart {} c) :
    c.buffer = newest maxSize (stretches c.log).2 ∧
      c.file ++ c.rest = Lines.text (written codec maxSize c.log) ∧
      ((∀ e ∈ appended c.log, (codec.dump e.toJson).isSome = true) →
        (∀ events ∈ (stretches c.log).1 ++ [(stretches c.log).2], events.length ≤ maxSize) →
        c.rest = [] →
        (Lines.nonEmpty c.file).filterMap codec.parse ++ c.buffer.map MetricEvent.toJson =
          (appended c.log).map MetricEvent.toJson) := by
  have hlogged : Logged codec maxSize c := by
    refine hreach.keeps (Logged codec maxSize) ?_ fun _ _ _ hs hok hstep =>
      step_logged hmax hs hok hstep
    exact ⟨fun _ => rfl, List.drop_nil.symm, rfl⟩
  refine ⟨hlogged.buffer, hlogged.file, ?_⟩
  intro hdump hshort hrest
  have hfile := hlogged.file
  rw [hrest, List.append_nil] at hfile
  have hclean : ∀ line ∈ written codec maxSize c.log, Lines.Clean line := by
    intro line hline
    obtain ⟨events, -, hevents⟩ := List.mem_flatMap.mp hline
    exact writeJsonl_clean _ line hevents
  have hopen : newest maxSize (stretches c.log).2 = (stretches c.log).2 :=
    newest_of_le (hshort _ (List.mem_append_right _ (List.mem_singleton_self _)))
  rw [hfile, Lines.nonEmpty_text _ hclean, hlogged.buffer, hopen, appended_eq, List.map_append,
    written_parses hdump fun events h => hshort events (List.mem_append_left _ h)]

end

def sampleEvent : MetricEvent := ⟨ascii "metric", ascii "1.5", .null⟩

/-- The codec of one event, which has a float. -/
def sampleCodec : JsonCodec where
  dump j := if Json.write (Json.tag j) = Json.write (Json.tag sampleEvent.toJson) then
    some (Json.write sampleEvent.toJson) else none
  parse text := if text = Json.write sampleEvent.toJson then some sampleEvent.toJson else none
  parse_dump := by
    intro j text h
    split at h
    · rename_i heq
      have hj := Json.read_write _ (Json.plain_tag j)
      rw [heq, Json.read_write _ (Json.plain_tag sampleEvent.toJson)] at hj
      have hsame : j = sampleEvent.toJson := by
        rw [← Json.untag_tag j, ← Option.some.inj hj, Json.untag_tag]
      rw [if_pos (Option.some.inj h).symm, hsame]
    · cases h
  dump_ne_nil := by
    intro j text h
    split at h
    · rw [← Option.some.inj h]
      decide +kernel
    · cases h
  dump_one_line := by
    intro j text h
    split at h
    · rw [← Option.some.inj h]
      decide +kernel
    · cases h

theorem sampleCodec_dump :
    sampleCodec.dump sampleEvent.toJson = some (Json.write sampleEvent.toJson) := by
  simp [sampleCodec]

/-- A flush has taken an event out of the buffer. -/
def sampleFlushed : Collector where
  caller := some (Lines.text [Json.write sampleEvent.toJson])
  log := [.append sampleEvent, .drain]

/-- The event is written, and another one is recorded. -/
def sampleCollector : Collector where
  buffer := [sampleEvent]
  file := Lines.text [Json.write sampleEvent.toJson]
  log := [.append sampleEvent, .drain, .append sampleEvent]

theorem sampleFlushed_reached : Trace.Reaches (step sampleCodec 2) Apart {} sampleFlushed := by
  have hdrain : Lines.text [Json.write sampleEvent.toJson] =
      Lines.text (writeJsonl sampleCodec [sampleEvent]) := by
    simp only [writeJsonl, sampleCodec_dump]
  rw [sampleFlushed, hdrain]
  exact (Trace.Reaches.start.next (.record sampleEvent) trivial rfl).next .flush
    (fun _ h => Loop.noConfusion h) rfl

theorem sampleCollector_reached : Trace.Reaches (step sampleCodec 2) Apart {} sampleCollector := by
  have hwritten := sampleFlushed_reached.next (Action.write 100) trivial rfl
  have hdone := hwritten.next Action.done trivial rfl
  exact hdone.next (Action.record sampleEvent) trivial rfl

theorem sampleCollector_logged :
    (Lines.nonEmpty (Lines.text [Json.write sampleEvent.toJson])).filterMap sampleCodec.parse ++
      [sampleEvent].map MetricEvent.toJson = [sampleEvent, sampleEvent].map MetricEvent.toJson := by
  refine (reaches_logged (by decide) sampleCollector_reached).2.2 ?_ ?_ rfl
  · intro e he
    have : e = sampleEvent := by simpa [appended, sampleCollector] using he
    rw [this, sampleCodec_dump]
    rfl
  · decide

end Euxis.Metrics.Fast
