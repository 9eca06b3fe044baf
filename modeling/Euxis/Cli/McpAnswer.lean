import Euxis.Cli.McpProvider
import Euxis.Json.Compact

/-!
# Which response the client takes

The loop over frames that are all well formed keeps the last message. The client's own call is the
one with the id 1, and the loop does not look at ids.
-/

namespace Euxis.Cli

open Mcp (stoull lengthHeader lengthLine headerLine)

/-! ## Frames on the wire -/

/-- A line of a header that does not give a length. -/
structure PlainHeader (line : Bytes) : Prop where
  ne_nil : line ≠ []
  cr_free : ch '\r' ∉ line
  lf_free : ch '\n' ∉ line
  other : ¬ lengthHeader <:+: line

/-- A message on the wire: its text, and the lines around the one with the length. -/
structure WireFrame (codec : JsonCodec) where
  message : Json
  body : Bytes
  before : List Bytes := []
  after : List Bytes := []
  parses : codec.parse body = some message
  before_plain : ∀ line ∈ before, PlainHeader line
  after_plain : ∀ line ∈ after, PlainHeader line

variable {codec : JsonCodec}

namespace WireFrame

def lines (f : WireFrame codec) : List Bytes := f.before ++ lengthLine f.body :: f.after

def text (f : WireFrame codec) : Bytes := f.lines.flatMap headerLine ++ (headerLine [] ++ f.body)

end WireFrame

/-- A line that a header block can hold. -/
def HeaderLine (line : Bytes) : Prop := line ≠ [] ∧ ch '\r' ∉ line

theorem cutAt_skip_line (line rest : Bytes) (h : ch '\r' ∉ line) :
    Records.cutAt blankLine (line ++ rest) = (Records.cutAt blankLine rest).map fun r =>
      (line ++ r.1, r.2) :=
  @Records.cutAt_skip _ _ (ch '\r') (ascii "\n\r\n") line rest h

theorem cutAt_skip_break (c : UInt8) (rest : Bytes) (h : c ≠ ch '\r') :
    Records.cutAt blankLine (ascii "\r\n" ++ c :: rest) =
      (Records.cutAt blankLine (c :: rest)).map fun r => (ascii "\r\n" ++ r.1, r.2) := by
  have hfeed := cutAt_skip_line [ch '\n'] (c :: rest) (by decide)
  have hbreak : ¬ blankLine.isPrefixOf (ch '\r' :: ch '\n' :: c :: rest) = true := by
    simp [blankLine, ascii, Ne.symm h]
  change Records.cutAt blankLine (ch '\r' :: ch '\n' :: c :: rest) = _
  rw [Records.cutAt, if_neg hbreak, ← List.singleton_append (x := ch '\n'), hfeed, Option.map_map]
  rfl

theorem cutAt_header (lines : List Bytes) (rest : Bytes) (hne : lines ≠ [])
    (h : ∀ line ∈ lines, HeaderLine line) :
    ∃ x, Records.cutAt blankLine (lines.flatMap headerLine ++ (headerLine [] ++ rest)) =
      some (x, rest) ∧ x.length + 2 = (lines.flatMap headerLine).length := by
  induction lines with
  | nil => exact absurd rfl hne
  | cons line lines ih =>
    have hline := h line List.mem_cons_self
    cases lines with
    | nil =>
      refine ⟨line, ?_, by simp [headerLine, ascii]⟩
      have htext : [line].flatMap headerLine ++ (headerLine [] ++ rest) = line ++
          (blankLine ++ rest) := by
        simp [headerLine, blankLine, ascii]
      have hfound : Records.cutAt blankLine (blankLine ++ rest) = some ([], rest) :=
        Records.cutAt_of_free (x := []) (by decide)
      rw [htext, cutAt_skip_line _ _ hline.2, hfound, Option.map_some, List.append_nil]
    | cons next more =>
      obtain ⟨x, hcut, hlen⟩ := ih (by simp) fun l hl => h l (List.mem_cons_of_mem _ hl)
      refine ⟨line ++ (ascii "\r\n" ++ x), ?_, ?_⟩
      · obtain ⟨c, tail, hc⟩ := List.exists_cons_of_ne_nil (h next (by simp)).1
        -- It starts a blank line only if another break follows, and no header begins with one.
        have hcr : c ≠ ch '\r' := by
          rintro rfl
          exact (h next (by simp)).2 (by simp [hc])
        have hnext : (next :: more).flatMap headerLine ++ (headerLine [] ++ rest) =
            c :: (tail ++ (ascii "\r\n" ++
              (more.flatMap headerLine ++ (headerLine [] ++ rest)))) := by
          simp [headerLine, hc]
        rw [List.flatMap_cons, List.append_assoc, headerLine, List.append_assoc,
          cutAt_skip_line _ _ hline.2, hnext, cutAt_skip_break c _ hcr, ← hnext, hcut]
        rfl
      · have hline : (headerLine line).length = line.length + 2 := by simp [headerLine, ascii]
        have hbreak : (ascii "\r\n").length = 2 := rfl
        rw [List.flatMap_cons]
        simp only [List.length_append, hline, hbreak, ← hlen]
        omega

theorem cutAt_lengthHeader (before : List Bytes) (rest : Bytes)
    (h : ∀ line ∈ before, PlainHeader line) :
    Records.cutAt lengthHeader (before.flatMap headerLine ++ (lengthHeader ++ rest)) =
      some (before.flatMap headerLine, rest) := by
  apply Records.cutAt_of_free
  have hcontains : Bytes.contains (before.flatMap headerLine ++ lengthHeader.dropLast)
      lengthHeader = false := by
    induction before with
    | nil => rfl
    | cons line before ih =>
      have htext : (line :: before).flatMap headerLine ++ lengthHeader.dropLast =
          (line ++ ch '\r' :: []) ++ ch '\n' ::
            (before.flatMap headerLine ++ lengthHeader.dropLast) := by
        simp [headerLine, ascii]
      have hline : Bytes.contains line lengthHeader = false :=
        decide_eq_false (h line List.mem_cons_self).other
      rw [htext, Lines.contains_append_cons (by decide), Lines.contains_append_cons (by decide),
        hline, ih fun l hl => h l (List.mem_cons_of_mem _ hl)]
      rfl
  exact of_decide_eq_false hcontains

/-! ## The loop over frames -/

namespace WireFrame

variable (f : WireFrame codec)

theorem headerLine_lines : ∀ line ∈ f.lines, HeaderLine line := by
  intro line hline
  rcases List.mem_append.mp hline with hbefore | hrest
  · exact ⟨(f.before_plain line hbefore).ne_nil, (f.before_plain line hbefore).cr_free⟩
  rcases List.mem_cons.mp hrest with rfl | hafter
  · refine ⟨by simp [lengthLine, lengthHeader, ascii], ?_⟩
    rw [lengthLine, List.mem_append, not_or]
    exact ⟨by decide, Bytes.decimal_not_mem _ _ (by decide)⟩
  · exact ⟨(f.after_plain line hafter).ne_nil, (f.after_plain line hafter).cr_free⟩

theorem declared_text (output rest : Bytes) (pos : Nat) (hdrop : output.drop pos = f.text ++ rest)
    (hsize : f.body.length < 2 ^ 64) :
    ∃ headerEnd, declared output pos = some (headerEnd, f.body.length) ∧
      headerEnd + 4 = pos + (f.lines.flatMap headerLine).length + 2 := by
  obtain ⟨x, hcut, hlen⟩ :=
    cutAt_header f.lines (f.body ++ rest) (by simp [lines]) f.headerLine_lines
  have hblank : findFrom output blankLine pos = some (pos + x.length) := by
    have htext : f.text ++ rest = f.lines.flatMap headerLine ++
        (headerLine [] ++ (f.body ++ rest)) := by
      simp [text, List.append_assoc]
    rw [findFrom, hdrop, htext, hcut]
    rfl
  obtain ⟨behind, hlines⟩ : ∃ behind, f.text ++ rest =
      f.before.flatMap headerLine ++
        (lengthHeader ++ (Bytes.decimal f.body.length ++ ch '\r' :: behind)) :=
    ⟨ch '\n' :: (f.after.flatMap headerLine ++ (headerLine [] ++ (f.body ++ rest))),
      by simp [text, lines, lengthLine, headerLine, ascii]⟩
  have hlength : findFrom output lengthHeader pos =
      some (pos + (f.before.flatMap headerLine).length) := by
    rw [findFrom, hdrop, hlines, cutAt_lengthHeader _ _ f.before_plain]
    rfl
  have hnumber : output.drop (pos + (f.before.flatMap headerLine).length + 16) =
      Bytes.decimal f.body.length ++ ch '\r' :: behind := by
    rw [Nat.add_assoc, ← List.drop_drop, hdrop, hlines, ← List.append_assoc,
      List.drop_left' (by simp; rfl)]
  -- The client compares the two places: the length has to stand before the blank line.
  have horder : ¬ pos + (f.before.flatMap headerLine).length > pos + x.length := by
    have hsplit : (f.lines.flatMap headerLine).length = (f.before.flatMap headerLine).length +
        ((headerLine (lengthLine f.body)).length + (f.after.flatMap headerLine).length) := by
      simp [lines]
    have hmin : 18 ≤ (headerLine (lengthLine f.body)).length := by
      simp [headerLine, lengthLine, lengthHeader, ascii]
    omega
  refine ⟨pos + x.length, ?_, by omega⟩
  unfold declared
  rw [hblank, hlength]
  simp only [if_neg horder, hnumber]
  rw [Mcp.stoull_decimal_append _ _ (Json.noDigitHead_cons _ _ (by decide)) hsize]
  rfl

theorem frameTurn_text (output rest : Bytes) (hsize : output.length < 2 ^ 64) (cursor : Cursor)
    (hdrop : output.drop cursor.pos = f.text ++ rest) :
    frameTurn codec output cursor =
      some { pos := cursor.pos + f.text.length, lastResponse := f.message } := by
  have htext : f.text.length = (f.lines.flatMap headerLine).length + (2 + f.body.length) := by
    simp [text, headerLine, ascii]
    omega
  have hlen := congrArg List.length hdrop
  rw [List.length_drop, List.length_append] at hlen
  obtain ⟨headerEnd, hdeclared, hend⟩ := f.declared_text output rest cursor.pos hdrop (by omega)
  have hbody : (output.drop (headerEnd + 4)).take f.body.length = f.body := by
    have hstart : headerEnd + 4 = cursor.pos + ((f.lines.flatMap headerLine).length + 2) := by omega
    have hsplit : f.text ++ rest = (f.lines.flatMap headerLine ++ headerLine []) ++
        (f.body ++ rest) := by
      simp [text]
    rw [hstart, ← List.drop_drop, hdrop, hsplit, List.drop_left' (by simp [headerLine, ascii]),
      List.take_left]
  have hsum : headerEnd + 4 + f.body.length = cursor.pos + f.text.length := by omega
  have hfit : (headerEnd + 4 + f.body.length) % 2 ^ 64 = cursor.pos + f.text.length := by
    rw [hsum, Nat.mod_eq_of_lt (by omega)]
  refine frameTurn_eq_some_iff.mpr ⟨headerEnd, f.body.length, hdeclared, by omega, ?_⟩
  rw [hfit, hbody, f.parses]
  rfl

end WireFrame

/-- What a server prints that sends these frames. -/
def printed (frames : List (WireFrame codec)) : Bytes := frames.flatMap WireFrame.text

theorem run_printed (frames : List (WireFrame codec)) (output : Bytes)
    (hsize : output.length < 2 ^ 64) (cursor : Cursor)
    (hdrop : output.drop cursor.pos = printed frames) :
    ∃ pos, Loop.run (frameTurn codec output) (frames.length + 1) cursor =
      some { pos, lastResponse := (frames.map (·.message)).getLast?.getD cursor.lastResponse } := by
  induction frames generalizing cursor with
  | nil =>
    have hend : output.length ≤ cursor.pos := List.drop_eq_nil_iff.mp hdrop
    refine ⟨cursor.pos, Loop.run_left ?_⟩
    rw [frameTurn, if_neg (by omega)]
  | cons f frames ih =>
    have hturn := f.frameTurn_text output (printed frames) hsize cursor hdrop
    have hrest : output.drop (cursor.pos + f.text.length) = printed frames := by
      rw [← List.drop_drop, hdrop]
      exact List.drop_left
    obtain ⟨pos, hrun⟩ := ih { pos := cursor.pos + f.text.length, lastResponse := f.message } hrest
    refine ⟨pos, (Loop.run_next hturn).trans (hrun.trans ?_)⟩
    cases frames with
    | nil => rfl
    | cons g frames => simp [List.getLast?_cons]

/-! ## The client's own answer -/

/-- What the server sends: one response to the call, and other messages around it. -/
structure Exchange (codec : JsonCodec) where
  before : List (WireFrame codec)
  response : WireFrame codec
  after : List (WireFrame codec)
  own : response.message.find (ascii "id") = some (.int 1)
  others : ∀ f ∈ before ++ after, f.message.IsObject ∧ f.message.find (ascii "id") ≠ some (.int 1)

namespace Exchange

variable (exchange : Exchange codec)

def frames : List (WireFrame codec) := exchange.before ++ exchange.response :: exchange.after

def output : Bytes := printed exchange.frames

/-- The last message that is sent. -/
def lastMessage : Json := (exchange.after.map (·.message)).getLast?.getD exchange.response.message

theorem getLast?_frames :
    (exchange.frames.map (·.message)).getLast? = some exchange.lastMessage := by
  unfold frames lastMessage
  rw [List.map_append, List.map_cons, List.getLast?_append, List.getLast?_cons]
  rfl

theorem isObject_lastMessage : exchange.lastMessage.IsObject := by
  unfold lastMessage
  cases hlast : (exchange.after.map (·.message)).getLast? with
  | none => exact Json.isObject_of_find exchange.own
  | some m =>
    obtain ⟨f, hf, rfl⟩ := List.mem_map.mp (List.mem_of_getLast? hlast)
    exact (exchange.others f (List.mem_append_right _ hf)).1

theorem output_ne_nil : exchange.output ≠ [] := by
  intro h
  have htext := List.flatMap_eq_nil_iff.mp h exchange.response (by simp [frames])
  simp [WireFrame.text, headerLine, ascii] at htext

end Exchange

/-- The result for a message. -/
def answer (codec : JsonCodec) (message : Json) : Except JsonError ProviderResponse :=
  respond codec [] message

theorem respond_of_isObject (output : Bytes) {message : Json} (h : message.IsObject) :
    respond codec output message = answer codec message := by
  obtain ⟨members, rfl⟩ := h.exists_members
  rfl

/-- The server is configured, the call can be written, and this is what the server's process
prints. -/
def Prints (world : Environment) (servers : List (Bytes × McpServerConfig))
    (serverName toolName : Bytes) (arguments : Json) (timeoutSeconds : Int) (output : Bytes) :
    Prop :=
  ∃ cfg body, servers.lookup serverName = some cfg ∧ cfg.command ≠ [] ∧
    world.codec.dump (callRequest toolName arguments) = some body ∧
    (launch world cfg timeoutSeconds body).stdoutOutput = output

section Execute

variable (world : Environment) {servers : List (Bytes × McpServerConfig)}
  {serverName toolName : Bytes}
  {arguments : Json} {timeoutSeconds : Int} (exchange : Exchange world.codec)
  (hprints : Prints world servers serverName toolName arguments timeoutSeconds exchange.output)
  (hsize : exchange.output.length < 2 ^ 64)

include hprints hsize

theorem execute_eq_iff (result : Except JsonError ProviderResponse) :
    (∃ fuel, execute world servers fuel serverName toolName arguments timeoutSeconds =
      some result) ↔ result = answer world.codec exchange.lastMessage := by
  obtain ⟨cfg, body, hlookup, hcommand, hdump, houtput⟩ := hprints
  have hexecute : ∀ fuel, execute world servers fuel serverName toolName arguments timeoutSeconds =
      (Loop.run (frameTurn world.codec exchange.output) fuel start).map fun cursor =>
        respond world.codec exchange.output cursor.lastResponse := by
    intro fuel
    unfold execute
    simp only [hlookup, if_neg hcommand, hdump, interpret, houtput, exchange.output_ne_nil,
      and_false, if_false]
  obtain ⟨pos, hrun⟩ := run_printed exchange.frames exchange.output hsize start rfl
  rw [exchange.getLast?_frames, Option.getD_some] at hrun
  constructor
  · rintro ⟨fuel, hfuel⟩
    rw [hexecute] at hfuel
    obtain ⟨cursor, hcursor, rfl⟩ := Option.map_eq_some_iff.mp hfuel
    rw [Loop.run_unique hcursor hrun]
    exact respond_of_isObject _ exchange.isObject_lastMessage
  · rintro rfl
    refine ⟨exchange.frames.length + 1, ?_⟩
    rw [hexecute, hrun, Option.map_some, respond_of_isObject _ exchange.isObject_lastMessage]

end Execute

/-- **The answer to the call.** The client returns what the response with its id says exactly when
no message follows that response, or the last one that follows gives the same result. -/
theorem own_answer_iff (world : Environment) (servers : List (Bytes × McpServerConfig))
    (serverName toolName : Bytes) (arguments : Json) (timeoutSeconds : Int)
    (exchange : Exchange world.codec)
    (hprints : Prints world servers serverName toolName arguments timeoutSeconds exchange.output)
    (hsize : exchange.output.length < 2 ^ 64) :
    (∃ fuel, execute world servers fuel serverName toolName arguments timeoutSeconds =
        some (answer world.codec exchange.response.message)) ↔
      ∀ f, exchange.after.getLast? = some f →
        answer world.codec f.message = answer world.codec exchange.response.message := by
  rw [execute_eq_iff world exchange hprints hsize, Exchange.lastMessage, List.getLast?_map]
  cases exchange.after.getLast? with
  | none => simp
  | some f => simp [eq_comm]

/-! ## Two servers -/

def plainFrame (message : Json) (h : Json.plain message = true) : WireFrame Json.plainCodec where
  message
  body := Json.write message
  parses := Json.plainCodec.parse_dump _ _ (Json.plainCodec_dump h)
  before_plain := by simp
  after_plain := by simp

def initialized : Json := .obj [(ascii "id", .int 0), (ascii "result", .obj [])]

def toolResult : Json :=
  .obj [(ascii "id", .int 1),
    (ascii "result", .obj [(ascii "content", .arr [.obj [(ascii "text", .str (ascii "42"))]])])]

def progress : Json := .obj [(ascii "method", .str (ascii "notifications/progress"))]

/-- The server answers the handshake and the call. -/
def quietExchange : Exchange Json.plainCodec where
  before := [plainFrame initialized rfl]
  response := plainFrame toolResult rfl
  after := []
  own := rfl
  others := by
    intro f hf
    obtain rfl := List.mem_singleton.mp hf
    exact ⟨trivial, nofun⟩

/-- The same server sends a notification after its answer. -/
def noisyExchange : Exchange Json.plainCodec where
  before := [plainFrame initialized rfl]
  response := plainFrame toolResult rfl
  after := [plainFrame progress rfl]
  own := rfl
  others := by
    intro f hf
    rcases List.mem_cons.mp hf with rfl | hf
    · exact ⟨trivial, nofun⟩
    · obtain rfl := List.mem_singleton.mp hf
      exact ⟨trivial, nofun⟩

def printing (output : Bytes) : Environment where
  codec := Json.plainCodec
  runWithInput _ _ _ _ _ := { exitCode := 0, stdoutOutput := output }
  handshake := []

def oneServer : List (Bytes × McpServerConfig) := [(ascii "s", { command := ascii "serve" })]

theorem prints_printing (output : Bytes) :
    Prints (printing output) oneServer (ascii "s") (ascii "t") (.obj []) 30 output :=
  ⟨{ command := ascii "serve" }, _, rfl, by decide, Json.plainCodec_dump (by decide), rfl⟩

theorem own_answer_when_last :
    ∃ fuel, execute (printing quietExchange.output) oneServer fuel (ascii "s") (ascii "t")
      (.obj []) 30 = some (answer Json.plainCodec toolResult) :=
  (own_answer_iff (printing quietExchange.output) oneServer (ascii "s") (ascii "t") (.obj []) 30
    quietExchange
    (prints_printing _) (by decide +kernel)).mpr nofun

theorem notification_replaces_answer :
    Prints (printing noisyExchange.output) oneServer (ascii "s") (ascii "t") (.obj []) 30
      noisyExchange.output ∧
      ¬ ∃ fuel, execute (printing noisyExchange.output) oneServer fuel (ascii "s") (ascii "t")
        (.obj []) 30 = some (answer Json.plainCodec noisyExchange.response.message) := by
  refine ⟨prints_printing _, fun h => ?_⟩
  have hsame := (execute_eq_iff (printing noisyExchange.output) noisyExchange (prints_printing _)
    (by decide +kernel) _).mp h
  have htext : answer Json.plainCodec toolResult =
      .ok { success := true, output := ascii "42", exitCode := 0 } := rfl
  have hprogress : answer Json.plainCodec progress =
      .ok { success := true, output := Json.write progress, exitCode := 0 } := rfl
  have houtput := htext.symm.trans (hsame.trans hprogress)
  exact absurd (congrArg ProviderResponse.output (Except.ok.inj houtput)) (by decide)

end Euxis.Cli
