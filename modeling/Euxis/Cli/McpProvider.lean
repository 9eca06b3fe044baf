import Euxis.Json.Access
import Euxis.Loop
import Euxis.Lines
import Euxis.Mcp.Stdio
import Euxis.Records

/-!
# Tools of an external server: `apps/cli/src/mcp_provider.cpp`

The client starts the server's process, writes three requests to it and reads all that it prints.
What it prints is a sequence of frames, and the loop over them computes its positions in 64 bits.
-/

namespace Euxis.Cli

open Mcp (stoull lengthHeader lengthLine headerLine)

/-! ## The client -/

structure McpServerConfig where
  command : Bytes := []
  args : List Bytes := []
  env : List Bytes := []
  timeoutSeconds : Int := 30
  deriving DecidableEq, Repr

/-- No call of the client sets a reason for a failure, or a duration. -/
structure ProviderResponse where
  success : Bool := false
  output : Bytes := []
  error : Bytes := []
  exitCode : Int := -1
  deriving DecidableEq, Repr

structure ProcessResult where
  exitCode : Int := -1
  stdoutOutput : Bytes := []
  stderrOutput : Bytes := []
  deriving DecidableEq, Repr

/-- What the client uses besides its own code: the JSON library, `Process::run_with_input`, and the
text of the two frames that open a session. -/
structure Environment where
  codec : JsonCodec
  runWithInput : Bytes → List Bytes → Bytes → Int → List (Bytes × Bytes) → ProcessResult
  handshake : Bytes

/-- `output.find(needle, pos)`. -/
def findFrom (output needle : Bytes) (pos : Nat) : Option Nat :=
  (Records.cutAt needle (output.drop pos)).map fun found => pos + found.1.length

def blankLine : Bytes := ascii "\r\n\r\n"

/-- Where the header at `pos` ends, and the length that it gives. -/
def declared (output : Bytes) (pos : Nat) : Option (Nat × Nat) :=
  match findFrom output blankLine pos with
  | none => none
  | some headerEnd =>
    match findFrom output lengthHeader pos with
    | none => none
    | some clPos =>
      if clPos > headerEnd then none
      else (stoull (output.drop (clPos + 16))).map fun clVal => (headerEnd, clVal)

/-- The state of the loop. -/
structure Cursor where
  pos : Nat
  lastResponse : Json

/-- One turn of the loop, or nothing where it is left. The sum of the start of the body and its
length is one of 64 bits. -/
def frameTurn (codec : JsonCodec) (output : Bytes) (cursor : Cursor) : Option Cursor :=
  if cursor.pos < output.length then
    match declared output cursor.pos with
    | none => none
    | some (headerEnd, clVal) =>
      let bodyStart := headerEnd + 4
      if (bodyStart + clVal) % 2 ^ 64 > output.length then none
      else
        let responseBody := (output.drop bodyStart).take clVal
        some
          { pos := (bodyStart + clVal) % 2 ^ 64
            lastResponse := (codec.parse responseBody).getD cursor.lastResponse }
  else none

def start : Cursor := { pos := 0, lastResponse := .null }

/-- `dump()`, which throws on text that is not UTF-8. -/
def dumpOrThrow (codec : JsonCodec) (j : Json) : Except JsonError Bytes :=
  match codec.dump j with
  | none => .error .typeError
  | some text => .ok text

/-- The texts of a result's content, one after the other. -/
def contentText : List Json → Except JsonError Bytes
  | [] => .ok []
  | c :: rest =>
    match c.find (ascii "text") with
    | none => contentText rest
    | some text => text.getStr >>= fun s => (contentText rest).map (s ++ ·)

/-- What the client makes of the response that it took. -/
def respond (codec : JsonCodec) (output : Bytes) (lastResponse : Json) :
    Except JsonError ProviderResponse :=
  match lastResponse with
  | .null => .ok { output, error := ascii "failed to parse MCP response", exitCode := 1 }
  | _ =>
    match lastResponse.find (ascii "error") with
    | some error =>
      (dumpOrThrow codec error).map fun text =>
        { error := ascii "MCP error: " ++ text, exitCode := 1 }
    | none =>
      match lastResponse.find (ascii "result") with
      | some r =>
        match r.find (ascii "content") with
        | some (.arr items) =>
          (contentText items).map fun output => { success := true, output, exitCode := 0 }
        | _ => (dumpOrThrow codec r).map fun output => { success := true, output, exitCode := 0 }
      | none =>
        (dumpOrThrow codec lastResponse).map fun output =>
          { success := true, output, exitCode := 0 }

/-- The rest of `execute`, after the process ended. Nothing where the loop takes more turns than the
fuel. -/
def interpret (codec : JsonCodec) (fuel : Nat) (result : ProcessResult) :
    Option (Except JsonError ProviderResponse) :=
  if result.exitCode ≠ 0 ∧ result.stdoutOutput = [] then
    some (.ok { error := ascii "MCP server failed: " ++ result.stderrOutput,
                exitCode := result.exitCode })
  else
    (Loop.run (frameTurn codec result.stdoutOutput) fuel start).map fun cursor =>
      respond codec result.stdoutOutput cursor.lastResponse

def callRequest (toolName : Bytes) (arguments : Json) : Json :=
  .object [(ascii "jsonrpc", .str (ascii "2.0")), (ascii "id", .int 1),
    (ascii "method", .str (ascii "tools/call")),
    (ascii "params", .object [(ascii "name", .str toolName), (ascii "arguments", arguments)])]

def allowedKeyChars : Bytes :=
  ascii "ABCDEFGHIJKLMNOPQRSTUVWXYZabcdefghijklmnopqrstuvwxyz0123456789_"

/-- The variables of the server's environment, without those that a shell could read otherwise. A
later one replaces an earlier one of its name. -/
def envMap (env : List Bytes) : List (Bytes × Bytes) :=
  env.foldl (fun vars e =>
    match Bytes.cut (ch '=') e with
    | none => vars
    | some (key, val) =>
      if key.any (· ∉ allowedKeyChars) then vars
      else if val.any (· ∈ ascii "`$;|\n\r" ++ [0]) then vars
      else (key, val) :: vars.filter (·.1 ≠ key)) []

/-- The server's process, with the call behind the frames that open the session. -/
def launch (world : Environment) (cfg : McpServerConfig) (timeoutSeconds : Int) (body : Bytes) :
    ProcessResult :=
  world.runWithInput cfg.command cfg.args (world.handshake ++ Mcp.frameText body)
    (if timeoutSeconds > 0 then timeoutSeconds else cfg.timeoutSeconds) (envMap cfg.env)

def execute (world : Environment) (servers : List (Bytes × McpServerConfig)) (fuel : Nat)
    (serverName toolName : Bytes) (arguments : Json) (timeoutSeconds : Int) :
    Option (Except JsonError ProviderResponse) :=
  match servers.lookup serverName with
  | none => some (.ok { error := ascii "unknown MCP server: " ++ serverName, exitCode := 1 })
  | some cfg =>
    if cfg.command = [] then
      some (.ok { error := ascii "MCP server has no command: " ++ serverName, exitCode := 1 })
    else
      match world.codec.dump (callRequest toolName arguments) with
      | none => some (.error .typeError)
      | some body => interpret world.codec fuel (launch world cfg timeoutSeconds body)

/-! ## Where the loop goes -/

section Turn

variable {codec : JsonCodec} {output : Bytes}

theorem findFrom_bounds {needle : Bytes} {pos place : Nat} (hne : needle ≠ [])
    (h : findFrom output needle pos = some place) :
    pos ≤ place ∧ place + needle.length ≤ output.length := by
  obtain ⟨found, hcut, rfl⟩ := Option.map_eq_some_iff.mp h
  have htext := congrArg List.length (Records.cutAt_some (x := found.1) (y := found.2) hcut)
  simp only [List.length_drop, List.length_append] at htext
  have hpos := List.length_pos_of_ne_nil hne
  omega

theorem declared_bounds {pos headerEnd clVal : Nat}
    (h : declared output pos = some (headerEnd, clVal)) :
    pos ≤ headerEnd ∧ headerEnd + 4 ≤ output.length ∧ clVal < 2 ^ 64 := by
  unfold declared at h
  split at h
  · cases h
  · rename_i place hplace
    split at h
    · cases h
    · split at h
      · cases h
      · obtain ⟨n, hn, hpair⟩ := Option.map_eq_some_iff.mp h
        obtain ⟨rfl, rfl⟩ := Prod.mk.inj hpair
        obtain ⟨hle, hend⟩ := findFrom_bounds (by decide) hplace
        exact ⟨hle, hend, Mcp.stoull_lt hn⟩

theorem frameTurn_eq_some_iff {cursor next : Cursor} :
    frameTurn codec output cursor = some next ↔
      ∃ headerEnd clVal, declared output cursor.pos = some (headerEnd, clVal) ∧
        (headerEnd + 4 + clVal) % 2 ^ 64 ≤ output.length ∧
        next = { pos := (headerEnd + 4 + clVal) % 2 ^ 64
                 lastResponse := (codec.parse ((output.drop (headerEnd + 4)).take clVal)).getD
                   cursor.lastResponse } := by
  unfold frameTurn
  cases hdeclared : declared output cursor.pos with
  | none => simp
  | some found =>
    obtain ⟨headerEnd, clVal⟩ := found
    have hbounds := declared_bounds hdeclared
    rw [if_pos (by omega)]
    simp only [gt_iff_lt, Option.some.injEq, Prod.mk.injEq]
    constructor
    · intro h
      split at h
      · cases h
      · rename_i hle
        exact ⟨headerEnd, clVal, ⟨rfl, rfl⟩, Nat.le_of_not_lt hle, (Option.some.inj h).symm⟩
    · rintro ⟨_, _, ⟨rfl, rfl⟩, hle, rfl⟩
      rw [if_neg (Nat.not_lt.mpr hle)]

theorem wrapped {n : Nat} (hwrap : 2 ^ 64 ≤ n) (hlt : n < 2 ^ 64 + 2 ^ 64) :
    n % 2 ^ 64 = n - 2 ^ 64 := by
  rw [Nat.mod_eq_sub_mod hwrap, Nat.mod_eq_of_lt (by omega)]

/-- The length at this position leads past 2 to the 64, and not beyond the position again. -/
def WrapsBack (output : Bytes) (pos : Nat) : Prop :=
  ∃ headerEnd clVal, declared output pos = some (headerEnd, clVal) ∧
    2 ^ 64 ≤ headerEnd + 4 + clVal ∧ headerEnd + 4 + clVal ≤ 2 ^ 64 + pos

theorem frameTurn_forward_iff (hsize : output.length < 2 ^ 64) (cursor : Cursor) :
    (∀ next, frameTurn codec output cursor = some next → cursor.pos < next.pos) ↔
      ¬ WrapsBack output cursor.pos := by
  constructor
  · rintro h ⟨headerEnd, clVal, hdeclared, hwrap, hback⟩
    have hbounds := declared_bounds hdeclared
    have hmod := wrapped hwrap (by omega)
    have hforward := h _ (frameTurn_eq_some_iff.mpr ⟨headerEnd, clVal, hdeclared, by omega, rfl⟩)
    simp only [hmod] at hforward
    omega
  · rintro h next hnext
    obtain ⟨headerEnd, clVal, hdeclared, _, rfl⟩ := frameTurn_eq_some_iff.mp hnext
    have hbounds := declared_bounds hdeclared
    rcases Nat.lt_or_ge (headerEnd + 4 + clVal) (2 ^ 64) with hlt | hwrap
    · rw [Nat.mod_eq_of_lt hlt]
      change cursor.pos < headerEnd + 4 + clVal
      omega
    · by_contra hback
      rw [wrapped hwrap (by omega)] at hback
      change ¬ cursor.pos < headerEnd + 4 + clVal - 2 ^ 64 at hback
      exact h ⟨headerEnd, clVal, hdeclared, hwrap, by omega⟩

end Turn

/-- **The loop over the frames.** It moves forward with every turn, and so ends, exactly when no
length that it comes to wraps behind its own position. -/
theorem frame_loop_ends_iff (codec : JsonCodec) (output : Bytes) (hsize : output.length < 2 ^ 64) :
    ((∀ cursor, Loop.Reaches (frameTurn codec output) start cursor →
      ∀ next, frameTurn codec output cursor = some next →
        cursor.pos < next.pos) ∧ Loop.Ends (frameTurn codec output) start) ↔
      ∀ cursor, Loop.Reaches (frameTurn codec output) start cursor →
        ¬ WrapsBack output cursor.pos := by
  constructor
  · rintro ⟨hforward, _⟩ cursor hreach
    exact (frameTurn_forward_iff hsize cursor).mp (hforward cursor hreach)
  · intro h
    have hforward : ∀ cursor, Loop.Reaches (frameTurn codec output) start cursor →
        ∀ next, frameTurn codec output cursor = some next → cursor.pos < next.pos :=
      fun cursor hreach => (frameTurn_forward_iff hsize cursor).mpr (h cursor hreach)
    refine ⟨hforward, Loop.ends_of_falling (fun cursor => output.length - cursor.pos) ?_⟩
    intro cursor hreach next hnext
    have hlt := hforward cursor hreach next hnext
    obtain ⟨_, _, _, hle, rfl⟩ := frameTurn_eq_some_iff.mp hnext
    simp only at hlt ⊢
    omega

def oneFrame : Bytes := ascii "Content-Length: 4\r\n\r\nnull"

theorem frame_loop_ends_after_one : Loop.Ends (frameTurn Json.plainCodec oneFrame) start := by
  have hfirst : declared oneFrame 0 = some (17, 4) := by decide +kernel
  have hbehind : declared oneFrame 25 = none := by decide +kernel
  refine ((frame_loop_ends_iff Json.plainCodec oneFrame (by decide)).mpr ?_).2
  rintro cursor hreach ⟨headerEnd, clVal, hdeclared, hwrap, _⟩
  rcases Relation.ReflTransGen.cases_head hreach with rfl | ⟨next, hnext, hrest⟩
  · obtain ⟨rfl, rfl⟩ := Prod.mk.inj (Option.some.inj (hfirst.symm.trans hdeclared))
    omega
  · obtain ⟨headerEnd', clVal', hdeclared', _, rfl⟩ := frameTurn_eq_some_iff.mp hnext
    obtain ⟨rfl, rfl⟩ := Prod.mk.inj (Option.some.inj (hfirst.symm.trans hdeclared'))
    rcases Relation.ReflTransGen.cases_head hrest with rfl | ⟨last, hlast, _⟩
    · exact absurd (hbehind.symm.trans hdeclared) nofun
    · obtain ⟨_, _, hnone, _⟩ := frameTurn_eq_some_iff.mp hlast
      exact absurd (hbehind.symm.trans hnone) nofun

/-- One frame whose length leads back to where it starts. -/
def loopingOutput : Bytes := ascii "Content-Length: 18446744073709551576\r\n\r\n"

theorem frame_loop_never_ends : ¬ Loop.Ends (frameTurn Json.plainCodec loopingOutput) start := by
  -- With its length the sum wraps around to where the frame begins.
  have hdeclared : declared loopingOutput 0 = some (36, 18446744073709551576) := by decide +kernel
  refine Loop.not_ends_of_invariant (fun cursor => cursor.pos = 0) ?_ rfl
  rintro cursor hpos
  refine ⟨_, frameTurn_eq_some_iff.mpr ⟨36, 18446744073709551576, hpos ▸ hdeclared, by decide, rfl⟩,
    rfl⟩

end Euxis.Cli
