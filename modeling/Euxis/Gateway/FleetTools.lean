import Euxis.Json.Indented
import Euxis.Replace

/-!
# Fleet tools: `apps/gateway/src/mcp_fleet_tools.cpp`

A tool runs an euxis command in a child process and returns the JSON object that the child prints
last. What it prints before, a banner or other objects, is skipped.
-/

namespace Euxis.Gateway.FleetTools

/-! ## The command -/

/-- No shell metacharacters, no control characters but the tab, and at most 4096 bytes. -/
def isSafeArg (arg : Bytes) : Bool :=
  arg ≠ [] && arg.length ≤ 4096 && arg.all fun c =>
    c ≠ 0 && (0x20 ≤ c || c = ch '\t') && c ∉ ascii ";&|$`()\x7b\x7d<>!\\'\"\n\r"

def kMaxOutputBytes : Nat := 16 * 1024 * 1024

/-- What the operating system does: what `read` returns until the end or the deadline, and the code
of a normal exit. -/
structure Child where
  pipe : Bool := true
  fork : Bool := true
  reads : List Bytes := []
  exit : Option Nat := some 0
  deriving DecidableEq, Repr

/-- The output, and whether it was capped. -/
def drain (output : Bytes) : List Bytes → Bytes × Bool
  | [] => (output, false)
  | buf :: reads =>
    if kMaxOutputBytes < output.length + buf.length then
      (output ++ buf.take (kMaxOutputBytes - output.length), true)
    else drain (output ++ buf) reads

/-- The last place of a `needle` that is not empty. -/
def rfind (needle : Bytes) : Bytes → Option Nat
  | [] => none
  | c :: rest =>
    match rfind needle rest with
    | some pos => some (pos + 1)
    | none => if needle.isPrefixOf (c :: rest) then some 0 else none

def jsonStart (output : Bytes) : Option Nat :=
  match rfind [ch '\n', ch '{'] output with
  | some pos => some (pos + 1)
  | none => Replace.find [ch '{'] output 0

def exitCode : Option Nat → Int
  | some code => code
  | none => -1

/-- An output without an object, or with one that is no JSON, is returned as it is. -/
def plainResult (output : Bytes) (exit : Option Nat) : Json :=
  Json.object [(ascii "output", .str output), (ascii "exit_code", .int (exitCode exit))]

def extractJson (parse : Bytes → Option Json) (output : Bytes) (exit : Option Nat) : Json :=
  match jsonStart output with
  | none => plainResult output exit
  | some start => (parse (output.drop start)).getD (plainResult output exit)

def commandError (error : String) (command : Bytes) : Json :=
  Json.object [(ascii "error", .str (ascii error)), (ascii "command", .str command)]

def runEuxisCommand (parse : Bytes → Option Json) (command : Bytes) (args : List Bytes)
    (child : Child) : Json :=
  if ¬ args.all isSafeArg then commandError "rejected: unsafe argument" command
  else if ¬ child.pipe then commandError "pipe() failed" command
  else if ¬ child.fork then commandError "fork() failed" command
  else
    let (output, capped) := drain [] child.reads
    if capped then commandError "output exceeded 16MB limit" command
    else extractJson parse output child.exit

/-! ## The last place -/

variable {needle : Bytes}

theorem rfind_eq_none {s : Bytes} (h : ¬ needle <:+: s) : rfind needle s = none := by
  induction s with
  | nil => rfl
  | cons c rest ih =>
    have hrest : ¬ needle <:+: rest := fun hin => h (hin.trans (List.suffix_cons c rest).isInfix)
    have hhere : ¬ needle.isPrefixOf (c :: rest) :=
      fun hpre => h (List.isPrefixOf_iff_prefix.mp hpre).isInfix
    rw [rfind, ih hrest, if_neg hhere]

theorem rfind_append (front : Bytes) {s : Bytes} {pos : Nat} (h : rfind needle s = some pos) :
    rfind needle (front ++ s) = some (front.length + pos) := by
  induction front with
  | nil => simpa using h
  | cons c front ih =>
    rw [List.cons_append, rfind, ih, List.length_cons]
    simp
    omega

theorem rfind_last (front : Bytes) {c : UInt8} {rest : Bytes} (hhere : needle <+: c :: rest)
    (hrest : ¬ needle <:+: rest) : rfind needle (front ++ c :: rest) = some front.length := by
  have hstart : rfind needle (c :: rest) = some 0 := by
    rw [rfind, rfind_eq_none hrest]
    exact if_pos (List.isPrefixOf_iff_prefix.mpr hhere)
  exact rfind_append front hstart

/-! ## The artifact -/

section

variable (codec : IndentedCodec 2) {p text : Bytes} {members : List (Bytes × Json)}
  (hp : p.getLast? = some (ch '\n'))
  (hdump : codec.dump (.obj members) = some text)

include hp hdump

theorem jsonStart_artifact : jsonStart (p ++ (text ++ [ch '\n'])) = some p.length := by
  obtain ⟨front, rfl⟩ := List.getLast?_eq_some_iff.mp hp
  have hnone : ¬ [ch '\n', ch '{'] <:+: text ++ [ch '\n'] := by
    rw [codec.dump_eq _ _ hdump]
    apply Json.NoBraceLine.not_infix
    exact Json.noBraceLine_write (by omega) _ (codec.dump_numeric _ _ hdump) 0
  have hhere : [ch '\n', ch '{'] <+: ch '\n' :: (text ++ [ch '\n']) := by
    rw [codec.dump_eq _ _ hdump, Json.writeIndented]
    simp
  have hlast := rfind_last front hhere hnone
  rw [List.append_assoc, List.singleton_append, jsonStart, hlast]
  simp

theorem extractJson_artifact (exit : Option Nat) :
    extractJson codec.parse (p ++ (text ++ [ch '\n'])) exit = .obj members := by
  rw [extractJson, jsonStart_artifact codec hp hdump]
  simp only [List.drop_left]
  rw [codec.parse_dump _ _ hdump, Option.getD_some]

end

/-- **The artifact is recovered.** Whatever the child prints before, lines that start with a brace
among it, the search stops at the object that it prints last, and that object is returned. -/
theorem fleet_artifact_recovered (codec : IndentedCodec 2) (p text : Bytes)
    (members : List (Bytes × Json)) (exit : Option Nat) (hp : p.getLast? = some (ch '\n'))
    (hdump : codec.dump (.obj members) = some text) :
    jsonStart (p ++ (text ++ [ch '\n'])) = some p.length ∧
      extractJson codec.parse (p ++ (text ++ [ch '\n'])) exit = .obj members :=
  ⟨jsonStart_artifact codec hp hdump, extractJson_artifact codec hp hdump exit⟩

/-- An output with a brace at the start of two lines before the artifact, which holds an object
inside of an array. -/
def noisyOutput : Bytes := ascii "\x7b banner \x7d\n\x7b\"log\": 1\x7d\n"

def listedAgent : List (Bytes × Json) :=
  [(ascii "agents", .arr [.obj [(ascii "name", .str (ascii "a\n\x7b"))], .obj []])]

theorem fleet_artifact_behind_noise :
    jsonStart (noisyOutput ++ (Json.writeIndented 2 0 (.obj listedAgent) ++ [ch '\n'])) =
      some noisyOutput.length ∧
      extractJson (Json.indentedCodec 2).parse
        (noisyOutput ++ (Json.writeIndented 2 0 (.obj listedAgent) ++ [ch '\n']))
        (some 0) = .obj listedAgent :=
  fleet_artifact_recovered (Json.indentedCodec 2) noisyOutput
    (Json.writeIndented 2 0 (.obj listedAgent)) listedAgent
    (some 0) rfl rfl

theorem drain_short (output : Bytes) (reads : List Bytes)
    (h : output.length + reads.flatten.length ≤ kMaxOutputBytes) :
    drain output reads = (output ++ reads.flatten, false) := by
  induction reads generalizing output with
  | nil => simp [drain]
  | cons buf reads ih =>
    rw [List.flatten_cons, List.length_append] at h
    rw [drain, if_neg (by omega), ih, List.flatten_cons, List.append_assoc]
    rw [List.length_append]
    omega

theorem runEuxisCommand_artifact (codec : IndentedCodec 2) {p text command : Bytes}
    {members : List (Bytes × Json)} {args : List Bytes} {child : Child}
    (hp : p.getLast? = some (ch '\n')) (hdump : codec.dump (.obj members) = some text)
    (hargs : args.all isSafeArg = true) (hpipe : child.pipe = true) (hfork : child.fork = true)
    (hreads : child.reads.flatten = p ++ (text ++ [ch '\n']))
    (hshort : child.reads.flatten.length ≤ kMaxOutputBytes) :
    runEuxisCommand codec.parse command args child = .obj members := by
  have hdrain := drain_short [] child.reads (by simpa using hshort)
  rw [List.nil_append, hreads] at hdrain
  unfold runEuxisCommand
  rw [if_neg (by simp [hargs]), if_neg (by simp [hpipe]), if_neg (by simp [hfork]), hdrain]
  exact extractJson_artifact codec hp hdump child.exit

end Euxis.Gateway.FleetTools
