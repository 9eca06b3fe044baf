import Euxis.Json.Value
import Euxis.Clock

/-!
# The audit log: `libs/bridge/src/audit.cpp`

A logger and its file. SHA-256 comes from libsodium and is the parameter `hash` (`compute_hash`, in
hex). A file that does not exist is `none`.
-/

namespace Euxis.Audit

/-! ## Reading a file -/

/-- What `std::getline` returns, call after call. A last line may lack its line feed. -/
def getLines (content : Bytes) : List Bytes :=
  let parts := content.splitOn (ch '\n')
  if parts.getLast? = some [] then parts.dropLast else parts

theorem splitOn_getLines (content : Bytes) :
    content.splitOn (ch '\n') = getLines content ∨
      content.splitOn (ch '\n') = getLines content ++ [[]] := by
  unfold getLines
  dsimp only
  split
  · rename_i hlast
    exact Or.inr (List.dropLast_append_getLast? [] hlast).symm
  · exact Or.inl rfl

def fileLines (file : Option Bytes) : List Bytes :=
  match file with
  | none => []
  | some content => getLines content

def prevHashKey : Bytes := ascii "prev_hash"

/-- The loop of `verify_chain`. A parse error is caught, and no other exception is. -/
def verifyLoop (hash : Bytes → Bytes) (parse : Bytes → Except JsonError Json) :
    Bytes → List Bytes → Except JsonError Bool
  | _, [] => .ok true
  | expectedPrevHash, line :: rest =>
    if line = [] then verifyLoop hash parse expectedPrevHash rest
    else
      match parse line with
      | .error .parseError => .ok false
      | .error e => .error e
      | .ok entry => do
        let entryPrevHash ← entry.valueStr prevHashKey []
        if entryPrevHash ≠ expectedPrevHash then .ok false
        else verifyLoop hash parse (hash line) rest

def verifyChain (hash : Bytes → Bytes) (parse : Bytes → Except JsonError Json)
    (file : Option Bytes) : Except JsonError Bool :=
  verifyLoop hash parse [] (fileLines file)

/-! ## The logger -/

structure State where
  file : Option Bytes
  prevHash : Bytes
  deriving DecidableEq

/-- The constructor scans the file for the hash of its last line. -/
def scan (hash : Bytes → Bytes) (file : Option Bytes) : Bytes :=
  (fileLines file).foldl (fun prevHash line => if line = [] then prevHash else hash line) []

def openLogger (hash : Bytes → Bytes) (file : Option Bytes) : State :=
  { file, prevHash := scan hash file }

/-- How one append ends. `shortWrite n` leaves the first `n` bytes of the entry, and never its line
feed. -/
inductive Outcome where
  | openFails
  | shortWrite (n : Nat)
  | fsyncFails
  | durable
  deriving DecidableEq, Repr

def written (file : Option Bytes) (bytes : Bytes) : Option Bytes := some (file.getD [] ++ bytes)

/-- `append`. When `dump` throws, nothing was done yet. -/
def append (codec : JsonCodec) (hash : Bytes → Bytes) (st : State) (entry : Json)
    (outcome : Outcome) : State :=
  match codec.dump (entry.set prevHashKey (.str st.prevHash)) with
  | none => st
  | some serialized =>
    let line := serialized ++ [ch '\n']
    match outcome with
    | .openFails => st
    | .shortWrite n => { st with file := written st.file (serialized.take n) }
    | .fsyncFails => { st with file := written st.file line }
    | .durable => { file := written st.file line, prevHash := hash serialized }

/-! ## The calls -/

inductive Call where
  | log (now : Int) (eventType skillName : Bytes) (details : Json)
  | logAdmission (now : Int) (skillName : Bytes) (admitted : Bool) (details : Json)
  | logExecution (now : Int) (skillName : Bytes) (exitCode durationMs : Int) (details : Json)

def Call.entry : Call → Json
  | log now eventType skillName details =>
    ((((Json.null.set (ascii "timestamp") (.str (Clock.isoTime now))).set
      (ascii "event_type") (.str eventType)).set
      (ascii "skill_name") (.str skillName)).set
      (ascii "details") details)
  | logAdmission now skillName admitted details =>
    (((((Json.null.set (ascii "timestamp") (.str (Clock.isoTime now))).set
      (ascii "event_type") (.str (ascii "admission"))).set
      (ascii "skill_name") (.str skillName)).set
      (ascii "admitted") (.bool admitted)).set
      (ascii "details") details)
  | logExecution now skillName exitCode durationMs details =>
    ((((((Json.null.set (ascii "timestamp") (.str (Clock.isoTime now))).set
      (ascii "event_type") (.str (ascii "execution"))).set
      (ascii "skill_name") (.str skillName)).set
      (ascii "exit_code") (.int exitCode)).set
      (ascii "duration_ms") (.int durationMs)).set
      (ascii "details") details)

inductive Op where
  | append (call : Call) (outcome : Outcome)
  | reopen

def step (codec : JsonCodec) (hash : Bytes → Bytes) (st : State) : Op → State
  | .append call outcome => append codec hash st call.entry outcome
  | .reopen => openLogger hash st.file

def run (codec : JsonCodec) (hash : Bytes → Bytes) (st : State) (ops : List Op) : State :=
  ops.foldl (step codec hash) st

end Euxis.Audit
