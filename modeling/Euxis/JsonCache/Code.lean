import Mathlib.Logic.Function.Basic
import Euxis.Json.Msgpack

/-!
# The cache of parsed JSON files: `libs/cache/src/json_cache.cpp`

A call of `get_or_load` reads the file up to four times, and in between other processes rewrite the
file and use the same database. A call in flight stands at a stage, and each of its reads and writes
is a step of its own. A file is its content, or nothing when there is none.
-/

namespace Euxis.JsonCache

/-- What the cache uses of libsodium and of the JSON library. -/
structure Libs where
  /-- BLAKE2b-256, in hexadecimal. -/
  hash : Bytes → Bytes
  /-- It throws with a text. -/
  parse : Bytes → Except Bytes Json
  msgpack : Msgpack

structure Row where
  contentHash : Bytes
  msgpackBlob : Bytes

/-- What a step runs into besides a missing file: a failed read, or SQLite's errors with their
texts. -/
inductive Fault where
  | read
  | prepare (text : Bytes)
  | step (text : Bytes)
  deriving DecidableEq

/-- Where a call of `get_or_load` stands. A stage after a read keeps the content that was read. -/
inductive Stage where
  | called
  | found
  | hashed (content hash : Bytes)
  | missed
  | parsed (content : Bytes) (value : Json)
  | rehashed (content : Bytes) (value : Json) (hash : Bytes)
  | hit (content : Bytes) (value : Json)
  | returned (result : Except Bytes Json)

def failed (message : Bytes) : Stage := .returned (.error message)

def makeError (ctx text : Bytes) : Bytes := ctx ++ ascii ": " ++ text

section Steps

variable (libs : Libs) (fault : Option Fault) (content : Option Bytes) (row : Option Row)

/-- The digest, with the content it is the digest of. -/
def hashFile : Except Bytes (Bytes × Bytes) :=
  match content with
  | none => .error (ascii "Cannot open file")
  | some content =>
    if fault = some .read then .error (ascii "I/O error while hashing file")
    else .ok (content, libs.hash content)

/-! ## `get` -/

def getExists : Stage := if content.isSome then .found else .missed

def getHash : Stage :=
  match hashFile libs fault content with
  | .error message => failed (makeError (ascii "hash_file") message)
  | .ok (content, hash) => .hashed content hash

/-- An entry that does not decode counts as a miss. -/
def getRow (content hash : Bytes) : Stage :=
  match row with
  | none => .missed
  | some row =>
    if row.contentHash = hash ∧ row.msgpackBlob ≠ [] then
      match libs.msgpack.unpack row.msgpackBlob with
      | none => .missed
      | some value => .hit content value
    else .missed

def getSelect (content hash : Bytes) : Stage :=
  match fault with
  | some (.prepare text) => failed (makeError (ascii "prepare get") text)
  | some (.step text) => failed (makeError (ascii "step get") text)
  | _ => getRow libs row content hash

/-! ## The miss path of `get_or_load` -/

def load (file : Bytes) : Stage :=
  match content with
  | none => failed (makeError (ascii "cannot open file") file)
  | some content =>
    match libs.parse content with
    | .error what => failed (makeError (ascii "parse") what)
    | .ok value => .parsed content value

/-! ## `put` -/

def putHash (value : Json) : Stage :=
  match hashFile libs fault content with
  | .error message => failed (makeError (ascii "hash_file") message)
  | .ok (content, hash) => .rehashed content value hash

/-- The stage after the insertion, and the row of the file. -/
def putInsert (value : Json) (hash : Bytes) : Stage × Option Row :=
  match fault with
  | some (.prepare text) => (failed (makeError (ascii "prepare put") text), row)
  | some (.step text) => (failed (makeError (ascii "step put") text), row)
  | _ =>
    (.returned (.ok value), some { contentHash := hash, msgpackBlob := libs.msgpack.pack value })

/-- The next stage of a call and the row of its file then. A call that has returned makes no more
steps. -/
def next (file : Bytes) : Stage → Option (Stage × Option Row)
  | .called => some (getExists content, row)
  | .found => some (getHash libs fault content, row)
  | .hashed content hash => some (getSelect libs fault row content hash, row)
  | .missed => some (load libs content file, row)
  | .parsed _ value => some (putHash libs fault content value, row)
  | .rehashed _ value hash => some (putInsert libs fault row value hash)
  | .hit _ _ => none
  | .returned _ => none

end Steps

/-! ## Runs -/

structure Call where
  file : Bytes
  stage : Stage

/-- The files, the table, and the calls there have been, of any process. -/
structure World where
  files : Bytes → Option Bytes
  rows : Bytes → Option Row
  calls : List Call

inductive Event where
  /-- A process replaces the content of a file, or removes the file. -/
  | rewrite (file : Bytes) (content : Option Bytes)
  | getOrLoad (file : Bytes)
  | advance (i : Nat) (fault : Option Fault)
  | purge

variable (libs : Libs)

def step (w : World) : Event → Option World
  | .rewrite file content => some { w with files := Function.update w.files file content }
  | .getOrLoad file => some { w with calls := w.calls ++ [{ file, stage := .called }] }
  | .advance i fault => do
    let call ← w.calls[i]?
    let (stage, row) ← next libs fault (w.files call.file) (w.rows call.file) call.file call.stage
    some { w with rows := Function.update w.rows call.file row,
                  calls := w.calls.set i { call with stage } }
  | .purge => some { w with rows := fun _ => none }

/-- A new database. -/
def opened (files : Bytes → Option Bytes) : World := { files, rows := fun _ => none, calls := [] }

end Euxis.JsonCache
