import Euxis.Bytes
import Mathlib.Logic.Function.Basic

/-!
# Running a command

`libs/platform/src/execution_backend.cpp`: the environment of the child, and `run_local` from the
spawned child on. The parent writes the whole input, reads both outputs until both have ended, and
waits for the child. A pipe holds `capacity` bytes, and whoever finds it full or empty waits. Calls
that a signal interrupts are taken again and change nothing. The child is one process, and its
program has an end.
-/

namespace Euxis.Platform

/-! ## The environment -/

/-- `c_str` as its reader sees it. -/
def cStr (b : Bytes) : Bytes := b.takeWhile (· ≠ 0)

def envKey (entry : Bytes) : Bytes := entry.takeWhile (· ≠ ch '=')

def buildEnvp (environ : List Bytes) (overrides : List (Bytes × Bytes)) : List Bytes :=
  environ.filter (fun entry => !overrides.any fun kv => kv.1 = envKey entry) ++
    overrides.map fun kv => cStr (kv.1 ++ ch '=' :: kv.2)

/-- The value of an entry of this name. -/
def envValue (name entry : Bytes) : Option Bytes :=
  if name ++ [ch '='] <+: entry then some (entry.drop (name.length + 1)) else none

/-- `getenv`: the first entry of this name counts. -/
def getenv (env : List Bytes) (name : Bytes) : Option Bytes := env.findSome? (envValue name)

theorem envKey_append {name : Bytes} (hname : ch '=' ∉ name) (value : Bytes) :
    envKey (name ++ ch '=' :: value) = name := by
  rw [envKey, List.takeWhile_append_of_pos]
  · simp
  · intro b hb
    simp only [decide_eq_true_eq]
    exact fun h => hname (h ▸ hb)

theorem cStr_append {key : Bytes} (hkey : 0 ∉ key) (value : Bytes) :
    cStr (key ++ ch '=' :: value) = key ++ ch '=' :: cStr value := by
  rw [cStr, List.takeWhile_append_of_pos, List.takeWhile_cons_of_pos (by decide), cStr]
  intro b hb
  simp only [decide_eq_true_eq]
  exact fun h => hkey (h ▸ hb)

theorem envValue_entry {name key : Bytes} (hname : ch '=' ∉ name) (hkey : ch '=' ∉ key)
    (value : Bytes) :
    envValue name (key ++ ch '=' :: value) = if key = name then some value else none := by
  unfold envValue
  split
  · rename_i hprefix
    obtain ⟨rest, hrest⟩ := hprefix
    rw [List.append_assoc, List.singleton_append] at hrest
    have hkeys := congrArg envKey hrest
    rw [envKey_append hname, envKey_append hkey] at hkeys
    subst hkeys
    rw [if_pos rfl]
    simp
  · rename_i hprefix
    rw [if_neg]
    rintro rfl
    exact hprefix ⟨value, by simp⟩

theorem envKey_of_envValue {name entry value : Bytes} (hname : ch '=' ∉ name)
    (h : envValue name entry = some value) : envKey entry = name := by
  unfold envValue at h
  split at h
  · rename_i hprefix
    obtain ⟨rest, rfl⟩ := hprefix
    rw [List.append_assoc, List.singleton_append, envKey_append hname]
  · cases h


theorem getenv_overrides {name : Bytes} (hname : ch '=' ∉ name) {overrides : List (Bytes × Bytes)}
    (hkeys : ∀ kv ∈ overrides, ch '=' ∉ kv.1 ∧ 0 ∉ kv.1) :
    getenv (overrides.map fun kv => cStr (kv.1 ++ ch '=' :: kv.2)) name =
      (overrides.find? fun kv => kv.1 = name).map fun kv => cStr kv.2 := by
  induction overrides with
  | nil => rfl
  | cons kv rest ih =>
    have hkv := hkeys kv List.mem_cons_self
    have hrest := ih fun kv hmem => hkeys kv (List.mem_cons_of_mem _ hmem)
    rw [getenv] at hrest ⊢
    rw [List.map_cons, List.findSome?_cons, cStr_append hkv.2, envValue_entry hname hkv.1,
      List.find?_cons, hrest]
    by_cases h : kv.1 = name
    · simp [h]
    · simp [h]

theorem getenv_kept {name : Bytes} (hname : ch '=' ∉ name) (environ : List Bytes)
    (overrides : List (Bytes × Bytes)) :
    getenv (environ.filter fun entry => !overrides.any fun kv => kv.1 = envKey entry) name =
      if (overrides.any fun kv => kv.1 = name) = true then none else getenv environ name := by
  induction environ with
  | nil => simp [getenv]
  | cons entry rest ih =>
    rw [List.filter_cons]
    rcases hvalue : envValue name entry with _ | value
    · have hskip : getenv (entry :: rest) name =
          getenv rest name := by rw [getenv, List.findSome?_cons, hvalue]; rfl
      rw [hskip, ← ih]
      split
      · rw [getenv, List.findSome?_cons, hvalue]
        rfl
      · rfl
    · rw [envKey_of_envValue hname hvalue]
      rcases h : overrides.any fun kv => kv.1 = name with _ | _
      · rw [if_pos (by rfl), if_neg (by decide), getenv, getenv, List.findSome?_cons,
          List.findSome?_cons, hvalue]
      · rw [h] at ih
        rw [if_neg (by decide)]
        exact ih

/-- The first override of a name decides, and the parent's entry where there is none. -/
theorem getenv_buildEnvp (environ : List Bytes) (overrides : List (Bytes × Bytes)) (name : Bytes)
    (hname : ch '=' ∉ name) (hkeys : ∀ kv ∈ overrides, ch '=' ∉ kv.1 ∧ 0 ∉ kv.1) :
    getenv (buildEnvp environ overrides) name =
      ((overrides.find? fun kv => kv.1 = name).map fun kv => cStr kv.2).or
        (getenv environ name) := by
  have hsplit : getenv (buildEnvp environ overrides) name =
      (getenv (environ.filter fun entry => !overrides.any fun kv => kv.1 = envKey entry) name).or
        (getenv (overrides.map fun kv => cStr (kv.1 ++ ch '=' :: kv.2)) name) :=
        List.findSome?_append
  rw [hsplit, getenv_kept hname, getenv_overrides hname hkeys]
  rcases hfind : overrides.find? (fun kv => kv.1 = name) with _ | kv
  · have hany : (overrides.any fun kv => kv.1 = name) = false := by
      rw [List.any_eq_false]
      exact List.find?_eq_none.mp hfind
    rw [hany, if_neg (by decide), hfind]
    simp
  · have hany : (overrides.any fun kv => kv.1 = name) = true := by
      have hkv := List.find?_some hfind
      exact List.any_eq_true.mpr ⟨kv, List.mem_of_find?_eq_some hfind, hkv⟩
    rw [hany, if_pos rfl, hfind]
    simp

theorem getenv_path_overridden :
    getenv (buildEnvp [ascii "PATH=/bin", ascii "HOME=/root"] [(ascii "PATH", ascii "/opt"),
      (ascii "PATH", ascii "/usr")])
        (ascii "PATH") = some (ascii "/opt") := by
  rw [getenv_buildEnvp _ _ _ (by decide) (by decide)]
  decide

/-! ## The run -/

inductive Stream where
  | out
  | err
  deriving DecidableEq

/-- What the child does next. It reads at most `n + 1` bytes of its input. -/
inductive Op where
  | read (n : Nat)
  | closeStdin
  | write (s : Stream) (b : UInt8)
  | close (s : Stream)

inductive Status where
  | exited (code : Nat)
  | signaled (signal : Nat)
  | other

/-- The part of `ExecutionResult` that the run decides. -/
structure Result where
  exitCode : Int := -1
  text : Stream → Bytes
  error : Option Bytes := none

/-- `killed` is the end of the parent itself: it wrote to a pipe that nobody reads. -/
inductive Phase where
  | feeding
  | draining
  | finished (result : Result)
  | killed

/-- The parent has `rest` to write, and `text` and `eof` of each output. The child has `ops` before
it and has read `taken`. `hungUp` says that it has closed its input. -/
structure State where
  phase : Phase := .feeding
  rest : Bytes
  text : Stream → Bytes := fun _ => []
  eof : Stream → Bool := fun _ => false
  stdin : Bytes := []
  pipe : Stream → Bytes := fun _ => []
  ops : List Op
  closed : Stream → Bool := fun _ => false
  hungUp : Bool := false
  exited : Bool := false
  taken : Bytes := []

/-- `deadline` is the moment at which `drain_pair` gives up. -/
inductive Action where
  | child (n : Nat)
  | feed (n : Nat)
  | closeInput
  | read (s : Stream) (n : Nat)
  | ended (s : Stream)
  | wait
  | deadline

def kReadChunk : Nat := 4096

def start (program : List Op) (input : Bytes) : State := { rest := input, ops := program }

/-- What `waitpid` says of the child. -/
def reaped (text : Stream → Bytes) : Status → Result
  | .exited code => { exitCode := code, text }
  | .signaled signal =>
    { exitCode := 128 + signal, text,
      error := some (ascii "killed by signal " ++ Bytes.decimal signal) }
  | .other => { text, error := some (ascii "abnormal termination") }

def timedOut (text : Stream → Bytes) : Result := { text, error := some (ascii "timeout") }

section

variable (capacity : Nat) (status : Status) (ignoresPipe : Bool)

/-- The child's next step; `n` is how much a read finds. A write to a closed output fails, and so
does a read of a closed input. -/
def childStep (st : State) (n : Nat) : Option State :=
  match st.ops with
  | [] => if st.exited then none else some { st with exited := true }
  | .read most :: ops =>
    if st.hungUp then some { st with ops }
    else
      match st.stdin, st.phase with
      | [], .feeding => none
      | [], _ => some { st with ops }
      | _ :: _, _ =>
        if 0 < n ∧ n ≤ most + 1 ∧ n ≤ st.stdin.length then
          some { st with stdin := st.stdin.drop n, taken := st.taken ++ st.stdin.take n, ops }
        else none
  | .closeStdin :: ops => some { st with hungUp := true, ops }
  | .write s b :: ops =>
    if st.closed s then some { st with ops }
    else if (st.pipe s).length < capacity then
      some { st with pipe := Function.update st.pipe s (st.pipe s ++ [b]), ops }
    else none
  | .close s :: ops => some { st with closed := Function.update st.closed s true, ops }

/-- A write that nobody can read any more fails, or ends the parent if it does not ignore the
signal. -/
def feedStep (st : State) (n : Nat) : Option State :=
  if st.rest = [] then none
  else if st.exited ∨ st.hungUp then
    some { st with phase := if ignoresPipe then .draining else .killed }
  else if 0 < n ∧ n ≤ st.rest.length ∧ st.stdin.length + n ≤ capacity then
    some { st with rest := st.rest.drop n, stdin := st.stdin ++ st.rest.take n }
  else none

def drainStep (st : State) : Action → Option State
  | .read s n =>
    if st.eof s = false ∧ 0 < n ∧ n ≤ kReadChunk ∧ n ≤ (st.pipe s).length then
      some { st with
        text := Function.update st.text s (st.text s ++ (st.pipe s).take n)
        pipe := Function.update st.pipe s ((st.pipe s).drop n) }
    else none
  | .ended s =>
    if st.eof s = false ∧ st.pipe s = [] ∧ (st.closed s = true ∨ st.exited = true) then
      some { st with eof := Function.update st.eof s true }
    else none
  | .wait =>
    if st.eof .out ∧ st.eof .err ∧ st.exited then
      some { st with phase := .finished (reaped st.text status) }
    else none
  | .deadline =>
    if st.eof .out ∧ st.eof .err then none
    else some { st with phase := .finished (timedOut st.text) }
  | _ => none

def step (st : State) (a : Action) : Option State :=
  match st.phase, a with
  | .finished _, _ => none
  | .killed, _ => none
  | _, .child n => childStep capacity st n
  | .feeding, .feed n => feedStep capacity ignoresPipe st n
  | .feeding, .closeInput => if st.rest = [] then some { st with phase := .draining } else none
  | .draining, a => drainStep status st a
  | _, _ => none

end

/-! ## What a run keeps -/

/-- What a program writes to an output: nothing once it has closed it. -/
def wrote (s : Stream) : List Op → Bytes
  | [] => []
  | .read _ :: ops => wrote s ops
  | .closeStdin :: ops => wrote s ops
  | .write s' b :: ops => if s' = s then b :: wrote s ops else wrote s ops
  | .close s' :: ops => if s' = s then [] else wrote s ops

/-- What the child has still to write. -/
def State.left (st : State) (s : Stream) : Bytes := if st.closed s then [] else wrote s st.ops

structure Flowing (program : List Op) (input : Bytes) (st : State) : Prop where
  input : st.taken ++ (st.stdin ++ st.rest) = input
  output : ∀ s, st.text s ++ (st.pipe s ++ st.left s) = wrote s program
  done : st.exited = true → st.ops = []
  ended : ∀ s, st.eof s = true → st.pipe s = [] ∧ (st.closed s = true ∨ st.exited = true)

theorem start_flowing (program : List Op) (input : Bytes) :
    Flowing program input (start program input) := by
  constructor <;> simp [start, State.left]

section

variable {capacity : Nat} {status : Status} {ignoresPipe : Bool} {program : List Op} {input : Bytes}
  {st st' : State}

theorem Flowing.running (hf : Flowing program input st) {op : Op} {ops : List Op}
    (h : st.ops = op :: ops) : st.exited = false := by
  rcases he : st.exited with _ | _
  · rfl
  · rw [hf.done he] at h
    cases h

/-- The child is past an operation that writes nothing. -/
theorem Flowing.silent (hf : Flowing program input st) {op : Op} {ops : List Op}
    (hops : st.ops = op :: ops) (hsilent : ∀ s, wrote s (op :: ops) = wrote s ops)
    {stdin taken : Bytes} (hinput : taken ++ (stdin ++ st.rest) = input) (hungUp : Bool) :
    Flowing program input { st with stdin, taken, hungUp, ops } := by
  refine ⟨hinput, fun s => ?_, fun he => ?_, hf.ended⟩
  · have houtput := hf.output s
    rw [State.left, hops, hsilent] at houtput
    exact houtput
  · rw [hf.running hops] at he
    cases he

theorem Flowing.written (hf : Flowing program input st) {s : Stream} {b : UInt8} {ops : List Op}
    (hops : st.ops = .write s b :: ops) (hopen : st.closed s = false) :
    Flowing program input
      { st with pipe := Function.update st.pipe s (st.pipe s ++ [b]), ops } := by
  refine ⟨hf.input, fun s' => ?_, fun he => ?_, fun s' hs => ?_⟩
  · have houtput := hf.output s'
    rw [State.left, hops, wrote] at houtput
    grind [State.left, Function.update]
  · rw [hf.running hops] at he
    cases he
  · -- an output that has ended is closed, and this one is not
    have hended := hf.ended s' hs
    have hrunning := hf.running hops
    grind [Function.update]

theorem Flowing.closed (hf : Flowing program input st) {s : Stream} {ops : List Op}
    (hops : st.ops = .close s :: ops) :
    Flowing program input { st with closed := Function.update st.closed s true, ops } := by
  refine ⟨hf.input, fun s' => ?_, fun he => ?_, fun s' hs => ?_⟩
  · have houtput := hf.output s'
    rw [State.left, hops, wrote] at houtput
    grind [State.left, Function.update]
  · rw [hf.running hops] at he
    cases he
  · have hended := hf.ended s' hs
    grind [Function.update]

/-- A write to an output that the child has closed fails. -/
theorem Flowing.failed (hf : Flowing program input st) {s : Stream} {b : UInt8} {ops : List Op}
    (hops : st.ops = .write s b :: ops) (hclosed : st.closed s = true) :
    Flowing program input { st with ops } := by
  refine ⟨hf.input, fun s' => ?_, fun he => ?_, hf.ended⟩
  · have houtput := hf.output s'
    rw [State.left, hops, wrote] at houtput
    grind [State.left]
  · rw [hf.running hops] at he
    cases he

theorem childStep_flowing {n : Nat} (h : childStep capacity st n = some st')
    (hf : Flowing program input st) : Flowing program input st' := by
  unfold childStep at h
  split at h
  · rename_i hops
    split at h
    · cases h
    · cases h
      exact ⟨hf.input, hf.output, fun _ => hops, fun s hs => ⟨(hf.ended s hs).1, .inr rfl⟩⟩
  · rename_i most ops hops
    have hsilent : ∀ s, wrote s (.read most :: ops) = wrote s ops := fun _ => rfl
    split at h
    · cases h
      exact hf.silent hops hsilent hf.input st.hungUp
    · split at h
      · cases h
      · cases h
        exact hf.silent hops hsilent hf.input st.hungUp
      · split at h
        · cases h
          apply hf.silent hops hsilent
          rw [← hf.input, List.append_assoc, ← List.append_assoc (st.stdin.take n),
            List.take_append_drop]
        · cases h
  · rename_i ops hops
    cases h
    exact hf.silent hops (fun _ => rfl) hf.input true
  · rename_i s b ops hops
    split at h
    · rename_i hclosed
      cases h
      exact hf.failed hops hclosed
    · rename_i hopen
      split at h
      · cases h
        exact hf.written hops (by simpa using hopen)
      · cases h
  · rename_i s ops hops
    cases h
    exact hf.closed hops

theorem feedStep_flowing {n : Nat} (h : feedStep capacity ignoresPipe st n = some st')
    (hf : Flowing program input st) : Flowing program input st' := by
  unfold feedStep at h
  split at h
  · cases h
  · split at h
    · cases h
      exact ⟨hf.input, hf.output, hf.done, hf.ended⟩
    · split at h
      · cases h
        refine ⟨?_, hf.output, hf.done, hf.ended⟩
        rw [List.append_assoc, List.take_append_drop]
        exact hf.input
      · cases h

theorem drainStep_flowing {a : Action} (h : drainStep status st a = some st')
    (hf : Flowing program input st) : Flowing program input st' := by
  unfold drainStep at h
  split at h
  · rename_i s n
    split at h
    · rename_i hread
      cases h
      refine ⟨hf.input, fun s' => ?_, hf.done, fun s' hs => ?_⟩
      · rcases eq_or_ne s' s with rfl | hne
        · simp only [Function.update_self, List.append_assoc]
          -- What is read moves from the pipe to the text, in the same order.
          rw [← List.append_assoc (List.take n _), List.take_append_drop]
          exact hf.output s'
        · simp only [Function.update_of_ne hne]
          exact hf.output s'
      · have := hf.ended s' hs
        grind [Function.update]
    · cases h
  · rename_i s
    split at h
    · rename_i hended
      cases h
      refine ⟨hf.input, hf.output, hf.done, fun s' hs => ?_⟩
      rcases eq_or_ne s' s with rfl | hne
      · exact hended.2
      · exact hf.ended s' (by simpa [Function.update_of_ne hne] using hs)
    · cases h
  · split at h
    · cases h
      exact ⟨hf.input, hf.output, hf.done, hf.ended⟩
    · cases h
  · split at h
    · cases h
    · cases h
      exact ⟨hf.input, hf.output, hf.done, hf.ended⟩
  · cases h

theorem step_flowing {a : Action} (h : step capacity status ignoresPipe st a = some st')
    (hf : Flowing program input st) : Flowing program input st' := by
  unfold step at h
  split at h
  · cases h
  · cases h
  · exact childStep_flowing h hf
  · exact feedStep_flowing h hf
  · split at h
    · cases h
      exact ⟨hf.input, hf.output, hf.done, hf.ended⟩
    · cases h
  · exact drainStep_flowing h hf
  · cases h

/-! ## Every run ends -/

def State.load (st : State) : Nat :=
  2 * st.ops.length + (if st.exited then 0 else 1) + (st.pipe .out).length + (st.pipe .err).length

theorem childStep_load {n : Nat} (h : childStep capacity st n = some st') :
    st'.load < st.load ∧ st'.phase = st.phase ∧ st'.rest = st.rest ∧ st'.eof = st.eof := by
  unfold childStep at h
  split at h
  · split at h
    · cases h
    · rename_i hexited
      cases h
      simp [State.load, hexited]
  · rename_i hops
    split at h
    · cases h
      simp [State.load, hops]
    · split at h
      · cases h
      · cases h
        simp [State.load, hops]
      · split at h
        · cases h
          simp [State.load, hops]
        · cases h
  · rename_i hops
    cases h
    simp [State.load, hops]
  · rename_i s b ops hops
    split at h
    · cases h
      simp [State.load, hops]
    · split at h
      · cases h
        -- A byte in the program counts twice, as it is still to be written and to be read.
        cases s <;> simp [State.load, hops] <;> omega
      · cases h
  · rename_i hops
    cases h
    simp [State.load, hops]

/-- How many outputs the parent still reads. -/
def State.unended (st : State) : Nat :=
  (if st.eof .out then 0 else 1) + (if st.eof .err then 0 else 1)

def State.work (st : State) : Nat :=
  match st.phase with
  | .feeding => st.load + st.rest.length + 4
  | .draining => st.load + st.unended + 1
  | _ => 0

theorem start_work (program : List Op) (input : Bytes) :
    (start program input).work = 2 * program.length + input.length + 5 := by
  simp [State.work, State.load, start]
  omega

theorem State.unended_le (st : State) : st.unended ≤ 2 := by
  unfold State.unended
  split <;> split <;> omega

theorem feedStep_work {n : Nat} (hphase : st.phase = .feeding)
    (h : feedStep capacity ignoresPipe st n = some st') : st'.work < st.work := by
  have hunended := st.unended_le
  have hwork : st.work = st.load + st.rest.length + 4 := by rw [State.work, hphase]
  rw [hwork]
  unfold feedStep at h
  split at h
  · cases h
  · split at h
    · cases h
      rcases ignoresPipe with _ | _
      · exact Nat.zero_lt_of_lt (Nat.lt_add_of_pos_right (by decide))
      · show st.load + st.unended + 1 < _
        omega
    · split at h
      · cases h
        simp only [State.work, hphase, List.length_drop]
        show st.load + _ + 4 < _
        omega
      · cases h

theorem drainStep_work {a : Action} (hphase : st.phase = .draining)
    (h : drainStep status st a = some st') : st'.work < st.work := by
  have hwork : st.work = st.load + st.unended + 1 := by rw [State.work, hphase]
  rw [hwork]
  unfold drainStep at h
  split at h
  · rename_i s n
    split at h
    · rename_i hread
      cases h
      simp only [State.work, hphase]
      cases s <;> simp [State.load, State.unended] <;> omega
    · cases h
  · rename_i s
    split at h
    · rename_i hended
      cases h
      simp only [State.work, hphase]
      cases s <;> simp [State.load, State.unended, hended.1]
    · cases h
  · split at h
    · cases h
      exact Nat.succ_pos _
    · cases h
  · split at h
    · cases h
    · cases h
      exact Nat.succ_pos _
  · cases h

theorem step_work {a : Action} (h : step capacity status ignoresPipe st a = some st') :
    st'.work < st.work := by
  unfold step at h
  split at h
  · cases h
  · cases h
  · rename_i n hfinished hkilled
    obtain ⟨hload, hphase, hrest, heof⟩ := childStep_load h
    have hunended : st'.unended = st.unended := by rw [State.unended, heof, State.unended]
    unfold State.work
    rw [hphase, hrest, hunended]
    split
    · omega
    · omega
    · rename_i hfeeding hdraining
      rcases hp : st.phase with _ | _ | r | _
      · exact absurd hp hfeeding
      · exact absurd hp hdraining
      · exact absurd hp (hfinished r)
      · exact absurd hp hkilled
  · exact feedStep_work ‹_› h
  · rename_i hphase
    split at h
    · cases h
      have hunended := st.unended_le
      have hwork : st.work = st.load + st.rest.length + 4 := by rw [State.work, hphase]
      rw [hwork]
      show st.load + st.unended + 1 < _
      omega
    · cases h
  · exact drainStep_work ‹_› h
  · cases h

/-! ## How a run ends -/

/-- A run that is over has all that the child wrote, or gave up with the beginnings of it, or wrote
what nobody could read any more. -/
def Outcome (status : Status) (ignoresPipe : Bool) (program : List Op) (st : State) : Prop :=
  match st.phase with
  | .finished r =>
    r = reaped (fun s => wrote s program) status ∨ ∃ text, r = timedOut text ∧
      ∀ s, text s <+: wrote s program
  | .killed => ignoresPipe = false ∧ (st.exited = true ∨ st.hungUp = true) ∧ st.rest ≠ []
  | _ => True

theorem Flowing.text_of_eof (hf : Flowing program input st) {s : Stream} (h : st.eof s = true) :
    st.text s = wrote s program := by
  obtain ⟨hpipe, hclosed⟩ := hf.ended s h
  have hleft : st.left s = [] := by
    unfold State.left
    split
    · rfl
    · rename_i hopen
      rw [hf.done (hclosed.resolve_left hopen)]
      rfl
  rw [← hf.output s, hpipe, hleft, List.append_nil, List.append_nil]

theorem drainStep_outcome {a : Action} (hphase : st.phase = .draining)
    (h : drainStep status st a = some st') (hf : Flowing program input st) :
    Outcome status ignoresPipe program st' := by
  unfold drainStep at h
  split at h
  · split at h
    · cases h
      simp [Outcome, hphase]
    · cases h
  · split at h
    · cases h
      simp [Outcome, hphase]
    · cases h
  · split at h
    · rename_i hended
      cases h
      -- Only behind both ends of file is the child waited for, so the texts are whole.
      refine .inl ?_
      congr 1
      funext s
      cases s
      · exact hf.text_of_eof hended.1
      · exact hf.text_of_eof hended.2.1
    · cases h
  · split at h
    · cases h
    · cases h
      exact .inr ⟨st.text, rfl, fun s => ⟨_, hf.output s⟩⟩
  · cases h

theorem step_outcome {a : Action} (h : step capacity status ignoresPipe st a = some st')
    (hf : Flowing program input st) : Outcome status ignoresPipe program st' := by
  unfold step at h
  split at h
  · cases h
  · cases h
  · rename_i n hfinished hkilled
    unfold Outcome
    rw [(childStep_load h).2.1]
    split
    · exact absurd ‹_› (hfinished _)
    · exact absurd ‹_› hkilled
    · trivial
  · rename_i hphase
    unfold feedStep at h
    split at h
    · cases h
    · rename_i hrest
      split at h
      -- The reader of the input is gone: without a handler the signal ends the parent here.
      · rename_i hgone
        cases h
        cases ignoresPipe
        · exact ⟨rfl, hgone, hrest⟩
        · trivial
      · split at h
        · cases h
          simp [Outcome, hphase]
        · cases h
  · split at h
    · cases h
      trivial
    · cases h
  · exact drainStep_outcome ‹_› h hf
  · cases h

theorem run_keeps {es : List Action}
    (h : es.foldlM (step capacity status ignoresPipe) st = some st') (hf : Flowing program input st)
    (ho : Outcome status ignoresPipe program st) :
    es.length + st'.work ≤ st.work ∧ Flowing program input st' ∧
      Outcome status ignoresPipe program st' := by
  induction es generalizing st with
  | nil =>
    cases h
    exact ⟨by simp, hf, ho⟩
  | cons a es ih =>
    rw [List.foldlM_cons] at h
    obtain ⟨st1, h1, hrest⟩ := Option.bind_eq_some_iff.mp h
    obtain ⟨hlength, hkept⟩ := ih hrest (step_flowing h1 hf) (step_outcome h1 hf)
    have hwork := step_work h1
    exact ⟨by rw [List.length_cons]; omega, hkept⟩

/-! ## Some step is possible until the run is over -/

theorem childStep_possible (hcapacity : 0 < capacity) (hphase : st.phase = .draining)
    (hexited : st.exited = false) (hempty : ∀ s, st.pipe s = []) :
    ∃ n, (childStep capacity st n).isSome := by
  rcases hops : st.ops with _ | ⟨most | _ | ⟨s, b⟩ | s, ops⟩
  · exact ⟨0, by simp [childStep, hops, hexited]⟩
  · refine ⟨1, ?_⟩
    rcases hhung : st.hungUp with _ | _
    · rcases hstdin : st.stdin with _ | ⟨b, bs⟩
      · simp [childStep, hops, hstdin, hphase, hhung]
      · simp [childStep, hops, hstdin, hhung]
    · simp [childStep, hops, hhung]
  · exact ⟨0, by simp [childStep, hops]⟩
  · refine ⟨0, ?_⟩
    unfold childStep
    rw [hops]
    simp only [hempty s, List.length_nil, hcapacity, if_true]
    split <;> rfl
  · exact ⟨0, by simp [childStep, hops]⟩

theorem step_draining {a : Action} (hphase : st.phase = .draining) (ha : ∀ n, a ≠ .child n) :
    step capacity status ignoresPipe st a = drainStep status st a := by
  unfold step
  rw [hphase]
  cases a with
  | child n => exact absurd rfl (ha n)
  | _ => rfl

theorem draining_possible (hcapacity : 0 < capacity) (hphase : st.phase = .draining)
    (hf : Flowing program input st) :
    ∃ a, a ≠ .deadline ∧ (step capacity status ignoresPipe st a).isSome := by
  by_cases hfull : ∃ s, st.pipe s ≠ []
  · obtain ⟨s, hs⟩ := hfull
    have hopen : st.eof s = false := by
      rcases he : st.eof s with _ | _
      · rfl
      · exact absurd (hf.ended s he).1 hs
    refine ⟨.read s 1, by simp, ?_⟩
    rw [step_draining hphase (by simp)]
    have := List.length_pos_iff.mpr hs
    simp [drainStep, hopen, kReadChunk]
    omega
  · have hempty (s : Stream) : st.pipe s = [] := by
      by_contra hs
      exact hfull ⟨s, hs⟩
    rcases hexited : st.exited with _ | _
    · obtain ⟨n, hn⟩ := childStep_possible hcapacity hphase hexited hempty
      refine ⟨.child n, by simp, ?_⟩
      unfold step
      rw [hphase]
      exact hn
    -- Nothing is left to read and the child is gone: the ends of file are seen.
    · by_cases hopen : ∃ s, st.eof s = false
      · obtain ⟨s, hs⟩ := hopen
        refine ⟨.ended s, by simp, ?_⟩
        rw [step_draining hphase (by simp)]
        simp [drainStep, hs, hempty s, hexited]
      · simp only [not_exists, Bool.not_eq_false] at hopen
        refine ⟨.wait, by simp, ?_⟩
        rw [step_draining hphase (by simp)]
        simp [drainStep, hopen, hexited]

theorem feeding_possible (hfits : input.length ≤ capacity) (hphase : st.phase = .feeding)
    (hf : Flowing program input st) :
    ∃ a, a ≠ .deadline ∧ (step capacity status ignoresPipe st a).isSome := by
  by_cases hrest : st.rest = []
  · exact ⟨.closeInput, by simp, by simp [step, hphase, hrest]⟩
  · refine ⟨.feed 1, by simp, ?_⟩
    have hlength := congrArg List.length hf.input
    have hpos := List.length_pos_iff.mpr hrest
    simp only [List.length_append] at hlength
    have hroom : 0 < 1 ∧ 1 ≤ st.rest.length ∧ st.stdin.length + 1 ≤ capacity := by omega
    simp only [step, hphase, feedStep, hrest, if_false, hroom, and_self, if_true]
    split <;> rfl

variable (capacity status ignoresPipe program input) in
/-- Whatever the child does with its input and its outputs, and however the two processes take
turns. -/
theorem run_completes (es : List Action)
    (h : es.foldlM (step capacity status ignoresPipe) (start program input) = some st') :
    es.length ≤ 2 * program.length + input.length + 5 ∧
      st'.taken <+: input ∧
      Outcome status ignoresPipe program st' ∧
      (0 < capacity → input.length ≤ capacity →
        (∀ a, a ≠ .deadline → step capacity status ignoresPipe st' a = none) →
        (∃ r, st'.phase = .finished r) ∨ st'.phase = .killed) := by
  obtain ⟨hlength, hf, ho⟩ := run_keeps h (start_flowing program input) trivial
  rw [start_work] at hlength
  refine ⟨by omega, ⟨_, hf.input⟩, ho, fun hcapacity hfits hstuck => ?_⟩
  rcases hphase : st'.phase with _ | _ | r | _
  · obtain ⟨a, ha, hstep⟩ := @feeding_possible _ status ignoresPipe _ _ _ hfits hphase hf
    rw [hstuck a ha] at hstep
    cases hstep
  · obtain ⟨a, ha, hstep⟩ := @draining_possible _ status ignoresPipe _ _ _ hcapacity hphase hf
    rw [hstuck a ha] at hstep
    cases hstep
  · exact .inl ⟨r, rfl⟩
  · exact .inr rfl

def echoRun : List Action :=
  [.feed 1, .child 1, .closeInput, .child 0, .read .out 1, .child 0, .ended .out,
    .ended .err, .wait]

theorem echo_completes :
    ∃ st, echoRun.foldlM (step 2 (.exited 0) false) (start [.read 0, .write .out 98] [97]) =
      some st ∧
      st.taken = [97] ∧ st.text .out = [98] ∧
      Outcome (.exited 0) false [.read 0, .write .out 98] st := by
  refine ⟨_, rfl, rfl, rfl, ?_⟩
  exact (run_completes 2 _ _ _ [97] echoRun rfl).2.2.1

/-! ## Two processes that wait for each other -/

/-- The child has `left` to write before it looks at its input, and the parent more to write than
the pipe takes. -/
structure Hanging (capacity : Nat) (s : Stream) (st : State) (left : Bytes) (ops : List Op) :
    Prop where
  feeding : st.phase = .feeding
  ops_eq : st.ops = left.map (Op.write s) ++ ops
  running : st.exited = false
  listening : st.hungUp = false
  opened : st.closed s = false
  room : (st.pipe s).length ≤ capacity
  output : capacity < (st.pipe s).length + left.length
  filled : st.stdin.length ≤ capacity
  input : capacity < st.stdin.length + st.rest.length

theorem Hanging.left_ne_nil {s : Stream} {left : Bytes} {ops : List Op}
    (hh : Hanging capacity s st left ops) : left ≠ [] := by
  have hroom := hh.room
  have houtput := hh.output
  rw [← List.length_pos_iff]
  omega

theorem Hanging.rest_ne_nil {s : Stream} {left : Bytes} {ops : List Op}
    (hh : Hanging capacity s st left ops) : st.rest ≠ [] := by
  have hfilled := hh.filled
  have hinput := hh.input
  rw [← List.length_pos_iff]
  omega

theorem Hanging.written {s : Stream} {b : UInt8} {left : Bytes} {ops : List Op}
    (hh : Hanging capacity s st (b :: left) ops) (hroom : (st.pipe s).length < capacity) :
    Hanging capacity s
      { st with
        pipe := Function.update st.pipe s (st.pipe s ++ [b])
        ops := left.map (Op.write s) ++ ops } left ops := by
  have houtput := hh.output
  refine ⟨hh.feeding, rfl, hh.running, hh.listening, hh.opened, ?_, ?_, hh.filled, hh.input⟩
  · simp only [Function.update_self, List.length_append, List.length_singleton]
    omega
  · simp only [Function.update_self, List.length_append, List.length_singleton]
    rw [List.length_cons] at houtput
    omega

theorem Hanging.fed {s : Stream} {left : Bytes} {ops : List Op}
    (hh : Hanging capacity s st left ops) {n : Nat} (hn : n ≤ st.rest.length)
    (hroom : st.stdin.length + n ≤ capacity) :
    Hanging capacity s
      { st with rest := st.rest.drop n, stdin := st.stdin ++ st.rest.take n } left ops := by
  have hinput := hh.input
  refine ⟨hh.feeding, hh.ops_eq, hh.running, hh.listening, hh.opened, hh.room, hh.output, ?_, ?_⟩
  · simp only [List.length_append, List.length_take]
    omega
  · simp only [List.length_append, List.length_take, List.length_drop]
    omega

theorem step_hanging {s : Stream} {left : Bytes} {ops : List Op} {a : Action}
    (hh : Hanging capacity s st left ops) (h : step capacity status ignoresPipe st a = some st') :
    ∃ left', Hanging capacity s st' left' ops := by
  unfold step at h
  rw [hh.feeding] at h
  cases a with
  | child n =>
    obtain ⟨b, left, rfl⟩ := List.exists_cons_of_ne_nil hh.left_ne_nil
    have hops := hh.ops_eq
    rw [List.map_cons, List.cons_append] at hops
    simp only [childStep, hops, hh.opened, Bool.false_eq_true, if_false] at h
    split at h
    · rename_i hroom
      cases h
      exact ⟨left, hh.written hroom⟩
    · cases h
  | feed n =>
    have hreader : ¬ (st.exited = true ∨ st.hungUp = true) := by simp [hh.running, hh.listening]
    dsimp only at h
    rw [feedStep, if_neg hh.rest_ne_nil, if_neg hreader] at h
    split at h
    · rename_i hroom
      cases h
      exact ⟨left, hh.fed hroom.2.1 hroom.2.2⟩
    · cases h
  | closeInput =>
    -- The pipe is closed only after the last byte, and the pipe never takes it.
    simp only [hh.rest_ne_nil, if_false] at h
    cases h
  | _ => cases h

theorem run_hanging {s : Stream} {left : Bytes} {ops : List Op} {es : List Action}
    (hh : Hanging capacity s st left ops)
    (h : es.foldlM (step capacity status ignoresPipe) st = some st') :
    ∃ left', Hanging capacity s st' left' ops := by
  induction es generalizing st left with
  | nil =>
    cases h
    exact ⟨left, hh⟩
  | cons a es ih =>
    rw [List.foldlM_cons] at h
    obtain ⟨st1, h1, hrest⟩ := Option.bind_eq_some_iff.mp h
    obtain ⟨left1, hh1⟩ := step_hanging hh h1
    exact ih hh1 hrest

variable (capacity status ignoresPipe input) in
/-- The deadline counts only once the input is written: a child that writes more than a pipe holds
before it reads, given more than a pipe holds, hangs for good. -/
theorem run_hangs (s : Stream) (writes : Bytes) (ops : List Op) (hwrites : capacity < writes.length)
    (hinput : capacity < input.length) (es : List Action)
    (h : es.foldlM (step capacity status ignoresPipe)
      (start (writes.map (Op.write s) ++ ops) input) = some st') :
    es.length ≤ 2 * (writes.length + ops.length) + input.length + 5 ∧ st'.phase = .feeding := by
  have hstart : Hanging capacity s (start (writes.map (Op.write s) ++ ops) input) writes ops := by
    constructor <;> simp [start, hwrites, hinput]
  obtain ⟨left', hh⟩ := run_hanging hstart h
  have hlength := (run_keeps h (start_flowing _ input) trivial).1
  rw [start_work, List.length_append, List.length_map] at hlength
  exact ⟨by omega, hh.feeding⟩

theorem twoBytes_hang :
    ∃ st, [Action.feed 1, .child 0].foldlM (step 1 (.exited 0) true)
      (start [.write .out 1, .write .out 2] [3, 4]) = some st ∧
      st.phase = .feeding ∧ ∀ a, step 1 (.exited 0) true st a = none := by
  have hangs := run_hangs 1 (.exited 0) true [3, 4] .out [1, 2] [] (by decide) (by decide) [.feed 1,
    .child 0] rfl
  refine ⟨_, rfl, hangs.2, fun a => ?_⟩
  cases a with
  | feed n =>
    show (if 0 < n ∧ n ≤ 1 ∧ 1 + n ≤ 1 then some _ else none) = none
    rw [if_neg (by omega)]
  | _ => rfl

end

end Euxis.Platform
