import Euxis.Metrics.Code
import Mathlib.Data.List.Induction

/-!
# The ledger of sessions

What has become of every session, from the calls alone: the sessions that run, and the sessions that
have ended with how they ended.
-/

namespace Euxis.Metrics

structure Running (τ : Type) where
  sessionId : Bytes
  agentId : Bytes
  startTime : τ

inductive Ending where
  | completed (status : Bytes)
  | failed
  | timedOut
  deriving DecidableEq, Repr

def failureStatus : Bytes := ascii "FAILURE"

/-- The status by which a report counts the ending. -/
def Ending.status : Ending → Bytes
  | completed status => status
  | failed | timedOut => failureStatus

def Ending.isCompleted : Ending → Bool
  | completed _ => true
  | failed | timedOut => false

structure Ended where
  sessionId : Bytes
  agentId : Bytes
  ending : Ending
  deriving DecidableEq, Repr

structure Ledger (τ : Type) where
  running : List (Running τ) := []
  ended : List Ended := []

variable {τ : Type} (timer : Timer τ)

def Running.close (ending : Ending) (r : Running τ) : Ended :=
  { sessionId := r.sessionId, agentId := r.agentId, ending }

namespace Ledger

/-- The running sessions that meet a condition end. -/
def close (ledger : Ledger τ) (p : Running τ → Bool) (ending : Ending) : Ledger τ where
  running := ledger.running.filter fun r => !p r
  ended := ledger.ended ++ (ledger.running.filter p).map (Running.close ending)

def step (ledger : Ledger τ) : Call τ → Ledger τ
  | .started agentId sessionId _ _ now =>
    { ledger with running := ledger.running ++ [{ sessionId, agentId, startTime := now.epoch }] }
  | .completed sessionId ctx _ => ledger.close (·.sessionId = sessionId) (.completed ctx.status)
  | .failed sessionId _ _ => ledger.close (·.sessionId = sessionId) .failed
  | .cleanup timeoutSeconds current _ =>
    ledger.close (fun r => timer.exceeds current r.startTime timeoutSeconds) .timedOut

def run (calls : List (Call τ)) : Ledger τ := calls.foldl (step timer) {}

/-- The ids of all its sessions. -/
def ids (ledger : Ledger τ) : List Bytes :=
  ledger.running.map (·.sessionId) ++ ledger.ended.map (·.sessionId)

theorem run_append (calls : List (Call τ)) (call : Call τ) :
    run timer (calls ++ [call]) = step timer (run timer calls) call := by
  simp [run]

theorem close_ids (ledger : Ledger τ) (p : Running τ → Bool) (ending : Ending) :
    (ledger.close p ending).ids.Perm ledger.ids := by
  have hall := (List.filter_append_perm p ledger.running).map (·.sessionId)
  rw [List.map_append] at hall
  have hmoved : (ledger.running.filter p).map ((·.sessionId) ∘ Running.close ending) =
      (ledger.running.filter p).map (·.sessionId) := rfl
  unfold ids close
  rw [List.map_append, List.map_map, hmoved]
  refine List.Perm.trans ?_ (hall.append_right _)
  rw [← List.append_assoc]
  refine List.perm_append_comm.trans ?_
  rw [List.append_assoc]

end Ledger

/-- The session that a call starts. -/
def Call.startedId : Call τ → Option Bytes
  | started _ sessionId _ _ _ => some sessionId
  | _ => none

def startedIds (calls : List (Call τ)) : List Bytes := calls.filterMap Call.startedId

theorem startedIds_append (calls : List (Call τ)) (call : Call τ) :
    startedIds (calls ++ [call]) = startedIds calls ++ call.startedId.toList := by
  unfold startedIds
  rw [List.filterMap_append]
  cases h : call.startedId <;> simp [h]

namespace Ledger

theorem step_ids (ledger : Ledger τ) (call : Call τ) :
    (step timer ledger call).ids.Perm (ledger.ids ++ call.startedId.toList) := by
  cases call with
  | started agentId sessionId ctx val now =>
    simp only [step, ids, Call.startedId, Option.toList_some, List.map_append, List.map_singleton,
      List.append_assoc]
    exact List.Perm.append_left _ List.perm_append_comm
  | completed sessionId ctx now => simpa [step, Call.startedId] using close_ids ledger _ _
  | failed sessionId ctx now => simpa [step, Call.startedId] using close_ids ledger _ _
  | cleanup timeoutSeconds current now => simpa [step, Call.startedId] using close_ids ledger _ _

theorem run_ids (calls : List (Call τ)) : (run timer calls).ids.Perm (startedIds calls) := by
  induction calls using List.reverseRecOn with
  | nil => exact List.Perm.refl _
  | append_singleton calls call ih =>
    rw [run_append]
    refine (step_ids timer _ call).trans ?_
    rw [startedIds_append]
    exact ih.append_right _

/-- No session ended in another way than by a completion. -/
def AllCompleted (ledger : Ledger τ) : Prop := ∀ e ∈ ledger.ended, e.ending.isCompleted = true

theorem allCompleted_close (ledger : Ledger τ) (p : Running τ → Bool) (ending : Ending) :
    (ledger.close p ending).AllCompleted ↔
      ledger.AllCompleted ∧ (ending.isCompleted = true ∨ ∀ r ∈ ledger.running, p r = false) := by
  unfold AllCompleted close
  constructor
  · intro h
    refine ⟨fun e he => h e (List.mem_append_left _ he), ?_⟩
    by_cases hending : ending.isCompleted = true
    · exact Or.inl hending
    · right
      intro r hr
      by_contra hp
      have hmem : r ∈ ledger.running.filter p := List.mem_filter.mpr ⟨hr, by simpa using hp⟩
      exact hending (h _ (List.mem_append_right _ (List.mem_map_of_mem hmem)))
  · rintro ⟨hold, hnew⟩ e he
    rcases List.mem_append.mp he with he | he
    · exact hold e he
    · obtain ⟨r, hr, rfl⟩ := List.mem_map.mp he
      obtain ⟨hrunning, hp⟩ := List.mem_filter.mp hr
      rcases hnew with hcompleted | hnone
      · exact hcompleted
      · rw [hnone r hrunning] at hp
        cases hp

end Ledger

end Euxis.Metrics
