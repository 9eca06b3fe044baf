import Mathlib.Data.List.AList
import Mathlib.Data.Rat.Defs
import Euxis.Bytes

/-!
# Session tracking: `FinOpsRouter` in `libs/core/src/router.cpp`

A node of the recency list has a handle of its own, which is what the index holds as an iterator.
The doubles of the costs are exact numbers. The providers stand in the order in which the hash map
goes over them.
-/

namespace Euxis.Router.Sessions

structure SessionUsageRecord where
  agentId : Bytes
  model : Bytes
  inputTokens : Int
  outputTokens : Int
  cost : Rat

/-- A node of `session_order_`. -/
structure Node where
  handle : Nat
  id : Bytes
  deriving DecidableEq

structure State where
  order : List Node
  index : AList fun _ : Bytes => Nat
  usage : AList fun _ : Bytes => List SessionUsageRecord
  limit : Nat
  currentSpend : Rat
  -- The handle of the next node.
  fresh : Nat

def start : State :=
  { order := [], index := ∅, usage := ∅, limit := 100, currentSpend := 0, fresh := 0 }

/-! ## The limit -/

/-- `enforce_limits`, on the list, the index and the usage map. -/
def enforceLimits (limit : Nat) :
    List Node → (AList fun _ : Bytes => Nat) → (AList fun _ : Bytes => List SessionUsageRecord) →
      List Node × (AList fun _ : Bytes => Nat) × AList fun _ : Bytes => List SessionUsageRecord
  | [], index, usage => ([], index, usage)
  | victim :: rest, index, usage =>
    if limit < (victim :: rest).length then
      enforceLimits limit rest (index.erase victim.id) (usage.erase victim.id)
    else (victim :: rest, index, usage)

/-- `set_session_limit` only sets the number. -/
def setSessionLimit (s : State) (limit : Nat) : State := { s with limit }

/-! ## Use -/

def cost (providers : List (Bytes × Rat)) (model : Bytes) (total : Int) : Rat :=
  let byProvider := match providers.find? fun p => model.contains p.1 with
    | some p => (total : Rat) / 1000 * p.2
    | none => 0
  if byProvider ≤ 0 then ((max 1 total : Int) : Rat) / 1000 * (1 / 1000) else byProvider

/-- `splice`: the node with the handle goes to the end. -/
def moveToBack (order : List Node) (handle : Nat) : List Node :=
  order.filter (·.handle ≠ handle) ++ order.filter (·.handle = handle)

/-- The list and the two maps with the session as the last one used. -/
def touch (s : State) (id : Bytes) : State :=
  match s.index.lookup id with
  | none =>
    let r := enforceLimits s.limit (s.order ++ [{ handle := s.fresh, id }])
      (s.index.insert id s.fresh) s.usage
    { s with order := r.1, index := r.2.1, usage := r.2.2, fresh := s.fresh + 1 }
  | some handle => { s with order := moveToBack s.order handle }

def trackSessionUsage (providers : List (Bytes × Rat)) (s : State) (id agentId model : Bytes)
    (inputTokens outputTokens : Int) : State :=
  let c := cost providers model (inputTokens + outputTokens)
  let s := touch s id
  let record := { agentId, model, inputTokens, outputTokens, cost := c }
  { s with
    usage := s.usage.insert id ((s.usage.lookup id).getD [] ++ [record])
    currentSpend := s.currentSpend + c }

inductive Op where
  | trackSessionUsage (id agentId model : Bytes) (inputTokens outputTokens : Int)
  | setSessionLimit (limit : Nat)

def step (providers : List (Bytes × Rat)) (s : State) : Op → State
  | .trackSessionUsage id agentId model inputTokens outputTokens =>
    trackSessionUsage providers s id agentId model inputTokens outputTokens
  | .setSessionLimit limit => setSessionLimit s limit

end Euxis.Router.Sessions
