import Euxis.Bytes
import Euxis.Turns

/-!
# Credential pool and backoff: `libs/core/src/credential_pool.cpp`

Times are 64-bit milliseconds. A sum that does not fit has no meaning, and a run that comes to one
has no result. The secret of a credential is left out, since no function here reads it.
-/

namespace Euxis.Credentials

def maxInt64 : Int := 2 ^ 63 - 1

/-- The result of signed 64-bit arithmetic, or nothing when it overflows. -/
def checked (x : Int) : Option Int := if -2 ^ 63 ≤ x ∧ x ≤ maxInt64 then some x else none

structure Credential where
  id : Bytes
  cooldownUntil : Int
  deriving DecidableEq

structure Pool where
  creds : List Credential
  rr : UInt64

namespace Pool

def new (creds : List Credential) : Pool := { creds, rr := 0 }

def available (now : Int64) (c : Credential) : Bool := c.cooldownUntil ≤ now.toInt

/-- Where the walk of the next call begins. -/
def pointer (pool : Pool) : Nat := pool.rr.toNat % pool.creds.length

/-- The counter moves on also when every credential is cooled down. -/
def nextAvailable (pool : Pool) (now : Int64) : Option Bytes × Pool :=
  if pool.creds = [] then (none, pool)
  else ((Turns.walk pool.creds pool.pointer (available now)).map (·.id),
    { pool with rr := pool.rr + 1 })

/-- Set the cooldown of the first credential with this id. -/
def setCooldown (id : Bytes) (value : Int) : List Credential → List Credential
  | [] => []
  | c :: rest =>
    if c.id = id then { c with cooldownUntil := value } :: rest else c :: setCooldown id value rest

def coolDown (pool : Pool) (id : Bytes) (now duration : Int64) : Option (Bool × Pool) :=
  if pool.creds.any (·.id = id) then
    (checked (now.toInt + duration.toInt)).map fun value =>
      (true, { pool with creds := setCooldown id value pool.creds })
  else some (false, pool)

def markHealthy (pool : Pool) (id : Bytes) : Bool × Pool :=
  (pool.creds.any (·.id = id), { pool with creds := setCooldown id 0 pool.creds })

end Pool

/-- One call on the pool. -/
inductive Op where
  | nextAvailable (now : Int64)
  | coolDown (id : Bytes) (now duration : Int64)
  | markHealthy (id : Bytes)

def step (pool : Pool) : Op → Option Pool
  | .nextAvailable now => some (pool.nextAvailable now).2
  | .coolDown id now duration => (pool.coolDown id now duration).map (·.2)
  | .markHealthy id => some (pool.markHealthy id).2

def run (pool : Pool) (ops : List Op) : Option Pool := ops.foldlM step pool

/-! ## Backoff -/

def splitmix64 (x : UInt64) : UInt64 :=
  let x := x + 0x9e3779b97f4a7c15
  let x := (x ^^^ (x >>> 30)) * 0xbf58476d1ce4e5b9
  let x := (x ^^^ (x >>> 27)) * 0x94d049bb133111eb
  x ^^^ (x >>> 31)

/-- The doubling loop, with so many turns left. -/
def scale (cap : Int) : Nat → Int → Option Int
  | 0, scaled => some scaled
  | turns + 1, scaled =>
    if cap.tdiv 2 ≤ scaled then some cap else (checked (scaled * 2)).bind (scale cap turns)

/-- The mixed seed. A seed of 0 stands for the clock. -/
def draw (clock attempt seed : UInt64) : UInt64 :=
  splitmix64 ((if seed = 0 then clock else seed) ^^^ (attempt + 1))

def jitteredBackoffMs (clock attempt : UInt64) (baseMs capMs : Int64) (seed : UInt64) :
    Option Int :=
  if baseMs.toInt ≤ 0 then some 0
  else do
    let cap := if capMs.toInt < baseMs.toInt then baseMs.toInt else capMs.toInt
    let shift := if 30 < attempt.toNat then 30 else attempt.toNat
    let scaled ← scale cap shift baseMs.toInt
    let scaled := if cap < scaled then cap else scaled
    let bound ← checked (scaled + 1)
    pure ((draw clock attempt seed).toNat % bound.toNat : Nat)

end Euxis.Credentials
