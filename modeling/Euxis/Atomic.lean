import Mathlib.Data.List.Infix
import Mathlib.Logic.Function.Basic
import Euxis.Trace

/-!
# Loops that compare and exchange

Threads share one atomic value. An operation loads it, works out the next value, and exchanges the
two if the shared value is still the loaded one; otherwise it takes what it finds and tries again. A
load may be late: it sees any value that the shared one has had so far, and an exchange may fail for
no reason. Every run agrees with one that takes the exchanges and the stores one after the other.
-/

namespace Euxis.Atomic

/-- The loops and the plain stores. A loop goes on while there is a next value. -/
structure Code (σ ι κ : Type) where
  next : ι → σ → Option σ
  put : κ → σ

/-- What an operation came to. -/
inductive Entry (ι κ : Type) where
  | granted (i : ι)
  | refused (i : ι)
  | stored (k : κ)
  deriving DecidableEq

/-- `past` holds the values before the present one; a thread inside a loop has its `current`. -/
structure Shared (σ ι κ : Type) where
  past : List σ
  value : σ
  threads : Nat → Option (ι × σ)
  log : List (Entry ι κ)

variable {σ ι κ : Type} (code : Code σ ι κ)

/-- The modification order. -/
def Shared.order (s : Shared σ ι κ) : List σ := s.past ++ [s.value]

def start (v : σ) : Shared σ ι κ := { past := [], value := v, threads := fun _ => none, log := [] }

/-! ## One after the other -/

def apply (v : σ) : Entry ι κ → Option σ
  | .granted i => code.next i v
  | .refused _ => some v
  | .stored k => some (code.put k)

/-- The entries one after the other, from `v` on; `none` where one could not have been granted. -/
def replay (v : σ) (log : List (Entry ι κ)) : Option σ := log.foldlM (apply code) v

/-- The value stood in the shared place when some of the log had happened. -/
def Stood (v : σ) (log : List (Entry ι κ)) (x : σ) : Prop :=
  ∃ before, before <+: log ∧ replay code v before = some x

variable {code}

theorem replay_concat (v : σ) (log : List (Entry ι κ)) (e : Entry ι κ) :
    replay code v (log ++ [e]) = (replay code v log).bind fun v' => apply code v' e := by
  simp only [replay, List.foldlM_append, List.foldlM_cons, List.foldlM_nil, bind_pure,
    Option.bind_eq_bind]

theorem Stood.append {v x : σ} {log : List (Entry ι κ)} (h : Stood code v log x)
    (more : List (Entry ι κ)) : Stood code v (log ++ more) x := by
  obtain ⟨before, hbefore, hreplay⟩ := h
  exact ⟨before, hbefore.trans (List.prefix_append log more), hreplay⟩

/-! ## What the log explains -/

/-- The log explains the state: it replays to the shared value, whatever a thread holds stood there
once, and each refusal rests on a value that stood there before it. -/
structure Explained (code : Code σ ι κ) (v : σ) (s : Shared σ ι κ) : Prop where
  value : replay code v s.log = some s.value
  order : ∀ x ∈ s.order, Stood code v s.log x
  held : ∀ t i x, s.threads t = some (i, x) → Stood code v s.log x
  refused : ∀ before i after, s.log = before ++ .refused i :: after →
    ∃ x, Stood code v before x ∧ code.next i x = none

theorem explained_start (v : σ) : Explained code v (start v) where
  value := rfl
  order := by
    intro x hx
    rw [start, Shared.order, List.nil_append, List.mem_singleton] at hx
    subst hx
    exact ⟨[], List.prefix_rfl, rfl⟩
  held := by simp [start]
  refused := by simp [start]

theorem refused_concat {log before after : List (Entry ι κ)} {e : Entry ι κ} {i : ι}
    (h : log ++ [e] = before ++ .refused i :: after) :
    (e = .refused i ∧ log = before) ∨ ∃ rest, log = before ++ .refused i :: rest := by
  rcases List.eq_nil_or_concat after with rfl | ⟨rest, last, rfl⟩
  · obtain ⟨rfl, hlast⟩ := List.append_inj' h rfl
    exact Or.inl ⟨by simpa using hlast, rfl⟩
  · rw [List.concat_eq_append, ← List.cons_append, ← List.append_assoc] at h
    exact Or.inr ⟨rest, (List.append_inj' h rfl).1⟩

theorem held_update {s : Shared σ ι κ} {P : σ → Prop}
    (hheld : ∀ t i x, s.threads t = some (i, x) → P x) (t : Nat) (now : Option (ι × σ))
    (hnow : ∀ i x, now = some (i, x) → P x) :
    ∀ t' i x, Function.update s.threads t now t' = some (i, x) → P x := by
  intro t' i x h
  rw [Function.update_apply] at h
  split at h
  · exact hnow i x h
  · exact hheld t' i x h

theorem Explained.write {v new : σ} {s : Shared σ ι κ} (h : Explained code v s) (e : Entry ι κ)
    (he : ∀ i, e ≠ .refused i) (hnew : apply code s.value e = some new)
    (threads : Nat → Option (ι × σ))
    (hthreads : ∀ t i x, threads t = some (i, x) → Stood code v s.log x) :
    Explained code v { past := s.order, value := new, threads, log := s.log ++ [e] } := by
  have hreplay : replay code v (s.log ++ [e]) = some new := by
    rw [replay_concat, h.value, Option.bind_some, hnew]
  refine ⟨hreplay, ?_, ?_, ?_⟩
  · intro x hx
    rcases List.mem_append.mp hx with hx | hx
    · exact (h.order x hx).append [e]
    · rw [List.mem_singleton] at hx
      exact ⟨s.log ++ [e], List.prefix_rfl, by rw [hx, hreplay]⟩
  · intro t i x hx
    exact (hthreads t i x hx).append [e]
  · intro before i after hlog
    rcases refused_concat hlog with ⟨rfl, -⟩ | ⟨rest, hrest⟩
    · exact absurd rfl (he i)
    · exact h.refused before i rest hrest

theorem Explained.refuse {v current : σ} {s : Shared σ ι κ} (h : Explained code v s)
    (t : Nat) (i : ι) (hheld : s.threads t = some (i, current))
    (hnone : code.next i current = none) :
    Explained code v { s with threads := Function.update s.threads t none,
                              log := s.log ++ [.refused i] } := by
  refine ⟨?_, ?_, ?_, ?_⟩
  · rw [replay_concat, h.value]
    rfl
  · intro x hx
    exact (h.order x hx).append _
  · intro t' i' x' hx'
    exact (held_update h.held t none (by simp) t' i' x' hx').append _
  · intro before i' after hlog
    rcases refused_concat hlog with ⟨hi, rfl⟩ | ⟨rest, hrest⟩
    · obtain rfl := Entry.refused.inj hi
      exact ⟨current, h.held t i current hheld, hnone⟩
    · exact h.refused before i' rest hrest

/-! ## One step of one thread -/

variable (code) [DecidableEq σ]

inductive Event (ι κ : Type) where
  /-- Enters the loop with the value at a place of the modification order. -/
  | load (t : Nat) (i : ι) (seen : Nat)
  | exchange (t : Nat)
  | retry (t : Nat) (seen : Nat)
  | giveUp (t : Nat)
  | store (k : κ)

def exchangeStep (s : Shared σ ι κ) (t : Nat) : Option (Shared σ ι κ) := do
  let (i, current) ← s.threads t
  let new ← code.next i current
  if s.value = current then
    some { past := s.order, value := new, threads := Function.update s.threads t none,
           log := s.log ++ [.granted i] }
  else none

/-- The exchange fails, and `current` is what it found. -/
def retryStep (s : Shared σ ι κ) (t seen : Nat) : Option (Shared σ ι κ) := do
  let (i, current) ← s.threads t
  let _ ← code.next i current
  let v ← s.order[seen]?
  return { s with threads := Function.update s.threads t (some (i, v)) }

def giveUpStep (s : Shared σ ι κ) (t : Nat) : Option (Shared σ ι κ) := do
  let (i, current) ← s.threads t
  if (code.next i current).isNone then
    some { s with threads := Function.update s.threads t none, log := s.log ++ [.refused i] }
  else none

def step (s : Shared σ ι κ) : Event ι κ → Option (Shared σ ι κ)
  | .load t i seen => do
    let v ← s.order[seen]?
    if (s.threads t).isNone then
      some { s with threads := Function.update s.threads t (some (i, v)) }
    else none
  | .exchange t => exchangeStep code s t
  | .retry t seen => retryStep code s t seen
  | .giveUp t => giveUpStep code s t
  | .store k => some { s with past := s.order, value := code.put k, log := s.log ++ [.stored k] }

/-- The states that the interleavings of any number of threads reach. -/
def Reaches (v : σ) : Shared σ ι κ → Prop := Trace.Reaches (step code) (fun _ _ => True) (start v)

variable {code}

theorem step_cases {s s' : Shared σ ι κ} {e : Event ι κ} (h : step code s e = some s') :
    (∃ t i x, x ∈ s.order ∧ s' = { s with threads := Function.update s.threads t (some (i, x)) }) ∨
    (∃ t i new, code.next i s.value = some new ∧
      s' = { past := s.order, value := new, threads := Function.update s.threads t none,
             log := s.log ++ [.granted i] }) ∨
    (∃ t i current, s.threads t = some (i, current) ∧ code.next i current = none ∧
      s' = { s with threads := Function.update s.threads t none, log := s.log ++ [.refused i] }) ∨
    (∃ k, s' = { s with past := s.order, value := code.put k, log := s.log ++ [.stored k] }) := by
  cases e with
  | load t i seen =>
    simp only [step, Option.bind_eq_bind, Option.bind_eq_some_iff] at h
    obtain ⟨x, hx, h⟩ := h
    split at h
    · exact Or.inl ⟨t, i, x, List.mem_of_getElem? hx, (Option.some.inj h).symm⟩
    · exact absurd h (by simp)
  | exchange t =>
    simp only [step, exchangeStep, Option.bind_eq_bind, Option.bind_eq_some_iff] at h
    obtain ⟨⟨i, current⟩, -, new, hnew, h⟩ := h
    split at h
    · rename_i hvalue
      -- Only here does the write depend on the value that is in the cell now.
      subst hvalue
      exact Or.inr (Or.inl ⟨t, i, new, hnew, (Option.some.inj h).symm⟩)
    · exact absurd h (by simp)
  | retry t seen =>
    simp only [step, retryStep, Option.bind_eq_bind, Option.bind_eq_some_iff] at h
    obtain ⟨⟨i, current⟩, -, -, -, x, hx, h⟩ := h
    exact Or.inl ⟨t, i, x, List.mem_of_getElem? hx, (Option.some.inj h).symm⟩
  | giveUp t =>
    simp only [step, giveUpStep, Option.bind_eq_bind, Option.bind_eq_some_iff] at h
    obtain ⟨⟨i, current⟩, hheld, h⟩ := h
    split at h
    · rename_i hnone
      exact Or.inr (Or.inr (Or.inl ⟨t, i, current, hheld, Option.isNone_iff_eq_none.mp hnone,
        (Option.some.inj h).symm⟩))
    · exact absurd h (by simp)
  | store k => exact Or.inr (Or.inr (Or.inr ⟨k, (Option.some.inj h).symm⟩))

/-! ## Every run -/

theorem explained_step {v : σ} {s s' : Shared σ ι κ} {e : Event ι κ} (h : Explained code v s)
    (hs : step code s e = some s') : Explained code v s' := by
  rcases step_cases hs with ⟨t, i, x, hx, rfl⟩ | ⟨t, i, new, hnew, rfl⟩ | ⟨t, i, current, hheld,
    hnone, rfl⟩ | ⟨k, rfl⟩
  · refine ⟨h.value, h.order, ?_, h.refused⟩
    apply held_update h.held
    intro i' x' hx'
    obtain ⟨-, rfl⟩ := Prod.mk.inj (Option.some.inj hx')
    exact h.order x hx
  · exact h.write (.granted i) (by simp) hnew _ (held_update h.held t none (by simp))
  · exact h.refuse t i hheld hnone
  · exact h.write (.stored k) (by simp) rfl _ h.held

/-- Whatever the interleaving, the log explains the state. -/
theorem reaches_explained {v : σ} {s : Shared σ ι κ} (h : Reaches code v s) : Explained code v s :=
  Trace.Reaches.keeps (Explained code v) h (explained_start v) fun _ _ _ hs _ hstep =>
    explained_step hs hstep

end Euxis.Atomic
