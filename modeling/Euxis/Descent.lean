import Mathlib.Algebra.BigOperators.Group.List.Basic
import Mathlib.Algebra.GroupWithZero.Nat
import Mathlib.Data.List.Perm.Basic

/-!
# Walks that come to a node more than once

A walk goes from a node to all those that `next` lists, and does so anew each time it comes to a
node. What it adds to a state at each visit is added as often as the node is visited.
-/

namespace Euxis.Descent

variable {α : Type}

theorem sum_map_flatMap {β : Type} (l : List α) (f : α → List β) (w : β → Nat) :
    ((l.flatMap f).map w).sum = (l.map fun a => ((f a).map w).sum).sum := by
  induction l with
  | nil => rfl
  | cons a rest ih =>
    rw [List.flatMap_cons, List.map_append, List.sum_append, ih, List.map_cons, List.sum_cons]

/-! ## Visits -/

/-- The nodes, each one as often as the walk comes to it. -/
def visits (next : α → List α) : Nat → α → List α
  | 0, _ => []
  | fuel + 1, a => a :: (next a).flatMap (visits next fuel)

section Ranked

variable {next : α → List α} (rank : α → Nat) (hrank : ∀ a, ∀ b ∈ next a, rank b < rank a)

include hrank

theorem visits_perm (fuel : Nat) (a : α) (hfuel : rank a < fuel) :
    (visits next fuel a).Perm (a :: (visits next fuel a).flatMap next) := by
  induction fuel generalizing a with
  | zero => omega
  | succ fuel ih =>
    have hnext : ∀ b ∈ next a,
        (visits next fuel b).Perm ([b] ++ (visits next fuel b).flatMap next) := by
      intro b hb
      apply ih
      have := hrank a b hb
      omega
    rw [visits, List.flatMap_cons, List.flatMap_assoc]
    apply List.Perm.cons
    refine (List.Perm.flatMap_left _ hnext).trans ((List.flatMap_append_perm _ _ _).symm.trans ?_)
    rw [List.flatMap_singleton']

theorem flatMap_visits_perm (fuel : Nat) (starts : List α) (hfuel : ∀ a ∈ starts, rank a < fuel) :
    (starts.flatMap (visits next fuel)).Perm
      (starts ++ (starts.flatMap (visits next fuel)).flatMap next) := by
  have hstarts : ∀ a ∈ starts,
      (visits next fuel a).Perm ([a] ++ (visits next fuel a).flatMap next) := by
    intro a ha
    exact visits_perm rank hrank fuel a (hfuel a ha)
  refine (List.Perm.flatMap_left _ hstarts).trans ((List.flatMap_append_perm _ _ _).symm.trans ?_)
  rw [List.flatMap_singleton', List.flatMap_assoc]

theorem count_visits [DecidableEq α] (fuel : Nat) (starts : List α)
    (hfuel : ∀ a ∈ starts, rank a < fuel) (n : α) :
    (starts.flatMap (visits next fuel)).count n =
      starts.count n + ((starts.flatMap (visits next fuel)).map fun m => (next m).count n).sum := by
  have hcount := (flatMap_visits_perm rank hrank fuel starts hfuel).count_eq n
  rw [List.count_append, List.count_flatMap (x := n) (f := next)] at hcount
  exact hcount

end Ranked

/-! ## What is added -/

section Added

variable {σ ε : Type} (amount : σ → ε → Nat)

/-- The run ends, and has added so much. -/
def Adds (s : σ) (w : ε → Nat) (r : Option σ) : Prop :=
  ∃ s', r = some s' ∧ ∀ e, amount s' e = amount s e + w e

variable {amount} {s : σ} {w w' : ε → Nat} {r : Option σ}

theorem Adds.congr (h : Adds amount s w r) (heq : ∀ e, w e = w' e) : Adds amount s w' r := by
  obtain ⟨s', hr, hs'⟩ := h
  exact ⟨s', hr, fun e => by rw [hs' e, heq e]⟩

theorem Adds.bind {f : σ → Option σ} (h : Adds amount s w r) (hf : ∀ s', Adds amount s' w' (f s')) :
    Adds amount s (fun e => w e + w' e) (r >>= f) := by
  obtain ⟨s', rfl, hs'⟩ := h
  obtain ⟨s'', hr, hs''⟩ := hf s'
  refine ⟨s'', hr, fun e => ?_⟩
  rw [hs'' e, hs' e, Nat.add_assoc]

theorem Adds.after {s₀ : σ} {w₀ : ε → Nat} (h₀ : ∀ e, amount s e = amount s₀ e + w₀ e)
    (h : Adds amount s w r) : Adds amount s₀ (fun e => w₀ e + w e) r := by
  obtain ⟨s', hr, hs'⟩ := h
  refine ⟨s', hr, fun e => ?_⟩
  rw [hs' e, h₀ e, Nat.add_assoc]

theorem foldlM_adds (f : σ → α → Option σ) (w : α → ε → Nat) (l : List α)
    (hf : ∀ s, ∀ a ∈ l, Adds amount s (w a) (f s a)) (s : σ) :
    Adds amount s (fun e => (l.map fun a => w a e).sum) (l.foldlM f s) := by
  induction l generalizing s with
  | nil => exact ⟨s, rfl, fun e => rfl⟩
  | cons a rest ih =>
    rw [List.foldlM_cons]
    exact Adds.bind (hf s a List.mem_cons_self)
      (ih fun s b hb => hf s b (List.mem_cons_of_mem _ hb))

/-- What is added at all visits from a node. -/
def total (next : α → List α) (w : α → ε → Nat) (fuel : Nat) (a : α) (e : ε) : Nat :=
  ((visits next fuel a).map fun m => w m e).sum

/-- If a visit adds its own and what the visits of the next nodes add, the walk adds what all its
visits do. -/
theorem walk_adds {next : α → List α} (rank : α → Nat) (hrank : ∀ a, ∀ b ∈ next a, rank b < rank a)
    (w : α → ε → Nat) (walk : Nat → σ → α → Option σ)
    (hstep : ∀ fuel s a, (∀ s, ∀ b ∈ next a, Adds amount s (total next w fuel b) (walk fuel s b)) →
      Adds amount s (fun e => w a e + ((next a).map fun b => total next w fuel b e).sum)
        (walk (fuel + 1) s a))
    (fuel : Nat) (s : σ) (a : α) (hfuel : rank a < fuel) :
    Adds amount s (total next w fuel a) (walk fuel s a) := by
  induction fuel generalizing s a with
  | zero => omega
  | succ fuel ih =>
    refine (hstep fuel s a fun s b hb => ih s b ?_).congr fun e => ?_
    · have := hrank a b hb
      omega
    · rw [total, visits, List.map_cons, List.sum_cons, sum_map_flatMap]
      rfl

end Added

end Euxis.Descent
