import Euxis.Search

/-!
# Searching by depth

A worklist search whose entries carry the number of steps from the roots, and which expands an entry
only at some depths. A node enters the queue once, at the depth at which it is met first: the queue
is in the order of the depths, so no other way to the node is shorter, and the limit on the depth
loses nothing.
-/

namespace Euxis.Breadth

open Search (Work push advance Pushed)

variable {α : Type} [DecidableEq α] (succ : α → List α) (expand : Nat → Bool) (roots : List α)

/-- `n` steps lead from a root to the node, each of them at a depth that is expanded. -/
inductive AtDepth : Nat → α → Prop
  | root (a : α) (h : a ∈ roots) : AtDepth 0 a
  | step (n : Nat) (a b : α) (h : AtDepth n a) (hexpand : expand n = true) (hb : b ∈ succ a) :
      AtDepth (n + 1) b

def next (t : α × Nat) : List (α × Nat) :=
  if expand t.2 then (succ t.1).map fun b => (b, t.2 + 1) else []

omit [DecidableEq α] in
theorem mem_next (t u : α × Nat) :
    u ∈ next succ expand t ↔ expand t.2 = true ∧ u.1 ∈ succ t.1 ∧ u.2 = t.2 + 1 := by
  obtain ⟨b, d⟩ := u
  unfold next
  split
  · rename_i h
    simp only [List.mem_map, Prod.mk.injEq, h, true_and]
    constructor
    · rintro ⟨c, hc, rfl, rfl⟩
      exact ⟨hc, rfl⟩
    · rintro ⟨hb, rfl⟩
      exact ⟨b, hb, rfl, rfl⟩
  · rename_i h
    simp [h]

/-- What holds between two rounds, of the entries that have left the queue and those in it. -/
structure Inv (popped : List (α × Nat)) (work : Work (α × Nat) α) : Prop where
  depth : ∀ t ∈ popped ++ work.frontier, AtDepth succ expand roots t.2 t.1
  order : (popped ++ work.frontier).Pairwise fun t u => t.2 ≤ u.2
  near : ∀ t ∈ work.frontier.head?, ∀ u ∈ work.frontier, u.2 ≤ t.2 + 1
  visited : ∀ a, a ∈ work.visited ↔ ∃ t ∈ popped ++ work.frontier, t.1 = a
  rooted : ∀ a ∈ roots, ∃ t ∈ popped ++ work.frontier, t.1 = a ∧ t.2 = 0
  closed : ∀ t ∈ popped, expand t.2 = true → ∀ b ∈ succ t.1, ∃ u ∈ popped ++ work.frontier,
    u.1 = b ∧ u.2 ≤ t.2 + 1

variable {succ expand roots} {popped : List (α × Nat)}

omit [DecidableEq α] in
theorem Inv.bound {t : α × Nat} {rest : List (α × Nat)} {visited : List α}
    (h : Inv succ expand roots popped { frontier := t :: rest, visited }) :
    ∀ u ∈ popped ++ t :: rest, u.2 ≤ t.2 + 1 := by
  intro u hu
  rcases List.mem_append.mp hu with hu | hu
  · have := (List.pairwise_append.mp h.order).2.2 u hu t List.mem_cons_self
    omega
  · exact h.near t rfl u hu

omit [DecidableEq α] in
theorem Inv.front_le {t : α × Nat} {rest : List (α × Nat)} {visited : List α}
    (h : Inv succ expand roots popped { frontier := t :: rest, visited }) : ∀ u ∈ rest, t.2 ≤ u.2 :=
  (List.pairwise_cons.mp (List.pairwise_append.mp h.order).2.1).1

section Deeper

variable {t : α × Nat} {rest new : List (α × Nat)} {visited : List α}
  (h : Inv succ expand roots popped { frontier := t :: rest, visited })
  (hdeeper : ∀ u ∈ new, expand t.2 = true ∧ u.1 ∈ succ t.1 ∧ u.2 = t.2 + 1)

/-! The new entries of a round stand behind the others, one step deeper than the entry that has left
the queue. -/

include h hdeeper

omit [DecidableEq α] in
theorem Inv.depth_append :
    ∀ u ∈ (popped ++ t :: rest) ++ new, AtDepth succ expand roots u.2 u.1 := by
  intro u hu
  rcases List.mem_append.mp hu with hu | hu
  · exact h.depth u hu
  · obtain ⟨hexpand, hsucc, hdepth⟩ := hdeeper u hu
    rw [hdepth]
    exact .step t.2 t.1 u.1 (h.depth t (by simp)) hexpand hsucc

omit [DecidableEq α] in
theorem Inv.bound_append : ∀ u ∈ (popped ++ t :: rest) ++ new, u.2 ≤ t.2 + 1 := by
  intro u hu
  rcases List.mem_append.mp hu with hu | hu
  · exact h.bound u hu
  · exact (hdeeper u hu).2.2.le

omit [DecidableEq α] in
theorem Inv.order_append : ((popped ++ t :: rest) ++ new).Pairwise fun t u => t.2 ≤ u.2 := by
  rw [List.pairwise_append]
  refine ⟨h.order, ?_, ?_⟩
  · apply List.pairwise_of_forall_mem_list
    intro u hu v hv
    have h1 := (hdeeper u hu).2.2
    have h2 := (hdeeper v hv).2.2
    omega
  · intro u hu v hv
    rw [(hdeeper v hv).2.2]
    exact h.bound u hu

omit [DecidableEq α] in
theorem Inv.front_le_append : ∀ u ∈ rest ++ new, t.2 ≤ u.2 := by
  intro u hu
  rcases List.mem_append.mp hu with hu | hu
  · exact h.front_le u hu
  · have := (hdeeper u hu).2.2
    omega

end Deeper

theorem Inv.advance {t : α × Nat} {rest : List (α × Nat)} {visited : List α}
    (h : Inv succ expand roots popped { frontier := t :: rest, visited }) :
    Inv succ expand roots (popped ++ [t])
      (Search.advance Prod.fst (next succ expand) rest visited t) := by
  have hpushed := Search.pushed_advance Prod.fst (next succ expand) rest visited t
  generalize Search.advance Prod.fst (next succ expand) rest visited t = after at hpushed
  obtain ⟨new, hnew, hmem⟩ := hpushed.frontier
  dsimp only at hnew
  have hall : popped ++ [t] ++ after.frontier = (popped ++ t :: rest) ++ new := by
    rw [hnew]
    simp
  have hdeeper : ∀ u ∈ new, expand t.2 = true ∧ u.1 ∈ succ t.1 ∧ u.2 = t.2 + 1 := fun u hu =>
    (mem_next succ expand t u).mp (hmem u hu)
  -- What is pushed is one deeper than the entry that leaves: the queue spans two depths.
  have hbound : ∀ u ∈ popped ++ [t] ++ after.frontier, u.2 ≤ t.2 + 1 := by
    rw [hall]
    exact h.bound_append hdeeper
  have hold : ∀ u ∈ popped ++ t :: rest, u ∈ popped ++ [t] ++ after.frontier := by
    intro u hu
    rw [hall]
    exact List.mem_append_left _ hu
  have hvisited : ∀ a, a ∈ after.visited ↔ ∃ u ∈ popped ++ [t] ++ after.frontier, u.1 = a := by
    intro a
    constructor
    · intro ha
      rcases hpushed.covered a ha with hb | ⟨u, hu, rfl⟩
      · obtain ⟨u, hu, rfl⟩ := (h.visited a).mp hb
        exact ⟨u, hold u hu, rfl⟩
      · exact ⟨u, List.mem_append_right _ hu, rfl⟩
    · rintro ⟨u, hu, rfl⟩
      rw [hpushed.visited]
      rw [hall] at hu
      rcases List.mem_append.mp hu with hu | hu
      · exact Or.inl ((h.visited u.1).mpr ⟨u, hu, rfl⟩)
      · exact Or.inr ⟨u, hmem u hu, rfl⟩
  constructor
  · rw [hall]
    exact h.depth_append hdeeper
  · rw [hall]
    exact h.order_append hdeeper
  · intro u hu v hv
    have hv' := hbound v (List.mem_append_right _ hv)
    have hu' := h.front_le_append hdeeper u (hnew ▸ List.mem_of_mem_head? hu)
    omega
  · exact hvisited
  · intro a ha
    obtain ⟨u, hu, hroot⟩ := h.rooted a ha
    exact ⟨u, hold u hu, hroot⟩
  · intro u hu hexpand b hb
    rcases List.mem_append.mp hu with hu | hu
    · obtain ⟨v, hv, hle⟩ := h.closed u hu hexpand b hb
      exact ⟨v, hold v hv, hle⟩
    · obtain rfl := List.mem_singleton.mp hu
      have hnext : (b, u.2 + 1) ∈ next succ expand u :=
        (mem_next succ expand u _).mpr ⟨hexpand, hb, rfl⟩
      obtain ⟨v, hv, hvb⟩ := (hvisited b).mp ((hpushed.visited b).mpr (Or.inr ⟨_, hnext, rfl⟩))
      exact ⟨v, hv, hvb, hbound v hv⟩

theorem Inv.start :
    Inv succ expand roots []
      ((roots.map fun a => (a, 0)).foldl (push Prod.fst) { frontier := [], visited := [] }) := by
  have hpushed := Search.pushed_foldl Prod.fst { frontier := [], visited := [] }
    { frontier := [], visited := [] } []
    (roots.map fun a => (a, 0)) (Search.pushed_refl Prod.fst _)
  generalize (roots.map fun a => (a, 0)).foldl (push Prod.fst) { frontier := [], visited := [] } =
    work at hpushed
  obtain ⟨new, hnew, hmem⟩ := hpushed.frontier
  have hfrontier : ∀ t ∈ work.frontier, t.1 ∈ roots ∧ t.2 = 0 := by
    intro t ht
    have hroot := hmem t (by rw [hnew] at ht; exact ht)
    simp only [List.nil_append, List.mem_map] at hroot
    obtain ⟨a, ha, rfl⟩ := hroot
    exact ⟨ha, rfl⟩
  have hcovered : ∀ a ∈ work.visited, ∃ t ∈ work.frontier, t.1 = a := by
    intro a ha
    exact (hpushed.covered a ha).resolve_left (by simp)
  have hroots : ∀ a ∈ roots, a ∈ work.visited := by
    intro a ha
    rw [hpushed.visited]
    exact Or.inr ⟨(a, 0), by simpa using ha, rfl⟩
  -- All entries are roots at depth 0, and each part of the invariant follows from that.
  constructor
  · intro t ht
    obtain ⟨hroot, hzero⟩ := hfrontier t ht
    rw [hzero]
    exact .root t.1 hroot
  · apply List.pairwise_of_forall_mem_list
    intro t ht u hu
    rw [(hfrontier t ht).2]
    exact Nat.zero_le _
  · intro t _ u hu
    rw [(hfrontier u hu).2]
    exact Nat.zero_le _
  · intro a
    refine ⟨hcovered a, ?_⟩
    rintro ⟨t, ht, rfl⟩
    exact hroots t.1 (hfrontier t ht).1
  · intro a ha
    obtain ⟨t, ht, rfl⟩ := hcovered a (hroots a ha)
    exact ⟨t, ht, rfl, (hfrontier t ht).2⟩
  · nofun

omit [DecidableEq α] in
/-- When the queue is empty, each node has been met at the depth of its shortest way. -/
theorem Inv.shortest {visited : List α}
    (h : Inv succ expand roots popped { frontier := [], visited }) (hmono : ∀ m n, m ≤ n →
      expand n = true → expand m = true) (n : Nat) (a : α) (hn : AtDepth succ expand roots n a) :
    ∃ t ∈ popped, t.1 = a ∧ t.2 ≤ n := by
  have hclosed := h.closed
  have hrooted := h.rooted
  simp only [List.append_nil] at hclosed hrooted
  induction hn with
  | root a ha =>
    obtain ⟨t, ht, hta, hzero⟩ := hrooted a ha
    exact ⟨t, ht, hta, hzero.le⟩
  | step n a b _ hexpand hb ih =>
    obtain ⟨t, ht, rfl, hle⟩ := ih
    obtain ⟨u, hu, hub, hule⟩ := hclosed t ht (hmono t.2 n hle hexpand) b hb
    exact ⟨u, hu, hub, by omega⟩

omit [DecidableEq α] in
theorem Inv.visited_iff {visited : List α}
    (h : Inv succ expand roots popped { frontier := [], visited })
    (hmono : ∀ m n, m ≤ n → expand n = true → expand m = true) (a : α) :
    a ∈ visited ↔ ∃ n, AtDepth succ expand roots n a := by
  have hvisited := h.visited a
  have hdepth := h.depth
  simp only [List.append_nil] at hvisited hdepth
  rw [hvisited]
  constructor
  · rintro ⟨t, ht, rfl⟩
    exact ⟨t.2, hdepth t ht⟩
  · rintro ⟨n, hn⟩
    obtain ⟨t, ht, hta, -⟩ := h.shortest hmono n a hn
    exact ⟨t, ht, hta⟩

end Euxis.Breadth
