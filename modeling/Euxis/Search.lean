import Mathlib.Logic.Relation
import Mathlib.Data.List.Basic
import Mathlib.Data.Finset.Card
import Mathlib.Data.Finset.Filter
import Mathlib.Algebra.Order.BigOperators.Group.List
import Mathlib.Algebra.Group.Action.Defs
import Mathlib.Algebra.Order.Ring.Nat

/-!
# Searching a finite graph

Two ways of moving through one. A worklist search holds a queue of entries and the nodes seen so
far: an entry stands on a node and may carry more than that, such as the path that led there, and a
node enters the queue once. A climb follows one step from each node until a test decides.
-/

namespace Euxis.Search

variable {τ α : Type} [DecidableEq α] (node : τ → α) (next : τ → List τ)

/-- The queue and the seen nodes. -/
structure Work (τ α : Type) where
  frontier : List τ
  visited : List α

def push (work : Work τ α) (t : τ) : Work τ α :=
  if node t ∈ work.visited then work
  else { frontier := work.frontier ++ [t], visited := node t :: work.visited }

/-- One round: the first entry leaves the queue and its successors join it. -/
def advance (rest : List τ) (visited : List α) (t : τ) : Work τ α :=
  (next t).foldl (push node) { frontier := rest, visited }

/-- All entries that ever left the queue, in order. -/
def loop : Nat → Work τ α → List τ → Option (List τ)
  | 0, _, _ => none
  | fuel + 1, work, popped =>
    match work.frontier with
    | [] => some popped
    | t :: rest => loop fuel (advance node next rest work.visited t) (popped ++ [t])

theorem loop_popped (fuel : Nat) (work : Work τ α) (popped : List τ) :
    loop node next fuel work popped = (loop node next fuel work []).map (popped ++ ·) := by
  induction fuel generalizing work popped with
  | zero => rfl
  | succ fuel ih =>
    unfold loop
    cases work.frontier with
    | nil => simp
    | cons t rest =>
      simp only
      rw [ih _ (popped ++ [t]), ih _ ([] ++ [t]), Option.map_map]
      congr 1
      funext all
      simp

/-- What pushing a list of entries does. -/
structure Pushed (before after : Work τ α) (ts : List τ) : Prop where
  frontier : ∃ new, after.frontier = before.frontier ++ new ∧ ∀ t ∈ new, t ∈ ts
  visited : ∀ a, a ∈ after.visited ↔ a ∈ before.visited ∨ ∃ t ∈ ts, node t = a
  covered : ∀ a ∈ after.visited, a ∈ before.visited ∨ ∃ t ∈ after.frontier, node t = a

omit [DecidableEq α] in
theorem pushed_refl (work : Work τ α) : Pushed node work work [] := by
  refine ⟨⟨[], by simp⟩, ?_, ?_⟩
  · simp
  · intro a ha
    exact Or.inl ha

theorem pushed_push (before work : Work τ α) (ts : List τ) (t : τ)
    (h : Pushed node before work ts) : Pushed node before (push node work t) (ts ++ [t]) := by
  obtain ⟨new, hnew, hmem⟩ := h.frontier
  unfold push
  split
  -- Already seen: the frontier stays, and its target is among the earlier ones.
  · rename_i hseen
    refine ⟨⟨new, hnew, fun u hu => List.mem_append_left _ (hmem u hu)⟩, ?_, h.covered⟩
    intro a
    rw [h.visited]
    constructor
    · rintro (ha | ⟨u, hu, rfl⟩)
      · exact Or.inl ha
      · exact Or.inr ⟨u, List.mem_append_left _ hu, rfl⟩
    · rintro (ha | ⟨u, hu, rfl⟩)
      · exact Or.inl ha
      · rcases List.mem_append.mp hu with hu | hu
        · exact Or.inr ⟨u, hu, rfl⟩
        · rw [List.mem_singleton] at hu
          subst hu
          exact (h.visited _).mp hseen
  · refine ⟨⟨new ++ [t], by simp [hnew], ?_⟩, ?_, ?_⟩
    · intro u hu
      rcases List.mem_append.mp hu with hu | hu
      · exact List.mem_append_left _ (hmem u hu)
      · exact List.mem_append_right _ hu
    · intro a
      simp only [List.mem_cons, h.visited, List.mem_append, List.not_mem_nil, or_false]
      constructor
      · rintro (rfl | ha | ⟨u, hu, rfl⟩)
        · exact Or.inr ⟨t, Or.inr rfl, rfl⟩
        · exact Or.inl ha
        · exact Or.inr ⟨u, Or.inl hu, rfl⟩
      · rintro (ha | ⟨u, hu | rfl, rfl⟩)
        · exact Or.inr (Or.inl ha)
        · exact Or.inr (Or.inr ⟨u, hu, rfl⟩)
        · exact Or.inl rfl
    · intro a ha
      rcases List.mem_cons.mp ha with rfl | ha
      · exact Or.inr ⟨t, by simp, rfl⟩
      · rcases h.covered a ha with hb | ⟨u, hu, rfl⟩
        · exact Or.inl hb
        · exact Or.inr ⟨u, List.mem_append_left _ hu, rfl⟩

theorem pushed_foldl (before work : Work τ α) (done ts : List τ)
    (h : Pushed node before work done) :
    Pushed node before (ts.foldl (push node) work) (done ++ ts) := by
  induction ts generalizing work done with
  | nil => simpa using h
  | cons t ts ih =>
    have := ih (push node work t) (done ++ [t]) (pushed_push node before work done t h)
    simpa using this

theorem pushed_advance (rest : List τ) (visited : List α) (t : τ) :
    Pushed node { frontier := rest, visited } (advance node next rest visited t) (next t) := by
  unfold advance
  exact pushed_foldl node _ _ [] (next t) (pushed_refl node { frontier := rest, visited })

/-! ## Termination -/

section Termination

variable (nodes : List α)

def unseen (visited : List α) : Nat := (nodes.filter (· ∉ visited)).length

theorem unseen_cons (visited : List α) (a : α) (ha : a ∈ nodes) (hnew : a ∉ visited) :
    unseen nodes (a :: visited) + 1 ≤ unseen nodes visited := by
  have hsub : ∀ b, b ∉ a :: visited → b ∉ visited := fun b hb h => hb (List.mem_cons_of_mem _ h)
  unfold unseen
  induction nodes with
  | nil => cases ha
  | cons b bs ih =>
    have hmono : (bs.filter (· ∉ a :: visited)).length ≤ (bs.filter (· ∉ visited)).length := by
      apply (List.monotone_filter_right bs _).length_le
      intro c hc
      simpa using hsub c (by simpa using hc)
    by_cases hb : b = a
    · subst hb
      rw [List.filter_cons_of_neg (by simp), List.filter_cons_of_pos (by simpa using hnew),
        List.length_cons]
      omega
    · have ha' : a ∈ bs := (List.mem_cons.mp ha).resolve_left (Ne.symm hb)
      have := ih ha'
      by_cases hbv : b ∈ visited
      · rw [List.filter_cons_of_neg (by simp [hbv]), List.filter_cons_of_neg (by simpa using hbv)]
        exact this
      · rw [List.filter_cons_of_pos (by simp [hb, hbv]),
          List.filter_cons_of_pos (by simpa using hbv)]
        simpa using this

theorem push_measure (work : Work τ α) (t : τ) (ht : node t ∈ nodes) :
    (push node work t).frontier.length + unseen nodes (push node work t).visited ≤
      work.frontier.length + unseen nodes work.visited := by
  unfold push
  split
  · exact Nat.le_refl _
  · rename_i hnew
    have := unseen_cons nodes work.visited (node t) ht hnew
    simp only [List.length_append, List.length_singleton]
    omega

theorem foldl_measure (work : Work τ α) (ts : List τ) (hts : ∀ t ∈ ts, node t ∈ nodes) :
    (ts.foldl (push node) work).frontier.length + unseen nodes (ts.foldl (push node) work).visited ≤
      work.frontier.length + unseen nodes work.visited := by
  induction ts generalizing work with
  | nil => exact Nat.le_refl _
  | cons t ts ih =>
    have h1 := push_measure node nodes work t (hts t List.mem_cons_self)
    have h2 := ih (push node work t) fun u hu => hts u (List.mem_cons_of_mem _ hu)
    rw [List.foldl_cons]
    omega

end Termination

/-! ## What a search finds -/

/-- Entries that the successor function leads to. -/
def Reaches (start t : τ) : Prop := Relation.ReflTransGen (fun a b => b ∈ next a) start t

structure Inv (start : τ) (work : Work τ α) (popped : List τ) : Prop where
  reached : ∀ t, t ∈ popped ∨ t ∈ work.frontier → Reaches next start t
  closed : ∀ t ∈ popped, ∀ u ∈ next t, node u ∈ work.visited
  covered : ∀ a ∈ work.visited, ∃ t, (t ∈ popped ∨ t ∈ work.frontier) ∧ node t = a
  started : node start ∈ work.visited

theorem advance_inv (start : τ) (rest : List τ) (visited : List α) (popped : List τ) (t : τ)
    (hinv : Inv node next start { frontier := t :: rest, visited } popped) :
    Inv node next start (advance node next rest visited t) (popped ++ [t]) := by
  have hp := pushed_advance node next rest visited t
  obtain ⟨new, hnew, hmem⟩ := hp.frontier
  have ht : Reaches next start t := hinv.reached t (Or.inr List.mem_cons_self)
  refine ⟨?_, ?_, ?_, ?_⟩
  · rintro u (hu | hu)
    · rcases List.mem_append.mp hu with hu | hu
      · exact hinv.reached u (Or.inl hu)
      · rw [List.mem_singleton.mp hu]
        exact ht
    · rw [hnew] at hu
      rcases List.mem_append.mp hu with hu | hu
      · exact hinv.reached u (Or.inr (List.mem_cons_of_mem _ hu))
      · exact ht.tail (hmem u hu)
  · intro u hu v hv
    rw [hp.visited]
    rcases List.mem_append.mp hu with hu | hu
    · exact Or.inl (hinv.closed u hu v hv)
    · rw [List.mem_singleton.mp hu] at hv
      exact Or.inr ⟨v, hv, rfl⟩
  -- The node just popped leaves the frontier, but it counts as popped from here on.
  · intro a ha
    rcases hp.covered a ha with hb | ⟨u, hu, rfl⟩
    · obtain ⟨u, hu | hu, rfl⟩ := hinv.covered a hb
      · exact ⟨u, Or.inl (List.mem_append_left _ hu), rfl⟩
      · rcases List.mem_cons.mp hu with rfl | hu
        · exact ⟨u, Or.inl (by simp), rfl⟩
        · exact ⟨u, Or.inr (by rw [hnew]; exact List.mem_append_left _ hu), rfl⟩
    · exact ⟨u, Or.inr hu, rfl⟩
  · rw [hp.visited]
    exact Or.inl hinv.started

theorem loop_spec (nodes : List α) (hnodes : ∀ t, ∀ u ∈ next t, node u ∈ nodes) (start : τ)
    (fuel : Nat) (work : Work τ α) (popped : List τ) (hinv : Inv node next start work popped)
    (hfuel : work.frontier.length + unseen nodes work.visited < fuel) :
    ∃ all, loop node next fuel work popped = some all ∧
      (∀ t ∈ all, Reaches next start t) ∧ (∃ t ∈ all, node t = node start) ∧
      ∀ t ∈ all, ∀ u ∈ next t, ∃ v ∈ all, node v = node u := by
  induction fuel generalizing work popped with
  | zero => omega
  | succ fuel ih =>
    obtain ⟨frontier, visited⟩ := work
    cases frontier with
    | nil =>
      have hcov : ∀ a ∈ visited, ∃ t ∈ popped, node t = a := by
        intro a ha
        obtain ⟨t, ht | ht, rfl⟩ := hinv.covered a ha
        · exact ⟨t, ht, rfl⟩
        · cases ht
      exact ⟨popped, rfl, fun t ht => hinv.reached t (Or.inl ht), hcov _ hinv.started,
        fun t ht u hu => hcov _ (hinv.closed t ht u hu)⟩
    | cons t rest =>
      -- A pop takes one from the frontier, and each push one from the unseen nodes.
      have hmeasure := foldl_measure node nodes { frontier := rest, visited } (next t) (hnodes t)
      simp only [List.length_cons] at hfuel hmeasure
      apply ih _ _ (advance_inv node next start rest visited popped t hinv)
      unfold advance
      omega

/-- **The search.** It ends on every finite graph, cyclic or not. What it finds is reached from the
start, holds the start, and holds with a node all nodes after it. -/
theorem search_spec (nodes : List α) (hnodes : ∀ t, ∀ u ∈ next t, node u ∈ nodes) (start : τ)
    (fuel : Nat) (hfuel : nodes.length + 1 < fuel) :
    ∃ all, loop node next fuel { frontier := [start], visited := [node start] } [] = some all ∧
      (∀ t ∈ all, Reaches next start t) ∧ (∃ t ∈ all, node t = node start) ∧
      ∀ t ∈ all, ∀ u ∈ next t, ∃ v ∈ all, node v = node u := by
  apply loop_spec node next nodes hnodes
  · refine ⟨?_, by simp, ?_, by simp⟩
    · rintro t (ht | ht)
      · cases ht
      · rw [List.mem_singleton.mp ht]
        exact Relation.ReflTransGen.refl
    · intro a ha
      exact ⟨start, Or.inr (by simp), (List.mem_singleton.mp ha).symm⟩
  · have : unseen nodes [node start] ≤ nodes.length := List.length_filter_le _ _
    simp only [List.length_singleton]
    omega

/-! ## Queues without memory

A queue that does not remember its nodes still empties when every entry is replaced by few entries
of a lower rank.
-/

section Weight

variable (rank : τ → Nat) (width : Nat)

def weight (queue : List τ) : Nat := (queue.map fun t => (width + 1) ^ rank t).sum

theorem weight_below (t : τ) (below : List τ) (hlen : below.length ≤ width)
    (hrank : ∀ u ∈ below, rank u < rank t) : weight rank width below < (width + 1) ^ rank t := by
  cases hr : rank t with
  | zero =>
    have hnil : below = [] := by
      apply List.eq_nil_iff_forall_not_mem.mpr
      intro u hu
      have := hrank u hu
      omega
    rw [hnil]
    exact Nat.pos_of_ne_zero (by simp)
  | succ r =>
    have hsum : weight rank width below ≤ below.length * (width + 1) ^ r := by
      have hle := List.sum_le_card_nsmul (below.map fun u => (width + 1) ^ rank u)
        ((width + 1) ^ r) (by
        intro x hx
        obtain ⟨u, hu, rfl⟩ := List.mem_map.mp hx
        have hlt := hrank u hu
        exact Nat.pow_le_pow_right (Nat.succ_pos width) (by omega))
      rw [List.length_map, smul_eq_mul] at hle
      exact hle
    -- In base width + 1 the children together do not reach the next digit.
    have hwidth : below.length * (width + 1) ^ r ≤ width * (width + 1) ^ r :=
      Nat.mul_le_mul_right _ hlen
    have hpos : 0 < (width + 1) ^ r := Nat.pow_pos (Nat.succ_pos width)
    have hpow : (width + 1) ^ (r + 1) = width * (width + 1) ^ r + (width + 1) ^ r := by
      rw [Nat.pow_succ', Nat.succ_mul]
    omega

theorem weight_lt (t : τ) (rest below : List τ) (hlen : below.length ≤ width)
    (hrank : ∀ u ∈ below, rank u < rank t) :
    weight rank width (rest ++ below) < weight rank width (t :: rest) := by
  have hbelow := weight_below rank width t below hlen hrank
  unfold weight at hbelow ⊢
  rw [List.map_append, List.sum_append, List.map_cons, List.sum_cons]
  omega

end Weight

/-! ## Loops that may not end -/

theorem foldlM_keeps {α β : Type} (P : β → Prop) (f : β → α → Option β) (l : List α)
    (hf : ∀ b, ∀ a ∈ l, P b → ∃ b', f b a = some b' ∧ P b') (b : β) (hb : P b) :
    ∃ b', l.foldlM f b = some b' ∧ P b' := by
  induction l generalizing b with
  | nil => exact ⟨b, rfl, hb⟩
  | cons a l ih =>
    obtain ⟨b', hb', hp⟩ := hf b a List.mem_cons_self hb
    obtain ⟨b'', hb'', hp'⟩ := ih (fun b a ha => hf b a (List.mem_cons_of_mem _ ha)) b' hp
    exact ⟨b'', by rw [List.foldlM_cons, hb']; exact hb'', hp'⟩

theorem foldlM_returns {α β : Type} (f : β → α → Option β) (l : List α)
    (hf : ∀ b, ∀ a ∈ l, ∃ b', f b a = some b') (b : β) : ∃ b', l.foldlM f b = some b' := by
  obtain ⟨b', hb', -⟩ := foldlM_keeps (fun _ => True) f l
    (fun b a ha _ => (hf b a ha).imp fun _ h => ⟨h, trivial⟩) b trivial
  exact ⟨b', hb'⟩

theorem foldlM_preserves {σ α : Type} (I : σ → Prop) (f : σ → α → Option σ) (l : List α)
    (hf : ∀ s a s', a ∈ l → f s a = some s' → I s → I s') (s s' : σ) (h : l.foldlM f s = some s')
    (hs : I s) : I s' := by
  induction l generalizing s with
  | nil =>
    simp only [List.foldlM_nil, Option.pure_def, Option.some.injEq] at h
    rw [← h]
    exact hs
  | cons a rest ih =>
    rw [List.foldlM_cons, Option.bind_eq_bind, Option.bind_eq_some_iff] at h
    obtain ⟨s₁, h₁, h⟩ := h
    apply ih (fun s b s' hb => hf s b s' (List.mem_cons_of_mem _ hb)) s₁ h
    exact hf s a s₁ List.mem_cons_self h₁ hs

theorem foldlM_gathers {σ α β : Type} (P : σ → β → Prop) (Adds : α → β → Prop)
    (f : σ → α → Option σ) (l : List α) (hf : ∀ s a s', f s a = some s' → ∀ x, P s' x ↔ P s x ∨
      Adds a x) (s s' : σ) (h : l.foldlM f s = some s') (x : β) :
    P s' x ↔ P s x ∨ ∃ a ∈ l, Adds a x := by
  induction l generalizing s with
  | nil =>
    obtain rfl := Option.some.inj h
    simp
  | cons a rest ih =>
    rw [List.foldlM_cons, Option.bind_eq_bind, Option.bind_eq_some_iff] at h
    obtain ⟨s₁, h₁, h⟩ := h
    rw [ih s₁ h, hf s a s₁ h₁ x, or_assoc]
    simp

theorem foldlM_round {σ α : Type} (f : σ → α → Option σ) (l : List α) (s s' : σ)
    (h : l.foldlM f s = some s') (a : α) (ha : a ∈ l) :
    ∃ before after, f before a = some after := by
  induction l generalizing s with
  | nil => cases ha
  | cons b rest ih =>
    rw [List.foldlM_cons, Option.bind_eq_bind, Option.bind_eq_some_iff] at h
    obtain ⟨s₁, h₁, h⟩ := h
    rcases List.mem_cons.mp ha with rfl | ha
    · exact ⟨s, s₁, h₁⟩
    · exact ih s₁ h ha

theorem rel_bind {σ τ : Type} {R : σ → τ → Prop} {x : Option σ} {y : Option τ} {f : σ → Option σ}
    {f' : τ → Option τ} (h : Option.Rel R x y) (hf : ∀ s t, R s t → Option.Rel R (f s) (f' t)) :
    Option.Rel R (x.bind f) (y.bind f') := by
  cases h with
  | none => exact .none
  | some h => exact hf _ _ h

theorem foldlM_rel {σ τ α : Type} (R : σ → τ → Prop) (f : σ → α → Option σ) (f' : τ → α → Option τ)
    (l : List α) (hf : ∀ s t, R s t → ∀ a ∈ l, Option.Rel R (f s a) (f' t a)) (s : σ) (t : τ)
    (h : R s t) : Option.Rel R (l.foldlM f s) (l.foldlM f' t) := by
  induction l generalizing s t with
  | nil => exact .some h
  | cons a rest ih =>
    rw [List.foldlM_cons, List.foldlM_cons]
    exact rel_bind (hf s t h a List.mem_cons_self)
      (ih fun s t h a ha => hf s t h a (List.mem_cons_of_mem _ ha))

/-! ## Climbing -/

section Climb

variable {β : Type} (up : α → Option α) (test : α → Option β)

/-- The decision of the first node above `a` that decides, if one does. -/
def climb : Nat → α → Option (Option β)
  | 0, _ => none
  | fuel + 1, a =>
    match up a with
    | none => some none
    | some p =>
      match test p with
      | some b => some (some b)
      | none => climb fuel p

/-- The nodes above `a`, one step each. -/
def Above (a : α) : List α → Prop
  | [] => True
  | p :: rest => up a = some p ∧ Above p rest

/-- What a climb decides: the nodes it passed do not decide, and the last one does. -/
def Decides (a : α) (b : β) : Prop :=
  ∃ passed last, Above up a (passed ++ [last]) ∧ test last = some b ∧ ∀ p ∈ passed, test p = none

omit [DecidableEq α] in
theorem not_decides_root (a : α) (b : β) (hup : up a = none) : ¬ Decides up test a b := by
  rintro ⟨passed, last, habove, -, -⟩
  cases passed with
  | nil =>
    rw [List.nil_append, Above, hup] at habove
    cases habove.1
  | cons p rest =>
    rw [List.cons_append, Above, hup] at habove
    cases habove.1

omit [DecidableEq α] in
theorem decides_step (a p : α) (b : β) (hup : up a = some p) :
    Decides up test a b ↔ test p = some b ∨ (test p = none ∧ Decides up test p b) := by
  constructor
  · rintro ⟨passed, last, habove, hlast, hpassed⟩
    cases passed with
    | nil =>
      obtain rfl : last = p := Option.some.inj (habove.1.symm.trans hup)
      exact Or.inl hlast
    | cons q rest =>
      obtain rfl : q = p := Option.some.inj (habove.1.symm.trans hup)
      refine Or.inr ⟨hpassed q List.mem_cons_self, rest, last, habove.2, hlast, ?_⟩
      intro x hx
      exact hpassed x (List.mem_cons_of_mem _ hx)
  · rintro (ht | ⟨ht, passed, last, habove, hlast, hpassed⟩)
    · exact ⟨[], p, ⟨hup, trivial⟩, ht, by simp⟩
    · refine ⟨p :: passed, last, ⟨hup, habove⟩, hlast, ?_⟩
      intro q hq
      rcases List.mem_cons.mp hq with rfl | hq
      · exact ht
      · exact hpassed q hq

omit [DecidableEq α] in
theorem above_last (a last : α) (passed : List α) (h : Above up a (passed ++ [last])) :
    Relation.TransGen (fun x y => up x = some y) a last := by
  induction passed generalizing a with
  | nil => exact .single h.1
  | cons p rest ih => exact .head h.1 (ih p h.2)

omit [DecidableEq α] in
theorem exists_decides_iff (a : α) :
    (∃ b, Decides up test a b) ↔ ∃ c, Relation.TransGen (fun x y => up x = some y) a c ∧
      (test c).isSome = true := by
  constructor
  · rintro ⟨b, passed, last, habove, hlast, -⟩
    exact ⟨last, above_last up a last passed habove, by rw [hlast]; rfl⟩
  · rintro ⟨c, htrans, hc⟩
    induction htrans using Relation.TransGen.head_induction_on with
    | single hup =>
      obtain ⟨b, hb⟩ := Option.isSome_iff_exists.mp hc
      exact ⟨b, (decides_step up test _ c b hup).mpr (Or.inl hb)⟩
    | @head x p hup _ ih =>
      cases ht : test p with
      | some b => exact ⟨b, (decides_step up test x p b hup).mpr (Or.inl ht)⟩
      | none =>
        obtain ⟨b, hb⟩ := ih
        exact ⟨b, (decides_step up test x p b hup).mpr (Or.inr ⟨ht, hb⟩)⟩

omit [DecidableEq α] in
theorem climb_some (fuel : Nat) (a : α) (r : Option β) (h : climb up test fuel a = some r) (b : β) :
    r = some b ↔ Decides up test a b := by
  induction fuel generalizing a with
  | zero => cases h
  | succ fuel ih =>
    unfold climb at h
    cases hup : up a with
    | none =>
      rw [hup] at h
      obtain rfl := Option.some.inj h
      simp [not_decides_root up test a b hup]
    | some p =>
      rw [hup] at h
      cases ht : test p with
      | some c =>
        simp only [ht] at h
        obtain rfl := Option.some.inj h
        simp [decides_step up test a p b hup, ht]
      | none =>
        simp only [ht] at h
        simp [decides_step up test a p b hup, ht, ih p h]

omit [DecidableEq α] in
theorem climb_returns (rank : α → Nat) (hrank : ∀ a p, up a = some p → rank p < rank a)
    (fuel : Nat) (a : α) (hfuel : rank a < fuel) : ∃ r, climb up test fuel a = some r := by
  induction fuel generalizing a with
  | zero => omega
  | succ fuel ih =>
    unfold climb
    cases hup : up a with
    | none => exact ⟨none, rfl⟩
    | some p =>
      have hp := hrank a p hup
      simp only
      cases ht : test p with
      | some c => exact ⟨some c, rfl⟩
      | none => exact ih p (by omega)

omit [DecidableEq α] in
theorem climb_spec (rank : α → Nat) (hrank : ∀ a p, up a = some p → rank p < rank a)
    (fuel : Nat) (a : α) (hfuel : rank a < fuel) : ∃ r, climb up test fuel a = some r ∧
      ∀ b, r = some b ↔ Decides up test a b := by
  obtain ⟨r, hr⟩ := climb_returns up test rank hrank fuel a hfuel
  exact ⟨r, hr, climb_some up test fuel a r hr⟩

end Climb

omit [DecidableEq α] in
/-- An acyclic relation on finitely many nodes has a rank that falls with each step. -/
theorem exists_rank (nodes : Finset α) (r : α → α → Prop) (hfin : ∀ a b, r a b → b ∈ nodes)
    (hacyclic : ∀ a, ¬ Relation.TransGen r a a) :
    ∃ rank : α → Nat, (∀ a b, r a b → rank b < rank a) ∧ ∀ a, rank a ≤ nodes.card := by
  classical
  refine ⟨fun a => (nodes.filter fun b => Relation.TransGen r a b).card, ?_, ?_⟩
  · intro a b hab
    apply Finset.card_lt_card
    rw [Finset.ssubset_iff_of_subset]
    · refine ⟨b, ?_, ?_⟩
      · rw [Finset.mem_filter]
        exact ⟨hfin a b hab, Relation.TransGen.single hab⟩
      · rw [Finset.mem_filter]
        rintro ⟨-, hb⟩
        exact hacyclic b hb
    · intro c hc
      rw [Finset.mem_filter] at hc ⊢
      exact ⟨hc.1, Relation.TransGen.head hab hc.2⟩
  · intro a
    exact Finset.card_filter_le _ _

end Euxis.Search
