import Mathlib.Data.List.Basic

/-!
# Parents found again from ranges

The nodes of a forest come in pre-order, each with a range and without its parent. A stack keeps the
nodes that are open, and a node is closed when the next one starts at its end or behind it. The
parent of a node is taken to be the top of the stack.
-/

namespace Euxis.Nesting

/-- A node with its children, and the siblings that follow it. -/
inductive Forest (α : Type) where
  | nil
  | node (a : α) (children next : Forest α)
  deriving DecidableEq, Repr

/-- A node with its place in the pre-order. -/
abbrev Frame (α : Type) := Nat × α

abbrev Link (α : Type) := Frame α × Frame α

variable {α : Type} (start stop : α → Nat)

namespace Forest

def preOrder : Forest α → List α
  | nil => []
  | node a children next => a :: (children.preOrder ++ next.preOrder)

/-- The links from parent to child, in pre-order. -/
def links (parent : Option (Frame α)) (place : Nat) : Forest α → List (Link α)
  | nil => []
  | node a children next =>
    parent.toList.map (fun p => (p, (place, a))) ++ (children.links (some (place, a)) (place + 1) ++
      next.links parent (place + 1 + children.preOrder.length))

/-- The siblings stand one behind the other between two bounds, and the children of each one inside
of it. -/
def Nested : Forest α → Nat → Nat → Prop
  | nil, lo, hi => lo ≤ hi
  | node a children next, lo, hi =>
    lo ≤ start a ∧ children.Nested (start a) (stop a) ∧ next.Nested (stop a) hi

/-- Every child starts before the end of its parent. -/
def StartInside (parent : Option α) : Forest α → Prop
  | nil => True
  | node a children next =>
    (∀ p ∈ parent, start a < stop p) ∧ children.StartInside (some a) ∧ next.StartInside parent

end Forest

/-- The links that the stack finds. -/
def recovered : List (Frame α) → Nat → List α → List (Link α)
  | _, _, [] => []
  | stack, place, a :: rest =>
    let stack := stack.dropWhile fun f => stop f.2 ≤ start a
    stack.head?.toList.map (fun p => (p, (place, a))) ++
      recovered ((place, a) :: stack) (place + 1) rest

/-- The places of both ends. -/
def places (l : Link α) : Nat × Nat := (l.1.1, l.2.1)

variable {start stop}

theorem recovered_preOrder (f : Forest α) (lo hi : Nat) (h : f.Nested start stop lo hi)
    (parent : Option (Frame α)) (hinside : f.StartInside start stop (parent.map (·.2)))
    (closed open_ : List (Frame α)) (hopen : open_.head? = parent)
    (hclosed : ∀ c ∈ closed, stop c.2 ≤ lo) (place : Nat) (rest : List α) :
    ∃ closed', (∀ c ∈ closed', stop c.2 ≤ hi) ∧
      recovered start stop (closed ++ open_) place (f.preOrder ++ rest) =
        f.links parent place ++ recovered start stop (closed' ++ open_) (place + f.preOrder.length)
          rest := by
  induction f generalizing lo hi parent closed open_ place rest with
  | nil => exact ⟨closed, fun c hc => Nat.le_trans (hclosed c hc) h, rfl⟩
  | node a children next ihc ihn =>
    obtain ⟨hlo, hchildren, hnext⟩ := h
    obtain ⟨hstart, hinsideChildren, hinsideNext⟩ := hinside
    have hpop : (closed ++ open_).dropWhile (fun f => stop f.2 ≤ start a) = open_ := by
      rw [List.dropWhile_append_of_pos]
      · cases open_ with
        | nil => rfl
        | cons p outer =>
          subst hopen
          have hp := hstart p.2 rfl
          rw [List.dropWhile_cons_of_neg]
          simpa using hp
      · intro c hc
        exact decide_eq_true (Nat.le_trans (hclosed c hc) hlo)
    -- The children run with the node itself as the parent; then the node is done too.
    obtain ⟨done, hdone, hrun⟩ :=
      ihc (start a) (stop a) hchildren (some (place, a)) hinsideChildren []
      ((place, a) :: open_) rfl (by simp) (place + 1) (next.preOrder ++ rest)
    obtain ⟨done', hdone', hrun'⟩ :=
      ihn (stop a) hi hnext parent hinsideNext (done ++ [(place, a)]) open_ hopen
      (by
        intro c hc
        rcases List.mem_append.mp hc with hc | hc
        · exact hdone c hc
        · exact Nat.le_of_eq (by rw [List.mem_singleton.mp hc]))
      (place + 1 + children.preOrder.length) rest
    refine ⟨done', hdone', ?_⟩
    rw [List.nil_append] at hrun
    rw [List.append_assoc, List.singleton_append] at hrun'
    have hplace : place + (Forest.node a children next).preOrder.length =
        place + 1 + children.preOrder.length + next.preOrder.length := by
      rw [Forest.preOrder, List.length_cons, List.length_append]
      omega
    rw [hplace, Forest.preOrder, List.cons_append, recovered, hpop, hopen, List.append_assoc, hrun,
      hrun', Forest.links]
    simp only [List.append_assoc]

theorem recovered_overlap (stack : List (Frame α)) (place : Nat) (nodes : List α) :
    ∀ l ∈ recovered start stop stack place nodes, start l.2.2 < stop l.1.2 := by
  induction nodes generalizing stack place with
  | nil => simp [recovered]
  | cons a rest ih =>
    intro l hl
    rcases List.mem_append.mp hl with hl | hl
    · obtain ⟨p, hp, rfl⟩ := List.mem_map.mp hl
      rw [Option.mem_toList] at hp
      have hkept := List.head?_dropWhile_not (fun f : Frame α => decide (stop f.2 ≤ start a)) stack
      rw [hp] at hkept
      simpa using hkept
    · exact ih _ _ l hl

theorem links_overlap (f : Forest α) (parent : Option (Frame α)) (place : Nat)
    (h : ∀ l ∈ f.links parent place, start l.2.2 < stop l.1.2) :
    f.StartInside start stop (parent.map (·.2)) := by
  induction f generalizing parent place with
  | nil => trivial
  | node a children next ihc ihn =>
    rw [Forest.links, List.forall_mem_append, List.forall_mem_append] at h
    obtain ⟨hown, hchildren, hnext⟩ := h
    refine ⟨?_, ihc (some (place, a)) _ hchildren, ihn parent _ hnext⟩
    intro p hp
    obtain ⟨q, hq, rfl⟩ := Option.map_eq_some_iff.mp hp
    exact hown (q, (place, a)) (List.mem_map.mpr ⟨q, Option.mem_toList.mpr hq, rfl⟩)

/-! ## Places -/

/-- Both ends are the nodes of their places. -/
def Placed (nodes : List α) (l : Link α) : Prop :=
  nodes[l.1.1]? = some l.1.2 ∧ nodes[l.2.1]? = some l.2.2

theorem recovered_placed (nodes before rest : List α) (hnodes : nodes = before ++ rest)
    (stack : List (Frame α)) (hstack : ∀ f ∈ stack, nodes[f.1]? = some f.2) :
    ∀ l ∈ recovered start stop stack before.length rest, Placed nodes l := by
  induction rest generalizing before stack with
  | nil => simp [recovered]
  | cons a rest ih =>
    have hnew : nodes[before.length]? = some a := by simp [hnodes]
    have hopen : ∀ f ∈ stack.dropWhile fun f => stop f.2 ≤ start a, nodes[f.1]? = some f.2 :=
      fun f hf =>
      hstack f ((List.dropWhile_sublist _).mem hf)
    intro l hl
    rcases List.mem_append.mp hl with hl | hl
    · obtain ⟨p, hp, rfl⟩ := List.mem_map.mp hl
      exact ⟨hopen p (List.mem_of_head? (Option.mem_toList.mp hp)), hnew⟩
    · have hlength : before.length + 1 = (before ++ [a]).length := by simp
      rw [hlength] at hl
      refine ih (before ++ [a]) (by simp [hnodes]) _ ?_ l hl
      intro f hf
      rcases List.mem_cons.mp hf with rfl | hf
      · exact hnew
      · exact hopen f hf

theorem links_placed (nodes : List α) (f : Forest α) (before rest : List α)
    (hnodes : nodes = before ++ (f.preOrder ++ rest)) (parent : Option (Frame α))
    (hparent : ∀ p ∈ parent, nodes[p.1]? = some p.2) :
    ∀ l ∈ f.links parent before.length, Placed nodes l := by
  induction f generalizing before rest parent with
  | nil => simp [Forest.links]
  | node a children next ihc ihn =>
    have hnew : nodes[before.length]? = some a := by simp [hnodes, Forest.preOrder]
    have hlength : before.length + 1 = (before ++ [a]).length := by simp
    have hlength' : before.length + 1 + children.preOrder.length =
        (before ++ a :: children.preOrder).length := by
      simp only [List.length_append, List.length_cons]
      omega
    intro l hl
    rw [Forest.links, List.mem_append, List.mem_append, hlength', hlength] at hl
    rcases hl with hl | hl | hl
    · obtain ⟨p, hp, rfl⟩ := List.mem_map.mp hl
      exact ⟨hparent p (Option.mem_toList.mp hp), hnew⟩
    · refine ihc (before ++ [a]) (next.preOrder ++ rest) (by simp [hnodes, Forest.preOrder]) _ ?_ l
        hl
      intro p hp
      rw [← Option.mem_some.mp hp]
      exact hnew
    · exact ihn (before ++ a :: children.preOrder) rest (by simp [hnodes, Forest.preOrder]) _
        hparent l hl

theorem Placed.eq_of_places {nodes : List α} {l l' : Link α} (h : Placed nodes l)
    (h' : Placed nodes l') (heq : places l = places l') : l = l' := by
  obtain ⟨⟨i, a⟩, j, b⟩ := l
  obtain ⟨⟨i', a'⟩, j', b'⟩ := l'
  obtain ⟨rfl, rfl⟩ := Prod.mk.inj heq
  obtain rfl := Option.some.inj (h.1.symm.trans h'.1)
  obtain rfl := Option.some.inj (h.2.symm.trans h'.2)
  rfl

/-- **Parents from ranges.** The stack finds the parent of every node if and only if every child
starts before the end of its parent. -/
theorem recovered_iff (f : Forest α) (lo hi : Nat) (h : f.Nested start stop lo hi) :
    (recovered start stop [] 0 f.preOrder).map places = (f.links none 0).map places ↔
      f.StartInside start stop none := by
  constructor
  · intro heq
    refine links_overlap f none 0 ?_
    intro l hl
    have hmem : places l ∈ (recovered start stop [] 0 f.preOrder).map places := by
      rw [heq]
      exact List.mem_map_of_mem hl
    obtain ⟨l', hl', hplaces⟩ := List.mem_map.mp hmem
    have hplaced := links_placed f.preOrder f [] [] (by simp) none (by simp) l hl
    have hplaced' := recovered_placed f.preOrder [] f.preOrder rfl [] (by simp) l' hl'
    obtain rfl := hplaced'.eq_of_places hplaced hplaces
    exact recovered_overlap [] 0 f.preOrder l' hl'
  · intro hinside
    obtain ⟨closed, -, hrun⟩ := recovered_preOrder f lo hi h none hinside [] [] rfl (by simp) 0 []
    rw [List.append_nil, List.append_nil] at hrun
    rw [hrun, recovered, List.append_nil]

end Euxis.Nesting
