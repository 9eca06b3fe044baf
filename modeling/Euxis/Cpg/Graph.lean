import Euxis.Parse
import Euxis.Search
import Mathlib.Data.Finset.Range

/-!
# The code property graph: `libs/cpg/src/graph.cpp`

Identifiers are dense and start at 1. Identifier 0 is no node.
-/

namespace Euxis.Cpg

abbrev NodeId := Nat

def kNullNode : NodeId := 0

inductive NodeKind where
  | unknown
  | translationUnit
  | functionDef
  | parameter
  | block
  | call
  | identifier
  | literal
  | assignment
  | return
  | if
  | loop
  | declaration
  | preprocInclude
  | comment
  deriving DecidableEq, Repr

inductive EdgeKind where
  | astChild
  | cfg
  | ddg
  | call
  deriving DecidableEq, Repr

structure Node where
  id : NodeId
  kind : NodeKind
  rawKind : Bytes
  name : Bytes
  range : Parse.SourceRange
  language : Parse.Language
  deriving DecidableEq, Repr

structure Edge where
  source : NodeId
  target : NodeId
  kind : EdgeKind
  deriving DecidableEq, Repr

/-- A node of the graph, by its identifier. -/
def ValidId (nodes : List Node) (id : NodeId) : Prop := id ≠ kNullNode ∧ id ≤ nodes.length

instance (nodes : List Node) (id : NodeId) : Decidable (ValidId nodes id) :=
  inferInstanceAs (Decidable (id ≠ kNullNode ∧ id ≤ nodes.length))

/-- The code leaves it to the caller of `add_edge` that both ends exist. -/
structure Graph where
  nodes : List Node
  edges : List Edge
  dense : ∀ i, (h : i < nodes.length) → nodes[i].id = i + 1
  ends : ∀ e ∈ edges, ValidId nodes e.source ∧ ValidId nodes e.target

namespace Graph

def nodeCount (g : Graph) : Nat := g.nodes.length

def get (g : Graph) (id : NodeId) : Option Node := if id = kNullNode then none else g.nodes[id - 1]?

def findByKind (g : Graph) (kind : NodeKind) : List NodeId :=
  (g.nodes.filter (·.kind = kind)).map (·.id)

def children (g : Graph) (parent : NodeId) : List NodeId :=
  if parent = kNullNode then []
  else (g.edges.filter fun e => e.kind = .astChild ∧ e.source = parent).map (·.target)

def parent (g : Graph) (child : NodeId) : NodeId :=
  if child = kNullNode then kNullNode
  else
    match g.edges.find? fun e => e.kind = .astChild ∧ e.target = child with
    | some e => e.source
    | none => kNullNode

/-- The step of a loop that climbs the parents and ends at an invalid one. -/
def up (g : Graph) (n : NodeId) : Option NodeId :=
  if g.parent n = kNullNode then none else some (g.parent n)

def empty : Graph := { nodes := [], edges := [], dense := nofun, ends := nofun }

def addNode (g : Graph) (n : Node) : Graph where
  nodes := g.nodes ++ [{ n with id := g.nodes.length + 1 }]
  edges := g.edges
  dense := by
    intro i h
    by_cases hi : i < g.nodes.length
    · rw [List.getElem_append_left hi]
      exact g.dense i hi
    · have : i = g.nodes.length := by
        rw [List.length_append, List.length_singleton] at h
        omega
      subst this
      rw [List.getElem_append_right (Nat.le_refl _)]
      simp
  ends := by
    intro e he
    obtain ⟨hs, ht⟩ := g.ends e he
    have hlen : g.nodes.length ≤
        (g.nodes ++ [{ n with id := g.nodes.length + 1 }]).length := by simp
    exact ⟨⟨hs.1, Nat.le_trans hs.2 hlen⟩, ht.1, Nat.le_trans ht.2 hlen⟩

def addEdge (g : Graph) (e : Edge) (he : ValidId g.nodes e.source ∧ ValidId g.nodes e.target) :
    Graph where
  nodes := g.nodes
  edges := g.edges ++ [e]
  dense := g.dense
  ends := by
    intro e' he'
    rcases List.mem_append.mp he' with he' | he'
    · exact g.ends e' he'
    · rw [List.mem_singleton.mp he']
      exact he

/-! ## Edges as relations -/

def Child (g : Graph) (parent child : NodeId) : Prop :=
  ∃ e ∈ g.edges, e.kind = .astChild ∧ e.source = parent ∧ e.target = child

def Ddg (g : Graph) (a b : NodeId) : Prop :=
  ∃ e ∈ g.edges, e.kind = .ddg ∧ e.source = a ∧ e.target = b

/-- The syntax edges form a forest: at most one parent each, and no cycle. -/
structure Forest (g : Graph) : Prop where
  unique : ∀ p q child, g.Child p child → g.Child q child → p = q
  acyclic : ∀ n, ¬ Relation.TransGen g.Child n n

theorem get_eq_some_iff (g : Graph) {id : NodeId} {n : Node} :
    g.get id = some n ↔ n ∈ g.nodes ∧ n.id = id := by
  constructor
  · intro h
    unfold get at h
    split at h
    · cases h
    · rename_i hne
      obtain ⟨hlt, rfl⟩ := List.getElem?_eq_some_iff.mp h
      refine ⟨List.getElem_mem hlt, ?_⟩
      rw [g.dense _ hlt]
      exact Nat.sub_add_cancel (Nat.pos_of_ne_zero hne)
  · rintro ⟨hn, rfl⟩
    obtain ⟨i, hi, rfl⟩ := List.mem_iff_getElem.mp hn
    rw [g.dense i hi]
    exact (if_neg (Nat.succ_ne_zero i)).trans (List.getElem?_eq_getElem hi)

theorem exists_get {g : Graph} {id : NodeId} (h : ValidId g.nodes id) : ∃ n, g.get id = some n := by
  obtain ⟨hne, hle⟩ := h
  have hpos : 0 < id := Nat.pos_of_ne_zero hne
  have hlt : id - 1 < g.nodes.length := Nat.lt_of_lt_of_le (Nat.sub_lt hpos Nat.one_pos) hle
  exact ⟨g.nodes[id - 1], by rw [get, if_neg hne, List.getElem?_eq_getElem hlt]⟩

theorem valid_of_get (g : Graph) (id : NodeId) (n : Node) (h : g.get id = some n) :
    ValidId g.nodes id := by
  unfold get at h
  split at h
  · cases h
  · rename_i hne
    obtain ⟨hlt, -⟩ := List.getElem?_eq_some_iff.mp h
    have hpos : 0 < id := Nat.pos_of_ne_zero hne
    exact ⟨hne, by rw [← Nat.sub_add_cancel hpos]; exact hlt⟩

theorem child_valid (g : Graph) (p c : NodeId) (h : g.Child p c) :
    ValidId g.nodes p ∧ ValidId g.nodes c := by
  obtain ⟨e, he, -, rfl, rfl⟩ := h
  exact g.ends e he

theorem ddg_valid (g : Graph) (a b : NodeId) (h : g.Ddg a b) :
    ValidId g.nodes a ∧ ValidId g.nodes b := by
  obtain ⟨e, he, -, rfl, rfl⟩ := h
  exact g.ends e he

theorem mem_children (g : Graph) (p c : NodeId) : c ∈ g.children p ↔ g.Child p c := by
  unfold children
  split
  · rename_i hp
    constructor
    · intro h
      cases h
    · intro h
      exact absurd hp (g.child_valid p c h).1.1
  · simp only [List.mem_map, List.mem_filter, decide_eq_true_eq]
    constructor
    · rintro ⟨e, ⟨he, hk, hs⟩, ht⟩
      exact ⟨e, he, hk, hs, ht⟩
    · rintro ⟨e, he, hk, hs, ht⟩
      exact ⟨e, ⟨he, hk, hs⟩, ht⟩

theorem parent_child (g : Graph) (c : NodeId) (h : g.parent c ≠ kNullNode) :
    g.Child (g.parent c) c := by
  unfold parent at h ⊢
  split at h
  · exact absurd rfl h
  · rename_i hc
    rw [if_neg hc]
    cases hf : g.edges.find? fun e => decide (e.kind = .astChild ∧ e.target = c) with
    | none =>
      rw [hf] at h
      exact absurd rfl h
    | some e =>
      have hp := List.find?_some hf
      simp only [decide_eq_true_eq] at hp
      exact ⟨e, List.mem_of_find?_eq_some hf, hp.1, rfl, hp.2⟩

theorem parent_of_child (g : Graph) (hg : g.Forest) (p c : NodeId) (h : g.Child p c) :
    g.parent c = p := by
  have hne : g.parent c ≠ kNullNode := by
    obtain ⟨e, he, hk, hs, ht⟩ := h
    have hc : c ≠ kNullNode := ht ▸ (g.ends e he).2.1
    unfold parent
    rw [if_neg hc]
    cases hf : g.edges.find? fun e => decide (e.kind = .astChild ∧ e.target = c) with
    | none =>
      rw [List.find?_eq_none] at hf
      exact absurd (hf e he) (by simp [hk, ht])
    | some e' => exact (g.ends e' (List.mem_of_find?_eq_some hf)).1.1
  exact hg.unique _ _ c (g.parent_child c hne) h

theorem up_iff (g : Graph) (hg : g.Forest) (p c : NodeId) : g.up c = some p ↔ g.Child p c := by
  unfold up
  constructor
  · intro h
    split at h
    · cases h
    · rename_i hne
      rw [← Option.some.inj h]
      exact g.parent_child c hne
  · intro h
    have hp := g.parent_of_child hg p c h
    rw [hp, if_neg (g.child_valid p c h).1.1]

theorem exists_climb_rank (g : Graph) (hg : g.Forest) :
    ∃ rank : NodeId → Nat, (∀ c p, g.up c = some p → rank p < rank c) ∧
      ∀ n, rank n ≤ g.nodeCount := by
  have hacyclic : ∀ n, ¬ Relation.TransGen (fun c p => g.Child p c) n n := by
    intro n h
    exact hg.acyclic n (Relation.transGen_swap.mp h)
  have hfin : ∀ c p, g.Child p c → p ∈ (Finset.range g.nodeCount).image (· + 1) := by
    intro c p h
    obtain ⟨hne, hle⟩ := (g.child_valid p c h).1
    have hpos : 0 < p := Nat.pos_of_ne_zero hne
    rw [Finset.mem_image]
    refine ⟨p - 1, ?_, Nat.sub_add_cancel hpos⟩
    rw [Finset.mem_range]
    exact lt_of_lt_of_le (Nat.sub_lt hpos Nat.one_pos) hle
  obtain ⟨rank, hrank, hbound⟩ := Search.exists_rank _ (fun c p => g.Child p c) hfin hacyclic
  refine ⟨rank, fun c p h => hrank c p ((g.up_iff hg p c).mp h), fun n => (hbound n).trans ?_⟩
  exact Finset.card_image_le.trans (by rw [Finset.card_range])

theorem exists_child_rank (g : Graph) (hg : g.Forest) :
    ∃ rank : NodeId → Nat, (∀ p c, g.Child p c → rank c < rank p) ∧
      ∀ n, rank n ≤ g.nodeCount + 1 := by
  obtain ⟨rank, hrank, hbound⟩ := Search.exists_rank (Finset.range (g.nodeCount + 1)) g.Child (by
    intro p c h
    rw [Finset.mem_range]
    exact Nat.lt_succ_of_le (g.child_valid p c h).2.2) hg.acyclic
  refine ⟨rank, hrank, ?_⟩
  intro n
  rw [← Finset.card_range (g.nodeCount + 1)]
  exact hbound n

theorem children_length (g : Graph) (p : NodeId) : (g.children p).length ≤ g.edges.length := by
  unfold children
  split
  · exact Nat.zero_le _
  · rw [List.length_map]
    exact List.length_filter_le _ _

theorem forest_of_increasing (g : Graph)
    (hunique : ∀ p q child, g.Child p child → g.Child q child → p = q)
    (hlt : ∀ p c, g.Child p c → p < c) : g.Forest := by
  refine ⟨hunique, ?_⟩
  intro n h
  have hall : ∀ a b, Relation.TransGen g.Child a b → a < b := by
    intro a b hab
    induction hab with
    | single h => exact hlt _ _ h
    | tail _ h ih => exact lt_trans ih (hlt _ _ h)
  exact lt_irrefl n (hall n n h)

end Graph

end Euxis.Cpg
