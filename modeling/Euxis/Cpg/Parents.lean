import Euxis.Cpg.Builder
import Euxis.Nesting

/-!
# Which syntax edges the builder draws

The builder sees the named nodes in pre-order and takes the parent of each one from the ranges
alone. The tree that was visited says who the parent is.
-/

namespace Euxis.Cpg

open Nesting (Forest Frame Link recovered places)
open Parse (TSNode SourceRange visitRecursive visitChildren namedNodesOf)

/-! ## The named nodes of a tree -/

section Named

mutual

/-- The named nodes: what stands below a node that is not named belongs to the closest named one
above. -/
def named : TSNode → Forest (Bytes × SourceRange) → Forest (Bytes × SourceRange)
  | .node kind true range children, next => .node (kind, range) (namedChildren children .nil) next
  | .node _ false _ children, next => namedChildren children next

def namedChildren : List TSNode → Forest (Bytes × SourceRange) → Forest (Bytes × SourceRange)
  | [], next => next
  | child :: rest, next => named child (namedChildren rest next)

end

def namedForest (root : TSNode) : Forest (Bytes × SourceRange) := named root .nil

variable {σ : Type} (step : σ → Bytes × SourceRange → σ)

mutual

theorem visitRecursive_named (t : TSNode) (next : Forest (Bytes × SourceRange)) (s : σ) :
    (visitRecursive (fun s kind range => (true, step s (kind, range))) t s).1 = true ∧
      (named t next).preOrder.foldl step s =
        next.preOrder.foldl step (visitRecursive (fun s kind range => (true, step s (kind, range)))
          t s).2 := by
  cases t with
  | node kind isNamed range children =>
    cases isNamed with
    | false =>
      rw [named, visitRecursive]
      exact visitChildren_named children next s
    | true =>
      obtain ⟨hgoes, hchildren⟩ := visitChildren_named children .nil (step s (kind, range))
      rw [named, visitRecursive, Forest.preOrder, List.foldl_cons, List.foldl_append, hchildren]
      exact ⟨hgoes, rfl⟩

theorem visitChildren_named (children : List TSNode) (next : Forest (Bytes × SourceRange)) (s : σ) :
    (visitChildren (fun s kind range => (true, step s (kind, range))) children s).1 = true ∧
      (namedChildren children next).preOrder.foldl step s =
        next.preOrder.foldl step (visitChildren (fun s kind range => (true, step s (kind, range)))
          children s).2 := by
  cases children with
  | nil =>
    rw [namedChildren, visitChildren]
    exact ⟨rfl, rfl⟩
  | cons child rest =>
    obtain ⟨hgoes, hchild⟩ := visitRecursive_named child (namedChildren rest next) s
    rw [namedChildren, visitChildren, hchild]
    generalize visitRecursive (fun s kind range => (true, step s (kind, range))) child s = after
      at hgoes ⊢
    obtain ⟨goes, s'⟩ := after
    obtain rfl : goes = true := hgoes
    exact visitChildren_named rest next s'

end

theorem namedNodesOf_eq (root : TSNode) : namedNodesOf root = (namedForest root).preOrder := by
  have hvisit := (visitRecursive_named (fun seen n => seen ++ [n]) root .nil []).2
  have hcollect : ∀ nodes seen : List (Bytes × SourceRange),
      nodes.foldl (fun seen n => seen ++ [n]) seen = seen ++ nodes := by
    intro nodes
    induction nodes with
    | nil => simp
    | cons n rest ih => simp [ih]
  rw [hcollect] at hvisit
  exact hvisit.symm

end Named

/-! ## The edges -/

/-- Nodes are numbered from 1 in the order of the visit. -/
def edgeAt (p : Nat × Nat) : Edge := ⟨p.1 + 1, p.2 + 1, .astChild⟩

/-- The edges from each node's named parent, in pre-order. -/
def trueEdges (root : TSNode) : List Edge :=
  (((namedForest root).links none 0).map places).map edgeAt

def startByte (n : Bytes × SourceRange) : Nat := n.2.startByte

def endByte (n : Bytes × SourceRange) : Nat := n.2.endByte

/-- The ranges of the named nodes are nested as a tree's are. A range may be empty. -/
def RangesNested (root : TSNode) : Prop :=
  ∃ lo hi, (namedForest root).Nested startByte endByte lo hi

/-- Every named node starts before the end of its named parent. -/
def StartsInsideParent (root : TSNode) : Prop :=
  (namedForest root).StartInside startByte endByte none

def openFrame (f : Frame (Bytes × SourceRange)) : NodeId × SourceRange := (f.1 + 1, f.2.2)

theorem visit_stack (ast : Parse.Ast) (s : BuildState) (rawKind : Bytes) (range : SourceRange) :
    (visit ast s rawKind range).stack = (s.graph.nodeCount + 1, range) ::
      closeBefore range s.stack := by
  unfold visit
  split
  · rename_i h
    exact congrArg (List.cons _) h.symm
  · rename_i top rest h
    exact congrArg (List.cons _) h.symm

theorem visit_edges (ast : Parse.Ast) (s : BuildState) (rawKind : Bytes) (range : SourceRange) :
    (visit ast s rawKind range).graph.edges = s.graph.edges ++
      (closeBefore range s.stack).head?.toList.map
        (fun f => ⟨f.1, s.graph.nodeCount + 1, .astChild⟩) := by
  have hedges : ∀ stack, closeBefore range s.stack = stack →
      (visit ast s rawKind range).graph.edges =
      s.graph.edges ++ stack.head?.toList.map
        (fun f => ⟨f.1, s.graph.nodeCount + 1, .astChild⟩) := by
    intro stack hstack
    unfold visit
    split
    · rename_i h
      obtain rfl := hstack.symm.trans h
      exact (List.append_nil _).symm
    · rename_i top rest h
      obtain rfl := hstack.symm.trans h
      rfl
  exact hedges _ rfl

theorem foldl_visit_edges (ast : Parse.Ast) (nodes : List (Bytes × SourceRange)) (s : BuildState)
    (frames : List (Frame (Bytes × SourceRange))) (hstack : s.stack = frames.map openFrame) :
    (nodes.foldl (fun s (rawKind, range) => visit ast s rawKind range) s).graph.edges =
      s.graph.edges ++ ((recovered startByte endByte frames s.graph.nodeCount nodes).map places).map
        edgeAt := by
  induction nodes generalizing s frames with
  | nil => exact (List.append_nil _).symm
  | cons n rest ih =>
    obtain ⟨kind, range⟩ := n
    -- Both stacks are closed by the same test on the ranges.
    have hclose : closeBefore range s.stack =
        (frames.dropWhile fun f => endByte f.2 ≤ startByte (kind, range)).map openFrame := by
      rw [closeBefore, hstack, List.dropWhile_map]
      rfl
    have hcount : (visit ast s kind range).graph.nodeCount = s.graph.nodeCount + 1 := by
      rw [Graph.nodeCount, (visit_cases ast s kind range).1]
      simp [Graph.addNode, Graph.nodeCount]
    rw [List.foldl_cons, ih (visit ast s kind range)
      ((s.graph.nodeCount, (kind, range)) :: frames.dropWhile fun f => endByte f.2 ≤
        startByte (kind, range)) ?_]
    · rw [visit_edges, hclose, hcount, recovered, List.map_append, List.map_append,
        List.append_assoc]
      congr 2
      rw [List.head?_map]
      cases (frames.dropWhile fun f => endByte f.2 ≤ startByte (kind, range)).head? with
      | none => rfl
      | some p => rfl
    · rw [visit_stack, hclose]
      rfl

/-- **The parents.** In a graph that is built of a tree whose ranges are nested, the syntax edges
are those of the tree if and only if every node starts before the end of its parent. -/
theorem build_edges_true_iff (language : Parse.Language) (source : Bytes) (root : TSNode)
    (h : RangesNested root) :
    (build (Parse.Ast.ofTree language source root)).edges = trueEdges root ↔
      StartsInsideParent root := by
  have hedges : (build (Parse.Ast.ofTree language source root)).edges =
      ((recovered startByte endByte [] 0 (namedForest root).preOrder).map places).map edgeAt := by
    unfold build
    rw [foldl_visit_edges _ _ _ [] rfl, Parse.Ast.ofTree, namedNodesOf_eq]
    rfl
  have hinj : Function.Injective edgeAt := by
    rintro ⟨a, b⟩ ⟨c, d⟩ heq
    simp only [edgeAt, Edge.mk.injEq, Nat.add_right_cancel_iff, and_true] at heq
    exact Prod.ext heq.1 heq.2
  obtain ⟨lo, hi, hnested⟩ := h
  rw [hedges, trueEdges, (List.map_injective_iff.mpr hinj).eq_iff]
  exact Nesting.recovered_iff (namedForest root) lo hi hnested

/-- A named node on one line. -/
def namedNode (kind : String) (first last : Nat) (children : List TSNode) : TSNode :=
  .node (ascii kind) true ⟨0, first, 0, last, first, last⟩ children

/-- `a = b`, with the equals sign as a node that is not named. -/
def sampleTree : TSNode :=
  namedNode "module" 0 5 [namedNode "assignment" 0 5
    [namedNode "identifier" 0 1 [], .node (ascii "=") false ⟨0, 2, 0, 3, 2, 3⟩ [],
      namedNode "identifier" 4 5 []]]

theorem sampleTree_edges :
    (build (Parse.Ast.ofTree .python (ascii "a = b") sampleTree)).edges =
      [⟨1, 2, .astChild⟩, ⟨2, 3, .astChild⟩, ⟨2, 4, .astChild⟩] := by
  refine (build_edges_true_iff .python (ascii "a = b") sampleTree ⟨0, 5, ?_⟩).mpr ?_
  · simp [sampleTree, namedNode, namedForest, named, namedChildren, Forest.Nested,
      startByte, endByte]
  · simp [StartsInsideParent, sampleTree, namedNode, namedForest, named, namedChildren,
      Forest.StartInside, startByte, endByte]

/-- `a =`, where the parser puts a missing identifier at the end. -/
def missingTree : TSNode :=
  namedNode "module" 0 3 [namedNode "assignment" 0 3 [namedNode "identifier" 0 1 [],
    namedNode "identifier" 3 3 []]]

theorem missing_identifier_orphaned :
    RangesNested missingTree ∧
    (build (Parse.Ast.ofTree .python (ascii "a =") missingTree)).edges =
      [⟨1, 2, .astChild⟩, ⟨2, 3, .astChild⟩] ∧
    trueEdges missingTree = [⟨1, 2, .astChild⟩, ⟨2, 3, .astChild⟩, ⟨2, 4, .astChild⟩] := by
  refine ⟨⟨0, 3, ?_⟩, ?_, ?_⟩
  · simp [missingTree, namedNode, namedForest, named, namedChildren, Forest.Nested,
      startByte, endByte]
  · decide +kernel
  · decide +kernel

end Euxis.Cpg
