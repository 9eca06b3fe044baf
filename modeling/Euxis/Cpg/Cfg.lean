import Euxis.Cpg.Builder
import Euxis.Descent

/-!
# Control flow: `libs/cpg/src/cfg.cpp`

The builder collects the new edges in a list of its own: what it reads of the graph, its nodes and
syntax edges, does not depend on them. A descent takes fuel for its depth, and `none` says that it
did not end.
-/

namespace Euxis.Cpg

structure CfgBuildOptions where
  emitIfBranchEdges : Bool := true
  emitLoopBackEdges : Bool := true
  deriving DecidableEq, Repr

structure CfgStats where
  functionsProcessed : Nat := 0
  sequentialEdges : Nat := 0
  branchEntryEdges : Nat := 0
  loopBackEdges : Nat := 0
  deriving DecidableEq, Repr

structure CfgBuilder where
  edges : List Edge := []
  stats : CfgStats := {}
  deriving DecidableEq, Repr

namespace Graph

def hasKind (g : Graph) (id : NodeId) (kind : NodeKind) : Bool := (g.get id).any (·.kind = kind)

/-- The first child, or the node itself if it has none. -/
def firstChildOf (g : Graph) (id : NodeId) : NodeId := (g.children id).headD id

/-- A node that `descend` enters from wherever it finds it. -/
def isStructure (g : Graph) (id : NodeId) : Bool :=
  g.hasKind id .block || g.hasKind id .if || g.hasKind id .loop

end Graph

namespace CfgBuilder

/-- The edge that `add` appends, if any. -/
def edgeOf (source target : NodeId) : List Edge :=
  if source = kNullNode ∨ target = kNullNode ∨ source = target then [] else [⟨source, target, .cfg⟩]

def add (b : CfgBuilder) (source target : NodeId) : CfgBuilder :=
  { b with edges := b.edges ++ edgeOf source target }

def addSequential (b : CfgBuilder) (pair : NodeId × NodeId) : CfgBuilder :=
  let b := b.add pair.1 pair.2
  { b with stats := { b.stats with sequentialEdges := b.stats.sequentialEdges + 1 } }

def addBranchEntry (b : CfgBuilder) (source target : NodeId) : CfgBuilder :=
  let b := b.add source target
  { b with stats := { b.stats with branchEntryEdges := b.stats.branchEntryEdges + 1 } }

def addLoopBack (b : CfgBuilder) (source target : NodeId) : CfgBuilder :=
  let b := b.add source target
  { b with stats := { b.stats with loopBackEdges := b.stats.loopBackEdges + 1 } }

variable (g : Graph)

/-! ## The handlers, with the descent that they call -/

section Handlers

variable (descend : CfgBuilder → NodeId → Option CfgBuilder)

def processBlock (b : CfgBuilder) (block : NodeId) : Option CfgBuilder :=
  let children := g.children block
  children.foldlM descend ((children.zip children.tail).foldl addSequential b)

/-- A `Block` that is a branch of the `If`. -/
def processBranch (ifNode : NodeId) (b : CfgBuilder) (block : NodeId) : Option CfgBuilder :=
  descend (b.addBranchEntry ifNode (g.firstChildOf block)) block

/-- A child that is no `Block` may be a wrapper such as `else_clause`: the branches are looked for
below it. -/
def processIfChild (ifNode : NodeId) (b : CfgBuilder) (child : NodeId) : Option CfgBuilder :=
  match g.get child with
  | none => some b
  | some cn =>
    if cn.kind = .block then processBranch g descend ifNode b child
    else do
      let b ← ((g.children child).filter (g.hasKind · .block)).foldlM
        (processBranch g descend ifNode) b
      descend b child

def processIf (opts : CfgBuildOptions) (b : CfgBuilder) (ifNode : NodeId) : Option CfgBuilder :=
  if opts.emitIfBranchEdges then (g.children ifNode).foldlM (processIfChild g descend ifNode) b
  else (g.children ifNode).foldlM descend b

/-- The entry into the body and the way back from its end. -/
def addLoopEdges (b : CfgBuilder) (loopNode : NodeId) : CfgBuilder :=
  match (g.children loopNode).find? (g.hasKind · .block) with
  | none => b
  | some body =>
    match g.children body with
    | [] => b
    | first :: rest =>
      (b.addBranchEntry loopNode first).addLoopBack
        ((first :: rest).getLast (List.cons_ne_nil first rest)) loopNode

def processLoop (opts : CfgBuildOptions) (b : CfgBuilder) (loopNode : NodeId) : Option CfgBuilder :=
  if opts.emitLoopBackEdges then (g.children loopNode).foldlM descend (addLoopEdges g b loopNode)
  else (g.children loopNode).foldlM descend b

end Handlers

/-! ## The descent -/

def descend (opts : CfgBuildOptions) : Nat → CfgBuilder → NodeId → Option CfgBuilder
  | 0, _, _ => none
  | fuel + 1, b, id =>
    match g.get id with
    | none => some b
    | some n =>
      match n.kind with
      | .block => processBlock g (descend opts fuel) b id
      | .if => processIf g (descend opts fuel) opts b id
      | .loop => processLoop g (descend opts fuel) opts b id
      | _ => ((g.children id).filter g.isStructure).foldlM (descend opts fuel) b

def processFunction (opts : CfgBuildOptions) (fuel : Nat) (b : CfgBuilder) (fn : NodeId) :
    Option CfgBuilder :=
  (g.children fn).foldlM (descend g opts fuel)
    { b with stats := { b.stats with functionsProcessed := b.stats.functionsProcessed + 1 } }

end CfgBuilder

/-- The edges that are added to the graph, and the statistics. -/
def buildCfg (fuel : Nat) (g : Graph) (opts : CfgBuildOptions) : Option CfgBuilder :=
  (g.findByKind .functionDef).foldlM (CfgBuilder.processFunction g opts fuel) {}

end Euxis.Cpg
