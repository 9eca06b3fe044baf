import Euxis.Cpg.Ddg
import Euxis.Security.Finding

/-!
# Call graph and reachability: `libs/reach/src/callgraph.cpp` and `libs/reach/src/reachability.cpp`

A loop that could run forever takes fuel, and `none` says that it did not end.
-/

namespace Euxis.Reach

open Cpg

/-! ## Names -/

/-- `isalnum` in the C locale, or an underscore. -/
def isWordByte (b : UInt8) : Bool :=
  (ch 'a' ≤ b ∧ b ≤ ch 'z') ∨ (ch 'A' ≤ b ∧ b ≤ ch 'Z') ∨ (ch '0' ≤ b ∧ b ≤ ch '9') ∨ b = ch '_'

/-- The code keeps tokens of two bytes or more. -/
def identifierTokens (text : Bytes) : List Bytes :=
  (text.splitOnP fun b => !isWordByte b).filter fun token => 2 ≤ token.length

/-- Whether the search for a function's name goes on below a node. -/
def descends (g : Graph) (c : NodeId) : Bool :=
  (g.get c).any fun n => n.kind ≠ .parameter ∧ n.kind ≠ .block

/-- The first name among the children of the front node ends the search. -/
def leftmostName (g : Graph) : Nat → List NodeId → Option (Option Bytes)
  | 0, _ => none
  | fuel + 1, frontier =>
    match frontier with
    | [] => some none
    | current :: rest =>
      match (g.children current).findSome? (DdgWalker.identifierName g) with
      | some name => some (some name)
      | none => leftmostName g fuel (rest ++ (g.children current).filter (descends g))

def extractFunctionName (fuel : Nat) (g : Graph) (ast : Parse.Ast) (fn : NodeId) : Option Bytes :=
  do
  match ← leftmostName g fuel [fn] with
  | some name => return name
  | none =>
    return (identifierTokens (((g.get fn).map fun n => ast.nodeText n.range).getD [])).headD []

def extractCalleeName (text : Bytes) : Bytes := (identifierTokens text).headD []

/-! ## Enclosing functions -/

def isFunction (g : Graph) (n : NodeId) : Bool := (g.get n).any (·.kind = .functionDef)

/-- A node that is its own parent ends the loop. -/
def stepUp (g : Graph) (n : NodeId) : Option NodeId :=
  if g.parent n = kNullNode ∨ g.parent n = n then none else some (g.parent n)

def functionAbove (g : Graph) (n : NodeId) : Option (Option NodeId) :=
  Search.climb (stepUp g) (fun m => if isFunction g m then some m else none) (g.nodeCount + 1) n

def enclosingFunction (g : Graph) (node : NodeId) : Option NodeId :=
  if node = kNullNode then some kNullNode
  else if isFunction g node then some node
  else (functionAbove g node).map (·.getD kNullNode)

/-! ## Call graph -/

structure CallEdge where
  caller : NodeId
  callee : NodeId
  deriving DecidableEq, Repr

structure CallGraphStats where
  functionCount : Nat := 0
  callSites : Nat := 0
  resolvedCalls : Nat := 0
  unresolvedCalls : Nat := 0
  deriving DecidableEq, Repr

structure CallGraphResult where
  edges : List CallEdge := []
  stats : CallGraphStats := {}
  deriving DecidableEq, Repr

/-- `by_name`, as the pairs in the order of their insertion. -/
def functionsByName (fuel : Nat) (g : Graph) (ast : Parse.Ast) : Option (List (Bytes × NodeId)) :=
  (g.findByKind .functionDef).foldlM (fun byName fn => do
    let name ← extractFunctionName fuel g ast fn
    return if name = [] then byName else byName ++ [(name, fn)]) []

def addCall (g : Graph) (ast : Parse.Ast) (byName : List (Bytes × NodeId))
    (result : CallGraphResult) (call : NodeId) : Option CallGraphResult :=
  match g.get call with
  | none => some result
  | some callNode =>
    let calleeName := extractCalleeName (ast.nodeText callNode.range)
    let callees := (byName.filter (·.1 = calleeName)).map (·.2)
    if calleeName = [] ∨ callees = [] then
      some { result with stats.unresolvedCalls := result.stats.unresolvedCalls + 1 }
    else do
      -- A call at file scope has the null node as its caller.
      let caller ← enclosingFunction g call
      return { edges := result.edges ++ callees.map fun callee => { caller, callee },
               stats := { result.stats with resolvedCalls := result.stats.resolvedCalls + 1 } }

def buildCallGraph (fuel : Nat) (g : Graph) (ast : Parse.Ast) : Option CallGraphResult := do
  let byName ← functionsByName fuel g ast
  let calls := g.findByKind .call
  calls.foldlM (addCall g ast byName)
    { stats := { functionCount := (g.findByKind .functionDef).length, callSites := calls.length } }

/-! ## Reachability -/

structure ReachabilityConfig where
  entryFunctionNames : List Bytes := []
  topLevelFunctionsAreEntries : Bool := true
  maxDepth : Nat := 0

structure ReachabilityResult where
  reachableFunctions : List NodeId := []
  entryPoints : Nat := 0
  deriving DecidableEq, Repr

def isTopLevelFunction (g : Graph) (fn : NodeId) : Option Bool :=
  if g.parent fn = kNullNode then some true
  else if isFunction g (g.parent fn) then some false
  else (functionAbove g (g.parent fn)).map (·.isNone)

/-- The second search for a function's name: it stops below the third level and does not skip
parameters. -/
def functionName (g : Graph) : Nat → List (NodeId × Nat) → Option Bytes
  | 0, _ => none
  | fuel + 1, queue =>
    match queue with
    | [] => some []
    | (id, depth) :: rest =>
      if depth > 3 then functionName g fuel rest
      else
        match (g.children id).findSome? (DdgWalker.identifierName g) with
        | some name => some name
        | none =>
          let below := (g.children id).filter fun c => (g.get c).any (·.kind ≠ .functionDef)
          functionName g fuel (rest ++ below.map fun c => (c, depth + 1))

def isEntryByPosition (g : Graph) (config : ReachabilityConfig) (fn : NodeId) : Option Bool :=
  if config.topLevelFunctionsAreEntries then isTopLevelFunction g fn else some false

def isEntry (fuel : Nat) (g : Graph) (config : ReachabilityConfig) (fn : NodeId) : Option Bool := do
  let top ← isEntryByPosition g config fn
  if top then return true
  else if config.entryFunctionNames = [] then return false
  else
    let name ← functionName g fuel [(fn, 0)]
    return name ≠ [] ∧ name ∈ config.entryFunctionNames

def entryFunctions (fuel : Nat) (g : Graph) (config : ReachabilityConfig)
    (functions : List NodeId) : Option (List NodeId) :=
  functions.foldlM (fun entries fn => do
    let entry ← isEntry fuel g config fn
    return if entry then entries ++ [fn] else entries) []

def callees (edges : List CallEdge) (caller : NodeId) : List NodeId :=
  (edges.filter (·.caller = caller)).map (·.callee)

def callSuccessors (edges : List CallEdge) (config : ReachabilityConfig) (t : NodeId × Nat) :
    List (NodeId × Nat) :=
  if 0 < config.maxDepth ∧ config.maxDepth ≤ t.2 then []
  else (callees edges t.1).map fun callee => (callee, t.2 + 1)

def reachLoop (edges : List CallEdge) (config : ReachabilityConfig) :
    Nat → Search.Work (NodeId × Nat) NodeId → Option (List NodeId)
  | 0, _ => none
  | fuel + 1, work =>
    match work.frontier with
    | [] => some work.visited
    | t :: rest =>
      reachLoop edges config fuel
        (Search.advance Prod.fst (callSuccessors edges config) rest work.visited t)

def computeReachable (fuel : Nat) (g : Graph) (edges : List CallEdge)
    (config : ReachabilityConfig) : Option ReachabilityResult :=
  let functions := g.findByKind .functionDef
  if g.nodeCount = 0 ∨ functions = [] then some {}
  else do
    let entries ← entryFunctions fuel g config functions
    -- The callees of calls at file scope are entries too.
    let roots := entries ++ callees edges kNullNode
    let work := (roots.map fun fn => (fn, 0)).foldl (Search.push Prod.fst)
      { frontier := [], visited := [] }
    let reachableFunctions ← reachLoop edges config fuel work
    return { reachableFunctions, entryPoints := entries.length }

/-! ## Annotation -/

/-- `target_row` counts from 0. -/
def findFindingFunction (g : Graph) (f : Security.Finding) (byPath : List (Bytes × List NodeId)) :
    NodeId :=
  match byPath.lookup f.primaryLocation.path with
  | none => kNullNode
  | some functions =>
    let targetRow := (f.primaryLocation.startLine - 1).toNat
    (functions.find? fun fn =>
      (g.get fn).any fun n => n.range.startRow ≤ targetRow ∧
        targetRow ≤ n.range.endRow).getD kNullNode

/-- The path of the first finding, then the first other path. -/
def functionsByPath (g : Graph) (findings : List Security.Finding) : List (Bytes × List NodeId) :=
  let functions := g.findByKind .functionDef
  if functions = [] then []
  else
    let path := (findings.head?.map (·.primaryLocation.path)).getD []
    match findings.find? (·.primaryLocation.path ≠ path) with
    | none => [(path, functions)]
    | some f => [(path, functions), (f.primaryLocation.path, functions)]

def reachableTaxon (g : Graph) (reach : ReachabilityResult) (byPath : List (Bytes × List NodeId))
    (f : Security.Finding) : Bytes :=
  let fn := findFindingFunction g f byPath
  if fn = kNullNode then ascii "euxis:reachable:unknown"
  else if fn ∈ reach.reachableFunctions then ascii "euxis:reachable:true"
  else ascii "euxis:reachable:false"

def annotateFindings (g : Graph) (reach : ReachabilityResult) (findings : List Security.Finding) :
    List Security.Finding :=
  let byPath := functionsByPath g findings
  findings.map fun f =>
    { f with complianceTaxa := f.complianceTaxa ++ [reachableTaxon g reach byPath f] }

end Euxis.Reach
