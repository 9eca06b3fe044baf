import Euxis.Cpg.Builder

/-!
# Data dependences: `libs/cpg/src/ddg.cpp`

The walker collects the new edges in a list of its own: what it reads of the graph, its nodes and
syntax edges, does not depend on them. A walk takes fuel for its depth, and `none` says that it did
not end.
-/

namespace Euxis.Cpg

structure DdgBuildOptions where
  trackDeclarations : Bool := true
  trackAssignments : Bool := true
  maxNamesPerFunction : Nat := 4096
  deriving DecidableEq, Repr

structure DdgStats where
  functionsProcessed : Nat := 0
  definitionsRecorded : Nat := 0
  ddgEdges : Nat := 0
  namesCapped : Nat := 0
  deriving DecidableEq, Repr

def IsDdgEdge (g : Graph) (e : Edge) : Prop :=
  e.kind = .ddg ∧ ValidId g.nodes e.source ∧ ValidId g.nodes e.target

structure DdgWalker (g : Graph) where
  edges : List Edge := []
  defMap : List (Bytes × NodeId) := []
  stats : DdgStats := {}
  ends : ∀ e ∈ edges, IsDdgEdge g e := by simp
  defs : ∀ d ∈ defMap, ValidId g.nodes d.2 := by simp

/-! ## Definitions and uses -/

/-- `def_map[name] = id`. -/
def setDef : List (Bytes × NodeId) → Bytes → NodeId → List (Bytes × NodeId)
  | [], name, id => [(name, id)]
  | (k, v) :: rest, name, id => if k = name then (k, id) :: rest else (k, v) :: setDef rest name id

theorem mem_setDef (m : List (Bytes × NodeId)) (name : Bytes) (id : NodeId) (d : Bytes × NodeId)
    (h : d ∈ setDef m name id) : d ∈ m ∨ d = (name, id) := by
  induction m with
  | nil => exact Or.inr (List.mem_singleton.mp h)
  | cons e rest ih =>
    obtain ⟨k, v⟩ := e
    unfold setDef at h
    split at h
    · rename_i hk
      rcases List.mem_cons.mp h with rfl | h
      · exact Or.inr (by rw [hk])
      · exact Or.inl (List.mem_cons_of_mem _ h)
    · rcases List.mem_cons.mp h with rfl | h
      · exact Or.inl List.mem_cons_self
      · rcases ih h with h | h
        · exact Or.inl (List.mem_cons_of_mem _ h)
        · exact Or.inr h

theorem mem_of_lookup (m : List (Bytes × NodeId)) (name : Bytes) (id : NodeId)
    (h : m.lookup name = some id) : (name, id) ∈ m := by
  obtain ⟨before, after, rfl, -⟩ := List.lookup_eq_some_iff.mp h
  simp

namespace DdgWalker

variable {g : Graph}

def emitUse (w : DdgWalker g) (useId : NodeId) (hid : ValidId g.nodes useId) (name : Bytes) :
    DdgWalker g :=
  if name = [] then w
  else
    match h : w.defMap.lookup name with
    | none => w
    | some d =>
      if d = useId then w
      else
        { w with
          edges := w.edges ++ [⟨d, useId, .ddg⟩]
          stats := { w.stats with ddgEdges := w.stats.ddgEdges + 1 }
          ends := by
            intro e he
            rcases List.mem_append.mp he with he | he
            · exact w.ends e he
            · rw [List.mem_singleton.mp he]
              exact ⟨rfl, w.defs (name, d) (mem_of_lookup _ _ _ h), hid⟩ }

/-- The code also checks that the identifier is not null. -/
def recordDef (opts : DdgBuildOptions) (w : DdgWalker g) (name : Bytes) (defId : NodeId)
    (hid : ValidId g.nodes defId) : DdgWalker g :=
  if name = [] then w
  else if opts.maxNamesPerFunction ≤ w.defMap.length ∧ w.defMap.lookup name = none then
    { w with stats := { w.stats with namesCapped := w.stats.namesCapped + 1 } }
  else
    { w with
      defMap := setDef w.defMap name defId
      stats := { w.stats with definitionsRecorded := w.stats.definitionsRecorded + 1 }
      defs := by
        intro d hd
        rcases mem_setDef _ _ _ d hd with hd | rfl
        · exact w.defs d hd
        · exact hid }

/-- The name of an identifier node. -/
def identifierName (g : Graph) (c : NodeId) : Option Bytes :=
  match g.get c with
  | none => none
  | some n => if n.kind = .identifier ∧ n.name ≠ [] then some n.name else none

/-- The identifiers among the children, and the first one below each child that is none itself. -/
def identifierChildren (g : Graph) (nodeId : NodeId) : List (NodeId × Bytes) :=
  (g.children nodeId).flatMap fun c =>
    match identifierName g c with
    | some name => [(c, name)]
    | none =>
      ((g.children c).findSome? fun gc => (identifierName g gc).map fun name => (gc, name)).toList

/-! ## The walk -/

def walkDeclaration (opts : DdgBuildOptions) (walk : DdgWalker g → NodeId → Option (DdgWalker g))
    (w : DdgWalker g) (id : NodeId) (hid : ValidId g.nodes id) : Option (DdgWalker g) :=
  if opts.trackDeclarations = false then (g.children id).foldlM walk w
  else do
    let w ← (g.children id).foldlM (fun w c => if (identifierName g c).isSome then some w
      else walk w c) w
    return (identifierChildren g id).foldl (fun w ident => w.recordDef opts ident.2 id hid) w

def walkAssignment (opts : DdgBuildOptions) (walk : DdgWalker g → NodeId → Option (DdgWalker g))
    (w : DdgWalker g) (id : NodeId) (hid : ValidId g.nodes id) : Option (DdgWalker g) :=
  match g.children id with
  | [] => some w
  | first :: rest => do
    let lhs := g.get first
    let lhsName := ((lhs.filter (·.kind = .identifier)).map (·.name)).getD []
    let w ← rest.foldlM walk w
    let w ← if (lhs.any (·.kind ≠ .identifier)) then walk w first else some w
    return if opts.trackAssignments ∧ lhsName ≠ [] then w.recordDef opts lhsName id hid else w

def walk (opts : DdgBuildOptions) : Nat → DdgWalker g → NodeId → Option (DdgWalker g)
  | 0, _, _ => none
  | fuel + 1, w, id =>
    match h : g.get id with
    | none => some w
    | some n =>
      match n.kind with
      | .parameter => some w
      | .identifier => some (w.emitUse id (g.valid_of_get id n h) n.name)
      | .declaration => walkDeclaration opts (walk opts fuel) w id (g.valid_of_get id n h)
      | .assignment => walkAssignment opts (walk opts fuel) w id (g.valid_of_get id n h)
      | _ => (g.children id).foldlM (walk opts fuel) w

def registerParameters (opts : DdgBuildOptions) : Nat → DdgWalker g → NodeId → Option (DdgWalker g)
  | 0, _, _ => none
  | fuel + 1, w, root =>
    (g.children root).foldlM (fun w c =>
      match h : g.get c with
      | none => some w
      | some n =>
        if n.kind = .parameter then
          some ((identifierChildren g c).foldl
            (fun w ident => w.recordDef opts ident.2 c (g.valid_of_get c n h)) w)
        else if n.kind ≠ .block ∧ n.kind ≠ .functionDef then registerParameters opts fuel w c
        else some w) w

/-- Each function starts with no definitions. -/
def enterFunction (w : DdgWalker g) : DdgWalker g :=
  { w with
    defMap := []
    stats := { w.stats with functionsProcessed := w.stats.functionsProcessed + 1 }
    defs := nofun }

def processFunction (opts : DdgBuildOptions) (fuel : Nat) (w : DdgWalker g) (fn : NodeId) :
    Option (DdgWalker g) := do
  let w ← w.enterFunction.registerParameters opts fuel fn
  (g.children fn).foldlM (fun w child =>
    match g.get child with
    | none => some w
    | some n => if n.kind = .parameter then some w else walk opts fuel w child) w

/-- The graph with the collected edges. -/
def graph (w : DdgWalker g) : Graph where
  nodes := g.nodes
  edges := g.edges ++ w.edges
  dense := g.dense
  ends := by
    intro e he
    rcases List.mem_append.mp he with he | he
    · exact g.ends e he
    · exact (w.ends e he).2

end DdgWalker

def buildDdg (fuel : Nat) (g : Graph) (opts : DdgBuildOptions) : Option (Graph × DdgStats) := do
  let w ← (g.findByKind .functionDef).foldlM (DdgWalker.processFunction opts fuel) ({} :
    DdgWalker g)
  return (w.graph, w.stats)

/-! ## Only data dependences are added -/

namespace DdgWalker

variable {g : Graph} (w : DdgWalker g)

theorem filter_ast (p : Edge → Bool) (hp : ∀ e, p e = true → e.kind = .astChild) :
    w.graph.edges.filter p = g.edges.filter p := by
  have hnew : w.edges.filter p = [] := by
    rw [List.filter_eq_nil_iff]
    intro e he hpe
    have hddg := (w.ends e he).1
    rw [hp e hpe] at hddg
    cases hddg
  show (g.edges ++ w.edges).filter p = g.edges.filter p
  rw [List.filter_append, hnew, List.append_nil]

theorem graph_child (p c : NodeId) : w.graph.Child p c ↔ g.Child p c := by
  rw [← Graph.mem_children, ← Graph.mem_children]
  unfold Graph.children
  rw [w.filter_ast]
  intro e he
  simp only [decide_eq_true_eq] at he
  exact he.1

theorem graph_preOrder (h : g.PreOrder) : w.graph.PreOrder := by
  constructor
  · intro p c hc
    exact h.increasing p c ((w.graph_child p c).mp hc)
  · unfold Graph.astTargets
    rw [w.filter_ast _ fun e he => by simpa using he]
    exact h.single

end DdgWalker

/-! ## The walk ends -/

namespace DdgWalker

section

variable {g : Graph} (opts : DdgBuildOptions) (rank : NodeId → Nat)
  (hrank : ∀ p c, g.Child p c → rank c < rank p)

theorem walkDeclaration_returns (walk : DdgWalker g → NodeId → Option (DdgWalker g))
    (w : DdgWalker g) (id : NodeId) (hid : ValidId g.nodes id)
    (hwalk : ∀ w, ∀ c ∈ g.children id, ∃ w', walk w c = some w') :
    ∃ w', walkDeclaration opts walk w id hid = some w' := by
  unfold walkDeclaration
  split
  · exact Search.foldlM_returns walk _ hwalk w
  · have hskip : ∀ w, ∀ c ∈ g.children id,
        ∃ w', (if (identifierName g c).isSome then some w else walk w c) = some w' := by
      intro w c hc
      split
      · exact ⟨w, rfl⟩
      · exact hwalk w c hc
    obtain ⟨w', hw'⟩ := Search.foldlM_returns _ _ hskip w
    rw [hw']
    exact ⟨_, rfl⟩

theorem walkAssignment_returns (walk : DdgWalker g → NodeId → Option (DdgWalker g))
    (w : DdgWalker g) (id : NodeId) (hid : ValidId g.nodes id)
    (hwalk : ∀ w, ∀ c ∈ g.children id, ∃ w', walk w c = some w') :
    ∃ w', walkAssignment opts walk w id hid = some w' := by
  unfold walkAssignment
  split
  · exact ⟨w, rfl⟩
  · rename_i first rest hc
    rw [hc] at hwalk
    obtain ⟨w₁, hw₁⟩ :=
      Search.foldlM_returns walk rest (fun w c hm => hwalk w c (List.mem_cons_of_mem _ hm)) w
    simp only [hw₁, Option.bind_eq_bind, Option.bind_some]
    split
    · obtain ⟨w₂, hw₂⟩ := hwalk w₁ first List.mem_cons_self
      rw [hw₂]
      exact ⟨_, rfl⟩
    · exact ⟨_, rfl⟩

include hrank

theorem walk_returns (fuel : Nat) (w : DdgWalker g) (id : NodeId) (hfuel : rank id < fuel) :
    ∃ w', walk opts fuel w id = some w' := by
  induction fuel generalizing w id with
  | zero => omega
  | succ fuel ih =>
    have hchildren : ∀ w : DdgWalker g, ∀ c ∈ g.children id, ∃ w',
        walk opts fuel w c = some w' := by
      intro w c hc
      apply ih
      have := hrank id c ((g.mem_children id c).mp hc)
      omega
    unfold walk
    split
    · exact ⟨w, rfl⟩
    · split
      · exact ⟨w, rfl⟩
      · exact ⟨_, rfl⟩
      · exact walkDeclaration_returns opts _ w id _ hchildren
      · exact walkAssignment_returns opts _ w id _ hchildren
      · exact Search.foldlM_returns _ _ hchildren w

theorem registerParameters_returns (fuel : Nat) (w : DdgWalker g) (root : NodeId)
    (hfuel : rank root < fuel) : ∃ w', registerParameters opts fuel w root = some w' := by
  induction fuel generalizing w root with
  | zero => omega
  | succ fuel ih =>
    unfold registerParameters
    apply Search.foldlM_returns
    intro w c hc
    split
    · exact ⟨w, rfl⟩
    · split
      · exact ⟨_, rfl⟩
      · split
        · apply ih
          have := hrank root c ((g.mem_children root c).mp hc)
          omega
        · exact ⟨w, rfl⟩

theorem processFunction_returns (fuel : Nat) (hfuel : ∀ id, rank id < fuel) (w : DdgWalker g)
    (fn : NodeId) : ∃ w', processFunction opts fuel w fn = some w' := by
  obtain ⟨w₁, hw₁⟩ := registerParameters_returns opts rank hrank fuel w.enterFunction fn (hfuel fn)
  unfold processFunction
  rw [hw₁]
  apply Search.foldlM_returns
  intro w c _
  split
  · exact ⟨w, rfl⟩
  · split
    · exact ⟨w, rfl⟩
    · exact walk_returns opts rank hrank fuel w c (hfuel c)

end

end DdgWalker

theorem buildDdg_returns (g : Graph) (hg : g.PreOrder) (opts : DdgBuildOptions) (fuel : Nat)
    (hfuel : g.nodeCount < fuel) :
    ∃ g' stats, buildDdg fuel g opts = some (g', stats) ∧ g'.nodes = g.nodes ∧ g'.PreOrder := by
  have hrank : ∀ p c, g.Child p c → g.nodeCount - c < g.nodeCount - p := by
    intro p c h
    have hlt : p < c := hg.increasing p c h
    have hle : c ≤ g.nodeCount := (g.child_valid p c h).2.2
    exact Nat.sub_lt_sub_left (Nat.lt_of_lt_of_le hlt hle) hlt
  obtain ⟨w, hw⟩ := Search.foldlM_returns (DdgWalker.processFunction opts fuel)
    (g.findByKind .functionDef)
    (fun w fn _ => DdgWalker.processFunction_returns opts (g.nodeCount - ·) hrank fuel
      (fun id => Nat.lt_of_le_of_lt (Nat.sub_le _ _) hfuel) w fn) ({} : DdgWalker g)
  refine ⟨w.graph, w.stats, ?_, rfl, w.graph_preOrder hg⟩
  unfold buildDdg
  rw [hw]
  rfl

end Euxis.Cpg
