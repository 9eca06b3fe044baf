import Euxis.Cpg.CfgOnce

/-!
# Control flow in place

`build_cfg` adds its edges to the graph that it reads. No function of it adds a node, so that the
nodes are read from the graph that it started with; the children of a node are read from the edges
that are there at that moment.
-/

namespace Euxis.Cpg

open CfgBuilder

/-! ## The builder, with all edges of the graph -/

/-- `Graph::children`, of the edges that are there. -/
def childrenAmong (edges : List Edge) (parent : NodeId) : List NodeId :=
  if parent = kNullNode then []
  else (edges.filter fun e => e.kind = .astChild ∧ e.source = parent).map (·.target)

namespace CfgInPlace

def firstChildOf (b : CfgBuilder) (id : NodeId) : NodeId := (childrenAmong b.edges id).headD id

variable (g : Graph)

section Handlers

variable (descend : CfgBuilder → NodeId → Option CfgBuilder)

def processBlock (b : CfgBuilder) (block : NodeId) : Option CfgBuilder :=
  let children := childrenAmong b.edges block
  children.foldlM descend ((children.zip children.tail).foldl addSequential b)

def processBranch (ifNode : NodeId) (b : CfgBuilder) (block : NodeId) : Option CfgBuilder :=
  descend (b.addBranchEntry ifNode (firstChildOf b block)) block

def processIfChild (ifNode : NodeId) (b : CfgBuilder) (child : NodeId) : Option CfgBuilder :=
  match g.get child with
  | none => some b
  | some cn =>
    if cn.kind = .block then processBranch descend ifNode b child
    else do
      let b ← ((childrenAmong b.edges child).filter (g.hasKind · .block)).foldlM
        (processBranch descend ifNode) b
      descend b child

def processIf (opts : CfgBuildOptions) (b : CfgBuilder) (ifNode : NodeId) : Option CfgBuilder :=
  if opts.emitIfBranchEdges then
    (childrenAmong b.edges ifNode).foldlM (processIfChild g descend ifNode) b
  else (childrenAmong b.edges ifNode).foldlM descend b

def addLoopEdges (b : CfgBuilder) (loopNode : NodeId) : CfgBuilder :=
  match (childrenAmong b.edges loopNode).find? (g.hasKind · .block) with
  | none => b
  | some body =>
    match childrenAmong b.edges body with
    | [] => b
    | first :: rest =>
      (b.addBranchEntry loopNode first).addLoopBack
        ((first :: rest).getLast (List.cons_ne_nil first rest)) loopNode

def processLoop (opts : CfgBuildOptions) (b : CfgBuilder) (loopNode : NodeId) : Option CfgBuilder :=
  if opts.emitLoopBackEdges then
    let b := addLoopEdges g b loopNode
    (childrenAmong b.edges loopNode).foldlM descend b
  else (childrenAmong b.edges loopNode).foldlM descend b

end Handlers

def descend (opts : CfgBuildOptions) : Nat → CfgBuilder → NodeId → Option CfgBuilder
  | 0, _, _ => none
  | fuel + 1, b, id =>
    match g.get id with
    | none => some b
    | some n =>
      match n.kind with
      | .block => processBlock (descend opts fuel) b id
      | .if => processIf g (descend opts fuel) opts b id
      | .loop => processLoop g (descend opts fuel) opts b id
      | _ => ((childrenAmong b.edges id).filter g.isStructure).foldlM (descend opts fuel) b

def processFunction (opts : CfgBuildOptions) (fuel : Nat) (b : CfgBuilder) (fn : NodeId) :
    Option CfgBuilder :=
  let b := { b with stats := { b.stats with functionsProcessed := b.stats.functionsProcessed + 1 } }
  (childrenAmong b.edges fn).foldlM (descend g opts fuel) b

/-- All edges of the graph afterwards, and the statistics. -/
def buildCfg (fuel : Nat) (g : Graph) (opts : CfgBuildOptions) : Option CfgBuilder :=
  (g.findByKind .functionDef).foldlM (processFunction g opts fuel) { edges := g.edges }

/-! ## The edges apart -/

variable {g}

/-- The second builder has collected what the first one has added to the graph. -/
structure Collects (g : Graph) (b c : CfgBuilder) : Prop where
  edges : b.edges = g.edges ++ c.edges
  stats : b.stats = c.stats
  cfg : ∀ e ∈ c.edges, e.kind = .cfg

variable {b c : CfgBuilder}

theorem Collects.children (h : Collects g b c) (id : NodeId) :
    childrenAmong b.edges id = g.children id := by
  have hnew : (c.edges.filter fun e => e.kind = .astChild ∧ e.source = id) = [] := by
    rw [List.filter_eq_nil_iff]
    intro e he hchild
    have hkind := (of_decide_eq_true hchild).1
    rw [h.cfg e he] at hkind
    cases hkind
  rw [childrenAmong, h.edges, List.filter_append, hnew, List.append_nil]
  rfl

theorem Collects.add (h : Collects g b c) (source target : NodeId) :
    Collects g (b.add source target) (c.add source target) := by
  refine ⟨?_, h.stats, ?_⟩
  · show b.edges ++ edgeOf source target = g.edges ++ (c.edges ++ edgeOf source target)
    rw [h.edges, List.append_assoc]
  · intro e he
    rcases List.mem_append.mp he with he | he
    · exact h.cfg e he
    · rw [(Graph.mem_edgeOf.mp he).2]

theorem Collects.count (h : Collects g b c) (f : CfgStats → CfgStats) :
    Collects g { b with stats := f b.stats } { c with stats := f c.stats } :=
  ⟨h.edges, congrArg f h.stats, h.cfg⟩

theorem Collects.addSequential (h : Collects g b c) (pair : NodeId × NodeId) :
    Collects g (b.addSequential pair) (c.addSequential pair) :=
  (h.add pair.1 pair.2).count fun stats =>
    { stats with sequentialEdges := stats.sequentialEdges + 1 }

theorem Collects.addBranchEntry (h : Collects g b c) (source target : NodeId) :
    Collects g (b.addBranchEntry source target) (c.addBranchEntry source target) :=
  (h.add source target).count fun stats =>
    { stats with branchEntryEdges := stats.branchEntryEdges + 1 }

theorem Collects.addLoopBack (h : Collects g b c) (source target : NodeId) :
    Collects g (b.addLoopBack source target) (c.addLoopBack source target) :=
  (h.add source target).count fun stats => { stats with loopBackEdges := stats.loopBackEdges + 1 }

theorem Collects.foldl_addSequential (h : Collects g b c) (pairs : List (NodeId × NodeId)) :
    Collects g (pairs.foldl CfgBuilder.addSequential b)
      (pairs.foldl CfgBuilder.addSequential c) := by
  induction pairs generalizing b c with
  | nil => exact h
  | cons pair rest ih => exact ih (h.addSequential pair)

theorem Collects.addLoopEdges (h : Collects g b c) (loopNode : NodeId) :
    Collects g (addLoopEdges g b loopNode) (CfgBuilder.addLoopEdges g c loopNode) := by
  unfold CfgInPlace.addLoopEdges CfgBuilder.addLoopEdges
  rw [h.children]
  cases (g.children loopNode).find? (g.hasKind · .block) with
  | none => exact h
  | some body =>
    simp only [h.children]
    cases g.children body with
    | nil => exact h
    | cons first rest => exact (h.addBranchEntry loopNode first).addLoopBack _ loopNode

/-- Both handlers keep collecting, or both do not end. -/
abbrev Agree (g : Graph) (x y : Option CfgBuilder) : Prop := Option.Rel (Collects g) x y

section Step

variable {d d' : CfgBuilder → NodeId → Option CfgBuilder}
  (hd : ∀ b c, Collects g b c → ∀ id, Agree g (d b id) (d' c id))

include hd

theorem agree_processBlock (h : Collects g b c) (id : NodeId) :
    Agree g (processBlock d b id) (CfgBuilder.processBlock g d' c id) := by
  unfold CfgInPlace.processBlock CfgBuilder.processBlock
  rw [h.children]
  exact Search.foldlM_rel _ _ _ _ (fun b c h id _ => hd b c h id) _ _ (h.foldl_addSequential _)

theorem agree_processBranch (h : Collects g b c) (ifNode id : NodeId) :
    Agree g (processBranch d ifNode b id) (CfgBuilder.processBranch g d' ifNode c id) := by
  unfold CfgInPlace.processBranch CfgBuilder.processBranch
  rw [CfgInPlace.firstChildOf, h.children]
  exact hd _ _ (h.addBranchEntry ifNode _) id

theorem agree_processIfChild (h : Collects g b c) (ifNode id : NodeId) :
    Agree g (processIfChild g d ifNode b id) (CfgBuilder.processIfChild g d' ifNode c id) := by
  unfold CfgInPlace.processIfChild CfgBuilder.processIfChild
  cases g.get id with
  | none => exact .some h
  | some n =>
    dsimp only
    split
    · exact agree_processBranch hd h ifNode id
    · rw [h.children]
      have hloop := Search.foldlM_rel (Collects g) (processBranch d ifNode)
        (CfgBuilder.processBranch g d' ifNode)
        ((g.children id).filter (g.hasKind · .block))
        (fun b c h id _ => agree_processBranch hd h ifNode id) b c h
      exact Search.rel_bind hloop fun b c h => hd b c h id

theorem agree_processIf (opts : CfgBuildOptions) (h : Collects g b c) (id : NodeId) :
    Agree g (processIf g d opts b id) (CfgBuilder.processIf g d' opts c id) := by
  unfold CfgInPlace.processIf CfgBuilder.processIf
  rw [h.children]
  split
  · exact Search.foldlM_rel _ _ _ _ (fun b c h child _ => agree_processIfChild hd h id child) _ _ h
  · exact Search.foldlM_rel _ _ _ _ (fun b c h child _ => hd b c h child) _ _ h

theorem agree_processLoop (opts : CfgBuildOptions) (h : Collects g b c) (id : NodeId) :
    Agree g (processLoop g d opts b id) (CfgBuilder.processLoop g d' opts c id) := by
  unfold CfgInPlace.processLoop CfgBuilder.processLoop
  split
  · dsimp only
    rw [(h.addLoopEdges id).children]
    exact Search.foldlM_rel _ _ _ _ (fun b c h child _ => hd b c h child) _ _ (h.addLoopEdges id)
  · rw [h.children]
    exact Search.foldlM_rel _ _ _ _ (fun b c h child _ => hd b c h child) _ _ h

end Step

theorem agree_descend (opts : CfgBuildOptions) (fuel : Nat) (h : Collects g b c) (id : NodeId) :
    Agree g (descend g opts fuel b id) (CfgBuilder.descend g opts fuel c id) := by
  induction fuel generalizing b c id with
  | zero => exact .none
  | succ fuel ih =>
    have hd : ∀ b c, Collects g b c →
        ∀ id, Agree g (descend g opts fuel b id) (CfgBuilder.descend g opts fuel c id) :=
      fun b c h id => ih h id
    rw [CfgInPlace.descend, CfgBuilder.descend]
    cases g.get id with
    | none => exact .some h
    | some n =>
      dsimp only
      cases n.kind
      case block => exact agree_processBlock hd h id
      case «if» => exact agree_processIf hd opts h id
      case loop => exact agree_processLoop hd opts h id
      all_goals
        dsimp only
        rw [h.children]
        exact Search.foldlM_rel _ _ _ _ (fun b c h child _ => hd b c h child) _ _ h

theorem agree_processFunction (opts : CfgBuildOptions) (fuel : Nat) (h : Collects g b c)
    (fn : NodeId) :
    Agree g (processFunction g opts fuel b fn) (CfgBuilder.processFunction g opts fuel c fn) := by
  have hcount := h.count fun stats =>
    { stats with functionsProcessed := stats.functionsProcessed + 1 }
  unfold CfgInPlace.processFunction CfgBuilder.processFunction
  dsimp only
  rw [hcount.children]
  exact Search.foldlM_rel _ _ _ _ (fun b c h child _ => agree_descend opts fuel h child) _ _ hcount

/-- To collect the edges apart is what the code does in place. -/
theorem agree_buildCfg (fuel : Nat) (g : Graph) (opts : CfgBuildOptions) :
    Agree g (buildCfg fuel g opts) (Cpg.buildCfg fuel g opts) := by
  refine Search.foldlM_rel _ _ _ _ (fun b c h fn _ => agree_processFunction opts fuel h fn) _ _ ⟨?_,
    rfl, nofun⟩
  exact (List.append_nil g.edges).symm

end CfgInPlace

/-! ## What the statistics count -/

/-- Control flow between two nodes of the graph, and as many edges as the statistics count. -/
structure Exact (g : Graph) (b : CfgBuilder) : Prop where
  edges : ∀ e ∈ b.edges, e.kind = .cfg ∧ ValidId g.nodes e.source ∧ ValidId g.nodes e.target ∧
    e.source ≠ e.target
  counted : b.edges.length = b.stats.sequentialEdges + b.stats.branchEntryEdges +
    b.stats.loopBackEdges

section Exact

variable {g : Graph} {b : CfgBuilder}

theorem exact_add (h : Exact g b) {source target : NodeId} (hsource : ValidId g.nodes source)
    (htarget : ValidId g.nodes target) (hne : source ≠ target) :
    (b.add source target).edges = b.edges ++ [⟨source, target, .cfg⟩] ∧
      ∀ e ∈ (b.add source target).edges,
        e.kind = .cfg ∧ ValidId g.nodes e.source ∧ ValidId g.nodes e.target ∧
        e.source ≠ e.target := by
  have hedge : edgeOf source target = [⟨source, target, .cfg⟩] := by
    simp [edgeOf, hsource.1, htarget.1, hne]
  have hedges : (b.add source target).edges = b.edges ++
      [⟨source, target, .cfg⟩] := by rw [← hedge]; rfl
  refine ⟨hedges, ?_⟩
  rw [hedges]
  intro e he
  rcases List.mem_append.mp he with he | he
  · exact h.edges e he
  · rw [List.mem_singleton.mp he]
    exact ⟨rfl, hsource, htarget, hne⟩

theorem exact_addSequential (h : Exact g b) {pair : NodeId × NodeId}
    (hsource : ValidId g.nodes pair.1) (htarget : ValidId g.nodes pair.2) (hne : pair.1 ≠ pair.2) :
    Exact g (b.addSequential pair) := by
  obtain ⟨hlast, hedges⟩ := exact_add h hsource htarget hne
  refine ⟨hedges, ?_⟩
  show (b.add pair.1 pair.2).edges.length =
    b.stats.sequentialEdges + 1 + b.stats.branchEntryEdges + b.stats.loopBackEdges
  rw [hlast, List.length_append, h.counted, List.length_singleton]
  omega

theorem exact_addBranchEntry (h : Exact g b) {source target : NodeId}
    (hsource : ValidId g.nodes source) (htarget : ValidId g.nodes target) (hne : source ≠ target) :
    Exact g (b.addBranchEntry source target) := by
  obtain ⟨hlast, hedges⟩ := exact_add h hsource htarget hne
  refine ⟨hedges, ?_⟩
  show (b.add source target).edges.length =
    b.stats.sequentialEdges + (b.stats.branchEntryEdges + 1) + b.stats.loopBackEdges
  rw [hlast, List.length_append, h.counted, List.length_singleton]
  omega

theorem exact_addLoopBack (h : Exact g b) {source target : NodeId}
    (hsource : ValidId g.nodes source) (htarget : ValidId g.nodes target) (hne : source ≠ target) :
    Exact g (b.addLoopBack source target) := by
  obtain ⟨hlast, hedges⟩ := exact_add h hsource htarget hne
  refine ⟨hedges, ?_⟩
  show (b.add source target).edges.length =
    b.stats.sequentialEdges + b.stats.branchEntryEdges + (b.stats.loopBackEdges + 1)
  rw [hlast, List.length_append, h.counted, List.length_singleton]
  omega

variable (hg : g.AstForest)

include hg

theorem below_ne {m n : NodeId} (h : Relation.TransGen g.Child m n) : m ≠ n := by
  rintro rfl
  exact hg.acyclic m h

theorem exact_pairs (block : NodeId) (pairs : List (NodeId × NodeId))
    (hpairs : ∀ p ∈ pairs, p ∈ g.pairs block) (h : Exact g b) :
    Exact g (pairs.foldl addSequential b) := by
  apply List.foldlRecOn (motive := Exact g) pairs addSequential h
  rintro b hb ⟨x, y⟩ hpair
  have hmem := hpairs (x, y) hpair
  obtain ⟨hx, hy⟩ := List.of_mem_zip hmem
  exact exact_addSequential hb (Graph.valid_of_mem_children hx)
    (Graph.valid_of_mem_children (List.mem_of_mem_tail hy))
    (Graph.zip_tail_ne (Graph.nodup_of_single hg.single block) hmem)

theorem exact_addLoopEdges (loopNode : NodeId) (h : Exact g b) :
    Exact g (addLoopEdges g b loopNode) := by
  have hbelow : ∀ n ∈ g.loopBody loopNode, Relation.TransGen g.Child loopNode n :=
    fun n hn => Graph.loopBody_below hn
  unfold Graph.loopBody at hbelow
  unfold addLoopEdges
  cases hbody : (g.children loopNode).find? (g.hasKind · .block) with
  | none => exact h
  | some body =>
    rw [hbody] at hbelow
    dsimp only at hbelow ⊢
    generalize g.children body = children at hbelow
    cases children with
    | nil => exact h
    | cons first rest =>
      have hfirst := hbelow first List.mem_cons_self
      have hlast := hbelow _ (List.getLast_mem (List.cons_ne_nil first rest))
      obtain ⟨hvalid, hvalidFirst⟩ := Graph.below_valid hfirst
      have hentry := exact_addBranchEntry h hvalid hvalidFirst (below_ne hg hfirst)
      exact exact_addLoopBack hentry (Graph.below_valid hlast).2 hvalid (below_ne hg hlast).symm

section Step

variable {d : CfgBuilder → NodeId → Option CfgBuilder} {m : NodeId}
  (hd : ∀ b n, Relation.TransGen g.Child m n → Exact g b → ∃ b', d b n = some b' ∧ Exact g b')

include hd

omit hg in
theorem exact_children (h : Exact g b) : ∃ b', (g.children m).foldlM d b = some b' ∧ Exact g b' :=
  Search.foldlM_keeps (Exact g) d (g.children m)
    (fun b n hn => hd b n (.single ((g.mem_children m n).mp hn))) b h

theorem exact_processBranch (block : NodeId) (hblock : block ∈ g.branches m) (h : Exact g b) :
    ∃ b', processBranch g d m b block = some b' ∧ Exact g b' := by
  have hfirst := Graph.firstChildOf_below hblock
  obtain ⟨hvalid, hvalidFirst⟩ := Graph.below_valid hfirst
  exact hd _ block (Graph.branch_below hblock)
    (exact_addBranchEntry h hvalid hvalidFirst (below_ne hg hfirst))

theorem exact_processIfChild (c : NodeId) (hc : g.Child m c) (h : Exact g b) :
    ∃ b', processIfChild g d m b c = some b' ∧ Exact g b' := by
  rw [processIfChild_eq c (g.child_valid m c hc).2]
  split
  · rename_i hkind
    exact exact_processBranch hg hd c (Graph.mem_branches.mpr ⟨hkind, Or.inl hc⟩) h
  · rename_i hblock
    have hkind : g.hasKind c .block = false := Bool.eq_false_iff.mpr hblock
    obtain ⟨b', hb', hexact⟩ := Search.foldlM_keeps (Exact g) (processBranch g d m)
      ((g.children c).filter (g.hasKind · .block)) (fun b block hmem hb => by
        obtain ⟨hchild, hwrapped⟩ := List.mem_filter.mp hmem
        have hbranch := Graph.mem_branches.mpr ⟨hwrapped,
          Or.inr ⟨c, hc, hkind, (g.mem_children c block).mp hchild⟩⟩
        exact exact_processBranch hg hd block hbranch hb) b h
    rw [hb']
    exact hd b' c (.single hc) hexact

theorem exact_processIf (opts : CfgBuildOptions) (h : Exact g b) :
    ∃ b', processIf g d opts b m = some b' ∧ Exact g b' := by
  unfold processIf
  split
  · refine Search.foldlM_keeps (Exact g) _ (g.children m) ?_ b h
    intro b c hc hb
    exact exact_processIfChild hg hd c ((g.mem_children m c).mp hc) hb
  · exact exact_children hd h

theorem exact_processLoop (opts : CfgBuildOptions) (h : Exact g b) :
    ∃ b', processLoop g d opts b m = some b' ∧ Exact g b' := by
  unfold processLoop
  split
  · exact exact_children hd (exact_addLoopEdges hg m h)
  · exact exact_children hd h

theorem exact_processBlock (h : Exact g b) : ∃ b', processBlock g d b m = some b' ∧ Exact g b' :=
  exact_children hd (exact_pairs hg m _ (fun _ hp => hp) h)

end Step

variable (rank : NodeId → Nat) (hrank : ∀ p c, g.Child p c → rank c < rank p)

include hrank

theorem exact_descend (opts : CfgBuildOptions) (fuel : Nat) (b : CfgBuilder) (id : NodeId)
    (hfuel : rank id < fuel) (h : Exact g b) : ∃ b', descend g opts fuel b id = some b' ∧
      Exact g b' := by
  induction fuel generalizing b id with
  | zero => omega
  | succ fuel ih =>
    have hlower : ∀ n, Relation.TransGen g.Child id n → rank n < rank id := by
      intro n hn
      induction hn with
      | single hc => exact hrank _ _ hc
      | tail _ hc ih => exact (hrank _ _ hc).trans ih
    have hd : ∀ b n, Relation.TransGen g.Child id n → Exact g b →
        ∃ b', descend g opts fuel b n = some b' ∧ Exact g b' :=
      fun b n hn hb => ih b n (by have := hlower n hn; omega) hb
    rw [CfgBuilder.descend]
    cases g.get id with
    | none => exact ⟨b, rfl, h⟩
    | some n =>
      dsimp only
      split
      · exact exact_processBlock hg hd h
      · exact exact_processIf hg hd opts h
      · exact exact_processLoop hg hd opts h
      · refine Search.foldlM_keeps (Exact g) _ _ ?_ b h
        intro b c hc hb
        exact hd b c (.single ((g.mem_children id c).mp (List.mem_filter.mp hc).1)) hb

theorem exact_buildCfg (opts : CfgBuildOptions) (fuel : Nat) (hfuel : ∀ n, rank n < fuel) :
    ∃ b, buildCfg fuel g opts = some b ∧ Exact g b := by
  refine Search.foldlM_keeps (Exact g) _ _ ?_ {} ⟨nofun, rfl⟩
  intro b fn _ hb
  refine Search.foldlM_keeps (Exact g) _ _ ?_ _ ⟨hb.edges, hb.counted⟩
  intro b c _ hb
  exact exact_descend hg rank hrank opts fuel b c (hfuel c) hb

end Exact

/-- **Control flow is added.** The run ends; it leaves the edges that were there and adds control
flow between two nodes, as many edges as the statistics count. -/
theorem buildCfg_additive (g : Graph) (hg : g.AstForest) (opts : CfgBuildOptions) (fuel : Nat)
    (hfuel : g.nodeCount + 1 < fuel) :
    ∃ added stats, CfgInPlace.buildCfg fuel g opts = some { edges := g.edges ++ added, stats } ∧
      (∀ e ∈ added, e.kind = .cfg ∧ ValidId g.nodes e.source ∧ ValidId g.nodes e.target ∧
        e.source ≠ e.target) ∧
      added.length = stats.sequentialEdges + stats.branchEntryEdges + stats.loopBackEdges := by
  obtain ⟨rank, hrank, hbound⟩ := g.exists_child_rank hg.forest
  obtain ⟨c, hc, hexact⟩ :=
    exact_buildCfg hg rank hrank opts fuel fun n => Nat.lt_of_le_of_lt (hbound n) hfuel
  have hagree := CfgInPlace.agree_buildCfg fuel g opts
  rw [hc] at hagree
  generalize CfgInPlace.buildCfg fuel g opts = result at hagree
  cases hagree with
  | some hcollects =>
    rename_i b
    refine ⟨c.edges, c.stats, ?_, hexact.edges, hexact.counted⟩
    rw [← hcollects.edges, ← hcollects.stats]

theorem loopFunction_additive : ∃ added stats,
    CfgInPlace.buildCfg 9 loopFunction {} = some { edges := loopFunction.edges ++ added, stats } ∧
      added.length = stats.sequentialEdges + stats.branchEntryEdges + stats.loopBackEdges := by
  obtain ⟨added, stats, hrun, -, hcount⟩ :=
    buildCfg_additive loopFunction loopFunction_astForest {} 9 (by decide)
  exact ⟨added, stats, hrun, hcount⟩

end Euxis.Cpg
