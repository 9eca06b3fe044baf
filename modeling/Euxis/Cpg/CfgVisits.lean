import Euxis.Cpg.Cfg

/-!
# How often the control-flow builder comes to a node

A descent comes to a node once for each way that leads the builder to it, and adds the edges of the
node each time. Two shapes of the tree make two ways: a function inside of a function, and the
look-ahead of an `If` below its wrappers.
-/

namespace Euxis.Cpg

open CfgBuilder Descent

namespace Graph

variable (g : Graph)

/-! ## What a visit enters and adds -/

/-- The children that `descend` enters. -/
def steps (m : NodeId) : List NodeId :=
  if g.isStructure m then g.children m else (g.children m).filter g.isStructure

/-- The `Block`s below a wrapper. -/
def wrapped (c : NodeId) : List NodeId :=
  if g.hasKind c .block then [] else (g.children c).filter (g.hasKind · .block)

/-- The grandchildren that an `If` enters before it enters their parents. -/
def lookAhead (m : NodeId) : List NodeId :=
  if g.hasKind m .if then (g.children m).flatMap g.wrapped else []

def entered (m : NodeId) : List NodeId := g.lookAhead m ++ g.steps m

def branchesOf (c : NodeId) : List NodeId := if g.hasKind c .block then [c] else g.wrapped c

/-- The branches of an `If`. -/
def branches (m : NodeId) : List NodeId := (g.children m).flatMap g.branchesOf

def branchEdge (m block : NodeId) : List Edge := edgeOf m (g.firstChildOf block)

/-- The children of the body of a loop. -/
def loopBody (m : NodeId) : List NodeId :=
  match (g.children m).find? (g.hasKind · .block) with
  | none => []
  | some body => g.children body

def loopEdges (m : NodeId) : List Edge :=
  match g.loopBody m with
  | [] => []
  | first :: rest =>
    edgeOf m first ++ edgeOf ((first :: rest).getLast (List.cons_ne_nil first rest)) m

def pairs (m : NodeId) : List (NodeId × NodeId) := (g.children m).zip (g.children m).tail

/-- The edges of a node. -/
def emits (m : NodeId) : List Edge :=
  if g.hasKind m .block then (g.pairs m).flatMap fun p => edgeOf p.1 p.2
  else if g.hasKind m .if then (g.branches m).flatMap (g.branchEdge m)
  else if g.hasKind m .loop then g.loopEdges m
  else []

variable {g}

theorem hasKind_of_get {id : NodeId} {n : Node} (h : g.get id = some n) (kind : NodeKind) :
    g.hasKind id kind = decide (n.kind = kind) := by
  rw [hasKind, h]
  rfl

theorem hasKind_iff {id : NodeId} {kind : NodeKind} :
    g.hasKind id kind = true ↔ ∃ n, g.get id = some n ∧ n.kind = kind := by
  unfold hasKind
  cases g.get id with
  | none => simp
  | some n => simp

theorem hasKind_unique {id : NodeId} {kind kind' : NodeKind} (h : g.hasKind id kind = true)
    (h' : g.hasKind id kind' = true) : kind = kind' := by
  obtain ⟨n, hn, rfl⟩ := hasKind_iff.mp h
  obtain ⟨n', hn', rfl⟩ := hasKind_iff.mp h'
  rw [Option.some.inj (hn.symm.trans hn')]

theorem hasKind_ne {id : NodeId} {kind : NodeKind} (h : g.hasKind id kind = true) (kind' : NodeKind)
    (hne : kind ≠ kind') : g.hasKind id kind' = false := by
  by_contra hkind
  exact hne (hasKind_unique h (Bool.of_not_eq_false hkind))

theorem valid_of_mem_children {m c : NodeId} (h : c ∈ g.children m) : ValidId g.nodes c :=
  (g.child_valid m c ((g.mem_children m c).mp h)).2

theorem children_of_get_none {id : NodeId} (h : g.get id = none) : g.children id = [] := by
  apply List.eq_nil_iff_forall_not_mem.mpr
  intro c hc
  obtain ⟨n, hn⟩ := exists_get (g.child_valid id c ((g.mem_children id c).mp hc)).1
  rw [h] at hn
  cases hn

end Graph

/-! ## A descent -/

/-- How often an edge has been added. -/
def CfgBuilder.amount (b : CfgBuilder) (e : Edge) : Nat := b.edges.count e

section Step

variable {g : Graph}

theorem add_amount (b : CfgBuilder) (source target : NodeId) (e : Edge) :
    (b.add source target).amount e = b.amount e + (edgeOf source target).count e :=
  List.count_append

theorem foldl_addSequential_amount (ps : List (NodeId × NodeId)) (b : CfgBuilder) (e : Edge) :
    (ps.foldl addSequential b).amount e = b.amount e +
      (ps.flatMap fun p => edgeOf p.1 p.2).count e := by
  induction ps generalizing b with
  | nil => rfl
  | cons p rest ih =>
    have hadd : (b.addSequential p).amount e = b.amount e + (edgeOf p.1 p.2).count e :=
      add_amount b p.1 p.2 e
    rw [List.foldl_cons, ih, hadd, List.flatMap_cons, List.count_append, Nat.add_assoc]

theorem addLoopEdges_amount (b : CfgBuilder) (m : NodeId) (e : Edge) :
    (addLoopEdges g b m).amount e = b.amount e + (g.loopEdges m).count e := by
  unfold addLoopEdges Graph.loopEdges Graph.loopBody
  cases (g.children m).find? (g.hasKind · .block) with
  | none => rfl
  | some body =>
    cases hbody : g.children body with
    | nil =>
      simp only [hbody]
      rfl
    | cons first rest =>
      simp only [hbody]
      have hentry : (b.addBranchEntry m first).amount e = b.amount e + (edgeOf m first).count e :=
        add_amount b m first e
      have hback : ∀ (b : CfgBuilder) (last : NodeId),
          (b.addLoopBack last m).amount e = b.amount e + (edgeOf last m).count e :=
        fun b last => add_amount b last m e
      rw [hback, hentry, List.count_append, Nat.add_assoc]

variable {descend : CfgBuilder → NodeId → Option CfgBuilder} {W : NodeId → Edge → Nat} {m : NodeId}

theorem processBranch_adds (block : NodeId) (b : CfgBuilder)
    (h : ∀ b, Adds amount b (W block) (descend b block)) :
    Adds amount b (fun e => (g.branchEdge m block).count e + W block e)
      (processBranch g descend m b block) :=
  Adds.after (add_amount b m (g.firstChildOf block)) (h _)

theorem processIfChild_eq (c : NodeId) (hc : ValidId g.nodes c) (b : CfgBuilder) :
    processIfChild g descend m b c = if g.hasKind c .block then processBranch g descend m b c
    else (((g.children c).filter (g.hasKind · .block)).foldlM (processBranch g descend m) b).bind
      (descend · c) := by
  obtain ⟨n, hn⟩ := Graph.exists_get hc
  unfold processIfChild
  rw [hn, Graph.hasKind_of_get hn]
  simp only [decide_eq_true_eq]
  rfl

theorem processIfChild_adds (c : NodeId) (hc : ValidId g.nodes c) (b : CfgBuilder)
    (h : ∀ b, ∀ n ∈ g.wrapped c ++ [c], Adds amount b (W n) (descend b n)) :
    Adds amount b (fun e => ((g.branchesOf c).map fun block => (g.branchEdge m block).count e).sum +
      (((g.wrapped c).map fun n => W n e).sum + W c e)) (processIfChild g descend m b c) := by
  rw [processIfChild_eq c hc]
  split
  · rename_i hkind
    refine (processBranch_adds c b fun b => h b c (by simp)).congr fun e => ?_
    simp [Graph.branchesOf, Graph.wrapped, hkind]
  · rename_i hblock
    have hkind : g.hasKind c .block = false := Bool.eq_false_iff.mpr hblock
    have hwrapped : g.wrapped c =
        (g.children c).filter (g.hasKind · .block) := by rw [Graph.wrapped, hkind]; rfl
    rw [← hwrapped]
    have hloop := foldlM_adds (processBranch g descend m)
      (fun block e => (g.branchEdge m block).count e + W block e)
      (g.wrapped c) (fun b block hb => processBranch_adds block b fun b =>
        h b block (List.mem_append_left _ hb)) b
    refine (hloop.bind fun b => h b c (by simp)).congr fun e => ?_
    rw [List.sum_map_add, Graph.branchesOf, hkind, Nat.add_assoc]
    rfl

theorem processIf_adds (b : CfgBuilder) (hif : g.hasKind m .if = true)
    (h : ∀ b, ∀ n ∈ g.entered m, Adds amount b (W n) (descend b n)) :
    Adds amount b (fun e => (g.emits m).count e + ((g.entered m).map fun n => W n e).sum)
      (processIf g descend {} b m) := by
  have hblock : g.hasKind m .block = false := Graph.hasKind_ne hif .block (by decide)
  have hsteps : g.steps m = g.children m := by simp [Graph.steps, Graph.isStructure, hif]
  have hahead : g.lookAhead m =
      (g.children m).flatMap g.wrapped := by rw [Graph.lookAhead, hif]; rfl
  have hemits : g.emits m = (g.branches m).flatMap (g.branchEdge m) := by
    rw [Graph.emits, hblock, hif]
    rfl
  -- Each child gives its branches, what is wrapped in it, and itself.
  have hchildren := foldlM_adds (processIfChild g descend m) (fun c e =>
    ((g.branchesOf c).map fun block => (g.branchEdge m block).count e).sum +
      (((g.wrapped c).map fun n => W n e).sum + W c e)) (g.children m) (fun b c hc => by
    apply processIfChild_adds c (Graph.valid_of_mem_children hc) b
    intro b n hn
    apply h b n
    rw [Graph.entered, hsteps, hahead]
    rcases List.mem_append.mp hn with hn | hn
    · exact List.mem_append_left _ (List.mem_flatMap.mpr ⟨c, hc, hn⟩)
    · rw [List.mem_singleton.mp hn]
      exact List.mem_append_right _ hc) b
  refine Adds.congr hchildren fun e => ?_
  rw [List.sum_map_add, List.sum_map_add, hemits, List.count_flatMap, Graph.entered, hsteps, hahead,
    List.map_append, List.sum_append, sum_map_flatMap, Graph.branches, sum_map_flatMap]
  rfl

theorem processBlock_adds (b : CfgBuilder) (hblock : g.hasKind m .block = true)
    (h : ∀ b, ∀ n ∈ g.entered m, Adds amount b (W n) (descend b n)) :
    Adds amount b (fun e => (g.emits m).count e + ((g.entered m).map fun n => W n e).sum)
      (processBlock g descend b m) := by
  have hif : g.hasKind m .if = false := Graph.hasKind_ne hblock .if (by decide)
  have hentered : g.entered m = g.children m := by
    simp [Graph.entered, Graph.lookAhead, Graph.steps, Graph.isStructure, hblock, hif]
  have hemits : g.emits m = (g.pairs m).flatMap fun p =>
      edgeOf p.1 p.2 := by rw [Graph.emits, hblock]; rfl
  rw [hentered] at h ⊢
  rw [hemits]
  exact Adds.after (foldl_addSequential_amount (g.pairs m) b)
    (foldlM_adds descend W (g.children m) h _)

theorem processLoop_adds (b : CfgBuilder) (hloop : g.hasKind m .loop = true)
    (h : ∀ b, ∀ n ∈ g.entered m, Adds amount b (W n) (descend b n)) :
    Adds amount b (fun e => (g.emits m).count e + ((g.entered m).map fun n => W n e).sum)
      (processLoop g descend {} b m) := by
  have hif : g.hasKind m .if = false := Graph.hasKind_ne hloop .if (by decide)
  have hblock : g.hasKind m .block = false := Graph.hasKind_ne hloop .block (by decide)
  have hentered : g.entered m = g.children m := by
    simp [Graph.entered, Graph.lookAhead, Graph.steps, Graph.isStructure, hloop, hif]
  have hemits : g.emits m = g.loopEdges m := by
    rw [Graph.emits, hblock, hif, hloop]
    rfl
  rw [hentered] at h ⊢
  rw [hemits]
  exact Adds.after (addLoopEdges_amount b m) (foldlM_adds descend W (g.children m) h _)

theorem plain_adds (b : CfgBuilder) (hplain : g.isStructure m = false)
    (h : ∀ b, ∀ n ∈ g.entered m, Adds amount b (W n) (descend b n)) :
    Adds amount b (fun e => (g.emits m).count e + ((g.entered m).map fun n => W n e).sum)
      (((g.children m).filter g.isStructure).foldlM descend b) := by
  have hkinds := hplain
  simp only [Graph.isStructure, Bool.or_eq_false_iff] at hkinds
  obtain ⟨⟨hblock, hif⟩, hloop⟩ := hkinds
  have hentered : g.entered m = (g.children m).filter g.isStructure := by
    simp [Graph.entered, Graph.lookAhead, Graph.steps, hif, hplain]
  have hemits : g.emits m = [] := by simp [Graph.emits, hblock, hif, hloop]
  rw [hentered] at h ⊢
  refine (foldlM_adds descend W _ h b).congr fun e => ?_
  rw [hemits, List.count_nil, Nat.zero_add]

/-- **A visit.** It adds the edges of the node and enters the next ones, whatever the kind. -/
theorem descend_step (fuel : Nat) (b : CfgBuilder)
    (h : ∀ b, ∀ n ∈ g.entered m, Adds amount b (W n) (CfgBuilder.descend g {} fuel b n)) :
    Adds amount b (fun e => (g.emits m).count e + ((g.entered m).map fun n => W n e).sum)
      (CfgBuilder.descend g {} (fuel + 1) b m) := by
  rw [CfgBuilder.descend]
  cases hget : g.get m with
  | none =>
    have hkind : ∀ kind, g.hasKind m kind = false := by
      intro kind
      rw [Graph.hasKind, hget]
      rfl
    refine ⟨b, rfl, fun e => ?_⟩
    simp [Graph.emits, Graph.entered, Graph.lookAhead, Graph.steps, hkind,
      Graph.children_of_get_none hget]
  | some n =>
    have hkind := Graph.hasKind_of_get hget
    dsimp only
    split
    · rename_i heq
      exact processBlock_adds b (by rw [hkind, heq]; rfl) h
    · rename_i heq
      exact processIf_adds b (by rw [hkind, heq]; rfl) h
    · rename_i heq
      exact processLoop_adds b (by rw [hkind, heq]; rfl) h
    · rename_i hblock hif hloop
      -- All other kinds are walked through without an edge.
      refine plain_adds b ?_ h
      rw [Graph.isStructure, hkind, hkind, hkind, decide_eq_false hblock, decide_eq_false hif,
        decide_eq_false hloop]
      rfl

end Step

/-! ## The whole run -/

namespace Graph

variable {g : Graph}

theorem wrapped_child {c n : NodeId} (h : n ∈ g.wrapped c) :
    g.hasKind c .block = false ∧ g.Child c n ∧ g.hasKind n .block = true := by
  unfold wrapped at h
  split at h
  · cases h
  · rename_i hblock
    obtain ⟨hn, hkind⟩ := List.mem_filter.mp h
    exact ⟨Bool.eq_false_of_not_eq_true hblock, (g.mem_children c n).mp hn, hkind⟩

theorem mem_lookAhead {m n : NodeId} : n ∈ g.lookAhead m ↔
    g.hasKind m .if = true ∧ ∃ c, g.Child m c ∧ g.hasKind c .block = false ∧ g.Child c n ∧
    g.hasKind n .block = true := by
  unfold lookAhead
  constructor
  · intro h
    split at h
    · rename_i hif
      obtain ⟨c, hc, hn⟩ := List.mem_flatMap.mp h
      exact ⟨hif, c, (g.mem_children m c).mp hc, wrapped_child hn⟩
    · cases h
  · rintro ⟨hif, c, hc, hplain, hn, hblock⟩
    rw [if_pos hif]
    refine List.mem_flatMap.mpr ⟨c, (g.mem_children m c).mpr hc, ?_⟩
    rw [wrapped, hplain]
    exact List.mem_filter.mpr ⟨(g.mem_children c n).mpr hn, hblock⟩

theorem mem_steps {m n : NodeId} :
    n ∈ g.steps m ↔ g.Child m n ∧ (g.isStructure m = true ∨ g.isStructure n = true) := by
  unfold steps
  split
  · rename_i h
    simp [mem_children, h]
  · rename_i h
    simp [mem_children, List.mem_filter, h]

theorem entered_rank (rank : NodeId → Nat) (hrank : ∀ p c, g.Child p c → rank c < rank p) :
    ∀ m, ∀ n ∈ g.entered m, rank n < rank m := by
  intro m n hn
  rcases List.mem_append.mp hn with hn | hn
  · obtain ⟨-, c, hc, -, hn, -⟩ := mem_lookAhead.mp hn
    exact (hrank c n hn).trans (hrank m c hc)
  · exact hrank m n (mem_steps.mp hn).1

/-- Where the functions start. -/
def functionChildren (g : Graph) : List NodeId := (g.findByKind .functionDef).flatMap g.children

/-- The nodes that the builder visits, each one as often as it does. -/
def allVisits (g : Graph) (fuel : Nat) : List NodeId :=
  g.functionChildren.flatMap (visits g.entered fuel)

end Graph

theorem buildCfg_adds (g : Graph) (rank : NodeId → Nat)
    (hrank : ∀ p c, g.Child p c → rank c < rank p) (fuel : Nat) (hfuel : ∀ n, rank n < fuel) :
    ∃ b, buildCfg fuel g {} = some b ∧
      ∀ e, b.edges.count e = ((g.allVisits fuel).map fun m => (g.emits m).count e).sum := by
  have hdescend : ∀ b n, Adds amount b (total g.entered (fun m e => (g.emits m).count e) fuel n)
      (CfgBuilder.descend g {} fuel b n) := by
    intro b n
    exact walk_adds rank (Graph.entered_rank rank hrank) _ (CfgBuilder.descend g {})
      (fun fuel b m h => descend_step fuel b h) fuel b n (hfuel n)
  have hfunction : ∀ b fn, Adds amount b
      (fun e => ((g.children fn).map fun n => total g.entered (fun m e => (g.emits m).count e)
        fuel n e).sum)
      (processFunction g {} fuel b fn) := by
    intro b fn
    exact foldlM_adds (CfgBuilder.descend g {} fuel) _ (g.children fn) (fun b n _ => hdescend b n) _
  obtain ⟨b, hb, hamount⟩ := foldlM_adds (processFunction g {} fuel) _ (g.findByKind .functionDef)
    (fun b fn _ => hfunction b fn) {}
  refine ⟨b, hb, fun e => ?_⟩
  have htotal := hamount e
  rw [show amount ({} : CfgBuilder) e = 0 from rfl, Nat.zero_add] at htotal
  rw [Graph.allVisits, sum_map_flatMap, Graph.functionChildren, sum_map_flatMap]
  exact htotal

/-! ## How often a node is visited -/

namespace Graph

/-- The syntax edges form a forest: no node has two of them above it, and there is no cycle. -/
structure AstForest (g : Graph) : Prop where
  single : g.astTargets.Nodup
  acyclic : ∀ n, ¬ Relation.TransGen g.Child n n

variable {g : Graph}

theorem AstForest.forest (hg : g.AstForest) : g.Forest := ⟨unique_of_single hg.single, hg.acyclic⟩

theorem AstForest.parent_eq (hg : g.AstForest) {p c : NodeId} (h : g.Child p c) : g.parent c = p :=
  g.parent_of_child hg.forest p c h

theorem AstForest.induction_above (hg : g.AstForest) {P : NodeId → Prop}
    (step : ∀ n, (∀ p, Relation.TransGen g.Child p n → P p) → P n) (n : NodeId) : P n := by
  obtain ⟨depth, hdepth, -⟩ := g.exists_climb_rank hg.forest
  have hup : ∀ p c, Relation.TransGen g.Child p c → depth p < depth c := by
    intro p c h
    induction h with
    | single h => exact hdepth _ p ((g.up_iff hg.forest p _).mpr h)
    | @tail b c _ h ih => exact ih.trans (hdepth c b ((g.up_iff hg.forest b c).mpr h))
  induction hk : depth n using Nat.strong_induction_on generalizing n with
  | _ k ih =>
    subst hk
    exact step n fun p hp => ih (depth p) (hup p n hp) p rfl

theorem mem_findByKind (kind : NodeKind) (id : NodeId) :
    id ∈ g.findByKind kind ↔ g.hasKind id kind = true := by
  rw [findByKind, List.mem_map, hasKind_iff]
  refine exists_congr fun n => ?_
  rw [List.mem_filter, decide_eq_true_eq, and_right_comm, g.get_eq_some_iff]

theorem findByKind_nodup (kind : NodeKind) : (g.findByKind kind).Nodup := by
  have hids : g.nodes.map (·.id) = List.range' 1 g.nodes.length := by
    apply List.ext_getElem
    · simp
    · intro i hi _
      rw [List.length_map] at hi
      rw [List.getElem_map, g.dense i hi, List.getElem_range', Nat.one_mul, Nat.add_comm]
  have hsub : (g.findByKind kind).Sublist (g.nodes.map (·.id)) := List.filter_sublist.map _
  rw [hids] at hsub
  exact hsub.nodup List.nodup_range'

theorem mem_functionChildren (n : NodeId) :
    n ∈ g.functionChildren ↔ ∃ f, g.hasKind f .functionDef = true ∧ g.Child f n := by
  simp only [functionChildren, List.mem_flatMap, mem_findByKind, mem_children]

theorem functionChildren_nodup (hg : g.AstForest) : g.functionChildren.Nodup := by
  apply List.nodup_flatMap.mpr
  refine ⟨fun f _ => nodup_of_single hg.single f, ?_⟩
  refine (findByKind_nodup .functionDef).imp_of_mem ?_
  intro f f' _ _ hne
  rw [Function.onFun_apply, List.disjoint_left]
  intro n hn hn'
  exact hne (hg.forest.unique f f' n ((g.mem_children f n).mp hn) ((g.mem_children f' n).mp hn'))

theorem steps_nodup (hg : g.AstForest) (m : NodeId) : (g.steps m).Nodup := by
  unfold steps
  split
  · exact nodup_of_single hg.single m
  · exact (nodup_of_single hg.single m).filter _

/-- A node is visited from a function, from an `If` two levels above, and from its parent. -/
theorem count_allVisits (hg : g.AstForest) (rank : NodeId → Nat)
    (hrank : ∀ p c, g.Child p c → rank c < rank p) (fuel : Nat) (hfuel : ∀ n, rank n < fuel)
    (n : NodeId) :
    (g.allVisits fuel).count n = g.functionChildren.count n +
      ((g.allVisits fuel).count (g.parent (g.parent n)) *
        (g.lookAhead (g.parent (g.parent n))).count n +
        (g.allVisits fuel).count (g.parent n) * (g.steps (g.parent n)).count n) := by
  have hcount := count_visits rank (entered_rank rank hrank) fuel g.functionChildren
    (fun a _ => hfuel a) n
  -- In a forest a node has one parent, so all but one summand of each sum vanish.
  have hahead : ∀ m, m ≠ g.parent (g.parent n) → m ∈ g.allVisits fuel →
      (g.lookAhead m).count n = 0 := by
    intro m hne _
    apply List.count_eq_zero.mpr
    intro hmem
    obtain ⟨-, c, hc, -, hn, -⟩ := mem_lookAhead.mp hmem
    rw [hg.parent_eq hn, hg.parent_eq hc] at hne
    exact hne rfl
  have hsteps : ∀ m, m ≠ g.parent n → m ∈ g.allVisits fuel → (g.steps m).count n = 0 := by
    intro m hne _
    apply List.count_eq_zero.mpr
    intro hmem
    rw [hg.parent_eq (mem_steps.mp hmem).1] at hne
    exact hne rfl
  have hsplit : ∀ m, (g.entered m).count n = (g.lookAhead m).count n + (g.steps m).count n :=
    fun m =>
    List.count_append
  simp only [hsplit] at hcount
  rw [List.sum_map_add] at hcount
  change (g.allVisits fuel).count n = _ at hcount
  rw [hcount]
  congr 1
  exact congrArg₂ (· + ·) (List.sum_map_eq_nsmul_single _ _ hahead)
    (List.sum_map_eq_nsmul_single _ _ hsteps)

/-- No two nodes in a row on the way down from a function are without structure. -/
inductive Reached (g : Graph) : NodeId → Prop where
  | start {f n : NodeId} (function : g.hasKind f .functionDef = true) (child : g.Child f n) :
      Reached g n
  | step {p n : NodeId} (above : Reached g p) (child : g.Child p n)
      (either : g.isStructure p = true ∨ g.isStructure n = true) : Reached g n

/-- Two ways lead to the node: it stands in a function that is itself reached from another one, or
is a `Block` that an `If` looks ahead to; or two ways lead to its parent. -/
inductive Twice (g : Graph) : NodeId → Prop where
  | nested {f n : NodeId} (function : g.hasKind f .functionDef = true) (above :
      Reached g f) (child : g.Child f n)
      (own : g.isStructure n = true) : Twice g n
  | wrapped {i w n : NodeId} (isIf : g.hasKind i .if = true) (above : Reached g i) (wrapper :
      g.Child i w)
      (plain : g.hasKind w .block = false) (child : g.Child w n)
      (block : g.hasKind n .block = true) : Twice g n
  | step {p n : NodeId} (above : Twice g p) (child : g.Child p n)
      (either : g.isStructure p = true ∨ g.isStructure n = true) : Twice g n

theorem isStructure_of_block {n : NodeId} (h : g.hasKind n .block = true) :
    g.isStructure n = true := by
  rw [isStructure, h]
  rfl

theorem isStructure_of_if {n : NodeId} (h : g.hasKind n .if = true) : g.isStructure n = true := by
  rw [isStructure, h, Bool.or_true]
  rfl

theorem functionDef_not_structure {f : NodeId} (h : g.hasKind f .functionDef = true) :
    g.isStructure f = false := by
  rw [isStructure, hasKind_ne h .block (by decide), hasKind_ne h .if (by decide),
    hasKind_ne h .loop (by decide)]
  rfl

section Counted

variable (hg : g.AstForest) (V : NodeId → Nat)
  (hV : ∀ n, V n = g.functionChildren.count n +
    (V (g.parent (g.parent n)) * (g.lookAhead (g.parent (g.parent n))).count n +
      V (g.parent n) * (g.steps (g.parent n)).count n))

include hg hV

theorem le_of_step {p n : NodeId} (child : g.Child p n)
    (either : g.isStructure p = true ∨ g.isStructure n = true) :
    g.functionChildren.count n + V p ≤ V n := by
  have hcount : 1 ≤ (g.steps p).count n := List.one_le_count_iff.mpr (mem_steps.mpr ⟨child, either⟩)
  have hmul : V p ≤ V p * (g.steps p).count n := Nat.le_mul_of_pos_right _ hcount
  rw [hV n, hg.parent_eq child]
  omega

theorem visited_of_reached {n : NodeId} (h : Reached g n) : 1 ≤ V n := by
  induction h with
  | start function child =>
    have hcount := List.one_le_count_iff.mpr ((mem_functionChildren _).mpr ⟨_, function, child⟩)
    rw [hV]
    omega
  | step _ child either ih =>
    have hle := le_of_step hg V hV child either
    omega

theorem visited_twice_of_twice {n : NodeId} (h : Twice g n) : 2 ≤ V n := by
  induction h with
  | nested function above child own =>
    have hcount := List.one_le_count_iff.mpr ((mem_functionChildren _).mpr ⟨_, function, child⟩)
    have hvisited := visited_of_reached hg V hV above
    have hle := le_of_step hg V hV child (Or.inr own)
    omega
  | @wrapped i w n isIf above wrapper plain child block =>
    have hif := visited_of_reached hg V hV above
    have hwrapper := visited_of_reached hg V hV
      (above.step wrapper (Or.inl (isStructure_of_if isIf)))
    have hahead : 1 ≤ (g.lookAhead i).count n :=
      List.one_le_count_iff.mpr (mem_lookAhead.mpr ⟨isIf, w, wrapper, plain, child, block⟩)
    have hsteps : 1 ≤ (g.steps w).count n :=
      List.one_le_count_iff.mpr (mem_steps.mpr ⟨child, Or.inr (isStructure_of_block block)⟩)
    have hmul : 1 ≤ V i * (g.lookAhead i).count n := Nat.mul_pos hif hahead
    have hmul' : 1 ≤ V w * (g.steps w).count n := Nat.mul_pos hwrapper hsteps
    rw [hV n, hg.parent_eq child, hg.parent_eq wrapper]
    omega
  | step _ child either ih =>
    have hle := le_of_step hg V hV child either
    omega

theorem reached_of_visited {n : NodeId} (h : 1 ≤ V n) : Reached g n := by
  induction n using hg.induction_above with
  | step n ih =>
    rw [hV] at h
    by_cases hstart : 1 ≤ g.functionChildren.count n
    · obtain ⟨f, function, child⟩ := (mem_functionChildren n).mp (List.one_le_count_iff.mp hstart)
      exact .start function child
    · by_cases hahead : 1 ≤ V (g.parent (g.parent n)) *
        (g.lookAhead (g.parent (g.parent n))).count n
      · have hvisited := Nat.pos_of_mul_pos_right hahead
        obtain ⟨isIf, c, wrapper, plain, child, block⟩ :=
          mem_lookAhead.mp (List.one_le_count_iff.mp (Nat.pos_of_mul_pos_left hahead))
        have hreached := ih _ (.tail (.single wrapper) child) hvisited
        exact (hreached.step wrapper (Or.inl (isStructure_of_if isIf))).step child
          (Or.inr (isStructure_of_block block))
      · have hsteps : 1 ≤ V (g.parent n) * (g.steps (g.parent n)).count n := by omega
        have hvisited := Nat.pos_of_mul_pos_right hsteps
        obtain ⟨child, either⟩ :=
          mem_steps.mp (List.one_le_count_iff.mp (Nat.pos_of_mul_pos_left hsteps))
        exact (ih _ (.single child) hvisited).step child either

theorem twice_of_visited_twice {n : NodeId} (h : 2 ≤ V n) : Twice g n := by
  induction n using hg.induction_above with
  | step n ih =>
    rw [hV] at h
    by_cases hahead : 1 ≤ V (g.parent (g.parent n)) * (g.lookAhead (g.parent (g.parent n))).count n
    · have hvisited := Nat.pos_of_mul_pos_right hahead
      obtain ⟨isIf, c, wrapper, plain, child, block⟩ :=
        mem_lookAhead.mp (List.one_le_count_iff.mp (Nat.pos_of_mul_pos_left hahead))
      exact .wrapped isIf (reached_of_visited hg V hV hvisited) wrapper plain child block
    · have hstart : g.functionChildren.count n ≤ 1 :=
        List.nodup_iff_count_le_one.mp (functionChildren_nodup hg) n
      have hsteps : 1 ≤ V (g.parent n) * (g.steps (g.parent n)).count n := by omega
      have hvisited := Nat.pos_of_mul_pos_right hsteps
      obtain ⟨child, either⟩ :=
        mem_steps.mp (List.one_le_count_iff.mp (Nat.pos_of_mul_pos_left hsteps))
      have hone : (g.steps (g.parent n)).count n ≤ 1 :=
        List.nodup_iff_count_le_one.mp (steps_nodup hg _) n
      by_cases htwice : 2 ≤ V (g.parent n)
      · exact (ih _ (.single child) htwice).step child either
      · -- One visit from the parent and one from the function, which are the same node.
        have hparent : V (g.parent n) * (g.steps (g.parent n)).count n ≤ 1 :=
          Nat.mul_le_mul (Nat.le_of_lt_succ (Nat.lt_of_not_le htwice)) hone
        obtain ⟨f, function, fchild⟩ := (mem_functionChildren n).mp
          (List.one_le_count_iff.mp (by omega : 1 ≤ g.functionChildren.count n))
        obtain rfl := hg.parent_eq fchild
        have hplain := functionDef_not_structure function
        refine .nested function (reached_of_visited hg V hV hvisited) fchild
          (either.resolve_left ?_)
        rw [hplain]
        exact Bool.false_ne_true

end Counted

end Graph

end Euxis.Cpg
