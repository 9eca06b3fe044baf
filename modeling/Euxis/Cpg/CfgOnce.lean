import Euxis.Cpg.CfgVisits

/-!
# How often a control-flow edge is added

No two nodes have an edge in common, and the edges of one node differ. So an edge is added as often
as its node is visited.
-/

namespace Euxis.Cpg

open CfgBuilder

namespace Graph

variable {g : Graph}

/-! ## Whose edge it is -/

/-- The edge joins two children of the node, or the node and one below it. -/
def Owns (g : Graph) (m : NodeId) (e : Edge) : Prop :=
  (g.Child m e.source ∧ g.Child m e.target) ∨
    (e.source = m ∧ Relation.TransGen g.Child m e.target) ∨
    (e.target = m ∧ Relation.TransGen g.Child m e.source)

theorem mem_edgeOf {source target : NodeId} {e : Edge} : e ∈ edgeOf source target ↔
    (source ≠ kNullNode ∧ target ≠ kNullNode ∧ source ≠ target) ∧ e = ⟨source, target, .cfg⟩ := by
  unfold edgeOf
  split
  · rename_i h
    simp only [List.not_mem_nil, false_iff, not_and]
    rintro ⟨hs, ht, hne⟩
    rcases h with h | h | h
    · exact absurd h hs
    · exact absurd h ht
    · exact absurd h hne
  · rename_i h
    simp only [not_or] at h
    rw [List.mem_singleton]
    exact (and_iff_right h).symm

theorem mem_branches {m block : NodeId} : block ∈ g.branches m ↔ g.hasKind block .block = true ∧
    (g.Child m block ∨ ∃ c, g.Child m c ∧ g.hasKind c .block = false ∧ g.Child c block) := by
  simp only [branches, List.mem_flatMap, mem_children]
  constructor
  · rintro ⟨c, hc, hmem⟩
    unfold branchesOf at hmem
    split at hmem
    · rename_i hblock
      obtain rfl := List.mem_singleton.mp hmem
      exact ⟨hblock, Or.inl hc⟩
    · obtain ⟨hplain, hchild, hblock⟩ := wrapped_child hmem
      exact ⟨hblock, Or.inr ⟨c, hc, hplain, hchild⟩⟩
  · rintro ⟨hblock, hc | ⟨c, hc, hplain, hchild⟩⟩
    · exact ⟨block, hc, by rw [branchesOf, if_pos hblock]; exact List.mem_singleton_self block⟩
    · refine ⟨c, hc, ?_⟩
      rw [branchesOf, wrapped, hplain]
      exact List.mem_filter.mpr ⟨(g.mem_children c block).mpr hchild, hblock⟩

theorem branch_below {m block : NodeId} (h : block ∈ g.branches m) :
    Relation.TransGen g.Child m block := by
  obtain ⟨-, hc | ⟨c, hc, -, hchild⟩⟩ := mem_branches.mp h
  · exact .single hc
  · exact .tail (.single hc) hchild

theorem firstChildOf_cases (block : NodeId) :
    g.Child block (g.firstChildOf block) ∨
      (g.firstChildOf block = block ∧ g.children block = []) := by
  unfold firstChildOf
  cases hchildren : g.children block with
  | nil => exact Or.inr ⟨rfl, rfl⟩
  | cons first rest =>
    left
    rw [← mem_children, hchildren]
    exact List.mem_cons_self

theorem firstChildOf_below {m block : NodeId} (h : block ∈ g.branches m) :
    Relation.TransGen g.Child m (g.firstChildOf block) := by
  rcases firstChildOf_cases (g := g) block with hchild | ⟨hself, -⟩
  · exact (branch_below h).tail hchild
  · rw [hself]
    exact branch_below h

theorem loopBody_below {m n : NodeId} (h : n ∈ g.loopBody m) : Relation.TransGen g.Child m n := by
  unfold loopBody at h
  split at h
  · cases h
  · rename_i body hbody
    have hchild := (g.mem_children m body).mp (List.mem_of_find?_eq_some hbody)
    exact .tail (.single hchild) ((g.mem_children body n).mp h)

theorem mem_loopEdges {m : NodeId} {e : Edge} (h : e ∈ g.loopEdges m) :
    ∃ n ∈ g.loopBody m, e ∈ edgeOf m n ∨ e ∈ edgeOf n m := by
  unfold loopEdges at h
  split at h
  · cases h
  · rename_i first rest hbody
    rw [hbody]
    rcases List.mem_append.mp h with h | h
    · exact ⟨first, List.mem_cons_self, Or.inl h⟩
    · exact ⟨_, List.getLast_mem _, Or.inr h⟩

theorem emits_owned {m : NodeId} {e : Edge} (h : e ∈ g.emits m) : e.kind = .cfg ∧ Owns g m e := by
  unfold emits at h
  split at h
  · obtain ⟨⟨c, d⟩, hpair, he⟩ := List.mem_flatMap.mp h
    obtain ⟨-, rfl⟩ := mem_edgeOf.mp he
    obtain ⟨hc, hd⟩ := List.of_mem_zip hpair
    exact ⟨rfl, Or.inl ⟨(g.mem_children m c).mp hc,
      (g.mem_children m d).mp (List.mem_of_mem_tail hd)⟩⟩
  · split at h
    · obtain ⟨block, hblock, he⟩ := List.mem_flatMap.mp h
      obtain ⟨-, rfl⟩ := mem_edgeOf.mp he
      exact ⟨rfl, Or.inr (Or.inl ⟨rfl, firstChildOf_below hblock⟩)⟩
    · split at h
      · obtain ⟨n, hn, he | he⟩ := mem_loopEdges h
        · obtain ⟨-, rfl⟩ := mem_edgeOf.mp he
          exact ⟨rfl, Or.inr (Or.inl ⟨rfl, loopBody_below hn⟩)⟩
        · obtain ⟨-, rfl⟩ := mem_edgeOf.mp he
          exact ⟨rfl, Or.inr (Or.inr ⟨rfl, loopBody_below hn⟩)⟩
      · cases h

theorem AstForest.siblings_apart (hg : g.AstForest) {m a b : NodeId} (ha : g.Child m a)
    (hb : g.Child m b) : ¬ Relation.TransGen g.Child a b := by
  intro h
  obtain ⟨p, hap, hpb⟩ := Relation.TransGen.tail'_iff.mp h
  obtain rfl := hg.forest.unique p m b hpb hb
  exact hg.acyclic p (Relation.TransGen.head' ha hap)

theorem Owns.unique (hg : g.AstForest) {m m' : NodeId} {e : Edge} (h : Owns g m e)
    (h' : Owns g m' e) : m = m' := by
  rcases h with ⟨hs, ht⟩ | ⟨rfl, ht⟩ | ⟨rfl, hs⟩
  · rcases h' with ⟨hs', -⟩ | ⟨rfl, ht'⟩ | ⟨rfl, hs'⟩
    · exact hg.forest.unique m m' e.source hs hs'
    · exact absurd ht' (hg.siblings_apart hs ht)
    · exact absurd hs' (hg.siblings_apart ht hs)
  · rcases h' with ⟨hs', ht'⟩ | ⟨rfl, -⟩ | ⟨rfl, hs'⟩
    · exact absurd ht (hg.siblings_apart hs' ht')
    · rfl
    · exact absurd (ht.trans hs') (hg.acyclic e.source)
  · rcases h' with ⟨hs', ht'⟩ | ⟨rfl, ht'⟩ | ⟨rfl, -⟩
    · exact absurd hs (hg.siblings_apart ht' hs')
    · exact absurd (hs.trans ht') (hg.acyclic e.target)
    · rfl

/-! ## A node's own edges differ -/

theorem edgeOf_nodup (source target : NodeId) : (edgeOf source target).Nodup := by
  unfold edgeOf
  split
  · exact List.nodup_nil
  · exact List.nodup_singleton _

theorem flatMap_edgeOf_nodup {ι : Type} (l : List ι) (source target : ι → NodeId)
    (h : (l.map fun i => (source i, target i)).Nodup) :
    (l.flatMap fun i => edgeOf (source i) (target i)).Nodup := by
  apply List.nodup_flatMap.mpr
  constructor
  · exact fun i _ => edgeOf_nodup (source i) (target i)
  · refine (List.pairwise_map.mp h).imp ?_
    intro i j hne
    rw [Function.onFun_apply, List.disjoint_left]
    intro e he he'
    obtain ⟨-, rfl⟩ := mem_edgeOf.mp he
    obtain ⟨-, heq⟩ := mem_edgeOf.mp he'
    simp only [Edge.mk.injEq, and_true] at heq
    exact hne (Prod.ext heq.1 heq.2)

theorem pairs_nodup (hg : g.AstForest) (m : NodeId) : (g.pairs m).Nodup := by
  apply List.Nodup.of_map Prod.snd
  rw [pairs, List.map_snd_zip (by simp)]
  exact (nodup_of_single hg.single m).tail

theorem branches_nodup (hg : g.AstForest) (m : NodeId) : (g.branches m).Nodup := by
  apply List.nodup_flatMap.mpr
  constructor
  · intro c _
    unfold branchesOf wrapped
    split
    · exact List.nodup_singleton c
    · exact (nodup_of_single hg.single c).filter _
  · refine (nodup_of_single hg.single m).imp_of_mem ?_
    intro c c' hc hc' hne
    have hchild := (g.mem_children m c).mp hc
    have hchild' := (g.mem_children m c').mp hc'
    have hcases : ∀ c n, n ∈ g.branchesOf c → n = c ∨ g.Child c n := by
      intro c n hn
      unfold branchesOf at hn
      split at hn
      · exact Or.inl (List.mem_singleton.mp hn)
      · exact Or.inr (wrapped_child hn).2.1
    rw [Function.onFun_apply, List.disjoint_left]
    intro n hn hn'
    -- A branch is a child or lies right below one.
    rcases hcases c n hn with rfl | hbelow
    · rcases hcases c' n hn' with rfl | hbelow'
      · exact hne rfl
      · exact hg.siblings_apart hchild' hchild (.single hbelow')
    · rcases hcases c' n hn' with rfl | hbelow'
      · exact hg.siblings_apart hchild hchild' (.single hbelow)
      · exact hne (hg.forest.unique c c' n hbelow hbelow')

theorem firstChildOf_inj (hg : g.AstForest) {m block block' : NodeId} (h : block ∈ g.branches m)
    (h' : block' ∈ g.branches m) (heq : g.firstChildOf block = g.firstChildOf block') :
    block = block' := by
  have hapart : ∀ a b, a ∈ g.branches m → b ∈ g.branches m → ¬ g.Child a b := by
    intro a b ha hb hab
    obtain ⟨hblock, -⟩ := mem_branches.mp ha
    obtain ⟨-, hchild | ⟨c, -, hplain, hchild⟩⟩ := mem_branches.mp hb
    · obtain rfl := hg.forest.unique a m b hab hchild
      exact hg.acyclic a (branch_below ha)
    · obtain rfl := hg.forest.unique a c b hab hchild
      rw [hblock] at hplain
      cases hplain
  rcases firstChildOf_cases (g := g) block with hfirst | ⟨hself, -⟩
  · rcases firstChildOf_cases (g := g) block' with hfirst' | ⟨hself', -⟩
    · rw [heq] at hfirst
      exact hg.forest.unique block block' _ hfirst hfirst'
    · rw [heq, hself'] at hfirst
      exact absurd hfirst (hapart block block' h h')
  · rcases firstChildOf_cases (g := g) block' with hfirst' | ⟨hself', -⟩
    · rw [← heq, hself] at hfirst'
      exact absurd hfirst' (hapart block' block h' h)
    · exact hself.symm.trans (heq.trans hself')

theorem loopEdges_nodup (hg : g.AstForest) (m : NodeId) : (g.loopEdges m).Nodup := by
  unfold loopEdges
  split
  · exact List.nodup_nil
  · rename_i first rest hbody
    apply List.Nodup.append (edgeOf_nodup _ _) (edgeOf_nodup _ _)
    intro e he he'
    obtain ⟨-, rfl⟩ := mem_edgeOf.mp he
    obtain ⟨-, heq⟩ := mem_edgeOf.mp he'
    simp only [Edge.mk.injEq, and_true] at heq
    have hlast : (first :: rest).getLast (by simp) ∈ g.loopBody m := by
      rw [hbody]
      exact List.getLast_mem _
    rw [← heq.1] at hlast
    exact hg.acyclic m (loopBody_below hlast)

theorem emits_nodup (hg : g.AstForest) (m : NodeId) : (g.emits m).Nodup := by
  unfold emits
  split
  · apply flatMap_edgeOf_nodup
    rw [List.map_id']
    exact pairs_nodup hg m
  · split
    · apply flatMap_edgeOf_nodup
      apply (branches_nodup hg m).map_on
      intro block hblock block' hblock' heq
      exact firstChildOf_inj hg hblock hblock' (Prod.mk.inj heq).2
    · split
      · exact loopEdges_nodup hg m
      · exact List.nodup_nil

/-! ## Which nodes have edges -/

/-- A `Block` of two children, an `If` with a branch, a loop whose body is not empty. -/
def drawsEdges (g : Graph) (n : NodeId) : Bool :=
  if g.hasKind n .block then 2 ≤ (g.children n).length
  else if g.hasKind n .if then !(g.branches n).isEmpty
  else if g.hasKind n .loop then !(g.loopBody n).isEmpty
  else false

theorem below_valid {m n : NodeId} (h : Relation.TransGen g.Child m n) :
    ValidId g.nodes m ∧ ValidId g.nodes n := by
  induction h with
  | single h => exact g.child_valid _ _ h
  | tail _ h ih => exact ⟨ih.1, (g.child_valid _ _ h).2⟩

theorem below_edge (hg : g.AstForest) {m n : NodeId} (h : Relation.TransGen g.Child m n) :
    (⟨m, n, .cfg⟩ : Edge) ∈ edgeOf m n := by
  obtain ⟨hm, hn⟩ := below_valid h
  refine mem_edgeOf.mpr ⟨⟨hm.1, hn.1, ?_⟩, rfl⟩
  rintro rfl
  exact hg.acyclic m h

theorem zip_tail_ne {l : List NodeId} (h : l.Nodup) {a b : NodeId} (hmem : (a, b) ∈ l.zip l.tail) :
    a ≠ b := by
  induction l with
  | nil => cases hmem
  | cons x rest ih =>
    obtain ⟨hx, hrest⟩ := List.nodup_cons.mp h
    cases rest with
    | nil => cases hmem
    | cons y rest =>
      rcases List.mem_cons.mp hmem with heq | hmem
      · obtain ⟨rfl, rfl⟩ := Prod.mk.inj heq
        rintro rfl
        exact hx List.mem_cons_self
      · exact ih hrest hmem

theorem pair_edge (hg : g.AstForest) {m c d : NodeId} (h : (c, d) ∈ g.pairs m) :
    (⟨c, d, .cfg⟩ : Edge) ∈ edgeOf c d := by
  obtain ⟨hc, hd⟩ := List.of_mem_zip h
  exact mem_edgeOf.mpr
    ⟨⟨(valid_of_mem_children hc).1, (valid_of_mem_children (List.mem_of_mem_tail hd)).1,
    zip_tail_ne (nodup_of_single hg.single m) h⟩, rfl⟩

theorem pair_mem_emits (hg : g.AstForest) {m c d : NodeId} (hblock : g.hasKind m .block = true)
    (h : (c, d) ∈ g.pairs m) : (⟨c, d, .cfg⟩ : Edge) ∈ g.emits m := by
  rw [emits, if_pos hblock]
  exact List.mem_flatMap.mpr ⟨(c, d), h, pair_edge hg h⟩

theorem pairs_of_length {m : NodeId} : 2 ≤ (g.children m).length ↔ ∃ c d, (c, d) ∈ g.pairs m := by
  unfold pairs
  match g.children m with
  | [] => simp
  | [c] => simp
  | c :: d :: rest =>
    refine iff_of_true ?_ ⟨c, d, List.mem_cons_self⟩
    simp

theorem drawsEdges_iff (hg : g.AstForest) (n : NodeId) :
    g.drawsEdges n = true ↔ ∃ e, e ∈ g.emits n := by
  unfold drawsEdges emits
  split
  · rw [decide_eq_true_eq, pairs_of_length]
    constructor
    · rintro ⟨c, d, hpair⟩
      exact ⟨_, List.mem_flatMap.mpr ⟨(c, d), hpair, pair_edge hg hpair⟩⟩
    · rintro ⟨e, he⟩
      obtain ⟨⟨c, d⟩, hpair, -⟩ := List.mem_flatMap.mp he
      exact ⟨c, d, hpair⟩
  · split
    · rw [Bool.not_eq_true', List.isEmpty_eq_false_iff_exists_mem]
      constructor
      · rintro ⟨block, hblock⟩
        exact ⟨_, List.mem_flatMap.mpr ⟨block, hblock, below_edge hg (firstChildOf_below hblock)⟩⟩
      · rintro ⟨e, he⟩
        obtain ⟨block, hblock, -⟩ := List.mem_flatMap.mp he
        exact ⟨block, hblock⟩
    · split
      · rw [Bool.not_eq_true', List.isEmpty_eq_false_iff_exists_mem]
        constructor
        · rintro ⟨n', hn'⟩
          unfold loopEdges
          cases hbody : g.loopBody n with
          | nil =>
            rw [hbody] at hn'
            cases hn'
          | cons first rest =>
            have hfirst : first ∈ g.loopBody n := by rw [hbody]; exact List.mem_cons_self
            exact ⟨_, List.mem_append_left _ (below_edge hg (loopBody_below hfirst))⟩
        · rintro ⟨e, he⟩
          obtain ⟨n', hn', -⟩ := mem_loopEdges he
          exact ⟨n', hn'⟩
      · simp

end Graph

/-! ## Each edge once -/

/-- A node below a function. -/
def InFunction (g : Graph) (n : NodeId) : Prop :=
  ∃ f, g.hasKind f .functionDef = true ∧ Relation.TransGen g.Child f n

/-- No edge comes twice, and the children of a `Block` are joined one by one. -/
structure EdgesOnce (g : Graph) (added : List Edge) : Prop where
  distinct : (added.map fun e => (e.source, e.target)).Nodup
  sequential : ∀ b, g.hasKind b .block = true → InFunction g b → ∀ c d, (c, d) ∈ g.pairs b →
    added.count ⟨c, d, .cfg⟩ = 1

/-- The builder reaches every `Block` of two children, and comes only once to a node that has
edges. -/
structure OneWay (g : Graph) : Prop where
  reached : ∀ b, g.hasKind b .block = true → InFunction g b → 2 ≤ (g.children b).length →
    g.Reached b
  once : ∀ n, g.drawsEdges n = true → ¬ g.Twice n

section Added

variable {g : Graph} (hg : g.AstForest) {visited : List NodeId} {added : List Edge}
  (hadded : ∀ e, added.count e = (visited.map fun m => (g.emits m).count e).sum)

include hadded

theorem exists_emitter {e : Edge} (h : e ∈ added) : ∃ m, e ∈ g.emits m := by
  by_contra hnone
  have hzero : (visited.map fun m => (g.emits m).count e).sum = 0 := by
    apply List.sum_eq_zero
    intro k hk
    obtain ⟨m, -, rfl⟩ := List.mem_map.mp hk
    exact List.count_eq_zero.mpr fun hm => hnone ⟨m, hm⟩
  have hpos := List.count_pos_iff.mpr h
  rw [hadded, hzero] at hpos
  exact absurd hpos (Nat.lt_irrefl 0)

include hg

theorem count_added {m : NodeId} {e : Edge} (h : e ∈ g.emits m) :
    added.count e = visited.count m := by
  have hother : ∀ m', m' ≠ m → m' ∈ visited → (g.emits m').count e = 0 := by
    intro m' hne _
    apply List.count_eq_zero.mpr
    intro hm'
    exact hne ((Graph.emits_owned hm').2.unique hg (Graph.emits_owned h).2)
  have hsum := List.sum_map_eq_nsmul_single m (fun m => (g.emits m).count e) hother
  rw [hadded, hsum, List.count_eq_one_of_mem (Graph.emits_nodup hg m) h, smul_eq_mul, Nat.mul_one]

theorem distinct_iff : (added.map fun e => (e.source, e.target)).Nodup ↔
    ∀ n, g.drawsEdges n = true → visited.count n ≤ 1 := by
  constructor
  · intro hnodup n hdraws
    obtain ⟨e, he⟩ := (Graph.drawsEdges_iff hg n).mp hdraws
    rw [← count_added hg hadded he]
    exact List.nodup_iff_count_le_one.mp (List.Nodup.of_map _ hnodup) e
  · intro honce
    have hnodup : added.Nodup := by
      apply List.nodup_iff_count_le_one.mpr
      intro e
      by_cases hmem : e ∈ added
      · obtain ⟨m, hm⟩ := exists_emitter hadded hmem
        rw [count_added hg hadded hm]
        exact honce m ((Graph.drawsEdges_iff hg m).mpr ⟨e, hm⟩)
      · rw [List.count_eq_zero.mpr hmem]
        exact Nat.zero_le 1
    -- All edges are of one kind, so the ends tell them apart.
    apply hnodup.map_on
    intro e he e' he' heq
    obtain ⟨m, hm⟩ := exists_emitter hadded he
    obtain ⟨m', hm'⟩ := exists_emitter hadded he'
    obtain ⟨hs, ht⟩ := Prod.mk.inj heq
    have hkind := (Graph.emits_owned hm).1.trans (Graph.emits_owned hm').1.symm
    cases e
    cases e'
    simp_all

end Added

/-- **Control flow.** The run ends, and it adds each edge once and joins the children of each
`Block` of a function if and only if one way leads to each node that has edges. -/
theorem buildCfg_once_iff (g : Graph) (hg : g.AstForest) (fuel : Nat)
    (hfuel : g.nodeCount + 1 < fuel) :
    ∃ b, buildCfg fuel g {} = some b ∧ (EdgesOnce g b.edges ↔ OneWay g) := by
  obtain ⟨rank, hrank, hbound⟩ := g.exists_child_rank hg.forest
  have hranked : ∀ n, rank n < fuel := fun n => Nat.lt_of_le_of_lt (hbound n) hfuel
  obtain ⟨b, hb, hadded⟩ := buildCfg_adds g rank hrank fuel hranked
  have hV := Graph.count_allVisits hg rank hrank fuel hranked
  -- How often a node is visited is settled by the tree alone.
  have htwice : ∀ n, (g.allVisits fuel).count n ≤ 1 ↔ ¬ g.Twice n := by
    intro n
    constructor
    · intro hle h
      have := Graph.visited_twice_of_twice hg (fun n => (g.allVisits fuel).count n) hV h
      omega
    · intro h
      by_contra hle
      exact h (Graph.twice_of_visited_twice hg (fun n => (g.allVisits fuel).count n) hV (by omega))
  refine ⟨b, hb, ?_, ?_⟩
  · rintro ⟨hdistinct, hsequential⟩
    refine ⟨?_, fun n hdraws => (htwice n).mp ((distinct_iff hg hadded).mp hdistinct n hdraws)⟩
    intro block hblock hfunction hlength
    obtain ⟨c, d, hpair⟩ := Graph.pairs_of_length.mp hlength
    have hcount := hsequential block hblock hfunction c d hpair
    rw [count_added hg hadded (Graph.pair_mem_emits hg hblock hpair)] at hcount
    exact Graph.reached_of_visited hg (fun n => (g.allVisits fuel).count n) hV hcount.ge
  · rintro ⟨hreached, honce⟩
    refine ⟨(distinct_iff hg hadded).mpr fun n hdraws => (htwice n).mpr (honce n hdraws), ?_⟩
    intro block hblock hfunction c d hpair
    have hmem := Graph.pair_mem_emits hg hblock hpair
    have hlow := Graph.visited_of_reached hg (fun n => (g.allVisits fuel).count n) hV
      (hreached block hblock hfunction (Graph.pairs_of_length.mpr ⟨c, d, hpair⟩))
    have hhigh := (htwice block).mpr (honce block ((Graph.drawsEdges_iff hg block).mpr ⟨_, hmem⟩))
    rw [count_added hg hadded hmem]
    exact Nat.le_antisymm hhigh hlow

/-! ### A loop, and a function inside of a function -/

theorem Graph.PreOrder.astForest {g : Graph} (h : g.PreOrder) : g.AstForest :=
  ⟨h.single, h.forest.acyclic⟩

def sampleNode (id : NodeId) (kind : NodeKind) : Node :=
  { id, kind, rawKind := [], name := [], range := ⟨0, 0, 0, 0, 0, 0⟩, language := .python }

/-- A call, and a loop over two calls. -/
def loopFunction : Graph where
  nodes := [sampleNode 1 .functionDef, sampleNode 2 .block, sampleNode 3 .call, sampleNode 4 .loop,
    sampleNode 5 .block, sampleNode 6 .call, sampleNode 7 .call]
  edges := [⟨1, 2, .astChild⟩, ⟨2, 3, .astChild⟩, ⟨2, 4, .astChild⟩, ⟨4, 5, .astChild⟩,
    ⟨5, 6, .astChild⟩, ⟨5, 7, .astChild⟩]
  dense := by decide
  ends := by decide

theorem loopFunction_astForest : loopFunction.AstForest := by
  exact (Graph.preOrder_of_edges (by decide) (by decide)).astForest

theorem loopFunction_oneWay : OneWay loopFunction := by
  have hchild : ∀ p c, c ∈ loopFunction.children p → loopFunction.Child p c := fun p c =>
    (loopFunction.mem_children p c).mp
  have hbody : loopFunction.Reached 2 := .start (f := 1) (by decide) (hchild 1 2 (by decide))
  have hloop : loopFunction.Reached 4 := hbody.step (hchild 2 4 (by decide)) (Or.inl (by decide))
  have hinner : loopFunction.Reached 5 := hloop.step (hchild 4 5 (by decide)) (Or.inl (by decide))
  have hroot : ∀ p, ¬ loopFunction.Child p 1 := by
    rintro p ⟨e, he, -, -, ht⟩
    exact (by decide : ∀ e ∈ loopFunction.edges, e.target ≠ 1) e he ht
  constructor
  · intro b hblock _ _
    rw [← Graph.mem_findByKind] at hblock
    have hcases : b = 2 ∨ b = 5 := by simpa using (show b ∈ [2, 5] from hblock)
    rcases hcases with rfl | rfl
    · exact hbody
    · exact hinner
  · rintro n - htwice
    -- Nothing leads to the function itself, so no second way can start there.
    induction htwice with
    | nested function above _ _ =>
      rw [← Graph.mem_findByKind] at function
      obtain rfl := List.mem_singleton.mp (show _ ∈ [1] from function)
      cases above with
      | start _ child => exact hroot _ child
      | step _ child _ => exact hroot _ child
    | wrapped isIf =>
      rw [← Graph.mem_findByKind] at isIf
      exact absurd isIf List.not_mem_nil
    | step _ _ _ ih => exact ih

theorem loopFunction_edges_once : ∃ b, buildCfg 9 loopFunction {} = some b ∧
    EdgesOnce loopFunction b.edges := by
  obtain ⟨b, hb, hiff⟩ := buildCfg_once_iff loopFunction loopFunction_astForest 9 (by decide)
  exact ⟨b, hb, hiff.mpr loopFunction_oneWay⟩

/-- A function whose body holds a function of two calls. -/
def nestedFunctions : Graph where
  nodes := [sampleNode 1 .functionDef, sampleNode 2 .block, sampleNode 3 .functionDef,
    sampleNode 4 .block, sampleNode 5 .call, sampleNode 6 .call]
  edges := [⟨1, 2, .astChild⟩, ⟨2, 3, .astChild⟩, ⟨3, 4, .astChild⟩, ⟨4, 5, .astChild⟩,
    ⟨4, 6, .astChild⟩]
  dense := by decide
  ends := by decide

theorem nested_function_repeats : nestedFunctions.AstForest ∧
    ∃ b, buildCfg 8 nestedFunctions {} = some b ∧ b.edges = [⟨5, 6, .cfg⟩, ⟨5, 6, .cfg⟩] ∧
      ¬ EdgesOnce nestedFunctions b.edges := by
  constructor
  · exact (Graph.preOrder_of_edges (by decide) (by decide)).astForest
  · refine ⟨⟨[⟨5, 6, .cfg⟩, ⟨5, 6, .cfg⟩],
      { functionsProcessed := 2, sequentialEdges := 2 }⟩, by decide, rfl, ?_⟩
    intro h
    exact absurd h.distinct (by decide)

end Euxis.Cpg
