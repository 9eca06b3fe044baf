import Euxis.Levels
import Euxis.Cpg.CfgVisits
import Euxis.Cpg.DdgEdges
import Euxis.Reach.Calls
import Euxis.Reach.Distance

/-!
# The two names of a function

`extract_function_name` and the `function_name` of `compute_reachable` both look for the first
identifier below a function, level by level. The first one passes over parameters and blocks, the
second one over functions and over what lies more than four levels down.
-/

namespace Euxis.Reach

open Cpg DdgWalker

/-! ## Identifiers in level order -/

/-- The nodes below a function, level by level. -/
def levelOrder (g : Graph) (fn : NodeId) : List NodeId :=
  Levels.order g.children (4 + (g.nodeCount + 2)) (g.children fn)

/-- On the way from the function down to the node there is no parameter and no block. -/
def Outside (g : Graph) (fn n : NodeId) : Prop :=
  ∀ m, Relation.TransGen g.Child fn m → Below g m n → g.hasKind m .parameter = false ∧
    g.hasKind m .block = false

/-- The node lies at most four levels down and in no function further in. -/
def Near (g : Graph) (fn n : NodeId) : Prop :=
  n ∈ Levels.order g.children 4 (g.children fn) ∧
    ∀ m, Relation.TransGen g.Child fn m → Below g m n → g.hasKind m .functionDef = false

/-- The first identifier outside parameters and blocks is near, and no near identifier stands in
front of it. -/
def NameComesFirst (g : Graph) (fn : NodeId) : Prop :=
  ∃ n, Outside g fn n ∧ Near g fn n ∧
    Levels.FirstIn (fun m => Outside g fn m ∨ Near g fn m) (identifierName g) (levelOrder g fn) n

/-- Another identifier is the first near one, and it happens to have the same name as the first one
outside parameters and blocks. -/
def SameNameFirst (g : Graph) (fn : NodeId) : Prop :=
  ∃ n m, Levels.FirstIn (Outside g fn) (identifierName g) (levelOrder g fn) n ∧
    Levels.FirstIn (Near g fn) (identifierName g) (levelOrder g fn) m ∧ n ≠ m ∧
    identifierName g n = identifierName g m

/-! ## The searches -/

section Searches

variable {g : Graph}

/-- The name that the search takes from a node is that of its first identifier child. -/
def childName (g : Graph) (n : NodeId) : Option Bytes := (g.children n).findSome? (identifierName g)

theorem leftmostName_eq (fuel : Nat) (frontier : List NodeId) :
    leftmostName g fuel frontier =
      Levels.search (fun n => (g.children n).filter (descends g)) (childName g) fuel frontier := by
  induction fuel generalizing frontier with
  | zero => rfl
  | succ fuel ih =>
    cases frontier with
    | nil => rfl
    | cons current rest =>
      rw [leftmostName, Levels.search, childName]
      cases (g.children current).findSome? (identifierName g) with
      | some name => rfl
      | none => exact ih _

/-- The functions that the second search passes over. -/
def notFunction (g : Graph) (c : NodeId) : Bool := (g.get c).any (·.kind ≠ .functionDef)

theorem functionName_eq (fuel : Nat) (queue : List (NodeId × Nat)) :
    functionName g fuel queue =
      (Levels.search (Levels.limitedBelow 3 fun n => (g.children n).filter (notFunction g))
        (Levels.limitedTest 3 (childName g)) fuel queue).map (·.getD []) := by
  induction fuel generalizing queue with
  | zero => rfl
  | succ fuel ih =>
    cases queue with
    | nil => rfl
    | cons first rest =>
      obtain ⟨id, depth⟩ := first
      rw [functionName, Levels.search]
      by_cases hdepth : 3 < depth
      · rw [if_pos hdepth, Levels.limitedTest, if_pos hdepth, Levels.limitedBelow, if_pos hdepth,
          List.append_nil]
        exact ih rest
      · rw [if_neg hdepth, Levels.limitedTest, if_neg hdepth, Levels.limitedBelow,
          if_neg hdepth, childName]
        cases (g.children id).findSome? (identifierName g) with
        | some name => rfl
        | none => exact ih _

variable (hg : g.Forest) (fn : NodeId)

include hg

theorem wayDown_child {P : NodeId → Prop} {n c : NodeId} (hn : Below g fn n) (hc : g.Child n c) :
    (∀ m, Relation.TransGen g.Child fn m → Below g m c → P m) ↔
      (∀ m, Relation.TransGen g.Child fn m → Below g m n → P m) ∧ P c := by
  constructor
  · intro h
    exact ⟨fun m hm hmn => h m hm (hmn.tail hc), h c (.tail' hn hc) .refl⟩
  · rintro ⟨h, hPc⟩ m hm hmc
    rcases Relation.ReflTransGen.cases_tail hmc with rfl | ⟨p, hmp, hpc⟩
    · exact hPc
    · obtain rfl := hg.unique p n c hpc hc
      exact h m hm hmp

open Classical in
theorem scan_eq (ok : NodeId → Bool) (hok : ∀ c, (identifierName g c).isSome = true → ok c = true)
    (depth : Nat) :
    (Levels.order (fun n => (g.children n).filter ok) depth [fn]).findSome? (childName g) =
      ((Levels.order g.children depth (g.children fn)).filter fun n =>
        decide (∀ m, Relation.TransGen g.Child fn m → Below g m n →
          ok m = true)).findSome? (identifierName g) := by
  have hself : ∀ m, Relation.TransGen g.Child fn m → Below g m fn → ok m = true := fun m hm hmn =>
    absurd (hm.trans_left hmn) (hg.acyclic fn)
  -- To go into some nodes only is to walk all levels and keep the nodes with a good way.
  have hfilter := Levels.order_filter ok
    (fun n => decide (∀ m, Relation.TransGen g.Child fn m → Below g m n → ok m = true))
    (fun n => decide (Below g fn n)) (by
      intro a ha b hb
      have ha := of_decide_eq_true ha
      have hb := (g.mem_children a b).mp hb
      refine ⟨decide_eq_true (ha.tail hb), ?_⟩
      rw [Bool.eq_iff_iff, Bool.and_eq_true, decide_eq_true_iff, decide_eq_true_iff]
      exact wayDown_child hg fn ha hb)
    depth [fn] (by
      intro a ha
      rw [List.mem_singleton.mp ha]
      exact decide_eq_true .refl)
  rw [List.filter_cons, if_pos (decide_eq_true hself), List.filter_nil] at hfilter
  rw [hfilter]
  refine (Levels.findSome?_part _ ?_).trans ?_
  · intro a ha b hb hname
    obtain ⟨c, hc, hreach⟩ := Levels.reaches_of_mem_order ha
    rw [List.mem_singleton.mp hc] at hreach
    have hbelow : Below g fn a :=
      Relation.ReflTransGen.mono (fun n m hm => (g.mem_children n m).mp hm) _ _ hreach
    rw [decide_eq_decide, wayDown_child hg fn hbelow ((g.mem_children a b).mp hb),
      and_iff_left (hok b hname)]
  · rw [Levels.order_flatMap, List.flatMap_singleton]

theorem levelOrder_mem {n : NodeId} (h : Relation.TransGen g.Child fn n) : n ∈ levelOrder g fn := by
  obtain ⟨rank, hrank, hbound⟩ := g.exists_child_rank hg
  obtain ⟨c, hc, hcn⟩ := Relation.TransGen.head'_iff.mp h
  refine Levels.mem_order rank (fun a b hb => hrank a b ((g.mem_children a b).mp hb))
    ((g.mem_children fn c).mpr hc) ?_
    (Relation.ReflTransGen.mono (fun a b hb => (g.mem_children a b).mpr hb) _ _ hcn)
  have := hbound c
  omega

omit hg in
theorem outside_iff (n : NodeId) :
    Outside g fn n ↔ ∀ m, Relation.TransGen g.Child fn m → Below g m n → descends g m = true := by
  refine forall_congr' fun m => imp_congr_right fun hm => imp_congr_right fun _ => ?_
  obtain ⟨p, -, hp⟩ := Relation.TransGen.tail'_iff.mp hm
  obtain ⟨k, hk⟩ := Graph.exists_get (g.child_valid p m hp).2
  simp [descends, hk, Graph.hasKind_of_get hk]

omit hg in
theorem near_iff (n : NodeId) :
    Near g fn n ↔ n ∈ Levels.order g.children 4 (g.children fn) ∧
      ∀ m, Relation.TransGen g.Child fn m → Below g m n → notFunction g m = true := by
  refine and_congr_right fun _ => forall_congr' fun m => imp_congr_right fun hm =>
    imp_congr_right fun _ => ?_
  obtain ⟨p, -, hp⟩ := Relation.TransGen.tail'_iff.mp hm
  obtain ⟨k, hk⟩ := Graph.exists_get (g.child_valid p m hp).2
  simp [notFunction, hk, Graph.hasKind_of_get hk]

omit hg in
theorem kind_of_named {n : NodeId} (h : (identifierName g n).isSome = true) :
    ∃ k, g.get n = some k ∧ k.kind = .identifier := by
  obtain ⟨x, hx⟩ := Option.isSome_iff_exists.mp h
  obtain ⟨k, hk, hkind, -⟩ := identifierName_eq_some n x hx
  exact ⟨k, hk, hkind⟩

open Classical in
theorem leftmostName_first {fuel : Nat} {r : Option Bytes} (h : leftmostName g fuel [fn] = some r) :
    (∃ x n, r = some x ∧ Levels.FirstIn (Outside g fn) (identifierName g) (levelOrder g fn) n ∧
      identifierName g n = some x) ∨
    (r = none ∧ ∀ n, Relation.TransGen g.Child fn n → Outside g fn n →
      identifierName g n = none) := by
  obtain ⟨rank, hrank, hbound⟩ := g.exists_child_rank hg
  have hlow := hbound fn
  have hok : ∀ c, (identifierName g c).isSome = true → descends g c = true := by
    intro c hc
    obtain ⟨k, hk, hkind⟩ := kind_of_named hc
    simp [descends, hk, hkind]
  rw [leftmostName_eq] at h
  have hr := Levels.search_eq rank
    (fun a b hb => hrank a b ((g.mem_children a b).mp (List.mem_of_mem_filter hb))) fuel
    (4 + (g.nodeCount + 2)) (by simpa using by omega) h
  rw [scan_eq hg fn (descends g) hok] at hr
  cases r with
  | some x =>
    obtain ⟨n, hfirst, hx⟩ := Levels.findSome?_filter_some hr.symm
    exact Or.inl ⟨x, n, rfl, hfirst.mono (fun m hm => decide_eq_true ((outside_iff fn m).mp hm))
      ((outside_iff fn n).mpr (of_decide_eq_true hfirst.holds)), hx⟩
  | none =>
    refine Or.inr ⟨rfl, fun n hn hout => ?_⟩
    have hnone := List.findSome?_eq_none_iff.mp hr.symm
    exact hnone n (List.mem_filter.mpr ⟨levelOrder_mem hg fn hn,
      decide_eq_true ((outside_iff fn n).mp hout)⟩)

open Classical in
/-- The second search finds the first identifier that is near, or no name. -/
theorem functionName_first {fuel : Nat} {name : Bytes}
    (h : functionName g fuel [(fn, 0)] = some name) :
    (∃ n, Levels.FirstIn (Near g fn) (identifierName g) (levelOrder g fn) n ∧
      identifierName g n = some name) ∨
      (name = [] ∧ ∀ n, Near g fn n → identifierName g n = none) := by
  obtain ⟨rank, hrank, hbound⟩ := g.exists_child_rank hg
  have hlow := hbound fn
  have hok : ∀ c, (identifierName g c).isSome = true → notFunction g c = true := by
    intro c hc
    obtain ⟨k, hk, hkind⟩ := kind_of_named hc
    simp [notFunction, hk, hkind]
  rw [functionName_eq, Option.map_eq_some_iff] at h
  obtain ⟨r, h, hname⟩ := h
  have hdown : ∀ t, ∀ u ∈ Levels.limitedBelow 3 (fun n => (g.children n).filter (notFunction g)) t,
      rank u.1 < rank t.1 := by
    intro t u hu
    unfold Levels.limitedBelow at hu
    split at hu
    · cases hu
    · obtain ⟨c, hc, rfl⟩ := List.mem_map.mp hu
      exact hrank t.1 c ((g.mem_children t.1 c).mp (List.mem_of_mem_filter hc))
  have hr := Levels.search_eq (fun t : NodeId × Nat => rank t.1) hdown fuel (4 + (g.nodeCount + 2))
    (by simpa using by omega) h
  have hlimited := Levels.order_limited 3 (fun n => (g.children n).filter (notFunction g))
    (childName g)
    (4 + (g.nodeCount + 2)) 0 [fn] (by omega)
  have hscan := (hr.trans hlimited).trans (scan_eq hg fn (notFunction g) hok 4)
  cases r with
  | none =>
    refine Or.inr ⟨hname.symm, fun n hn => ?_⟩
    obtain ⟨hmem, hway⟩ := (near_iff fn n).mp hn
    exact List.findSome?_eq_none_iff.mp hscan.symm n
      (List.mem_filter.mpr ⟨hmem, decide_eq_true hway⟩)
  | some x =>
    obtain rfl : x = name := hname
    obtain ⟨n, ⟨front, back, heq, hway, hsome, hnone⟩, hx⟩ :=
      Levels.findSome?_filter_some hscan.symm
    -- The first four levels are the beginning of the level order.
    obtain ⟨rest, hrest⟩ := Levels.order_prefix g.children 4 (g.nodeCount + 2) (g.children fn)
    have hmem : n ∈ Levels.order g.children 4 (g.children fn) := by simp [heq]
    refine Or.inl ⟨n, ⟨front, back ++ rest, ?_, (near_iff fn n).mpr ⟨hmem, of_decide_eq_true hway⟩,
      hsome, ?_⟩, hx⟩
    · rw [levelOrder, ← hrest, heq]
      simp
    · intro b hb hnear
      exact hnone b hb (decide_eq_true ((near_iff fn b).mp hnear).2)

end Searches

/-- **The two names of a function.** Both searches end. For a function with an identifier outside
parameters and blocks they find the same name exactly when that identifier comes first, or when the
one that comes first has the same name. -/
theorem functionNames_agree_iff (g : Graph) (hg : g.Forest) (ast : Parse.Ast) (fn : NodeId)
    (hname : ∃ n, Relation.TransGen g.Child fn n ∧ Outside g fn n ∧
      (identifierName g n).isSome = true) :
    ∃ bound, ∀ fuel, bound < fuel → ∃ name name', extractFunctionName fuel g ast fn = some name ∧
      functionName g fuel [(fn, 0)] = some name' ∧
      (name = name' ↔ NameComesFirst g fn ∨ SameNameFirst g fn) := by
  obtain ⟨bound, hbound⟩ := leftmostName_ends hg
  obtain ⟨bound', hbound'⟩ := functionName_ends (g := g)
  refine ⟨max bound bound', fun fuel hfuel => ?_⟩
  obtain ⟨r, hr⟩ := hbound fuel (by omega) fn
  obtain ⟨name', hname'⟩ := hbound' fuel (by omega) fn
  obtain ⟨x, n, rfl, hfirst, hx⟩ | ⟨-, hnone⟩ := leftmostName_first hg fn hr
  · refine ⟨x, name', by simp [extractFunctionName, hr], hname', ?_⟩
    have hne : x ≠ [] := by
      obtain ⟨-, -, -, -, hne⟩ := identifierName_eq_some n x hx
      exact hne
    constructor
    · rintro rfl
      obtain ⟨m, hfirst', hm⟩ | ⟨hempty, -⟩ := functionName_first hg fn hname'
      · by_cases hnm : n = m
        · subst hnm
          exact Or.inl ⟨n, hfirst.holds, hfirst'.holds, hfirst.or hfirst'⟩
        · exact Or.inr ⟨n, m, hfirst, hfirst', hnm, hx.trans hm.symm⟩
      · exact absurd hempty hne
    · intro hsame
      -- In both cases the near search comes to an identifier of that name first.
      have hboth : ∃ m, Levels.FirstIn (Near g fn) (identifierName g) (levelOrder g fn) m ∧
          identifierName g m = some x := by
        rcases hsame with ⟨k, hout, hnear, hk⟩ | ⟨k, m, hk, hm, -, heq⟩
        · obtain rfl := Levels.firstIn_unique hfirst (hk.mono (fun _ => Or.inl) hout)
          exact ⟨n, hk.mono (fun _ => Or.inr) hnear, hx⟩
        · obtain rfl := Levels.firstIn_unique hfirst hk
          exact ⟨m, hm, heq.symm.trans hx⟩
      obtain ⟨m, hm, hmx⟩ := hboth
      obtain ⟨m', hfirst', hm'⟩ | ⟨-, hnone⟩ := functionName_first hg fn hname'
      · obtain rfl := Levels.firstIn_unique hm hfirst'
        exact Option.some.inj (hmx.symm.trans hm')
      · rw [hnone m hm.holds] at hmx
        cases hmx
  · obtain ⟨n, hn, hout, hsome⟩ := hname
    rw [hnone n hn hout] at hsome
    cases hsome

/-! ### `int first(int x) { return x; }` -/

def firstGraph : Graph where
  nodes := [nodeNamed 1 .functionDef "", nodeNamed 2 .unknown "", nodeNamed 3 .unknown "",
    nodeNamed 4 .identifier "first",
    nodeNamed 5 .unknown "", nodeNamed 6 .parameter "", nodeNamed 7 .unknown "",
    nodeNamed 8 .identifier "x",
    nodeNamed 9 .block "", nodeNamed 10 .return "",
    nodeNamed 11 .identifier "x"].map fun n => { n with language := .c }
  edges := [⟨1, 2, .astChild⟩, ⟨1, 3, .astChild⟩, ⟨3, 4, .astChild⟩, ⟨3, 5, .astChild⟩,
    ⟨5, 6, .astChild⟩,
    ⟨6, 7, .astChild⟩, ⟨6, 8, .astChild⟩, ⟨1, 9, .astChild⟩, ⟨9, 10, .astChild⟩,
    ⟨10, 11, .astChild⟩]
  dense := by decide
  ends := by decide

theorem firstGraph_preOrder : firstGraph.PreOrder :=
  Graph.preOrder_of_edges (by decide) (by decide)

theorem wayDown_between {g : Graph} (hg : g.PreOrder) {fn m n : NodeId}
    (hm : Relation.TransGen g.Child fn m) (hn : Below g m n) : fn < m ∧ m < n + 1 := by
  obtain ⟨c, hc, hcm⟩ := Relation.TransGen.head'_iff.mp hm
  exact ⟨Nat.lt_of_lt_of_le (hg.increasing fn c hc) (below_le g hg c m hcm),
    Nat.lt_succ_of_le (below_le g hg m n hn)⟩

theorem firstGraph_names : ∃ bound, ∀ fuel, bound < fuel → ∃ name,
    extractFunctionName fuel firstGraph ⟨.c, [], []⟩ 1 = some name ∧
    functionName firstGraph fuel [(1, 0)] = some name := by
  have hchild : ∀ p c, c ∈ firstGraph.children p → firstGraph.Child p c :=
    fun p c => (firstGraph.mem_children p c).mp
  have hdown : Relation.TransGen firstGraph.Child 1 4 :=
    .tail (.single (hchild 1 3 (by decide))) (hchild 3 4 (by decide))
  have hout : Outside firstGraph 1 4 := by
    intro m hm hn
    obtain ⟨-, hle⟩ := wayDown_between firstGraph_preOrder hm hn
    exact (by decide : ∀ m < 5, firstGraph.hasKind m .parameter = false ∧ firstGraph.hasKind m .block = false) m hle
  have hnear : Near firstGraph 1 4 := by
    refine ⟨by decide, fun m hm hn => ?_⟩
    obtain ⟨hlt, hle⟩ := wayDown_between firstGraph_preOrder hm hn
    exact (by decide : ∀ m < 5, 1 < m → firstGraph.hasKind m .functionDef = false) m hle hlt
  have hfirst : NameComesFirst firstGraph 1 :=
    ⟨4, hout, hnear, [2, 3, 9], [5, 10, 6, 11, 7, 8], by decide, Or.inl hout, by decide,
      fun m hm _ => (by decide : ∀ m ∈ [2, 3, 9], identifierName firstGraph m = none) m hm⟩
  obtain ⟨bound, hnames⟩ :=
    functionNames_agree_iff firstGraph firstGraph_preOrder.forest ⟨.c, [], []⟩ 1
    ⟨4, hdown, hout, by decide⟩
  refine ⟨bound, fun fuel hfuel => ?_⟩
  obtain ⟨name, name', hname, hname', hiff⟩ := hnames fuel hfuel
  obtain rfl := hiff.mpr (Or.inl hfirst)
  exact ⟨name, hname, hname'⟩

/-! ### `int **rows(int **x) { return x; }` -/

def rowsGraph : Graph where
  nodes := [nodeNamed 1 .functionDef "", nodeNamed 2 .unknown "", nodeNamed 3 .unknown "",
    nodeNamed 4 .unknown "",
    nodeNamed 5 .unknown "", nodeNamed 6 .identifier "rows", nodeNamed 7 .unknown "",
    nodeNamed 8 .parameter "",
    nodeNamed 9 .unknown "", nodeNamed 10 .unknown "", nodeNamed 11 .unknown "",
    nodeNamed 12 .identifier "x",
    nodeNamed 13 .block "", nodeNamed 14 .return "",
    nodeNamed 15 .identifier "x"].map fun n => { n with language := .c }
  edges := [⟨1, 2, .astChild⟩, ⟨1, 3, .astChild⟩, ⟨3, 4, .astChild⟩, ⟨4, 5, .astChild⟩,
    ⟨5, 6, .astChild⟩,
    ⟨5, 7, .astChild⟩, ⟨7, 8, .astChild⟩, ⟨8, 9, .astChild⟩, ⟨8, 10, .astChild⟩,
    ⟨10, 11, .astChild⟩,
    ⟨11, 12, .astChild⟩, ⟨1, 13, .astChild⟩, ⟨13, 14, .astChild⟩, ⟨14, 15, .astChild⟩]
  dense := by decide
  ends := by decide

theorem rowsGraph_preOrder : rowsGraph.PreOrder :=
  Graph.preOrder_of_edges (by decide) (by decide)

theorem rowsGraph_names_differ : rowsGraph.Forest ∧
    (∃ n, Relation.TransGen rowsGraph.Child 1 n ∧ Outside rowsGraph 1 n ∧
      (identifierName rowsGraph n).isSome = true) ∧
    extractFunctionName 20 rowsGraph ⟨.c, [], []⟩ 1 = some (ascii "rows") ∧
    functionName rowsGraph 20 [(1, 0)] = some (ascii "x") := by
  -- The identifier in the body lies higher up than the name.
  have hchild : ∀ p c, c ∈ rowsGraph.children p → rowsGraph.Child p c :=
    fun p c => (rowsGraph.mem_children p c).mp
  refine ⟨rowsGraph_preOrder.forest, ⟨6, ?_, ?_, by decide⟩, by decide, by decide⟩
  · exact .tail (.tail (.tail (.single (hchild 1 3 (by decide))) (hchild 3 4 (by decide)))
      (hchild 4 5 (by decide)))
      (hchild 5 6 (by decide))
  · intro m hm hn
    obtain ⟨-, hle⟩ := wayDown_between rowsGraph_preOrder hm hn
    exact (by decide : ∀ m < 7, rowsGraph.hasKind m .parameter = false ∧ rowsGraph.hasKind m .block = false) m hle

end Euxis.Reach
