import Euxis.Breadth
import Euxis.Reach.Calls

/-!
# Reachable functions and call distance

What `compute_reachable` returns, as a set: the functions within the depth limit of the entries.
-/

namespace Euxis.Reach

open Cpg

variable {g : Graph} {config : ReachabilityConfig}

/-! ## Entries -/

/-- No function stands above the function. -/
def TopLevel (g : Graph) (fn : NodeId) : Prop :=
  ∀ a, Relation.TransGen (fun n p => g.up n = some p) fn a → isFunction g a = false

/-- The name that the search below the function finds is one of the configured names. -/
def NamedEntry (g : Graph) (config : ReachabilityConfig) (fn : NodeId) : Prop :=
  ∃ fuel name, functionName g fuel [(fn, 0)] = some name ∧ name ≠ [] ∧
    name ∈ config.entryFunctionNames

/-- The functions that the configuration selects as entries. -/
def Selected (g : Graph) (config : ReachabilityConfig) (fn : NodeId) : Prop :=
  fn ∈ g.findByKind .functionDef ∧
    ((config.topLevelFunctionsAreEntries = true ∧ TopLevel g fn) ∨ NamedEntry g config fn)

theorem transGen_stepUp (n a : NodeId) (h : Relation.TransGen (fun n p => g.up n = some p) n a) :
    Relation.ReflTransGen (fun n p => stepUp g n = some p) n a := by
  have hstep : ∀ x y, g.up x = some y → y = x ∨ stepUp g x = some y := by
    intro x y hup
    unfold Graph.up at hup
    unfold stepUp
    split at hup
    · cases hup
    · rename_i hne
      obtain rfl := Option.some.inj hup
      by_cases hself : g.parent x = x
      · exact Or.inl hself
      · right
        rw [if_neg (not_or.mpr ⟨hne, hself⟩)]
  induction h using Relation.TransGen.head_induction_on with
  | single hup =>
    rcases hstep _ _ hup with heq | hs
    · rw [heq]
    · exact .single hs
  | head hup _ ih =>
    rcases hstep _ _ hup with heq | hs
    · rw [heq] at ih
      exact ih
    · exact .head hs ih

theorem functionAbove_none_iff (n : NodeId) (hn : isFunction g n = false) (r : Option NodeId)
    (h : functionAbove g n = some r) : r = none ↔ TopLevel g n := by
  have hdecides := Search.climb_some (stepUp g) _ _ n r h
  have hexists := Search.exists_decides_iff (stepUp g) (fun m => if isFunction g m then some m
    else none) n
  have hnone : r = none ↔ ¬ ∃ b, Search.Decides (stepUp g) (fun m => if isFunction g m then some m
      else none) n b := by
    rw [Option.eq_none_iff_forall_ne_some, not_exists]
    exact forall_congr' fun b => not_congr (hdecides b)
  rw [hnone, hexists]
  constructor
  · intro habove a ha
    by_contra hfn
    rw [Bool.not_eq_false] at hfn
    rcases Relation.reflTransGen_iff_eq_or_transGen.mp (transGen_stepUp n a ha) with rfl | htrans
    · rw [hn] at hfn
      cases hfn
    · exact habove ⟨a, htrans, by rw [hfn]; rfl⟩
  · rintro htop ⟨a, htrans, ha⟩
    have hfn := htop a (Relation.TransGen.mono (fun x y hxy => up_of_stepUp x y hxy) n a htrans)
    rw [hfn] at ha
    cases ha

theorem isTopLevelFunction_iff (fn : NodeId) (b : Bool) (h : isTopLevelFunction g fn = some b) :
    b = true ↔ TopLevel g fn := by
  unfold isTopLevelFunction at h
  split at h
  · rename_i hroot
    obtain rfl := Option.some.inj h
    simp only [true_iff]
    intro a ha
    obtain ⟨p, hup, -⟩ := Relation.TransGen.head'_iff.mp ha
    simp [Graph.up, hroot] at hup
  · rename_i hroot
    have hup : g.up fn = some (g.parent fn) := by
      unfold Graph.up
      rw [if_neg hroot]
    split at h
    · rename_i hfn
      obtain rfl := Option.some.inj h
      simp only [Bool.false_eq_true, false_iff]
      intro htop
      rw [htop (g.parent fn) (.single hup)] at hfn
      cases hfn
    · rename_i hfn
      rw [Bool.not_eq_true] at hfn
      obtain ⟨r, hr, rfl⟩ := Option.map_eq_some_iff.mp h
      rw [Option.isNone_iff_eq_none, functionAbove_none_iff (g.parent fn) hfn r hr]
      constructor
      · intro htop a ha
        obtain ⟨p, hp, hrest⟩ := Relation.TransGen.head'_iff.mp ha
        obtain rfl := Option.some.inj (hup.symm.trans hp)
        -- The code asks for the parent first and climbs from there.
        rcases Relation.reflTransGen_iff_eq_or_transGen.mp hrest with rfl | htrans
        · exact hfn
        · exact htop a htrans
      · intro htop a ha
        exact htop a (.head hup ha)

theorem functionName_add (fuel more : Nat) (queue : List (NodeId × Nat)) (name : Bytes)
    (h : functionName g fuel queue = some name) :
    functionName g (fuel + more) queue = some name := by
  induction fuel generalizing queue with
  | zero => cases h
  | succ fuel ih =>
    rw [Nat.succ_add]
    unfold functionName at h ⊢
    cases queue with
    | nil => exact h
    | cons first rest =>
      obtain ⟨id, depth⟩ := first
      simp only at h ⊢
      split at h
      · rename_i hdeep
        rw [if_pos hdeep]
        exact ih rest h
      · rename_i hdeep
        rw [if_neg hdeep]
        split at h
        · exact h
        · exact ih _ h

theorem functionName_unique (fuel fuel' : Nat) (queue : List (NodeId × Nat)) (name name' : Bytes)
    (h : functionName g fuel queue = some name) (h' : functionName g fuel' queue = some name') :
    name = name' := by
  have h₁ := functionName_add fuel fuel' queue name h
  have h₂ := functionName_add fuel' fuel queue name' h'
  rw [Nat.add_comm fuel' fuel, h₁] at h₂
  exact Option.some.inj h₂

theorem isEntry_iff (fuel : Nat) (fn : NodeId) (b : Bool) (h : isEntry fuel g config fn = some b) :
    b = true ↔ (config.topLevelFunctionsAreEntries = true ∧ TopLevel g fn) ∨
      NamedEntry g config fn := by
  unfold isEntry at h
  rw [Option.bind_eq_bind, Option.bind_eq_some_iff] at h
  obtain ⟨top, htop, h⟩ := h
  -- The names are looked at only where the position does not already make an entry.
  have hposition : top = true ↔ config.topLevelFunctionsAreEntries = true ∧ TopLevel g fn := by
    unfold isEntryByPosition at htop
    split at htop
    · rename_i hflag
      rw [isTopLevelFunction_iff fn top htop]
      simp [hflag]
    · rename_i hflag
      obtain rfl := Option.some.inj htop
      simp [hflag]
  rw [← hposition]
  split at h
  · rename_i hentry
    obtain rfl := Option.some.inj h
    simp [hentry]
  · rename_i hentry
    split at h
    · rename_i hnames
      obtain rfl := Option.some.inj h
      simp [hentry, NamedEntry, hnames]
    · rw [Option.bind_eq_bind, Option.bind_eq_some_iff] at h
      obtain ⟨name, hname, h⟩ := h
      obtain rfl := Option.some.inj h
      simp only [hentry, Bool.false_eq_true, false_or, decide_eq_true_eq]
      constructor
      · rintro ⟨hne, hmem⟩
        exact ⟨fuel, name, hname, hne, hmem⟩
      · rintro ⟨fuel', name', hname', hne, hmem⟩
        obtain rfl := functionName_unique fuel fuel' _ _ _ hname hname'
        exact ⟨hne, hmem⟩

theorem mem_entryFunctions (fuel : Nat) (entries : List NodeId)
    (h : entryFunctions fuel g config (g.findByKind .functionDef) = some entries) (fn : NodeId) :
    fn ∈ entries ↔ Selected g config fn := by
  have hall := Search.foldlM_gathers (fun (entries : List NodeId) fn => fn ∈ entries)
    (fun a fn => fn = a ∧ ((config.topLevelFunctionsAreEntries = true ∧ TopLevel g fn) ∨
      NamedEntry g config fn)) _ _ ?_ []
    entries h fn
  · rw [hall]
    simp only [List.not_mem_nil, false_or, Selected]
    constructor
    · rintro ⟨a, ha, rfl, hselected⟩
      exact ⟨ha, hselected⟩
    · rintro ⟨ha, hselected⟩
      exact ⟨fn, ha, rfl, hselected⟩
  · intro before a after hstep fn
    rw [Option.bind_eq_bind, Option.bind_eq_some_iff] at hstep
    obtain ⟨entry, hentry, hstep⟩ := hstep
    obtain rfl := Option.some.inj hstep
    have hiff := isEntry_iff fuel a entry hentry
    split
    · rename_i htrue
      rw [List.mem_append, List.mem_singleton]
      constructor
      · rintro (hold | rfl)
        · exact Or.inl hold
        · exact Or.inr ⟨rfl, hiff.mp htrue⟩
      · rintro (hold | ⟨rfl, -⟩)
        · exact Or.inl hold
        · exact Or.inr rfl
    · rename_i hfalse
      constructor
      · exact Or.inl
      · rintro (hold | ⟨rfl, hselected⟩)
        · exact hold
        · exact absurd (hiff.mpr hselected) hfalse

/-! ## The search -/

/-- `n` calls lead from one function to another. -/
inductive Calls (edges : List CallEdge) : Nat → NodeId → NodeId → Prop
  | refl (a : NodeId) : Calls edges 0 a a
  | tail (n : Nat) (a b c : NodeId) (h : Calls edges n a b) (he : ⟨b, c⟩ ∈ edges) :
      Calls edges (n + 1) a c

/-- Where the search starts: the entries of the configuration, and what is called at file scope. -/
def Root (g : Graph) (edges : List CallEdge) (config : ReachabilityConfig) (fn : NodeId) : Prop :=
  Selected g config fn ∨ ⟨kNullNode, fn⟩ ∈ edges

/-- The call distance from the roots is within the limit. -/
def WithinDepth (g : Graph) (edges : List CallEdge) (config : ReachabilityConfig) (fn : NodeId) :
    Prop :=
  ∃ root n, Root g edges config root ∧ Calls edges n root fn ∧
    (config.maxDepth = 0 ∨ n ≤ config.maxDepth)

def expand (config : ReachabilityConfig) (depth : Nat) : Bool :=
  ¬ (0 < config.maxDepth ∧ config.maxDepth ≤ depth)

theorem expand_mono (m n : Nat) (h : m ≤ n) (hn : expand config n = true) :
    expand config m = true := by
  simp only [expand, decide_eq_true_eq] at hn ⊢
  omega

theorem callSuccessors_eq (edges : List CallEdge) :
    callSuccessors edges config = Breadth.next (callees edges) (expand config) := by
  funext t
  simp only [callSuccessors, Breadth.next, expand, decide_eq_true_eq, ite_not]

theorem mem_calleesOf (edges : List CallEdge) (a b : NodeId) :
    b ∈ callees edges a ↔ ⟨a, b⟩ ∈ edges := by
  simp only [callees, List.mem_map, List.mem_filter, decide_eq_true_eq]
  constructor
  · rintro ⟨⟨caller, callee⟩, ⟨he, rfl⟩, rfl⟩
    exact he
  · intro he
    exact ⟨⟨a, b⟩, ⟨he, rfl⟩, rfl⟩

theorem atDepth_iff (edges : List CallEdge) (roots : List NodeId) (n : Nat) (fn : NodeId) :
    Breadth.AtDepth (callees edges) (expand config) roots n fn ↔
      (∃ root ∈ roots, Calls edges n root fn) ∧ (config.maxDepth = 0 ∨ n ≤ config.maxDepth) := by
  constructor
  · intro h
    induction h with
    | root a ha => exact ⟨⟨a, ha, .refl a⟩, Or.inr (Nat.zero_le _)⟩
    | step n a b _ hexpand hb ih =>
      obtain ⟨⟨root, hroot, hcalls⟩, -⟩ := ih
      refine ⟨⟨root, hroot, .tail n root a b hcalls ((mem_calleesOf edges a b).mp hb)⟩, ?_⟩
      simp only [expand, decide_eq_true_eq] at hexpand
      omega
  · rintro ⟨⟨root, hroot, hcalls⟩, hle⟩
    induction hcalls with
    | refl a => exact .root a hroot
    | tail n a b c _ he ih =>
      refine .step n b c (ih (by omega) hroot) ?_ ((mem_calleesOf edges b c).mpr he)
      simp only [expand, decide_eq_true_eq]
      omega

theorem reachLoop_visited (edges : List CallEdge) (roots : List NodeId) (fuel : Nat)
    (popped : List (NodeId × Nat)) (work : Search.Work (NodeId × Nat) NodeId)
    (visited : List NodeId) (hinv : Breadth.Inv (callees edges) (expand config) roots popped work)
    (h : reachLoop edges config fuel work = some visited) (fn : NodeId) :
    fn ∈ visited ↔ ∃ n, Breadth.AtDepth (callees edges) (expand config) roots n fn := by
  induction fuel generalizing popped work with
  | zero => cases h
  | succ fuel ih =>
    obtain ⟨frontier, seen⟩ := work
    unfold reachLoop at h
    cases frontier with
    | nil =>
      obtain rfl := Option.some.inj h
      exact hinv.visited_iff expand_mono fn
    | cons t rest =>
      simp only [callSuccessors_eq] at h
      exact ih (popped ++ [t]) _ hinv.advance h

/-! ## The whole function -/

theorem computeReachable_visited (fuel : Nat) (edges : List CallEdge)
    (hcallees : ∀ e ∈ edges, e.callee ∈ g.findByKind .functionDef) (out : ReachabilityResult)
    (h : computeReachable fuel g edges config = some out) (fn : NodeId) :
    fn ∈ out.reachableFunctions ↔ WithinDepth g edges config fn := by
  unfold computeReachable at h
  simp only at h
  split at h
  · rename_i hempty
    obtain rfl := Option.some.inj h
    have hnone : g.findByKind .functionDef = [] := by
      rcases hempty with hzero | hnone
      · have hnodes : g.nodes = [] := List.length_eq_zero_iff.mp hzero
        simp [Graph.findByKind, hnodes]
      · exact hnone
    rw [hnone] at hcallees
    simp only [List.not_mem_nil, false_iff]
    -- Without functions there is no root: an entry is one, and so is every callee.
    rintro ⟨root, n, hroot | hroot, -⟩
    · have hmem := hroot.1
      rw [hnone] at hmem
      cases hmem
    · cases hcallees _ hroot
  · rw [Option.bind_eq_bind, Option.bind_eq_some_iff] at h
    obtain ⟨entries, hentries, h⟩ := h
    rw [Option.bind_eq_some_iff] at h
    obtain ⟨visited, hvisited, h⟩ := h
    obtain rfl := Option.some.inj h
    have hroots : ∀ root, root ∈ entries ++ callees edges kNullNode ↔ Root g edges config root := by
      intro root
      rw [List.mem_append, mem_entryFunctions fuel entries hentries, mem_calleesOf]
      rfl
    rw [reachLoop_visited edges (entries ++ callees edges kNullNode) fuel [] _ visited
      Breadth.Inv.start hvisited]
    constructor
    · rintro ⟨n, hn⟩
      obtain ⟨⟨root, hroot, hcalls⟩, hle⟩ := (atDepth_iff edges _ n fn).mp hn
      exact ⟨root, n, (hroots root).mp hroot, hcalls, hle⟩
    · rintro ⟨root, n, hroot, hcalls, hle⟩
      exact ⟨n, (atDepth_iff edges _ n fn).mpr ⟨⟨root, (hroots root).mpr hroot, hcalls⟩, hle⟩⟩

/-! ## The search ends -/

theorem functionName_ends :
    ∃ bound, ∀ fuel, bound < fuel → ∀ fn, ∃ name, functionName g fuel [(fn, 0)] = some name := by
  -- The depth bounds the search, so a cycle in the edges does no harm.
  have hloop : ∀ fuel queue, Search.weight (fun t : NodeId × Nat => 4 - t.2) g.edges.length queue <
      fuel → ∃ name, functionName g fuel queue = some name := by
    intro fuel
    induction fuel with
    | zero => intro queue h; omega
    | succ fuel ih =>
      intro queue hfuel
      unfold functionName
      cases queue with
      | nil => exact ⟨_, rfl⟩
      | cons first rest =>
        obtain ⟨id, depth⟩ := first
        simp only
        split
        · apply ih
          have hlt := Search.weight_lt (fun t : NodeId × Nat => 4 - t.2) g.edges.length (id,
            depth) rest [] (by simp) (by simp)
          rw [List.append_nil] at hlt
          omega
        · rename_i hdepth
          split
          · exact ⟨_, rfl⟩
          · apply ih
            have hlt := Search.weight_lt (fun t : NodeId × Nat => 4 - t.2) g.edges.length (id,
              depth) rest
              (((g.children id).filter fun c => (g.get c).any (·.kind ≠ .functionDef)).map fun c =>
                (c, depth + 1))
              (by
                rw [List.length_map]
                exact (List.length_filter_le _ _).trans (g.children_length id))
              (by
                intro u hu
                obtain ⟨c, -, rfl⟩ := List.mem_map.mp hu
                simp only
                omega)
            omega
  refine ⟨(g.edges.length + 1) ^ 4, ?_⟩
  intro fuel hfuel fn
  apply hloop
  simpa [Search.weight] using hfuel

/-- The entries are selected: no way up from a function runs in a circle. -/
def SelectionEnds (g : Graph) (config : ReachabilityConfig) : Prop :=
  config.topLevelFunctionsAreEntries = true → ∀ fn ∈ g.findByKind .functionDef, ∃ b,
    isTopLevelFunction g fn = some b

theorem entryFunctions_ends (hends : SelectionEnds g config) :
    ∃ bound, ∀ fuel, bound < fuel →
      ∃ entries, entryFunctions fuel g config (g.findByKind .functionDef) = some entries := by
  obtain ⟨bound, hbound⟩ := functionName_ends (g := g)
  refine ⟨bound, ?_⟩
  intro fuel hfuel
  apply Search.foldlM_returns
  intro entries fn hfn
  obtain ⟨top, htop⟩ : ∃ top, isEntryByPosition g config fn = some top := by
    unfold isEntryByPosition
    split
    · rename_i hflag
      exact hends hflag fn hfn
    · exact ⟨_, rfl⟩
  obtain ⟨name, hname⟩ := hbound fuel hfuel fn
  obtain ⟨entry, hentry⟩ : ∃ entry, isEntry fuel g config fn = some entry := by
    unfold isEntry
    rw [htop]
    simp only [Option.bind_eq_bind, Option.bind_some, hname]
    split
    · exact ⟨_, rfl⟩
    · split
      · exact ⟨_, rfl⟩
      · exact ⟨_, rfl⟩
  rw [hentry]
  exact ⟨_, rfl⟩

theorem computeReachable_ends (edges : List CallEdge) (hends : SelectionEnds g config) :
    ∃ bound, ∀ fuel, bound < fuel → ∃ out, computeReachable fuel g edges config = some out := by
  obtain ⟨bound, hbound⟩ := entryFunctions_ends hends
  let nodes := g.findByKind .functionDef ++ edges.map (·.callee)
  have hedges : ∀ e ∈ edges, e.callee ∈ nodes :=
    fun e he => List.mem_append_right _ (List.mem_map_of_mem he)
  refine ⟨bound + nodes.length, ?_⟩
  intro fuel hfuel
  obtain ⟨entries, hentries⟩ := hbound fuel (by omega)
  unfold computeReachable
  simp only
  split
  · exact ⟨_, rfl⟩
  · rw [hentries]
    simp only [Option.bind_eq_bind, Option.bind_some]
    have hroots : ∀ t ∈ (entries ++ callees edges kNullNode).map (fun fn => (fn, 0)),
        t.1 ∈ nodes := by
      intro t ht
      obtain ⟨fn, hfn, rfl⟩ := List.mem_map.mp ht
      rcases List.mem_append.mp hfn with hfn | hfn
      · exact List.mem_append_left _ ((mem_entryFunctions fuel entries hentries fn).mp hfn).1
      · exact hedges _ ((mem_calleesOf edges kNullNode fn).mp hfn)
    -- A push takes a node from the unseen ones, so the work only shrinks.
    have hmeasure := Search.foldl_measure Prod.fst nodes { frontier := [], visited := [] } _ hroots
    have hunseen : Search.unseen nodes [] ≤ nodes.length := List.length_filter_le _ _
    obtain ⟨r, hr⟩ := reachLoop_returns edges config nodes hedges fuel _
      (Nat.lt_of_le_of_lt hmeasure (by
      simp only [List.length_nil]
      omega))
    rw [hr]
    exact ⟨_, rfl⟩

/-- For every call graph that is returned for a graph: what the search returns are the functions
within the depth limit of the roots, and it returns as soon as the entries are selected, which they
are on every forest. -/
theorem computeReachable_exact (g : Graph) (ast : Parse.Ast) (config : ReachabilityConfig)
    (fuel : Nat) (cg : CallGraphResult) (hcg : buildCallGraph fuel g ast = some cg) :
    (∀ fuel out, computeReachable fuel g cg.edges config = some out →
      ∀ fn, fn ∈ out.reachableFunctions ↔ WithinDepth g cg.edges config fn) ∧
    (SelectionEnds g config → ∃ bound, ∀ fuel, bound < fuel →
      ∃ out, computeReachable fuel g cg.edges config = some out) ∧
    (g.Forest → SelectionEnds g config) := by
  refine ⟨?_, computeReachable_ends cg.edges, ?_⟩
  · intro fuel' out h fn
    apply computeReachable_visited fuel' cg.edges ?_ out h fn
    intro e he
    obtain ⟨name, hname, -⟩ := callee_hasName cg hcg e he
    exact hname.1
  · intro hg _ fn _
    exact isTopLevelFunction_returns hg fn

/-- Two functions that call each other, and a call of the first at file scope. -/
def pairAst : Parse.Ast :=
  { language := .python, source := ascii "def aa(): bb()\ndef bb(): aa()\naa()\n",
    namedNodes := [] }

def pairGraph : Graph where
  nodes := [spanNode 1 .translationUnit [] 0 35, spanNode 2 .functionDef [] 0 14,
    spanNode 3 .identifier (ascii "aa") 4 6,
    spanNode 4 .call [] 10 14, spanNode 5 .functionDef [] 15 29,
    spanNode 6 .identifier (ascii "bb") 19 21,
    spanNode 7 .call [] 25 29, spanNode 8 .call [] 30 34]
  edges := [⟨1, 2, .astChild⟩, ⟨2, 3, .astChild⟩, ⟨2, 4, .astChild⟩, ⟨1, 5, .astChild⟩,
    ⟨5, 6, .astChild⟩, ⟨5, 7, .astChild⟩, ⟨1, 8, .astChild⟩]
  dense := by decide
  ends := by decide

theorem pairGraph_reachable : ∃ cg out, buildCallGraph 9 pairGraph pairAst = some cg ∧
    cg.edges = [⟨2, 5⟩, ⟨5, 2⟩, ⟨0, 2⟩] ∧
    computeReachable 9 pairGraph cg.edges { topLevelFunctionsAreEntries := false } = some out ∧
    (5 ∈ out.reachableFunctions ↔
      WithinDepth pairGraph cg.edges { topLevelFunctionsAreEntries := false } 5) := by
  obtain ⟨cg, hcg, hedges⟩ :
      ∃ cg, buildCallGraph 9 pairGraph pairAst = some cg ∧ cg.edges = [⟨2, 5⟩, ⟨5, 2⟩, ⟨0, 2⟩] :=
    ⟨_, rfl, rfl⟩
  obtain ⟨out, hout⟩ :
      ∃ out, computeReachable 9 pairGraph cg.edges { topLevelFunctionsAreEntries := false } =
        some out := by
    rw [hedges]
    exact ⟨_, rfl⟩
  exact ⟨cg, out, hcg, hedges, hout,
    (computeReachable_exact pairGraph pairAst _ 9 cg hcg).1 9 out hout 5⟩

end Euxis.Reach
