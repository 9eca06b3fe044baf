import Euxis.Reach.Code

/-!
# The loops of the reachability analysis end
-/

namespace Euxis.Reach

open Cpg

variable {g : Graph}

/-! ## The search for a name -/

/-- The nodes that left the queue and those in it. None comes twice: each was put there by its only
parent. -/
structure Traversal (g : Graph) (root : NodeId) (popped frontier : List NodeId) : Prop where
  nodup : (popped ++ frontier).Nodup
  below : ∀ n ∈ popped ++ frontier, root ≤ n ∧ n ≤ g.nodeCount
  origin : ∀ n ∈ popped ++ frontier, n = root ∨ ∃ p ∈ popped, g.Child p n

theorem traversal_step (hg : g.PreOrder) (root current : NodeId) (popped rest : List NodeId)
    (p : NodeId → Bool) (h : Traversal g root popped (current :: rest)) :
    Traversal g root (popped ++ [current]) (rest ++ (g.children current).filter p) := by
  have hsplit : popped ++ [current] ++ (rest ++ (g.children current).filter p) =
      (popped ++ current :: rest) ++ (g.children current).filter p := by
    simp
  have hcurrent : current ∈ popped ++ current :: rest := by simp
  have hnew : ∀ n ∈ (g.children current).filter p, g.Child current n := fun n hn =>
    (g.mem_children current n).mp (List.mem_of_mem_filter hn)
  constructor
  · rw [hsplit]
    apply List.Nodup.append h.nodup ((hg.children_nodup current).filter p)
    intro n hn hc
    -- A node that was there already came from another parent, and it has only one.
    rcases h.origin n hn with rfl | ⟨q, hq, hchild⟩
    · exact absurd (h.below current hcurrent).1 (Nat.not_le_of_lt (hg.increasing _ _ (hnew n hc)))
    · obtain rfl := hg.unique q current n hchild (hnew n hc)
      exact (List.nodup_append.mp h.nodup).2.2 q hq q List.mem_cons_self rfl
  · rw [hsplit]
    intro n hn
    rcases List.mem_append.mp hn with hn | hn
    · exact h.below n hn
    · exact ⟨(h.below current hcurrent).1.trans (Nat.le_of_lt (hg.increasing _ _ (hnew n hn))),
        (g.child_valid _ _ (hnew n hn)).2.2⟩
  · rw [hsplit]
    intro n hn
    rcases List.mem_append.mp hn with hn | hn
    · rcases h.origin n hn with hr | ⟨q, hq, hchild⟩
      · exact Or.inl hr
      · exact Or.inr ⟨q, List.mem_append_left _ hq, hchild⟩
    · exact Or.inr ⟨current, by simp, hnew n hn⟩

theorem traversal_length (root : NodeId) (popped frontier : List NodeId)
    (h : Traversal g root popped frontier) : popped.length ≤ g.nodeCount + 1 := by
  have hsub : popped ++ frontier ⊆ List.range (g.nodeCount + 1) := by
    intro n hn
    rw [List.mem_range]
    exact Nat.lt_succ_of_le (h.below n hn).2
  have hlen := (List.subperm_of_subset h.nodup hsub).length_le
  rw [List.length_append, List.length_range] at hlen
  omega

theorem leftmostName_returns (hg : g.PreOrder) (root : NodeId) (fuel : Nat)
    (popped frontier : List NodeId) (h : Traversal g root popped frontier)
    (hfuel : g.nodeCount + 1 < popped.length + fuel) :
    ∃ r, leftmostName g fuel frontier = some r := by
  induction fuel generalizing popped frontier with
  | zero =>
    have := traversal_length root popped frontier h
    omega
  | succ fuel ih =>
    unfold leftmostName
    cases frontier with
    | nil => exact ⟨none, rfl⟩
    | cons current rest =>
      simp only
      split
      · exact ⟨_, rfl⟩
      · apply ih (popped ++ [current]) _ (traversal_step hg root current popped rest _ h)
        rw [List.length_append, List.length_singleton]
        omega

theorem extractFunctionName_returns (hg : g.PreOrder) (ast : Parse.Ast) (fn : NodeId)
    (hfn : fn ≤ g.nodeCount) (fuel : Nat) (hfuel : g.nodeCount + 1 < fuel) :
    ∃ name, extractFunctionName fuel g ast fn = some name := by
  have hstart : Traversal g fn [] [fn] := by
    refine ⟨by simp, ?_, ?_⟩
    · intro n hn
      rw [List.nil_append, List.mem_singleton] at hn
      subst hn
      exact ⟨Nat.le_refl _, hfn⟩
    · intro n hn
      exact Or.inl (List.mem_singleton.mp hn)
  obtain ⟨r, hr⟩ := leftmostName_returns hg fn fuel [] [fn] hstart (by simpa using hfuel)
  unfold extractFunctionName
  rw [hr]
  cases r with
  | none => exact ⟨_, rfl⟩
  | some name => exact ⟨name, rfl⟩

/-! ## Enclosing functions -/

theorem up_of_stepUp (n p : NodeId) (h : stepUp g n = some p) : g.up n = some p := by
  unfold stepUp at h
  unfold Graph.up
  split at h
  · cases h
  · rename_i hne
    rw [not_or] at hne
    rw [if_neg hne.1]
    exact h

theorem functionAbove_returns (hg : g.Forest) (n : NodeId) : ∃ r, functionAbove g n = some r := by
  obtain ⟨rank, hrank, hle⟩ := g.exists_climb_rank hg
  apply Search.climb_returns (stepUp g) _ rank
  · intro c p hup
    exact hrank c p (up_of_stepUp c p hup)
  · exact Nat.lt_succ_of_le (hle n)

theorem enclosingFunction_returns (hg : g.Forest) (n : NodeId) :
    ∃ fn, enclosingFunction g n = some fn := by
  unfold enclosingFunction
  split
  · exact ⟨_, rfl⟩
  · split
    · exact ⟨_, rfl⟩
    · obtain ⟨r, hr⟩ := functionAbove_returns hg n
      rw [hr]
      exact ⟨_, rfl⟩

theorem isTopLevelFunction_returns (hg : g.Forest) (fn : NodeId) :
    ∃ b, isTopLevelFunction g fn = some b := by
  unfold isTopLevelFunction
  split
  · exact ⟨_, rfl⟩
  · split
    · exact ⟨_, rfl⟩
    · obtain ⟨r, hr⟩ := functionAbove_returns hg (g.parent fn)
      rw [hr]
      exact ⟨_, rfl⟩

/-! ## Call graph -/

theorem findByKind_le (kind : NodeKind) (id : NodeId) (h : id ∈ g.findByKind kind) :
    id ≤ g.nodeCount := by
  unfold Graph.findByKind at h
  rw [List.mem_map] at h
  obtain ⟨n, hn, rfl⟩ := h
  obtain ⟨i, hi, rfl⟩ := List.mem_iff_getElem.mp (List.mem_of_mem_filter hn)
  rw [g.dense i hi]
  exact hi

theorem functionsByName_returns (hg : g.PreOrder) (ast : Parse.Ast) (fuel : Nat)
    (hfuel : g.nodeCount + 1 < fuel) :
    ∃ byName, functionsByName fuel g ast = some byName ∧ ∀ e ∈ byName, e.2 ≤ g.nodeCount := by
  unfold functionsByName
  apply Search.foldlM_keeps (fun byName : List (Bytes × NodeId) => ∀ e ∈ byName, e.2 ≤ g.nodeCount)
  · intro byName fn hfn hkeep
    have hle := findByKind_le .functionDef fn hfn
    obtain ⟨name, hname⟩ := extractFunctionName_returns hg ast fn hle fuel hfuel
    rw [hname]
    refine ⟨_, rfl, ?_⟩
    split
    · exact hkeep
    · intro e he
      rcases List.mem_append.mp he with he | he
      · exact hkeep e he
      · rw [List.mem_singleton.mp he]
        exact hle
  · simp

theorem addCall_returns (hg : g.PreOrder) (ast : Parse.Ast) (byName : List (Bytes × NodeId))
    (hbyName : ∀ e ∈ byName, e.2 ≤ g.nodeCount) (result : CallGraphResult) (call : NodeId)
    (hkeep : ∀ e ∈ result.edges, e.callee ≤ g.nodeCount) :
    ∃ result', addCall g ast byName result call = some result' ∧ ∀ e ∈ result'.edges,
      e.callee ≤ g.nodeCount := by
  unfold addCall
  split
  · exact ⟨result, rfl, hkeep⟩
  · simp only
    split
    · exact ⟨_, rfl, hkeep⟩
    · obtain ⟨caller, hcaller⟩ := enclosingFunction_returns hg.forest call
      rw [hcaller]
      refine ⟨_, rfl, ?_⟩
      intro e he
      rcases List.mem_append.mp he with he | he
      · exact hkeep e he
      · rw [List.mem_map] at he
        obtain ⟨callee, hcallee, rfl⟩ := he
        rw [List.mem_map] at hcallee
        obtain ⟨entry, hentry, rfl⟩ := hcallee
        exact hbyName entry (List.mem_of_mem_filter hentry)

theorem buildCallGraph_returns (hg : g.PreOrder) (ast : Parse.Ast) (fuel : Nat)
    (hfuel : g.nodeCount + 1 < fuel) :
    ∃ result, buildCallGraph fuel g ast = some result ∧ ∀ e ∈ result.edges,
      e.callee ≤ g.nodeCount := by
  obtain ⟨byName, hbyName, hle⟩ := functionsByName_returns hg ast fuel hfuel
  unfold buildCallGraph
  rw [hbyName]
  simp only [Option.bind_eq_bind, Option.bind_some]
  apply Search.foldlM_keeps (fun result : CallGraphResult => ∀ e ∈ result.edges,
    e.callee ≤ g.nodeCount)
  · intro result call _ hkeep
    exact addCall_returns hg ast byName hle result call hkeep
  · nofun

/-! ## Reachable functions -/

theorem reachLoop_returns (edges : List CallEdge) (config : ReachabilityConfig)
    (nodes : List NodeId) (hedges : ∀ e ∈ edges, e.callee ∈ nodes) (fuel : Nat)
    (work : Search.Work (NodeId × Nat) NodeId)
    (hfuel : work.frontier.length + Search.unseen nodes work.visited < fuel) :
    ∃ r, reachLoop edges config fuel work = some r := by
  induction fuel generalizing work with
  | zero => omega
  | succ fuel ih =>
    obtain ⟨frontier, visited⟩ := work
    unfold reachLoop
    cases frontier with
    | nil => exact ⟨visited, rfl⟩
    | cons t rest =>
      have hsucc : ∀ u ∈ callSuccessors edges config t, u.1 ∈ nodes := by
        intro u hu
        unfold callSuccessors at hu
        split at hu
        · cases hu
        · unfold callees at hu
          simp only [List.map_map, List.mem_map, Function.comp] at hu
          obtain ⟨e, he, rfl⟩ := hu
          exact hedges e (List.mem_of_mem_filter he)
      have hmeasure := Search.foldl_measure Prod.fst nodes { frontier := rest, visited } _ hsucc
      simp only [List.length_cons] at hfuel hmeasure
      apply ih
      unfold Search.advance
      exact Nat.lt_of_le_of_lt hmeasure (by omega)

theorem isEntryByPosition_returns (hg : g.PreOrder) (config : ReachabilityConfig) (fn : NodeId) :
    ∃ b, isEntryByPosition g config fn = some b := by
  unfold isEntryByPosition
  split
  · exact isTopLevelFunction_returns hg.forest fn
  · exact ⟨_, rfl⟩

theorem entryFunctions_returns (hg : g.PreOrder) (fuel : Nat) (config : ReachabilityConfig)
    (hconfig : config.entryFunctionNames = []) :
    ∃ entries, entryFunctions fuel g config (g.findByKind .functionDef) = some entries ∧
      ∀ fn ∈ entries, fn ≤ g.nodeCount := by
  unfold entryFunctions
  apply Search.foldlM_keeps (fun entries : List NodeId => ∀ fn ∈ entries, fn ≤ g.nodeCount)
  · intro entries fn hfn hkeep
    have hentry : ∃ entry, isEntry fuel g config fn = some entry := by
      obtain ⟨top, htop⟩ := isEntryByPosition_returns hg config fn
      unfold isEntry
      rw [htop, hconfig]
      cases top <;> exact ⟨_, rfl⟩
    obtain ⟨entry, hentry⟩ := hentry
    rw [hentry]
    refine ⟨_, rfl, ?_⟩
    split
    · intro m hm
      rcases List.mem_append.mp hm with hm | hm
      · exact hkeep m hm
      · rw [List.mem_singleton.mp hm]
        exact findByKind_le .functionDef fn hfn
    · exact hkeep
  · simp

theorem computeReachable_returns (hg : g.PreOrder) (edges : List CallEdge)
    (hedges : ∀ e ∈ edges, e.callee ≤ g.nodeCount) (config : ReachabilityConfig)
    (hconfig : config.entryFunctionNames = []) (fuel : Nat) (hfuel : g.nodeCount + 1 < fuel) :
    ∃ r, computeReachable fuel g edges config = some r := by
  have hmem : ∀ id, id ≤ g.nodeCount → id ∈ List.range (g.nodeCount + 1) := fun id h =>
    List.mem_range.mpr (Nat.lt_succ_of_le h)
  unfold computeReachable
  simp only
  split
  · exact ⟨_, rfl⟩
  · obtain ⟨entries, hentries, hle⟩ := entryFunctions_returns hg fuel config hconfig
    rw [hentries]
    simp only [Option.bind_eq_bind, Option.bind_some]
    have hroots : ∀ t ∈ (entries ++ callees edges kNullNode).map (fun fn => (fn, 0)),
        t.1 ∈ List.range (g.nodeCount + 1) := by
      intro t ht
      rw [List.mem_map] at ht
      obtain ⟨fn, hfn, rfl⟩ := ht
      apply hmem
      rcases List.mem_append.mp hfn with hfn | hfn
      · exact hle fn hfn
      · unfold callees at hfn
        rw [List.mem_map] at hfn
        obtain ⟨e, he, rfl⟩ := hfn
        exact hedges e (List.mem_of_mem_filter he)
    have hmeasure := Search.foldl_measure Prod.fst (List.range (g.nodeCount + 1))
      { frontier := [], visited := [] } _ hroots
    have hunseen : Search.unseen (List.range (g.nodeCount + 1)) [] ≤ g.nodeCount + 1 := by
      unfold Search.unseen
      exact (List.length_filter_le _ _).trans (by rw [List.length_range])
    obtain ⟨r, hr⟩ := reachLoop_returns edges config (List.range (g.nodeCount + 1))
      (fun e he => hmem _ (hedges e he)) fuel _ (Nat.lt_of_le_of_lt hmeasure (by
        simp only [List.length_nil]
        omega))
    rw [hr]
    exact ⟨_, rfl⟩

end Euxis.Reach
