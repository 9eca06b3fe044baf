import Euxis.Cpg.Events

/-!
# What the dependence edges say

An edge leads from a node that defines a name to an identifier with that name, whatever the tree and
the options.
-/

namespace Euxis.Cpg

open Bindings DdgWalker

/-! ## Where events come from -/

/-- The names that a node defines: its `identifier_children`, or the identifier on the left of an
assignment. -/
def Defines (g : Graph) (d : NodeId) (x : Bytes) : Prop :=
  ∃ n, g.get d = some n ∧
    (((n.kind = .parameter ∨ n.kind = .declaration) ∧ x ∈ (identifierChildren g d).map (·.2)) ∨
      (n.kind = .assignment ∧ ∃ target values, g.children d = target :: values ∧
        identifierName g target = some x))

/-- A node whose children the walk looks at. -/
def Open (g : Graph) (id : NodeId) : Prop :=
  ∃ n, g.get id = some n ∧ n.kind ≠ .parameter ∧ n.kind ≠ .identifier

/-- The walk from the first node may come to the second one. -/
inductive Walks (g : Graph) : NodeId → NodeId → Prop
  | here (a : NodeId) : Walks g a a
  | down {a c b : NodeId} : Open g a → g.Child a c → Walks g c b → Walks g a b

section Sites

variable {g : Graph} {opts : DdgBuildOptions}

theorem below_of_walks {a b : NodeId} (h : Walks g a b) : Below g a b := by
  induction h with
  | here a => exact Relation.ReflTransGen.refl
  | down _ hc _ ih => exact Relation.ReflTransGen.head hc ih

theorem entered_child {id c : NodeId} (h : c ∈ entered g opts id) : Open g id ∧ g.Child id c := by
  rw [← g.mem_children]
  unfold entered at h
  cases hn : g.get id with
  | none =>
    rw [hn] at h
    cases h
  | some n =>
    rw [hn, Option.map_some] at h
    split at h
    · cases h
    · cases h
    · cases h
    · rename_i hkind
      have hopen : Open g id := ⟨n, hn, by simp [Option.some.inj hkind]⟩
      split at h
      · exact ⟨hopen, h⟩
      · exact ⟨hopen, (List.mem_filter.mp h).1⟩
    · rename_i hkind
      have hopen : Open g id := ⟨n, hn, by simp [Option.some.inj hkind]⟩
      split at h
      · cases h
      · rename_i target values hchildren
        rw [hchildren]
        split at h
        · exact ⟨hopen, by simpa [or_comm] using h⟩
        · exact ⟨hopen, List.mem_cons_of_mem _ h⟩
    -- Any other kind: all children are entered.
    · rename_i hparam hident _ _ hkind
      obtain rfl := Option.some.inj hkind
      exact ⟨⟨n, hn, hparam, hident⟩, h⟩

theorem identifierName_of_targetName {target : NodeId} (h : targetName g target ≠ []) :
    identifierName g target = some (targetName g target) := by
  unfold targetName at h ⊢
  cases hn : g.get target with
  | none =>
    rw [hn] at h
    exact absurd rfl h
  | some n =>
    rw [hn] at h
    rw [identifierName_of_get hn]
    by_cases hkind : n.kind = .identifier
    · simp only [Option.filter, hkind, decide_true, if_true, Option.map_some, Option.getD_some]
        at h ⊢
      rw [if_pos ⟨trivial, h⟩]
    · simp [Option.filter, hkind] at h

theorem bound_defines {id : NodeId} {x : Bytes} (h : x ∈ bound g opts id) :
    Defines g id x ∧ ∃ n, g.get id = some n ∧ (n.kind = .declaration ∨ n.kind = .assignment) := by
  unfold bound at h
  cases hn : g.get id with
  | none =>
    rw [hn] at h
    cases h
  | some n =>
    rw [hn, Option.map_some] at h
    split at h
    · rename_i hkind
      have hkind := Option.some.inj hkind
      split at h
      · cases h
      · exact ⟨⟨n, hn, Or.inl ⟨Or.inr hkind, h⟩⟩, n, rfl, Or.inl hkind⟩
    · rename_i hkind
      have hkind := Option.some.inj hkind
      split at h
      · cases h
      · rename_i target values hchildren
        split at h
        · rename_i htrack
          rw [List.mem_singleton.mp h]
          exact ⟨⟨n, hn, Or.inr ⟨hkind, target, values, hchildren,
            identifierName_of_targetName htrack.2⟩⟩, n, rfl, Or.inr hkind⟩
        · cases h
    · cases h

theorem Defines.name_ne {d : NodeId} {x : Bytes} (h : Defines g d x) : x ≠ [] := by
  obtain ⟨n, -, ⟨-, hx⟩ | ⟨-, target, values, -, hx⟩⟩ := h
  · obtain ⟨ident, hident, rfl⟩ := List.mem_map.mp hx
    exact identifierChildren_ne_nil d ident hident
  · exact (identifierName_eq_some target x hx).choose_spec.2.2.2

theorem mem_walkEvents {fuel : Nat} {id : NodeId} {e : NameEvent}
    (h : e ∈ walkEvents g opts fuel id) :
    ∃ n, Walks g id n ∧
      ((∃ x, identifierName g n = some x ∧ e = .use x n) ∨ ∃ x ∈ bound g opts n,
        e = .bind x n) := by
  induction fuel generalizing id with
  | zero => cases h
  | succ fuel ih =>
    rw [walkEvents, List.mem_append, List.mem_append] at h
    rcases h with h | h | h
    · obtain ⟨x, hx, rfl⟩ := List.mem_map.mp h
      exact ⟨id, .here id, Or.inl ⟨x, Option.mem_toList.mp hx, rfl⟩⟩
    · obtain ⟨c, hc, h⟩ := List.mem_flatMap.mp h
      obtain ⟨n, hwalks, hn⟩ := ih h
      obtain ⟨hopen, hchild⟩ := entered_child hc
      exact ⟨n, .down hopen hchild hwalks, hn⟩
    · obtain ⟨x, hx, rfl⟩ := List.mem_map.mp h
      exact ⟨id, .here id, Or.inr ⟨x, hx, rfl⟩⟩

theorem use_mem_walkEvents {fuel : Nat} {id u : NodeId} {x : Bytes}
    (h : .use x u ∈ walkEvents g opts fuel id) : Walks g id u ∧ identifierName g u = some x := by
  obtain ⟨n, hwalks, ⟨y, hy, heq⟩ | ⟨y, -, heq⟩⟩ := mem_walkEvents h
  · obtain ⟨rfl, rfl⟩ := Event.use.inj heq
    exact ⟨hwalks, hy⟩
  · cases heq

theorem bind_mem_walkEvents {fuel : Nat} {id d : NodeId} {x : Bytes}
    (h : .bind x d ∈ walkEvents g opts fuel id) : Walks g id d ∧ x ∈ bound g opts d := by
  obtain ⟨n, hwalks, ⟨y, -, heq⟩ | ⟨y, hy, heq⟩⟩ := mem_walkEvents h
  · cases heq
  · obtain ⟨rfl, rfl⟩ := Event.bind.inj heq
    exact ⟨hwalks, hy⟩

theorem use_mem_bodyEvents {fuel : Nat} {fn u : NodeId} {x : Bytes}
    (h : .use x u ∈ bodyEvents g opts fuel fn) :
    (∃ c, g.Child fn c ∧ Walks g c u) ∧ identifierName g u = some x := by
  obtain ⟨c, hc, h⟩ := List.mem_flatMap.mp h
  obtain ⟨hwalks, hname⟩ := use_mem_walkEvents h
  exact ⟨⟨c, (g.mem_children fn c).mp hc, hwalks⟩, hname⟩

theorem bind_mem_bodyEvents {fuel : Nat} {fn d : NodeId} {x : Bytes}
    (h : .bind x d ∈ bodyEvents g opts fuel fn) :
    (∃ c, g.Child fn c ∧ Walks g c d) ∧ x ∈ bound g opts d := by
  obtain ⟨c, hc, h⟩ := List.mem_flatMap.mp h
  obtain ⟨hwalks, hbound⟩ := bind_mem_walkEvents h
  exact ⟨⟨c, (g.mem_children fn c).mp hc, hwalks⟩, hbound⟩

theorem parameterBindings_defines {fuel : Nat} {root : NodeId} {d : Bytes × NodeId}
    (h : d ∈ parameterBindings g fuel root) : Defines g d.2 d.1 := by
  induction fuel generalizing root with
  | zero => cases h
  | succ fuel ih =>
    rw [parameterBindings, List.mem_flatMap] at h
    obtain ⟨c, -, h⟩ := h
    split at h
    · cases h
    · rename_i n hn
      split at h
      · rename_i hkind
        obtain ⟨ident, hident, rfl⟩ := List.mem_map.mp h
        exact ⟨n, hn, Or.inl ⟨Or.inl hkind, List.mem_map_of_mem hident⟩⟩
      · split at h
        · exact ih h
        · cases h

/-! ## Edges of a function -/

variable {fuel : Nat} {fn : NodeId}

theorem bodyEvents_names : ∀ d ∈ definitions (bodyEvents g opts fuel fn), d.1 ≠ [] := by
  rintro ⟨x, d⟩ hd
  exact (bound_defines (bind_mem_bodyEvents (mem_definitions.mp hd)).2).1.name_ne

theorem parameters_names : ∀ d ∈ parameterBindings g fuel fn, d.1 ≠ [] :=
  fun _ hd => (parameterBindings_defines hd).name_ne

theorem reads_of_functionEdge {e : Edge} (h : e ∈ functionEdges opts fuel g fn) :
    ∃ x, Reads (parameterBindings g fuel fn) (bodyEvents g opts fuel fn) x e.source e.target ∧
      e.source ≠ e.target ∧ e.kind = .ddg := by
  obtain ⟨x, hreads, -, hne, hkind⟩ := (mem_emits_iff parameters_names bodyEvents_names).mp h
  exact ⟨x, hreads, hne, hkind⟩

theorem reads_defines {x : Bytes} {d u : NodeId}
    (h : Reads (parameterBindings g fuel fn) (bodyEvents g opts fuel fn) x d u) :
    Defines g d x ∧ identifierName g u = some x := by
  refine ⟨?_, (use_mem_bodyEvents h.use_mem).2⟩
  rcases h.cases with h | h
  · exact (bound_defines (bind_mem_bodyEvents h.bind_mem).2).1
  · exact parameterBindings_defines (mem_of_lastOf h)

end Sites

/-! ## The statistics -/

namespace DdgWalker

variable {g : Graph} (opts : DdgBuildOptions)

theorem registerParameters_preserves (I : DdgWalker g → Prop)
    (hdef : ∀ w name id hid, I w → I (w.recordDef opts name id hid)) (fuel : Nat)
    (w w' : DdgWalker g) (root : NodeId) (h : registerParameters opts fuel w root = some w')
    (hw : I w) : I w' := by
  induction fuel generalizing w w' root with
  | zero => cases h
  | succ fuel ih =>
    unfold registerParameters at h
    refine Search.foldlM_preserves I _ _ ?_ w w' h hw
    intro w c w' _ h hw
    split at h
    · rw [← Option.some.inj h]
      exact hw
    · rename_i n hn
      split at h
      · rw [← Option.some.inj h]
        apply List.foldlRecOn (motive := I) _ _ hw
        intro w hw ident _
        exact hdef w ident.2 c (g.valid_of_get c n hn) hw
      · split at h
        · exact ih w w' c h hw
        · rw [← Option.some.inj h]
          exact hw

/-- As many edges as the statistics say. -/
def Counted (w : DdgWalker g) : Prop := w.stats.ddgEdges = w.edges.length

theorem emitUse_counted (w : DdgWalker g) (id : NodeId) (hid : ValidId g.nodes id) (name : Bytes)
    (hw : w.Counted) : (w.emitUse id hid name).Counted := by
  unfold emitUse Counted
  split
  · exact hw
  · split
    · exact hw
    · split
      · exact hw
      · show w.stats.ddgEdges + 1 = (w.edges ++ [_]).length
        rw [List.length_append, List.length_singleton, hw]

theorem recordDef_counted (w : DdgWalker g) (name : Bytes) (id : NodeId) (hid : ValidId g.nodes id)
    (hw : w.Counted) : (w.recordDef opts name id hid).Counted := by
  unfold recordDef
  split
  · exact hw
  · split <;> exact hw

theorem processFunction_counted (fuel : Nat) (w w' : DdgWalker g) (fn : NodeId)
    (h : processFunction opts fuel w fn = some w') (hw : w.Counted) : w'.Counted := by
  unfold processFunction at h
  rw [Option.bind_eq_bind, Option.bind_eq_some_iff] at h
  obtain ⟨w₁, h₁, h⟩ := h
  have hw₁ := registerParameters_preserves opts Counted (recordDef_counted opts) fuel
    w.enterFunction w₁ fn h₁ hw
  refine Search.foldlM_preserves Counted _ _ ?_ w₁ w' h hw₁
  intro w c w' _ h hw
  split at h
  · rw [← Option.some.inj h]
    exact hw
  · split at h
    · rw [← Option.some.inj h]
      exact hw
    · refine walk_preserves opts (fun _ => True) (fun _ _ _ _ => trivial) Counted ?_ ?_ fuel w w' c
        h trivial hw
      · intro w id n hn _ _ hw
        exact emitUse_counted w id _ n.name hw
      · intro w name id n hn _ _ hw
        exact recordDef_counted opts w name id _ hw

end DdgWalker

theorem buildDdg_ends (g : Graph) (hg : g.Forest) (opts : DdgBuildOptions) (fuel : Nat)
    (hfuel : g.nodeCount + 1 < fuel) :
    ∃ g' stats, buildDdg fuel g opts = some (g', stats) ∧
      g'.edges.length = g.edges.length + stats.ddgEdges := by
  obtain ⟨rank, hrank, hbound⟩ := g.exists_child_rank hg
  have hreturns : ∀ (w : DdgWalker g) (fn : NodeId), ∃ w',
      processFunction opts fuel w fn = some w' := fun w fn =>
    processFunction_returns opts rank hrank fuel (fun n => Nat.lt_of_le_of_lt (hbound n) hfuel) w fn
  obtain ⟨w, hw, hcounted⟩ :=
    Search.foldlM_keeps Counted (processFunction opts fuel) (g.findByKind .functionDef)
    (fun w fn _ hw => (hreturns w fn).imp fun w' h =>
      ⟨h, processFunction_counted opts fuel w w' fn h hw⟩)
    ({} : DdgWalker g) rfl
  refine ⟨w.graph, w.stats, ?_, ?_⟩
  · unfold buildDdg
    rw [hw]
    rfl
  · rw [hcounted]
    exact List.length_append

/-- **Dependence edges.** The run ends and leaves the nodes and the edges that were there. Each new
edge leads from a parameter, a declaration or an assignment to another node, an identifier with a
name that the first one defines, and the statistics count them. -/
theorem buildDdg_wellFormed (g : Graph) (hg : g.Forest) (opts : DdgBuildOptions) (fuel : Nat)
    (hfuel : g.nodeCount + 1 < fuel) :
    ∃ g' stats added, buildDdg fuel g opts = some (g', stats) ∧ g'.nodes = g.nodes ∧
      g'.edges = g.edges ++ added ∧ stats.ddgEdges = added.length ∧
      ∀ e ∈ added, e.kind = .ddg ∧ e.source ≠ e.target ∧
        ∃ x, x ≠ [] ∧ Defines g e.source x ∧ ∃ n, g.get e.target = some n ∧ n.kind = .identifier ∧
          n.name = x := by
  obtain ⟨g', stats, hrun, hcount⟩ := buildDdg_ends g hg opts fuel hfuel
  obtain ⟨hnodes, hedges⟩ := buildDdg_edges hrun
  refine ⟨g', stats, _, hrun, hnodes, hedges, ?_, ?_⟩
  · rw [hedges, List.length_append] at hcount
    omega
  · intro e he
    obtain ⟨fn, -, he⟩ := List.mem_flatMap.mp he
    obtain ⟨x, hreads, hne, hkind⟩ := reads_of_functionEdge he
    obtain ⟨hdefines, hname⟩ := reads_defines hreads
    obtain ⟨n, hn, hident, hx, -⟩ := identifierName_eq_some e.target x hname
    exact ⟨hkind, hne, x, hdefines.name_ne, hdefines, n, hn, hident, hx⟩

/-! ### `def f(x): y = x; g(y)` -/

def nodeNamed (id : NodeId) (kind : NodeKind) (name : String) : Node :=
  { id, kind, rawKind := [], name := ascii name, range := ⟨0, 0, 0, 0, 0, 0⟩, language := .python }

def copyFunction : Graph where
  nodes := [nodeNamed 1 .functionDef "", nodeNamed 2 .parameter "", nodeNamed 3 .identifier "x",
    nodeNamed 4 .block "",
    nodeNamed 5 .assignment "", nodeNamed 6 .identifier "y", nodeNamed 7 .identifier "x",
    nodeNamed 8 .call "",
    nodeNamed 9 .identifier "g", nodeNamed 10 .identifier "y"]
  edges := [⟨1, 2, .astChild⟩, ⟨2, 3, .astChild⟩, ⟨1, 4, .astChild⟩, ⟨4, 5, .astChild⟩,
    ⟨5, 6, .astChild⟩, ⟨5, 7, .astChild⟩, ⟨4, 8, .astChild⟩, ⟨8, 9, .astChild⟩, ⟨8, 10, .astChild⟩]
  dense := by decide
  ends := by decide

theorem copyFunction_preOrder : copyFunction.PreOrder :=
  Graph.preOrder_of_edges (by decide) (by decide)

theorem copyFunction_wellFormed : ∃ g' stats, buildDdg 12 copyFunction {} = some (g', stats) ∧
    stats.ddgEdges = 2 ∧
    g'.edges = copyFunction.edges ++ [⟨2, 7, .ddg⟩, ⟨5, 10, .ddg⟩] ∧
    Defines copyFunction 5 (ascii "y") := by
  obtain ⟨g', stats, added, hrun, -, hedges, hcount, hadded⟩ :=
    buildDdg_wellFormed copyFunction copyFunction_preOrder.forest {} 12 (by decide)
  have hnew : (copyFunction.findByKind .functionDef).flatMap (functionEdges {} 12 copyFunction) =
      [⟨2, 7, .ddg⟩, ⟨5, 10, .ddg⟩] := by decide
  obtain rfl : added = [⟨2, 7, .ddg⟩, ⟨5, 10, .ddg⟩] := by
    rw [(buildDdg_edges hrun).2, hnew] at hedges
    exact (List.append_cancel_left hedges).symm
  obtain ⟨-, -, x, -, hdefines, n, hn, -, rfl⟩ := hadded ⟨5, 10, .ddg⟩ (by simp)
  obtain rfl := Option.some.inj hn
  exact ⟨g', stats, hrun, hcount, hedges, hdefines⟩

end Euxis.Cpg
