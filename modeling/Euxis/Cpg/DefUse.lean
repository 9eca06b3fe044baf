import Euxis.Cpg.Ddg

/-!
# What the dependence edges connect

A dependence leads from a node that binds a name to an identifier that reads it, never out of an
identifier.
-/

namespace Euxis.Cpg

/-- Nodes that bind names. -/
def Binds (g : Graph) (id : NodeId) : Prop :=
  ∃ n, g.get id = some n ∧ (n.kind = .parameter ∨ n.kind = .declaration ∨ n.kind = .assignment)

def IsIdentifier (g : Graph) (id : NodeId) : Prop := ∃ n, g.get id = some n ∧ n.kind = .identifier

/-- A node at or below another one. -/
def Below (g : Graph) : NodeId → NodeId → Prop := Relation.ReflTransGen g.Child

theorem not_binds_identifier (g : Graph) (id : NodeId) (hb : Binds g id) (hi : IsIdentifier g id) :
    False := by
  obtain ⟨n, hn, hb⟩ := hb
  obtain ⟨n', hn', hi⟩ := hi
  rw [hn, Option.some.injEq] at hn'
  rw [← hn'] at hi
  rcases hb with hb | hb | hb <;> rw [hb] at hi <;> cases hi

namespace DdgWalker

variable {g : Graph}

/-! ## One use, one definition -/

theorem emitUse_defMap (w : DdgWalker g) (id : NodeId) (hid : ValidId g.nodes id) (name : Bytes) :
    (w.emitUse id hid name).defMap = w.defMap := by
  unfold emitUse
  split
  · rfl
  · split
    · rfl
    · split <;> rfl

theorem mem_emitUse (w : DdgWalker g) (id : NodeId) (hid : ValidId g.nodes id) (name : Bytes)
    (e : Edge) :
    e ∈ (w.emitUse id hid name).edges ↔
      e ∈ w.edges ∨
        (name ≠ [] ∧ w.defMap.lookup name = some e.source ∧ e.source ≠ id ∧ e.target = id ∧
          e.kind = .ddg) := by
  unfold emitUse
  split
  · rename_i hname
    simp [hname]
  · rename_i hname
    split
    · rename_i hnone
      simp [hnone]
    · rename_i d hd
      obtain ⟨source, target, kind⟩ := e
      split
      · rename_i heq
        simp only [hd, Option.some.injEq]
        grind
      · simp only [List.mem_append, List.mem_singleton, Edge.mk.injEq, hd, Option.some.injEq]
        grind

theorem recordDef_edges (opts : DdgBuildOptions) (w : DdgWalker g) (name : Bytes) (id : NodeId)
    (hid : ValidId g.nodes id) : (w.recordDef opts name id hid).edges = w.edges := by
  unfold recordDef
  split
  · rfl
  · split <;> rfl

theorem mem_recordDef (opts : DdgBuildOptions) (w : DdgWalker g) (name : Bytes) (id : NodeId)
    (hid : ValidId g.nodes id) (d : Bytes × NodeId)
    (h : d ∈ (w.recordDef opts name id hid).defMap) : d ∈ w.defMap ∨ d = (name, id) := by
  unfold recordDef at h
  split at h
  · exact Or.inl h
  · split at h
    · exact Or.inl h
    · exact mem_setDef _ _ _ d h

/-! ## The walk as a run of uses and definitions -/

/-- The name that an assignment to this node binds. -/
def targetName (g : Graph) (target : NodeId) : Bytes :=
  (((g.get target).filter (·.kind = .identifier)).map (·.name)).getD []

theorem walkAssignment_cases (opts : DdgBuildOptions)
    (walk : DdgWalker g → NodeId → Option (DdgWalker g)) (w w' : DdgWalker g) (id : NodeId)
    (hid : ValidId g.nodes id) (h : walkAssignment opts walk w id hid = some w') :
    (g.children id = [] ∧ w' = w) ∨
      ∃ target values w₁ w₂, g.children id = target :: values ∧ values.foldlM walk w = some w₁ ∧
        (((g.get target).any (·.kind ≠ .identifier) = true ∧ walk w₁ target = some w₂) ∨
          ((g.get target).any (·.kind ≠ .identifier) = false ∧ w₂ = w₁)) ∧
        w' =
          if opts.trackAssignments ∧ targetName g target ≠ [] then
            w₂.recordDef opts (targetName g target) id hid
          else w₂ := by
  unfold walkAssignment at h
  split at h
  · rename_i hnil
    exact Or.inl ⟨hnil, (Option.some.inj h).symm⟩
  · rename_i target values hchildren
    rw [Option.bind_eq_bind, Option.bind_eq_some_iff] at h
    obtain ⟨w₁, h₁, h⟩ := h
    right
    dsimp only at h
    by_cases hany : (g.get target).any (·.kind ≠ .identifier) = true
    · rw [if_pos hany, Option.bind_eq_some_iff] at h
      obtain ⟨w₂, h₂, h⟩ := h
      exact ⟨target, values, w₁, w₂, hchildren, h₁, Or.inl ⟨hany, h₂⟩, (Option.some.inj h).symm⟩
    · rw [if_neg hany] at h
      have hany' := Bool.eq_false_iff.mpr hany
      exact ⟨target, values, w₁, w₁, hchildren, h₁, Or.inr ⟨hany', rfl⟩, (Option.some.inj h).symm⟩

theorem walkDeclaration_preserves (opts : DdgBuildOptions) (I : DdgWalker g → Prop)
    (walk : DdgWalker g → NodeId → Option (DdgWalker g)) (w w' : DdgWalker g) (id : NodeId)
    (hid : ValidId g.nodes id)
    (hwalk : ∀ w c w', c ∈ g.children id → walk w c = some w' → I w → I w') (hdef : ∀ w name, I w →
      I (w.recordDef opts name id hid)) (h : walkDeclaration opts walk w id hid = some w')
    (hw : I w) : I w' := by
  unfold walkDeclaration at h
  split at h
  · exact Search.foldlM_preserves I _ _ hwalk w w' h hw
  · simp only [Option.bind_eq_bind, Option.bind_eq_some_iff, Option.pure_def, Option.some.injEq]
      at h
    obtain ⟨w₁, h₁, rfl⟩ := h
    have hw₁ : I w₁ := by
      refine Search.foldlM_preserves I _ _ ?_ w w₁ h₁ hw
      intro w c w' hc h hw
      split at h
      · rw [← Option.some.inj h]
        exact hw
      · exact hwalk w c w' hc h hw
    apply List.foldlRecOn (motive := I) _ _ hw₁
    intro w hw ident _
    exact hdef w ident.2 hw

theorem walkAssignment_preserves (opts : DdgBuildOptions) (I : DdgWalker g → Prop)
    (walk : DdgWalker g → NodeId → Option (DdgWalker g)) (w w' : DdgWalker g) (id : NodeId)
    (hid : ValidId g.nodes id)
    (hwalk : ∀ w c w', c ∈ g.children id → walk w c = some w' → I w → I w') (hdef : ∀ w name, I w →
      I (w.recordDef opts name id hid)) (h : walkAssignment opts walk w id hid = some w')
    (hw : I w) : I w' := by
  rcases walkAssignment_cases opts walk w w' id hid h
    with ⟨-, rfl⟩ | ⟨first, rest, w₁, w₂, hchildren, h₁, h₂, rfl⟩
  · exact hw
  · have hw₁ : I w₁ := by
      refine Search.foldlM_preserves I _ _ ?_ w w₁ h₁ hw
      intro w c w' hc h hw
      exact hwalk w c w' (by rw [hchildren]; exact List.mem_cons_of_mem _ hc) h hw
    have hw₂ : I w₂ := by
      rcases h₂ with ⟨-, h₂⟩ | ⟨-, rfl⟩
      · exact hwalk w₁ first w₂ (by rw [hchildren]; exact List.mem_cons_self) h₂ hw₁
      · exact hw₁
    split
    · exact hdef w₂ _ hw₂
    · exact hw₂

section

variable (opts : DdgBuildOptions) (S : NodeId → Prop) (hS : ∀ p c, S p → g.Child p c → S c)
  (I : DdgWalker g → Prop)
  (huse : ∀ w id n (h : g.get id = some n), S id → n.kind = .identifier → I w →
    I (w.emitUse id (g.valid_of_get id n h) n.name))
  (hdef : ∀ w name id n (h : g.get id = some n), S id →
    (n.kind = .declaration ∨ n.kind = .assignment) → I w →
    I (w.recordDef opts name id (g.valid_of_get id n h)))

include hS huse hdef

theorem walk_preserves (fuel : Nat) (w w' : DdgWalker g) (id : NodeId)
    (h : walk opts fuel w id = some w') (hid : S id) (hw : I w) : I w' := by
  induction fuel generalizing w w' id with
  | zero => cases h
  | succ fuel ih =>
    have hchild : ∀ c ∈ g.children id, S c := fun c hc => hS id c hid ((g.mem_children id c).mp hc)
    have hwalk : ∀ w c w', c ∈ g.children id → walk opts fuel w c = some w' → I w → I w' :=
      fun w c w' hc h hw => ih w w' c h (hchild c hc) hw
    unfold walk at h
    split at h
    · rw [← Option.some.inj h]
      exact hw
    · rename_i n hn
      split at h
      · rw [← Option.some.inj h]
        exact hw
      · rename_i hkind
        rw [← Option.some.inj h]
        exact huse w id n hn hid hkind hw
      · rename_i hkind
        exact walkDeclaration_preserves opts I _ w w' id _ hwalk
          (fun w name hw => hdef w name id n hn hid (Or.inl hkind) hw) h hw
      · rename_i hkind
        exact walkAssignment_preserves opts I _ w w' id _ hwalk
          (fun w name hw => hdef w name id n hn hid (Or.inr hkind) hw) h hw
      · exact Search.foldlM_preserves I _ _ hwalk w w' h hw

end

/-! ## The parameters -/

/-- The names that the parameters below a node bind, each with its parameter, in the order of
`register_parameters`. -/
def parameterBindings (g : Graph) : Nat → NodeId → List (Bytes × NodeId)
  | 0, _ => []
  | fuel + 1, root =>
    (g.children root).flatMap fun c =>
      match g.get c with
      | none => []
      | some n =>
        if n.kind = .parameter then (identifierChildren g c).map fun ident => (ident.2, c)
        else if n.kind ≠ .block ∧ n.kind ≠ .functionDef then parameterBindings g fuel c
        else []

theorem mem_parameterBindings (fuel : Nat) (root : NodeId) (d : Bytes × NodeId)
    (h : d ∈ parameterBindings g fuel root) :
    (∃ n, g.get d.2 = some n ∧ n.kind = .parameter) ∧ ∃ ident ∈ identifierChildren g d.2,
      ident.2 = d.1 := by
  induction fuel generalizing root with
  | zero => cases h
  | succ fuel ih =>
    unfold parameterBindings at h
    rw [List.mem_flatMap] at h
    obtain ⟨c, -, h⟩ := h
    split at h
    · cases h
    · rename_i n hn
      split at h
      · rename_i hkind
        rw [List.mem_map] at h
        obtain ⟨ident, hident, rfl⟩ := h
        exact ⟨⟨n, hn, hkind⟩, ident, hident, rfl⟩
      · split at h
        · exact ih c h
        · cases h

/-- What `record_def` does to the definitions. -/
def bindName (limit : Nat) (m : List (Bytes × NodeId)) (d : Bytes × NodeId) :
    List (Bytes × NodeId) :=
  if d.1 = [] then m
  else if limit ≤ m.length ∧ m.lookup d.1 = none then m
  else setDef m d.1 d.2

theorem recordDef_defMap (opts : DdgBuildOptions) (w : DdgWalker g) (name : Bytes) (id : NodeId)
    (hid : ValidId g.nodes id) :
    (w.recordDef opts name id hid).defMap = bindName opts.maxNamesPerFunction w.defMap (name,
      id) := by
  unfold recordDef bindName
  split
  · rfl
  · split <;> rfl

theorem foldl_recordDef (opts : DdgBuildOptions) (id : NodeId) (hid : ValidId g.nodes id)
    (idents : List (NodeId × Bytes)) (w : DdgWalker g) :
    (idents.foldl (fun w ident => w.recordDef opts ident.2 id hid) w).edges = w.edges ∧
      (idents.foldl (fun w ident => w.recordDef opts ident.2 id hid) w).defMap =
        (idents.map fun ident => (ident.2, id)).foldl (bindName opts.maxNamesPerFunction)
          w.defMap := by
  induction idents generalizing w with
  | nil => exact ⟨rfl, rfl⟩
  | cons ident rest ih =>
    obtain ⟨hedges, hmap⟩ := ih (w.recordDef opts ident.2 id hid)
    rw [recordDef_edges] at hedges
    rw [recordDef_defMap] at hmap
    exact ⟨hedges, hmap⟩

theorem registerParameters_spec (opts : DdgBuildOptions) (fuel : Nat) (w w' : DdgWalker g)
    (root : NodeId) (h : registerParameters opts fuel w root = some w') :
    w'.edges = w.edges ∧
      w'.defMap = (parameterBindings g fuel root).foldl (bindName opts.maxNamesPerFunction)
        w.defMap := by
  induction fuel generalizing w w' root with
  | zero => cases h
  | succ fuel ih =>
    unfold registerParameters at h
    unfold parameterBindings
    generalize g.children root = children at h
    -- The fuel goes down a level; the loop over the children needs its own induction.
    induction children generalizing w with
    | nil =>
      rw [← Option.some.inj h]
      exact ⟨rfl, rfl⟩
    | cons c rest ihrest =>
      rw [List.foldlM_cons, Option.bind_eq_bind, Option.bind_eq_some_iff] at h
      obtain ⟨w₁, h₁, h⟩ := h
      obtain ⟨hedges, hmap⟩ := ihrest w₁ h
      rw [List.flatMap_cons, List.foldl_append, hedges, hmap]
      split at h₁
      · rename_i hget
        rw [← Option.some.inj h₁, hget]
        exact ⟨rfl, rfl⟩
      · rename_i n hget
        rw [hget]
        dsimp only
        split at h₁
        · rename_i hkind
          rw [← Option.some.inj h₁, if_pos hkind]
          obtain ⟨hedges, hmap⟩ :=
            foldl_recordDef opts c (g.valid_of_get c n hget) (identifierChildren g c) w
          rw [hedges, hmap]
          exact ⟨rfl, rfl⟩
        · rename_i hkind
          rw [if_neg hkind]
          split at h₁
          · rename_i hopen
            rw [if_pos hopen]
            obtain ⟨hedges, hmap⟩ := ih w w₁ c h₁
            rw [hedges, hmap]
            exact ⟨rfl, rfl⟩
          · rename_i hopen
            rw [if_neg hopen, ← Option.some.inj h₁]
            exact ⟨rfl, rfl⟩

/-! ## From binders to identifiers -/

/-- Names are bound by nodes that bind, and dependences lead from these to identifiers. -/
structure DefUse (w : DdgWalker g) : Prop where
  bound : ∀ d ∈ w.defMap, Binds g d.2
  used : ∀ e ∈ w.edges, Binds g e.source ∧ IsIdentifier g e.target

theorem emitUse_defUse (w : DdgWalker g) (id : NodeId) (n : Node) (h : g.get id = some n)
    (hkind : n.kind = .identifier) (hw : w.DefUse) :
    (w.emitUse id (g.valid_of_get id n h) n.name).DefUse := by
  constructor
  · rw [emitUse_defMap]
    exact hw.bound
  · intro e he
    rcases (mem_emitUse w id _ n.name e).mp he with he | ⟨-, hsource, -, htarget, -⟩
    · exact hw.used e he
    · refine ⟨hw.bound (n.name, e.source) (mem_of_lookup _ _ _ hsource), ?_⟩
      rw [htarget]
      exact ⟨n, h, hkind⟩

theorem recordDef_defUse (opts : DdgBuildOptions) (w : DdgWalker g) (name : Bytes) (id : NodeId)
    (hid : ValidId g.nodes id) (hbinds : Binds g id) (hw : w.DefUse) :
    (w.recordDef opts name id hid).DefUse := by
  constructor
  · intro d hd
    rcases mem_recordDef opts w name id hid d hd with hd | rfl
    · exact hw.bound d hd
    · exact hbinds
  · rw [recordDef_edges]
    exact hw.used

theorem walk_defUse (opts : DdgBuildOptions) (fuel : Nat) (w w' : DdgWalker g) (id : NodeId)
    (h : walk opts fuel w id = some w') (hw : w.DefUse) : w'.DefUse := by
  refine walk_preserves opts (fun _ => True) (fun _ _ _ _ => trivial) DefUse ?_ ?_ fuel w w' id
    h trivial hw
  · intro w id n hn _ hkind hw
    exact emitUse_defUse w id n hn hkind hw
  · intro w name id n hn _ hkind hw
    exact recordDef_defUse opts w name id _ ⟨n, hn, Or.inr hkind⟩ hw

theorem mem_foldl_bindName (limit : Nat) (bindings m : List (Bytes × NodeId)) (d : Bytes × NodeId)
    (h : d ∈ bindings.foldl (bindName limit) m) : d ∈ m ∨ d ∈ bindings := by
  induction bindings generalizing m with
  | nil => exact Or.inl h
  | cons b rest ih =>
    rcases ih (bindName limit m b) h with h | h
    · unfold bindName at h
      split at h
      · exact Or.inl h
      · split at h
        · exact Or.inl h
        · rcases mem_setDef _ _ _ d h with h | rfl
          · exact Or.inl h
          · exact Or.inr List.mem_cons_self
    · exact Or.inr (List.mem_cons_of_mem _ h)

theorem processFunction_defUse (opts : DdgBuildOptions) (fuel : Nat) (w w' : DdgWalker g)
    (fn : NodeId) (h : processFunction opts fuel w fn = some w') (hw : w.DefUse) : w'.DefUse := by
  unfold processFunction at h
  rw [Option.bind_eq_bind, Option.bind_eq_some_iff] at h
  obtain ⟨w₁, h₁, h⟩ := h
  obtain ⟨hedges, hmap⟩ := registerParameters_spec opts fuel _ w₁ fn h₁
  -- Each function starts with an empty table, so only its own parameters are in it.
  have hw₁ : w₁.DefUse := by
    constructor
    · intro d hd
      rw [hmap] at hd
      rcases mem_foldl_bindName _ _ _ d hd with hd | hd
      · cases hd
      · obtain ⟨⟨n, hn, hkind⟩, -⟩ := mem_parameterBindings fuel fn d hd
        exact ⟨n, hn, Or.inl hkind⟩
    · rw [hedges]
      exact hw.used
  refine Search.foldlM_preserves DefUse _ _ ?_ w₁ w' h hw₁
  intro w c w' _ h hw
  split at h
  · rw [← Option.some.inj h]
    exact hw
  · split at h
    · rw [← Option.some.inj h]
      exact hw
    · exact walk_defUse opts fuel w w' c h hw

end DdgWalker

theorem buildDdg_defUse (fuel : Nat) (g : Graph) (opts : DdgBuildOptions) (g' : Graph)
    (stats : DdgStats) (h : buildDdg fuel g opts = some (g', stats)) : ∃ w :
    DdgWalker g, w.DefUse ∧ g' = w.graph := by
  unfold buildDdg at h
  rw [Option.bind_eq_bind, Option.bind_eq_some_iff] at h
  obtain ⟨w, hw, h⟩ := h
  refine ⟨w, ?_, ?_⟩
  · refine Search.foldlM_preserves DdgWalker.DefUse _ _ ?_ _ w hw ⟨nofun, nofun⟩
    intro w fn w' _ h hw
    exact DdgWalker.processFunction_defUse opts fuel w w' fn h hw
  · exact (congrArg Prod.fst (Option.some.inj h)).symm

theorem ddg_path_single (fuel : Nat) (g : Graph) (hg : ∀ e ∈ g.edges, e.kind = .astChild)
    (opts : DdgBuildOptions) (g' : Graph) (stats : DdgStats)
    (h : buildDdg fuel g opts = some (g', stats)) (a b : NodeId)
    (hpath : Relation.TransGen g'.Ddg a b) : g'.Ddg a b := by
  obtain ⟨w, hw, rfl⟩ := buildDdg_defUse fuel g opts g' stats h
  have hends : ∀ a b, w.graph.Ddg a b → Binds g a ∧ IsIdentifier g b := by
    rintro a b ⟨e, he, hkind, rfl, rfl⟩
    rcases List.mem_append.mp he with he | he
    · rw [hg e he] at hkind
      cases hkind
    · exact hw.used e he
  cases hpath with
  | single h => exact h
  | tail hpath hlast =>
    rename_i c
    have hc : IsIdentifier g c := by
      cases hpath with
      | single h => exact (hends a c h).2
      | tail _ h => exact (hends _ c h).2
    exact (not_binds_identifier g c (hends c b hlast).1 hc).elim

end Euxis.Cpg
