import Euxis.Cpg.DefUse

/-!
# Straight-line copies

A function whose body assigns a value, copies it from name to name, and ends in a call that reads
the last name.
-/

namespace Euxis.Cpg

/-- Kinds whose nodes the walk goes through to their children. -/
def Plain (kind : NodeKind) : Prop :=
  kind ≠ .parameter ∧ kind ≠ .identifier ∧ kind ≠ .declaration ∧ kind ≠ .assignment

instance (kind : NodeKind) : Decidable (Plain kind) :=
  inferInstanceAs (Decidable (kind ≠ .parameter ∧ kind ≠ .identifier ∧ kind ≠ .declaration ∧
    kind ≠ .assignment))

def IsPlain (g : Graph) (id : NodeId) : Prop := ∃ n, g.get id = some n ∧ Plain n.kind

/-- A statement is its expression, up to nodes with a single child around it. -/
inductive Wraps (g : Graph) : NodeId → NodeId → Prop
  | bare (id : NodeId) : Wraps g id id
  | wrapped (outer inner id : NodeId) : IsPlain g outer → g.children outer = [inner] →
      Wraps g inner id → Wraps g outer id

/-- The walk that starts at the first node comes to the second one. -/
inductive Visits (g : Graph) : NodeId → NodeId → Prop
  | here (id : NodeId) : Visits g id id
  | through (outer inner id : NodeId) : IsPlain g outer → g.Child outer inner → Visits g inner id →
      Visits g outer id

/-- Nothing at or below the node assigns or declares a name. -/
def DefFree (g : Graph) (id : NodeId) : Prop :=
  ∀ c, Below g id c → ∀ n, g.get c = some n → n.kind ≠ .declaration ∧ n.kind ≠ .assignment

/-- A statement `name := values`, with its assignment. -/
structure Assign where
  stmt : NodeId
  node : NodeId
  name : Bytes
  values : List NodeId

structure IsAssign (g : Graph) (a : Assign) : Prop where
  wraps : Wraps g a.stmt a.node
  assignment : ∃ n, g.get a.node = some n ∧ n.kind = .assignment
  target : ∃ target, g.children a.node = target :: a.values ∧
    DdgWalker.identifierName g target = some a.name
  values : ∀ v ∈ a.values, DefFree g v

/-- The second statement copies the name that the first one assigns. -/
def CopiesFrom (g : Graph) (a b : Assign) : Prop :=
  ∃ v, b.values = [v] ∧ DdgWalker.identifierName g v = some a.name

/-- `first`, then `copies`, each of the name before it, then a call that reads the last name at
`use`. -/
structure CopyFunction (g : Graph) where
  fn : NodeId
  header : List NodeId
  body : NodeId
  first : Assign
  copies : List Assign
  stmt : NodeId
  call : NodeId
  use : NodeId
  functions : g.findByKind .functionDef = [fn]
  children_fn : g.children fn = header ++ [body]
  header_free : ∀ c ∈ header, DefFree g c
  body_plain : IsPlain g body
  children_body : g.children body = (first :: copies).map (·.stmt) ++ [stmt]
  assigns : ∀ a ∈ first :: copies, IsAssign g a
  copied : (first :: copies).IsChain (CopiesFrom g)
  call_wraps : Wraps g stmt call
  call_kind : ∃ n, g.get call = some n ∧ n.kind = .call
  call_free : DefFree g call
  use_visited : Visits g call use
  use_name : DdgWalker.identifierName g use = some ((first :: copies).getLast (by simp)).name

theorem wraps_below (g : Graph) (outer id : NodeId) (h : Wraps g outer id) : Below g outer id := by
  induction h with
  | bare id => exact Relation.ReflTransGen.refl
  | wrapped outer inner id _ hchildren _ ih =>
    have hc : g.Child outer inner := by
      rw [← g.mem_children, hchildren]
      exact List.mem_singleton_self _
    exact Relation.ReflTransGen.head hc ih

theorem visits_below (g : Graph) (outer id : NodeId) (h : Visits g outer id) :
    Below g outer id := by
  induction h with
  | here id => exact Relation.ReflTransGen.refl
  | through outer inner id _ hc _ ih => exact Relation.ReflTransGen.head hc ih

theorem below_le (g : Graph) (hg : g.PreOrder) (a b : NodeId) (h : Below g a b) : a ≤ b := by
  induction h with
  | refl => exact Nat.le_refl a
  | tail _ hc ih => exact Nat.le_trans ih (Nat.le_of_lt (hg.increasing _ _ hc))

theorem Graph.Forest.below_or_below {g : Graph} (hg : g.Forest) {a b u : NodeId} (hau : Below g a u)
    (hbu : Below g b u) : Below g a b ∨ Below g b a := by
  have hright : Relator.RightUnique (Function.swap g.Child) :=
    fun c p q hp hq => hg.unique p q c hp hq
  rcases Relation.ReflTransGen.total_of_right_unique hright hau.swap hbu.swap with h | h
  · exact Or.inr h.swap
  · exact Or.inl h.swap

theorem Graph.Forest.through_child {g : Graph} (hg : g.Forest) {a c f u : NodeId}
    (hac : g.Child a c) (hcu : Below g c u) (haf : Relation.TransGen g.Child a f)
    (hfu : Below g f u) : Below g c f := by
  rcases hg.below_or_below hcu hfu with h | h
  · exact h
  · rcases Relation.ReflTransGen.cases_tail h with rfl | ⟨p, hfp, hpc⟩
    · exact .refl
    · obtain rfl := hg.unique p a c hpc hac
      exact absurd (haf.trans_left hfp) (hg.acyclic p)

theorem Graph.Forest.below_siblings {g : Graph} (hg : g.Forest) {p a b u : NodeId}
    (ha : g.Child p a) (hb : g.Child p b) (hau : Below g a u) (hbu : Below g b u) : a = b := by
  have hab := hg.through_child ha hau (.single hb) hbu
  rcases Relation.ReflTransGen.cases_tail hab with rfl | ⟨c, hac, hcb⟩
  · rfl
  · obtain rfl := hg.unique c p b hcb hb
    exact absurd (Relation.TransGen.head' ha hac) (hg.acyclic c)

theorem below_siblings (g : Graph) (hg : g.PreOrder) (p a b u : NodeId) (ha : g.Child p a)
    (hb : g.Child p b) (hau : Below g a u) (hbu : Below g b u) : a = b :=
  hg.forest.below_siblings ha hb hau hbu

theorem defFree_below (g : Graph) (id c : NodeId) (h : DefFree g id) (hc : Below g id c) :
    DefFree g c :=
  fun d hd => h d (hc.trans hd)

namespace DdgWalker

variable {g : Graph} (opts : DdgBuildOptions)

/-! ## Walking a subtree -/

theorem walk_plain (fuel : Nat) (w : DdgWalker g) (id : NodeId) (h : IsPlain g id) :
    walk opts (fuel + 1) w id = (g.children id).foldlM (walk opts fuel) w := by
  obtain ⟨n, hn, hparam, hident, hdecl, hassign⟩ := h
  rw [walk]
  split
  · rename_i hnone
    rw [hn] at hnone
    cases hnone
  · rename_i n' hn'
    obtain rfl : n = n' := Option.some.inj (hn.symm.trans hn')
    split
    · exact absurd ‹_› hparam
    · exact absurd ‹_› hident
    · exact absurd ‹_› hdecl
    · exact absurd ‹_› hassign
    · rfl

theorem walk_identifier (fuel : Nat) (w : DdgWalker g) (id : NodeId) (n : Node)
    (hn : g.get id = some n) (hkind : n.kind = .identifier) :
    walk opts (fuel + 1) w id = some (w.emitUse id (g.valid_of_get id n hn) n.name) := by
  rw [walk]
  split
  · rename_i hnone
    rw [hn] at hnone
    cases hnone
  · rename_i n' hn'
    obtain rfl : n = n' := Option.some.inj (hn.symm.trans hn')
    rw [hkind]

theorem walk_assignment (fuel : Nat) (w : DdgWalker g) (id : NodeId) (n : Node)
    (hn : g.get id = some n) (hkind : n.kind = .assignment) :
    walk opts (fuel + 1) w id = walkAssignment opts (walk opts fuel) w id
      (g.valid_of_get id n hn) := by
  rw [walk]
  split
  · rename_i hnone
    rw [hn] at hnone
    cases hnone
  · rename_i n' hn'
    obtain rfl : n = n' := Option.some.inj (hn.symm.trans hn')
    rw [hkind]

theorem identifierName_eq_some (id : NodeId) (x : Bytes) (h : identifierName g id = some x) :
    ∃ n, g.get id = some n ∧ n.kind = .identifier ∧ n.name = x ∧ x ≠ [] := by
  unfold identifierName at h
  split at h
  · cases h
  · rename_i n hn
    split at h
    · rename_i hkind
      obtain rfl := Option.some.inj h
      exact ⟨n, hn, hkind.1, rfl, hkind.2⟩
    · cases h

theorem walk_wraps (outer id : NodeId) (hwraps : Wraps g outer id) (fuel : Nat) (w w' : DdgWalker g)
    (h : walk opts fuel w outer = some w') : ∃ fuel', walk opts fuel' w id = some w' := by
  induction hwraps generalizing fuel with
  | bare id => exact ⟨fuel, h⟩
  | wrapped outer inner id hplain hchildren _ ih =>
    cases fuel with
    | zero => cases h
    | succ fuel =>
      rw [walk_plain opts fuel w outer hplain, hchildren, List.foldlM_cons] at h
      simp only [List.foldlM_nil, Option.pure_def, Option.bind_eq_bind, Option.bind_fun_some] at h
      exact ih fuel h

theorem walk_edges (fuel : Nat) (w w' : DdgWalker g) (id : NodeId)
    (h : walk opts fuel w id = some w') (e : Edge) (he : e ∈ w'.edges) :
    e ∈ w.edges ∨ Below g id e.target := by
  refine walk_preserves opts (Below g id) (fun _ _ hp hc => hp.tail hc)
    (fun w' => ∀ e ∈ w'.edges, e ∈ w.edges ∨ Below g id e.target) ?_ ?_ fuel w w' id h
      Relation.ReflTransGen.refl
    (fun e he => Or.inl he) e he
  · intro w₁ c n hn hc _ hw e he
    rcases (mem_emitUse w₁ c _ n.name e).mp he with he | ⟨-, -, -, rfl, -⟩
    · exact hw e he
    · exact Or.inr hc
  · intro w₁ name c n hn _ _ hw e he
    rw [recordDef_edges] at he
    exact hw e he

theorem walk_keeps (fuel : Nat) (w w' : DdgWalker g) (id : NodeId)
    (h : walk opts fuel w id = some w') (e : Edge) (he : e ∈ w.edges) : e ∈ w'.edges := by
  refine walk_preserves opts (fun _ => True) (fun _ _ _ _ => trivial) (fun w' => e ∈ w'.edges) ?_ ?_
    fuel w w' id h
    trivial he
  · intro w₁ c n hn _ _ hw
    exact (mem_emitUse w₁ c _ n.name e).mpr (Or.inl hw)
  · intro w₁ name c n hn _ _ hw
    rw [recordDef_edges]
    exact hw

theorem walk_defFree (fuel : Nat) (w w' : DdgWalker g) (id : NodeId) (hfree : DefFree g id)
    (h : walk opts fuel w id = some w') :
    w'.defMap = w.defMap ∧
      ∀ e ∈ w'.edges, e ∈ w.edges ∨
        ∃ x, identifierName g e.target = some x ∧ w.defMap.lookup x = some e.source ∧
          e.source ≠ e.target := by
  refine walk_preserves opts (Below g id) (fun _ _ hp hc => hp.tail hc)
    (fun w' => w'.defMap = w.defMap ∧ ∀ e ∈ w'.edges, e ∈ w.edges ∨
      ∃ x, identifierName g e.target = some x ∧ w.defMap.lookup x = some e.source ∧
        e.source ≠ e.target)
    ?_ ?_ fuel w w' id h
    Relation.ReflTransGen.refl ⟨rfl, fun e he => Or.inl he⟩
  · rintro w₁ c n hn - hkind ⟨hmap, hedges⟩
    refine ⟨(emitUse_defMap w₁ c _ n.name).trans hmap, ?_⟩
    intro e he
    rcases (mem_emitUse w₁ c _ n.name e).mp he with he | ⟨hname, hlookup, hne, rfl, -⟩
    · exact hedges e he
    · rw [hmap] at hlookup
      refine Or.inr ⟨n.name, ?_, hlookup, hne⟩
      unfold identifierName
      rw [hn]
      exact if_pos ⟨hkind, hname⟩
  · intro w₁ name c n hn hc hkind
    obtain ⟨hdecl, hassign⟩ := hfree c hc n hn
    exact absurd hkind (by simp [hdecl, hassign])

theorem foldlM_defMap (fuel : Nat) (ids : List NodeId) (hfree : ∀ c ∈ ids, DefFree g c)
    (w w' : DdgWalker g) (h : ids.foldlM (walk opts fuel) w = some w') : w'.defMap = w.defMap := by
  refine Search.foldlM_preserves (fun w' => w'.defMap = w.defMap) _ ids ?_ w w' h rfl
  intro w₁ c w₂ hc h hw
  exact (walk_defFree opts fuel w₁ w₂ c (hfree c hc) h).1.trans hw

theorem foldlM_append_some {σ α : Type} (f : σ → α → Option σ) (l r : List α) (s s' : σ) :
    (l ++ r).foldlM f s = some s' ↔ ∃ t, l.foldlM f s = some t ∧ r.foldlM f t = some s' := by
  rw [List.foldlM_append, Option.bind_eq_bind, Option.bind_eq_some_iff]

theorem walk_visits (id u : NodeId) (hvisits : Visits g id u) (hfree : DefFree g id) (fuel : Nat)
    (w w' : DdgWalker g) (h : walk opts fuel w id = some w') (x : Bytes)
    (hx : identifierName g u = some x) (d : NodeId) (hd : w.defMap.lookup x = some d)
    (hne : d ≠ u) : ⟨d, u, .ddg⟩ ∈ w'.edges := by
  induction hvisits generalizing fuel w w' with
  | here u =>
    cases fuel with
    | zero => cases h
    | succ fuel =>
      obtain ⟨n, hn, hkind, rfl, hname⟩ := identifierName_eq_some u x hx
      rw [walk_identifier opts fuel w u n hn hkind] at h
      rw [← Option.some.inj h, mem_emitUse]
      exact Or.inr ⟨hname, hd, hne, rfl, rfl⟩
  | through outer inner u hplain hc _ ih =>
    cases fuel with
    | zero => cases h
    | succ fuel =>
      rw [walk_plain opts fuel w outer hplain] at h
      have hmem := (g.mem_children outer inner).mpr hc
      have hchildren : ∀ c ∈ g.children outer, DefFree g c := fun c hc =>
        defFree_below g outer c hfree
          (Relation.ReflTransGen.single ((g.mem_children outer c).mp hc))
      -- The siblings before bind nothing, and those behind take no edge away.
      obtain ⟨before, after, hsplit⟩ := List.append_of_mem hmem
      rw [hsplit] at h hchildren
      obtain ⟨w₁, h₁, h⟩ := (foldlM_append_some _ _ _ _ _).mp h
      rw [List.foldlM_cons, Option.bind_eq_bind, Option.bind_eq_some_iff] at h
      obtain ⟨w₂, h₂, h⟩ := h
      have hmap := foldlM_defMap opts fuel before
        (fun c hc => hchildren c (List.mem_append_left _ hc)) w w₁ h₁
      have hedge : ⟨d, u, .ddg⟩ ∈ w₂.edges := by
        exact ih (hchildren inner (by simp)) fuel w₁ w₂ h₂ hx (hmap ▸ hd) hne
      refine Search.foldlM_preserves (fun w : DdgWalker g => (⟨d, u, .ddg⟩ : Edge) ∈ w.edges) _
        after ?_ w₂ w' h hedge
      intro w₁ c w₂ _ h hw
      exact walk_keeps opts fuel w₁ w₂ c h _ hw

theorem walk_assign (a : Assign) (ha : IsAssign g a) (fuel : Nat) (w w' : DdgWalker g)
    (h : walk opts fuel w a.stmt = some w') :
    w'.defMap =
      if opts.trackAssignments then bindName opts.maxNamesPerFunction w.defMap (a.name, a.node)
      else w.defMap := by
  obtain ⟨fuel', h⟩ := walk_wraps opts a.stmt a.node ha.wraps fuel w w' h
  obtain ⟨n, hn, hkind⟩ := ha.assignment
  obtain ⟨target, hchildren, htarget⟩ := ha.target
  cases fuel' with
  | zero => cases h
  | succ fuel =>
    rw [walk_assignment opts fuel w a.node n hn hkind] at h
    obtain ⟨tn, htn, htkind, htname, hname⟩ := identifierName_eq_some target a.name htarget
    have hany : (g.get target).any (·.kind ≠ .identifier) = false := by simp [htn, htkind]
    have htargetName : targetName g target = a.name := by
      unfold targetName
      rw [htn]
      simp [Option.filter, htkind, htname]
    rcases walkAssignment_cases opts _ w w' a.node _ h
      with ⟨hnil, -⟩ | ⟨t, vs, w₁, w₂, hcs, h₁, h₂, rfl⟩
    · rw [hchildren] at hnil
      cases hnil
    · rw [hchildren, List.cons.injEq] at hcs
      obtain ⟨rfl, rfl⟩ := hcs
      -- The values are walked first, under the names from before the assignment.
      have hmap := foldlM_defMap opts fuel a.values ha.values w w₁ h₁
      rcases h₂ with ⟨h₂, -⟩ | ⟨-, rfl⟩
      · rw [hany] at h₂
        cases h₂
      · rw [htargetName]
        simp only [hname, ne_eq, not_false_eq_true, and_true]
        split
        · rw [recordDef_defMap, hmap]
        · exact hmap

/-! ## The names that are bound -/

theorem setDef_keys (m : List (Bytes × NodeId)) (name : Bytes) (id : NodeId) :
    (setDef m name id).map (·.1) = if name ∈ m.map (·.1) then m.map (·.1)
      else m.map (·.1) ++ [name] := by
  induction m with
  | nil => simp [setDef]
  | cons d rest ih =>
    obtain ⟨k, v⟩ := d
    unfold setDef
    by_cases hk : k = name
    · simp [hk]
    · have hk' : name ≠ k := fun h => hk h.symm
      simp only [hk, if_false, List.map_cons, ih, List.mem_cons, hk', false_or]
      split <;> rfl

theorem setDef_lookup (m : List (Bytes × NodeId)) (name : Bytes) (id : NodeId) :
    (setDef m name id).lookup name = some id := by
  induction m with
  | nil => simp [setDef]
  | cons d rest ih =>
    obtain ⟨k, v⟩ := d
    unfold setDef
    by_cases hk : k = name
    · simp [hk]
    · have hk' : (name == k) = false := by simpa using fun h => hk h.symm
      rw [if_neg hk, List.lookup_cons, hk']
      exact ih

theorem lookup_eq_none (m : List (Bytes × NodeId)) (name : Bytes) :
    m.lookup name = none ↔ name ∉ m.map (·.1) := by
  rw [List.lookup_eq_none_iff]
  simp only [List.mem_map, not_exists, not_and, bne_iff_ne]
  exact ⟨fun h d hd heq => h d hd heq.symm, fun h d hd heq => h d hd heq.symm⟩

theorem bindName_lookup (limit : Nat) (m : List (Bytes × NodeId)) (name : Bytes) (id : NodeId)
    (hname : name ≠ []) :
    (bindName limit m (name, id)).lookup name = some id ∨
      (bindName limit m (name, id)).lookup name = none := by
  unfold bindName
  rw [if_neg hname]
  split
  · rename_i hfull
    exact Or.inr hfull.2
  · exact Or.inl (setDef_lookup m name id)

theorem bindName_lookup_iff (limit : Nat) (m : List (Bytes × NodeId)) (name : Bytes) (id : NodeId)
    (hname : name ≠ []) :
    (bindName limit m (name, id)).lookup name = some id ↔
      name ∈ (bindName limit m (name, id)).map (·.1) := by
  have hnone := lookup_eq_none (bindName limit m (name, id)) name
  rcases bindName_lookup limit m name id hname with h | h
  · rw [h] at hnone ⊢
    simpa using hnone
  · rw [h] at hnone ⊢
    simpa using hnone

theorem bindName_keys (limit : Nat) (m : List (Bytes × NodeId)) (d : Bytes × NodeId)
    (hname : d.1 ≠ []) :
    (bindName limit m d).map (·.1) =
      if d.1 ∈ m.map (·.1) ∨ limit ≤ m.length then m.map (·.1) else m.map (·.1) ++ [d.1] := by
  unfold bindName
  have hnone := lookup_eq_none m d.1
  rw [if_neg hname]
  by_cases hin : d.1 ∈ m.map (·.1)
  · rw [if_neg (fun h => hnone.mp h.2 hin), if_pos (Or.inl hin), setDef_keys, if_pos hin]
  · by_cases hfull : limit ≤ m.length
    · rw [if_pos ⟨hfull, hnone.mpr hin⟩, if_pos (Or.inr hfull)]
    · rw [if_neg (fun h => hfull h.1), setDef_keys, if_neg hin, if_neg (by simp [hin, hfull])]

theorem foldl_bindName_keys (limit : Nat) (bindings : List (Bytes × NodeId))
    (hnames : ∀ d ∈ bindings, d.1 ≠ []) :
    (bindings.foldl (bindName limit) []).map (·.1) = (bindings.map (·.1)).eraseDups.take limit := by
  induction bindings using List.reverseRecOn with
  | nil => simp
  | append_singleton bindings d ih =>
    have ih := ih fun d hd => hnames d (List.mem_append_left _ hd)
    have hlen := congrArg List.length ih
    rw [List.length_map, List.length_take] at hlen
    rw [List.foldl_append, List.foldl_cons, List.foldl_nil,
      bindName_keys limit _ d (hnames d (by simp)), ih, hlen,
      List.map_append, List.map_singleton, List.eraseDups_append]
    generalize bindings.map (·.1) = names at *
    -- A known name is bound again and takes no room. A new one is added only while there is room.
    by_cases hin : d.1 ∈ names
    · have hnew : [d.1].removeAll names = [] := by simp [List.removeAll, hin]
      rw [hnew, List.eraseDups_nil, List.append_nil, if_pos]
      by_cases hfull : limit ≤ names.eraseDups.length
      · exact Or.inr (by omega)
      · left
        rw [List.take_of_length_le (by omega), List.mem_eraseDups]
        exact hin
    · have hnew : [d.1].removeAll names = [d.1] := by simp [List.removeAll, hin]
      have hout : d.1 ∉ names.eraseDups.take limit :=
        fun h => hin (List.mem_eraseDups.mp (List.mem_of_mem_take h))
      rw [hnew, List.eraseDups_cons, List.filter_nil, List.eraseDups_nil]
      by_cases hfull : limit ≤ names.eraseDups.length
      · rw [if_pos (Or.inr (by omega)), List.take_append_of_le_length hfull]
      · rw [if_neg (by simp only [hout, false_or]; omega), List.take_of_length_le (by omega),
          List.take_of_length_le (by simp; omega)]

theorem identifierChildren_ne_nil (id : NodeId) (ident : NodeId × Bytes)
    (h : ident ∈ identifierChildren g id) : ident.2 ≠ [] := by
  unfold identifierChildren at h
  rw [List.mem_flatMap] at h
  obtain ⟨c, -, h⟩ := h
  split at h
  · rename_i name hname
    rw [List.mem_singleton.mp h]
    exact (identifierName_eq_some c name hname).choose_spec.2.2.2
  · rw [Option.mem_toList] at h
    obtain ⟨gc, -, h⟩ := List.exists_of_findSome?_eq_some h
    rw [Option.map_eq_some_iff] at h
    obtain ⟨name, hname, rfl⟩ := h
    exact (identifierName_eq_some gc name hname).choose_spec.2.2.2

theorem parameterBindings_ne_nil (fuel : Nat) (root : NodeId) (d : Bytes × NodeId)
    (h : d ∈ parameterBindings g fuel root) : d.1 ≠ [] := by
  obtain ⟨-, ident, hident, hname⟩ := mem_parameterBindings fuel root d h
  rw [← hname]
  exact identifierChildren_ne_nil d.2 ident hident

/-! ## The whole function -/

/-- The names bound after the assignments `assigns`, with their binders. -/
def boundBy (opts : DdgBuildOptions) (m : List (Bytes × NodeId)) (assigns : List Assign) :
    List (Bytes × NodeId) :=
  if opts.trackAssignments then
    (assigns.map fun a => (a.name, a.node)).foldl (bindName opts.maxNamesPerFunction) m
  else m

theorem foldlM_assigns (fuel : Nat) (assigns : List Assign) (hassigns : ∀ a ∈ assigns, IsAssign g a)
    (w w' : DdgWalker g) (h : (assigns.map (·.stmt)).foldlM (walk opts fuel) w = some w') :
    w'.defMap = boundBy opts w.defMap assigns := by
  induction assigns generalizing w with
  | nil =>
    rw [← Option.some.inj h]
    unfold boundBy
    split <;> rfl
  | cons a rest ih =>
    rw [List.map_cons, List.foldlM_cons, Option.bind_eq_bind, Option.bind_eq_some_iff] at h
    obtain ⟨w₁, h₁, h⟩ := h
    have hmap := walk_assign opts a (hassigns a List.mem_cons_self) fuel w w₁ h₁
    rw [ih (fun a ha => hassigns a (List.mem_cons_of_mem _ ha)) w₁ h, hmap]
    unfold boundBy
    split <;> rfl

theorem foldlM_edges (fuel : Nat) (ids : List NodeId) (w w' : DdgWalker g) (u : NodeId)
    (hids : ∀ c ∈ ids, ¬ Below g c u) (hw : ∀ e ∈ w.edges, e.target ≠ u)
    (h : ids.foldlM (walk opts fuel) w = some w') : ∀ e ∈ w'.edges, e.target ≠ u := by
  refine Search.foldlM_preserves (fun w : DdgWalker g => ∀ e ∈ w.edges, e.target ≠ u) _ ids
    ?_ w w' h hw
  intro w₁ c w₂ hc h hw e he
  rcases walk_edges opts fuel w₁ w₂ c h e he with he | hbelow
  · exact hw e he
  · rintro rfl
    exact hids c hc hbelow

end DdgWalker

namespace CopyFunction

open DdgWalker

variable {g : Graph} (p : CopyFunction g)

def last : Assign := (p.first :: p.copies).getLast (by simp)

theorem last_mem : p.last ∈ p.first :: p.copies := List.getLast_mem _

theorem use_below_stmt : Below g p.stmt p.use :=
  (wraps_below g p.stmt p.call p.call_wraps).trans (visits_below g p.call p.use p.use_visited)

theorem child_body (c : NodeId) (hc : c ∈ (p.first :: p.copies).map (·.stmt) ++ [p.stmt]) :
    g.Child p.body c := by
  rw [← g.mem_children, p.children_body]
  exact hc

theorem child_fn (c : NodeId) (hc : c ∈ p.header ++ [p.body]) : g.Child p.fn c := by
  rw [← g.mem_children, p.children_fn]
  exact hc

theorem assigns_disjoint (hg : g.PreOrder) (c : NodeId)
    (hc : c ∈ (p.first :: p.copies).map (·.stmt)) : ¬ Below g c p.use := by
  intro hbelow
  have heq := below_siblings g hg p.body c p.stmt p.use (p.child_body c (List.mem_append_left _ hc))
    (p.child_body p.stmt (by simp)) hbelow p.use_below_stmt
  have hnodup := hg.children_nodup p.body
  rw [p.children_body] at hnodup
  exact (List.nodup_append.mp hnodup).2.2 c hc p.stmt (List.mem_singleton_self _) heq

theorem header_disjoint (hg : g.PreOrder) (c : NodeId) (hc : c ∈ p.header) : ¬ Below g c p.use := by
  intro hbelow
  have hbody : Below g p.body p.use :=
    Relation.ReflTransGen.head (p.child_body p.stmt (by simp)) p.use_below_stmt
  have heq := below_siblings g hg p.fn c p.body p.use (p.child_fn c (List.mem_append_left _ hc))
    (p.child_fn p.body (by simp)) hbelow hbody
  have hnodup := hg.children_nodup p.fn
  rw [p.children_fn] at hnodup
  exact (List.nodup_append.mp hnodup).2.2 c hc p.body (List.mem_singleton_self _) heq

theorem body_walk (opts : DdgBuildOptions) (fuel : Nat) (w w' : DdgWalker g) (hg : g.PreOrder)
    (hw : ∀ e ∈ w.edges, e.target ≠ p.use) (h : walk opts fuel w p.body = some w') (d : NodeId) :
    ⟨d, p.use, .ddg⟩ ∈ w'.edges ↔
      d ≠ p.use ∧ (boundBy opts w.defMap (p.first :: p.copies)).lookup p.last.name = some d := by
  cases fuel with
  | zero => cases h
  | succ fuel =>
    rw [walk_plain opts fuel w p.body p.body_plain, p.children_body, foldlM_append_some] at h
    obtain ⟨w₁, h₁, h⟩ := h
    simp only [List.foldlM_cons, List.foldlM_nil, Option.pure_def, Option.bind_eq_bind,
      Option.bind_fun_some] at h
    obtain ⟨fuel', h₂⟩ := walk_wraps opts p.stmt p.call p.call_wraps fuel w₁ w' h
    rw [← foldlM_assigns opts fuel _ p.assigns w w₁ h₁]
    have hbefore := foldlM_edges opts fuel _ w w₁ p.use (p.assigns_disjoint hg) hw h₁
    constructor
    · intro he
      rcases (walk_defFree opts fuel' w₁ w' p.call p.call_free h₂).2 _ he
        with he | ⟨x, hx, hlookup, hne⟩
      · exact absurd rfl (hbefore _ he)
      · rw [p.use_name, Option.some.injEq] at hx
        subst hx
        exact ⟨hne, hlookup⟩
    · rintro ⟨hne, hlookup⟩
      exact walk_visits opts p.call p.use p.use_visited p.call_free fuel' w₁ w' h₂ _ p.use_name
        d hlookup hne

/-- The binders of the parameters' names. -/
def parameters (opts : DdgBuildOptions) (fuel : Nat) : List (Bytes × NodeId) :=
  (parameterBindings g fuel p.fn).foldl (bindName opts.maxNamesPerFunction) []

theorem header_walk (opts : DdgBuildOptions) (fuel : Nat) (hg : g.PreOrder) (w w' : DdgWalker g)
    (hw : ∀ e ∈ w.edges, e.target ≠ p.use)
    (h : p.header.foldlM (fun w child =>
      match g.get child with
      | none => some w
      | some n => if n.kind = .parameter then some w else walk opts fuel w child) w = some w') :
    w'.defMap = w.defMap ∧ ∀ e ∈ w'.edges, e.target ≠ p.use := by
  refine Search.foldlM_preserves
    (fun w' : DdgWalker g => w'.defMap = w.defMap ∧ ∀ e ∈ w'.edges, e.target ≠ p.use) _ _ ?_ w
      w' h ⟨rfl, hw⟩
  rintro w₁ c w₂ hc h ⟨hmap, hedges⟩
  split at h
  · rw [← Option.some.inj h]
    exact ⟨hmap, hedges⟩
  · split at h
    · rw [← Option.some.inj h]
      exact ⟨hmap, hedges⟩
    · refine ⟨(walk_defFree opts fuel w₁ w₂ c (p.header_free c hc) h).1.trans hmap, ?_⟩
      intro e he
      rcases walk_edges opts fuel w₁ w₂ c h e he with he | hbelow
      · exact hedges e he
      · rintro heq
        rw [heq] at hbelow
        exact p.header_disjoint hg c hc hbelow

theorem use_edges (opts : DdgBuildOptions) (fuel : Nat) (w : DdgWalker g) (hg : g.PreOrder)
    (h : processFunction opts fuel {} p.fn = some w) (d : NodeId) :
    ⟨d, p.use, .ddg⟩ ∈ w.edges ↔
      d ≠ p.use ∧ (boundBy opts (p.parameters opts fuel) (p.first :: p.copies)).lookup p.last.name =
        some d := by
  unfold processFunction at h
  rw [Option.bind_eq_bind, Option.bind_eq_some_iff] at h
  obtain ⟨w₁, h₁, h⟩ := h
  obtain ⟨hedges, hmap⟩ := registerParameters_spec opts fuel _ w₁ p.fn h₁
  rw [p.children_fn, foldlM_append_some] at h
  obtain ⟨w₂, h₂, h⟩ := h
  obtain ⟨hmap₂, hedges₂⟩ := p.header_walk opts fuel hg w₁ w₂ (by rw [hedges]; exact nofun) h₂
  obtain ⟨n, hn, hplain⟩ := p.body_plain
  simp only [List.foldlM_cons, List.foldlM_nil, Option.pure_def, Option.bind_eq_bind,
    Option.bind_fun_some, hn, hplain.1, if_false] at h
  rw [p.body_walk opts fuel w₂ w hg hedges₂ h d, hmap₂, hmap]
  rfl

theorem ddg_use_iff (opts : DdgBuildOptions) (fuel : Nat) (hg : g.PreOrder)
    (hast : ∀ e ∈ g.edges, e.kind = .astChild) (g' : Graph) (stats : DdgStats)
    (h : buildDdg fuel g opts = some (g', stats)) (d : NodeId) :
    g'.Ddg d p.use ↔
      d ≠ p.use ∧ (boundBy opts (p.parameters opts fuel) (p.first :: p.copies)).lookup p.last.name =
        some d := by
  unfold buildDdg at h
  rw [p.functions] at h
  simp only [List.foldlM_cons, List.foldlM_nil, Option.pure_def, Option.bind_eq_bind,
    Option.bind_fun_some, Option.bind_eq_some_iff, Option.some.injEq, Prod.mk.injEq] at h
  obtain ⟨w, hw, rfl, -⟩ := h
  rw [← p.use_edges opts fuel w hg hw d]
  constructor
  · rintro ⟨e, he, hkind, rfl, htarget⟩
    rcases List.mem_append.mp he with he | he
    · rw [hast e he] at hkind
      cases hkind
    · rw [← hkind, ← htarget]
      exact he
  · intro he
    exact ⟨_, List.mem_append_right _ he, rfl, rfl, rfl⟩

/-! ## When the call depends on the first assignment -/

/-- The first assigned name is among the names that the limit on names lets in, after the
parameters' names. -/
def HasRoom (opts : DdgBuildOptions) (fuel : Nat) : Prop :=
  p.first.name ∈
    ((parameterBindings g fuel p.fn).map (·.1) ++ [p.first.name]).eraseDups.take
      opts.maxNamesPerFunction

theorem assign_name (a : Assign) (ha : IsAssign g a) : a.name ≠ [] := by
  obtain ⟨target, -, htarget⟩ := ha.target
  obtain ⟨-, -, -, -, hname⟩ := identifierName_eq_some target a.name htarget
  exact hname

theorem parameters_ne_first (opts : DdgBuildOptions) (fuel : Nat) (x : Bytes) :
    (p.parameters opts fuel).lookup x ≠ some p.first.node := by
  intro h
  obtain ⟨n, hn, hkind⟩ := (p.assigns p.first List.mem_cons_self).assignment
  rcases mem_foldl_bindName _ _ _ _ (mem_of_lookup _ _ _ h) with hm | hm
  · cases hm
  · obtain ⟨⟨n', hn', hkind'⟩, -⟩ := mem_parameterBindings fuel p.fn _ hm
    rw [hn, Option.some.injEq] at hn'
    rw [← hn', hkind] at hkind'
    cases hkind'

theorem first_ne_last (hg : g.PreOrder) (hcopies : p.copies ≠ []) : p.last.node ≠ p.first.node := by
  intro heq
  have hlast : p.last ∈ p.copies := by
    unfold last
    rw [List.getLast_cons hcopies]
    exact List.getLast_mem hcopies
  have hfirst := wraps_below g _ _ (p.assigns p.first List.mem_cons_self).wraps
  have hbelow := wraps_below g _ _ (p.assigns p.last p.last_mem).wraps
  rw [heq] at hbelow
  have hstmt := below_siblings g hg p.body p.first.stmt p.last.stmt p.first.node
    (p.child_body _ (by simp))
    (p.child_body _ (List.mem_append_left _ (List.mem_map_of_mem p.last_mem))) hfirst hbelow
  have hnodup := hg.children_nodup p.body
  rw [p.children_body, List.map_cons, List.cons_append, List.nodup_cons] at hnodup
  apply hnodup.1
  rw [hstmt]
  exact List.mem_append_left _ (List.mem_map_of_mem hlast)

theorem boundBy_last (opts : DdgBuildOptions) (m : List (Bytes × NodeId))
    (htrack : opts.trackAssignments = true) :
    ∃ m', boundBy opts m (p.first :: p.copies) =
      bindName opts.maxNamesPerFunction m' (p.last.name, p.last.node) := by
  have hsplit : p.first :: p.copies = (p.first :: p.copies).dropLast ++ [p.last] :=
    (List.dropLast_append_getLast _).symm
  unfold boundBy
  rw [if_pos htrack, hsplit, List.map_append, List.foldl_append]
  exact ⟨_, rfl⟩

theorem bound_first_iff (opts : DdgBuildOptions) (fuel : Nat) (hg : g.PreOrder) :
    (boundBy opts (p.parameters opts fuel) (p.first :: p.copies)).lookup p.last.name =
      some p.first.node ↔ opts.trackAssignments = true ∧ p.copies = [] ∧ p.HasRoom opts fuel := by
  by_cases htrack : opts.trackAssignments = true
  · by_cases hcopies : p.copies = []
    · have hlast : p.last = p.first := by
        unfold last
        simp [hcopies]
      have hname := assign_name p.first (p.assigns p.first List.mem_cons_self)
      have hkeys := foldl_bindName_keys opts.maxNamesPerFunction
        (parameterBindings g fuel p.fn ++ [(p.first.name, p.first.node)]) (by
          intro d hd
          rcases List.mem_append.mp hd with hd | hd
          · exact parameterBindings_ne_nil fuel p.fn d hd
          · rw [List.mem_singleton.mp hd]
            exact hname)
      rw [List.foldl_append, List.map_append] at hkeys
      simp only [htrack, hcopies, true_and]
      unfold HasRoom boundBy
      rw [if_pos htrack, hlast]
      show (bindName _ (p.parameters opts fuel) (p.first.name, p.first.node)).lookup _ = _ ↔ _
      rw [bindName_lookup_iff _ _ _ _ hname]
      exact iff_of_eq (congrArg (p.first.name ∈ ·) hkeys)
    -- With a copy in between, the last name is bound by that copy or by nothing.
    · obtain ⟨m', hm'⟩ := p.boundBy_last opts (p.parameters opts fuel) htrack
      have hname := assign_name p.last (p.assigns p.last p.last_mem)
      simp only [hcopies, false_and, and_false, iff_false]
      rw [hm']
      rcases bindName_lookup opts.maxNamesPerFunction m' p.last.name p.last.node hname with h | h
      · rw [h, Option.some.injEq]
        exact p.first_ne_last hg hcopies
      · rw [h]
        exact nofun
  · unfold boundBy
    rw [if_neg htrack]
    constructor
    · intro h
      exact absurd h (p.parameters_ne_first opts fuel p.last.name)
    · intro h
      exact absurd h.1 htrack

theorem first_reaches_use_iff (opts : DdgBuildOptions) (fuel : Nat) (hg : g.PreOrder)
    (hast : ∀ e ∈ g.edges, e.kind = .astChild) (g' : Graph) (stats : DdgStats)
    (h : buildDdg fuel g opts = some (g', stats)) :
    Relation.TransGen g'.Ddg p.first.node p.use ↔
      opts.trackAssignments = true ∧ p.copies = [] ∧ p.HasRoom opts fuel := by
  have hne : p.first.node ≠ p.use := by
    intro heq
    obtain ⟨n, hn, hkind⟩ := (p.assigns p.first List.mem_cons_self).assignment
    obtain ⟨n', hn', hkind', -⟩ := identifierName_eq_some p.use _ p.use_name
    rw [heq, hn', Option.some.injEq] at hn
    rw [← hn, hkind'] at hkind
    cases hkind
  rw [← p.bound_first_iff opts fuel hg]
  constructor
  · intro hpath
    have hddg := ddg_path_single fuel g hast opts g' stats h p.first.node p.use hpath
    exact ((p.ddg_use_iff opts fuel hg hast g' stats h _).mp hddg).2
  · intro hlookup
    exact Relation.TransGen.single
      ((p.ddg_use_iff opts fuel hg hast g' stats h _).mpr ⟨hne, hlookup⟩)

end CopyFunction

end Euxis.Cpg
