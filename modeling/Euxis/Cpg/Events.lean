import Euxis.Bindings
import Euxis.Cpg.Copies

/-!
# The walk as a list of events

Which identifiers a walk reads and which names it binds, and in which order, depends on the tree
alone. The edges follow from this list and the definitions that were there before.
-/

namespace Euxis.Cpg

open Bindings

namespace DdgWalker

abbrev NameEvent := Event Bytes NodeId

/-! ## Events of a tree -/

section Events

variable (g : Graph) (opts : DdgBuildOptions)

/-- The children that the walk goes into, in its order: the values of an assignment before its
target. -/
def entered (id : NodeId) : List NodeId :=
  match (g.get id).map Node.kind with
  | none | some .parameter | some .identifier => []
  | some .declaration =>
    if opts.trackDeclarations = false then g.children id
    else (g.children id).filter fun c => !(identifierName g c).isSome
  | some .assignment =>
    match g.children id with
    | [] => []
    | target :: values =>
      if (g.get target).any (·.kind ≠ .identifier) then values ++ [target] else values
  | some _ => g.children id

/-- The names that the walk binds to the node when it leaves it. -/
def bound (id : NodeId) : List Bytes :=
  match (g.get id).map Node.kind with
  | some .declaration =>
    if opts.trackDeclarations = false then [] else (identifierChildren g id).map (·.2)
  | some .assignment =>
    match g.children id with
    | [] => []
    | target :: _ =>
      if opts.trackAssignments ∧ targetName g target ≠ [] then [targetName g target] else []
  | _ => []

def walkEvents : Nat → NodeId → List NameEvent
  | 0, _ => []
  | fuel + 1, id =>
    (identifierName g id).toList.map (.use · id) ++
      ((entered g opts id).flatMap (walkEvents fuel) ++ (bound g opts id).map (.bind · id))

/-- What a function reads and binds behind its parameters. -/
def bodyEvents (fuel : Nat) (fn : NodeId) : List NameEvent :=
  (g.children fn).flatMap (walkEvents g opts fuel)

end Events

/-! ## Edges of events -/

section Emits

variable (limit : Nat)

def useEdge (m : List (Bytes × NodeId)) (x : Bytes) (u : NodeId) : List Edge :=
  match m.lookup x with
  | none => []
  | some d => if d = u then [] else [⟨d, u, .ddg⟩]

def bindAll (m defs : List (Bytes × NodeId)) : List (Bytes × NodeId) :=
  defs.foldl (bindName limit) m

def emits : List (Bytes × NodeId) → List NameEvent → List Edge
  | _, [] => []
  | m, .use x u :: events => useEdge m x u ++ emits m events
  | m, .bind x d :: events => emits (bindName limit m (x, d)) events

theorem bindAll_append (m defs defs' : List (Bytes × NodeId)) :
    bindAll limit m (defs ++ defs') = bindAll limit (bindAll limit m defs) defs' :=
  List.foldl_append

theorem emits_append (m : List (Bytes × NodeId)) (es fs : List NameEvent) :
    emits limit m (es ++ fs) = emits limit m es ++
      emits limit (bindAll limit m (definitions es)) fs := by
  induction es generalizing m with
  | nil => rfl
  | cons e rest ih =>
    cases e with
    | use x u =>
      rw [List.cons_append, emits, ih, emits, List.append_assoc]
      rfl
    | bind x d =>
      rw [List.cons_append, emits, ih, emits]
      rfl

theorem mem_useEdge {m : List (Bytes × NodeId)} {x : Bytes} {u : NodeId} {e : Edge} :
    e ∈ useEdge m x u ↔ m.lookup x = some e.source ∧ e.source ≠ e.target ∧ e.target = u ∧
      e.kind = .ddg := by
  obtain ⟨source, target, kind⟩ := e
  unfold useEdge
  split
  · rename_i hnone
    simp [hnone]
  · rename_i d hd
    rw [hd]
    split
    · rename_i heq
      subst heq
      simp only [List.not_mem_nil, Option.some.injEq, false_iff, not_and]
      rintro rfl hne heq
      exact absurd heq.symm hne
    · rename_i hne
      simp only [List.mem_singleton, Edge.mk.injEq, Option.some.injEq]
      constructor
      · rintro ⟨rfl, rfl, rfl⟩
        exact ⟨rfl, hne, rfl, rfl⟩
      · rintro ⟨rfl, -, rfl, rfl⟩
        exact ⟨rfl, rfl, rfl⟩

theorem mem_emits {m : List (Bytes × NodeId)} {events : List NameEvent} {e : Edge} :
    e ∈ emits limit m events ↔
      ∃ before x after, events = before ++ .use x e.target :: after ∧
        (bindAll limit m (definitions before)).lookup x = some e.source ∧ e.source ≠ e.target ∧
        e.kind = .ddg := by
  constructor
  · intro he
    induction events generalizing m with
    | nil => cases he
    | cons event rest ih =>
      cases event with
      | use x u =>
        rcases List.mem_append.mp he with he | he
        · obtain ⟨hlookup, hne, rfl, hkind⟩ := mem_useEdge.mp he
          exact ⟨[], x, rest, rfl, hlookup, hne, hkind⟩
        · obtain ⟨before, y, after, rfl, h⟩ := ih he
          exact ⟨.use x u :: before, y, after, rfl, h⟩
      | bind x d =>
        obtain ⟨before, y, after, rfl, h⟩ := ih he
        exact ⟨.bind x d :: before, y, after, rfl, h⟩
  · rintro ⟨before, x, after, rfl, hlookup, hne, hkind⟩
    rw [emits_append, emits]
    exact List.mem_append_right _
      (List.mem_append_left _ (mem_useEdge.mpr ⟨hlookup, hne, rfl, hkind⟩))

theorem emits_targets (m : List (Bytes × NodeId)) (events : List NameEvent) :
    ((emits limit m events).map (·.target)).Sublist (readers events) := by
  induction events generalizing m with
  | nil => exact .slnil
  | cons event rest ih =>
    cases event with
    | use x u =>
      rw [emits, List.map_append, ← List.singleton_append, readers_append]
      refine List.Sublist.append ?_ (ih m)
      unfold useEdge
      split
      · exact List.nil_sublist _
      · split
        · exact List.nil_sublist _
        · exact List.Sublist.refl _
    | bind x d => exact ih _

end Emits

/-! ## The walk follows its events -/

section Follows

variable {g : Graph} (opts : DdgBuildOptions)

/-- The walker has come from the first state to the second one by these events. -/
structure Follows (w w' : DdgWalker g) (events : List NameEvent) : Prop where
  edges : w'.edges = w.edges ++ emits opts.maxNamesPerFunction w.defMap events
  defMap : w'.defMap = bindAll opts.maxNamesPerFunction w.defMap (definitions events)

variable {opts} {w w' w'' : DdgWalker g} {es fs : List NameEvent}

theorem Follows.refl (w : DdgWalker g) : Follows opts w w [] := ⟨(List.append_nil _).symm, rfl⟩

theorem Follows.trans (h : Follows opts w w' es) (h' : Follows opts w' w'' fs) :
    Follows opts w w'' (es ++ fs) := by
  constructor
  · rw [h'.edges, h.edges, h.defMap, emits_append, List.append_assoc]
  · rw [h'.defMap, h.defMap, definitions_append, bindAll_append]

theorem follows_foldlM (opts : DdgBuildOptions) (walk : DdgWalker g → NodeId → Option (DdgWalker g))
    (events : NodeId → List NameEvent) (l : List NodeId)
    (hwalk : ∀ w c w', c ∈ l → walk w c = some w' → Follows opts w w' (events c))
    (h : l.foldlM walk w = some w') : Follows opts w w' (l.flatMap events) := by
  induction l generalizing w with
  | nil =>
    obtain rfl := Option.some.inj h
    exact .refl w
  | cons c rest ih =>
    rw [List.foldlM_cons, Option.bind_eq_bind, Option.bind_eq_some_iff] at h
    obtain ⟨w₁, h₁, h⟩ := h
    rw [List.flatMap_cons]
    exact (hwalk w c w₁ List.mem_cons_self h₁).trans
      (ih (fun w c w' hc => hwalk w c w' (List.mem_cons_of_mem _ hc)) h)

theorem follows_emitUse (opts : DdgBuildOptions) (w : DdgWalker g) (id : NodeId)
    (hid : ValidId g.nodes id) (name : Bytes) :
    Follows opts w (w.emitUse id hid name) (if name = [] then [] else [.use name id]) := by
  unfold emitUse
  split
  · exact .refl w
  · refine ⟨?_, ?_⟩
    · rw [emits, emits, List.append_nil]
      split
      · rename_i hnone
        rw [useEdge, hnone, List.append_nil]
      · rename_i d hd
        have hedge : useEdge w.defMap name id = if d = id then []
            else [⟨d, id, .ddg⟩] := by rw [useEdge, hd]
        rw [hedge]
        split
        · exact (List.append_nil _).symm
        · rfl
    · split
      · rfl
      · split <;> rfl

theorem follows_recordDef (w : DdgWalker g) (name : Bytes) (id : NodeId)
    (hid : ValidId g.nodes id) : Follows opts w (w.recordDef opts name id hid) [.bind name id] :=
  ⟨by rw [recordDef_edges, emits, emits, List.append_nil], recordDef_defMap opts w name id hid⟩

theorem follows_recordAll (w : DdgWalker g) (id : NodeId) (hid : ValidId g.nodes id)
    (idents : List (NodeId × Bytes)) :
    Follows opts w (idents.foldl (fun w ident => w.recordDef opts ident.2 id hid) w)
      ((idents.map (·.2)).map (.bind · id)) := by
  induction idents generalizing w with
  | nil => exact .refl w
  | cons ident rest ih => exact (follows_recordDef w ident.2 id hid).trans (ih _)

section Handlers

variable (walk : DdgWalker g → NodeId → Option (DdgWalker g)) (events : NodeId → List NameEvent)
  {id : NodeId} {n : Node}
  (hwalk : ∀ w c w', c ∈ g.children id → walk w c = some w' → Follows opts w w' (events c))
  (hn : g.get id = some n)

include hwalk hn

theorem follows_declaration (hkind : n.kind = .declaration) (hid : ValidId g.nodes id)
    (h : walkDeclaration opts walk w id hid = some w') :
    Follows opts w w' ((entered g opts id).flatMap events ++
      (bound g opts id).map (.bind · id)) := by
  unfold walkDeclaration at h
  simp only [entered, bound, hn, Option.map_some, hkind]
  split at h
  · rename_i htrack
    rw [if_pos htrack, if_pos htrack, List.map_nil, List.append_nil]
    exact follows_foldlM opts walk events _ hwalk h
  · rename_i htrack
    rw [if_neg htrack, if_neg htrack]
    simp only [Option.bind_eq_bind, Option.bind_eq_some_iff, Option.pure_def, Option.some.injEq]
      at h
    obtain ⟨w₁, h₁, rfl⟩ := h
    refine Follows.trans ?_ (follows_recordAll w₁ id hid (identifierChildren g id))
    -- A child that names what is declared is passed over.
    have hskip := follows_foldlM opts _ (fun c => if (identifierName g c).isSome then []
      else events c)
      (g.children id) (fun w c w' hc h => by
        split at h
        · rename_i hname
          rw [if_pos hname, ← Option.some.inj h]
          exact .refl w
        · rename_i hname
          rw [if_neg hname]
          exact hwalk w c w' hc h) h₁
    have hfilter : ∀ l : List NodeId, (l.flatMap fun c => if (identifierName g c).isSome then []
        else events c) = (l.filter fun c => !(identifierName g c).isSome).flatMap events := by
      intro l
      induction l with
      | nil => rfl
      | cons c rest ih =>
        rw [List.flatMap_cons, ih, List.filter_cons]
        cases (identifierName g c).isSome <;> simp
    rwa [hfilter] at hskip

theorem follows_assignment (hkind : n.kind = .assignment) (hid : ValidId g.nodes id)
    (h : walkAssignment opts walk w id hid = some w') :
    Follows opts w w' ((entered g opts id).flatMap events ++
      (bound g opts id).map (.bind · id)) := by
  simp only [entered, bound, hn, Option.map_some, hkind]
  rcases walkAssignment_cases opts walk w w' id hid h with
    ⟨hnil, rfl⟩ | ⟨target, values, w₁, w₂, hchildren, h₁, h₂, rfl⟩
  · rw [hnil]
    exact .refl w'
  · rw [hchildren] at hwalk ⊢
    have hvalues := follows_foldlM opts walk events values
      (fun w c w' hc => hwalk w c w' (List.mem_cons_of_mem _ hc)) h₁
    refine Follows.trans (?_ : Follows opts w w₂ _) ?_
    · rcases h₂ with ⟨hany, h₂⟩ | ⟨hany, rfl⟩
      · dsimp only
        rw [if_pos hany, List.flatMap_append, List.flatMap_singleton]
        exact hvalues.trans (hwalk w₁ target w₂ List.mem_cons_self h₂)
      · dsimp only
        rw [if_neg (Bool.eq_false_iff.mp hany)]
        exact hvalues
    · dsimp only
      split
      · exact follows_recordDef w₂ _ id hid
      · exact .refl w₂

end Handlers

theorem identifierName_of_get {id : NodeId} {n : Node} (h : g.get id = some n) :
    identifierName g id = if n.kind = .identifier ∧ n.name ≠ [] then some n.name else none := by
  rw [identifierName, h]

theorem entered_plain (opts : DdgBuildOptions) {id : NodeId} {n : Node} (hn : g.get id = some n)
    (h : Plain n.kind) : entered g opts id = g.children id := by
  obtain ⟨hparam, hident, hdecl, hassign⟩ := h
  cases hkind : n.kind <;> simp_all [entered]

theorem bound_plain (opts : DdgBuildOptions) {id : NodeId} {n : Node} (hn : g.get id = some n)
    (hdecl : n.kind ≠ .declaration) (hassign : n.kind ≠ .assignment) : bound g opts id = [] := by
  cases hkind : n.kind <;> simp_all [bound]

/-- **One walk.** It adds the edges of its events. -/
theorem walk_follows (fuel : Nat) (w w' : DdgWalker g) (id : NodeId)
    (h : walk opts fuel w id = some w') : Follows opts w w' (walkEvents g opts fuel id) := by
  induction fuel generalizing w w' id with
  | zero => cases h
  | succ fuel ih =>
    have hwalk : ∀ w c w', c ∈ g.children id → walk opts fuel w c = some w' →
        Follows opts w w' (walkEvents g opts fuel c) := fun w c w' _ h => ih w w' c h
    unfold walk at h
    unfold walkEvents
    split at h
    · rename_i hnone
      rw [← Option.some.inj h]
      simpa [identifierName, entered, bound, hnone] using Follows.refl w
    · rename_i n hn
      have hname := identifierName_of_get hn
      split at h
      · rename_i hkind
        rw [← Option.some.inj h]
        simpa [hname, entered, bound, hn, hkind] using Follows.refl w
      · rename_i hkind
        rw [← Option.some.inj h]
        -- An identifier without a name is no reader.
        have huse := follows_emitUse opts w id (g.valid_of_get id n hn) n.name
        simp only [hname, entered, bound, hn, hkind, Option.map_some, List.flatMap_nil,
          List.map_nil, List.append_nil]
        split at huse
        · rename_i hempty
          simpa [hempty] using huse
        · rename_i hne
          simpa [hne] using huse
      · rename_i hkind
        rw [hname, if_neg (by simp [hkind])]
        exact follows_declaration _ _ hwalk hn hkind _ h
      · rename_i hkind
        rw [hname, if_neg (by simp [hkind])]
        exact follows_assignment _ _ hwalk hn hkind _ h
      · rename_i hparam hident hdecl hassign
        rw [hname, if_neg (fun h => hident h.1),
          entered_plain opts hn ⟨hparam, hident, hdecl, hassign⟩,
          bound_plain opts hn hdecl hassign, List.map_nil, List.append_nil]
        exact follows_foldlM opts _ _ _ hwalk h

end Follows

/-! ## Whole functions -/

section Functions

variable {g : Graph} (opts : DdgBuildOptions) (fuel : Nat)

/-- The edges of one function. -/
def functionEdges (g : Graph) (fn : NodeId) : List Edge :=
  emits opts.maxNamesPerFunction (bindAll opts.maxNamesPerFunction [] (parameterBindings g fuel fn))
    (bodyEvents g opts fuel fn)

variable {opts fuel} {w w' : DdgWalker g} {fn : NodeId}

theorem walkEvents_parameter {id : NodeId} {n : Node} (hn : g.get id = some n)
    (hkind : n.kind = .parameter) : walkEvents g opts fuel id = [] := by
  cases fuel with
  | zero => rfl
  | succ fuel => simp [walkEvents, identifierName_of_get hn, entered, bound, hn, hkind]

theorem walkEvents_none {id : NodeId} (hn : g.get id = none) : walkEvents g opts fuel id = [] := by
  cases fuel with
  | zero => rfl
  | succ fuel => simp [walkEvents, identifierName, entered, bound, hn]

theorem processFunction_edges (h : processFunction opts fuel w fn = some w') :
    w'.edges = w.edges ++ functionEdges opts fuel g fn := by
  unfold processFunction at h
  rw [Option.bind_eq_bind, Option.bind_eq_some_iff] at h
  obtain ⟨w₁, h₁, h⟩ := h
  obtain ⟨hedges, hmap⟩ := registerParameters_spec opts fuel _ w₁ fn h₁
  have hbody : Follows opts w₁ w' (bodyEvents g opts fuel fn) := by
    refine follows_foldlM opts _ _ _ ?_ h
    intro w c w' _ h
    split at h
    · rename_i hnone
      rw [walkEvents_none hnone, ← Option.some.inj h]
      exact .refl w
    · rename_i n hn
      split at h
      · rename_i hkind
        rw [walkEvents_parameter hn hkind, ← Option.some.inj h]
        exact .refl w
      · exact walk_follows fuel w w' c h
  rw [hbody.edges, hedges, hmap]
  rfl

end Functions

end DdgWalker

open DdgWalker

/-- **The edges of `build_ddg`.** They are those of the functions, one after the other. -/
theorem buildDdg_edges {fuel : Nat} {g : Graph} {opts : DdgBuildOptions} {g' : Graph}
    {stats : DdgStats} (h : buildDdg fuel g opts = some (g', stats)) :
    g'.nodes = g.nodes ∧
      g'.edges = g.edges ++ (g.findByKind .functionDef).flatMap (functionEdges opts fuel g) := by
  have hall : ∀ (fns : List NodeId) (w w' : DdgWalker g),
      fns.foldlM (processFunction opts fuel) w = some w' →
      w'.edges = w.edges ++ fns.flatMap (functionEdges opts fuel g) := by
    intro fns
    induction fns with
    | nil =>
      intro w w' h
      rw [← Option.some.inj h, List.flatMap_nil, List.append_nil]
    | cons fn rest ih =>
      intro w w' h
      rw [List.foldlM_cons, Option.bind_eq_bind, Option.bind_eq_some_iff] at h
      obtain ⟨w₁, h₁, h⟩ := h
      rw [ih w₁ w' h, processFunction_edges h₁, List.flatMap_cons, List.append_assoc]
  unfold buildDdg at h
  rw [Option.bind_eq_bind, Option.bind_eq_some_iff] at h
  obtain ⟨w, hw, h⟩ := h
  obtain ⟨rfl, -⟩ := Prod.mk.inj (Option.some.inj h)
  refine ⟨rfl, ?_⟩
  show g.edges ++ w.edges = _
  rw [hall _ _ w hw]
  rfl

/-! ## What is read under a limit -/

namespace DdgWalker

section Limit

variable {limit : Nat}

theorem setDef_lookup_ne (m : List (Bytes × NodeId)) (name : Bytes) (id : NodeId) (x : Bytes)
    (hx : x ≠ name) : (setDef m name id).lookup x = m.lookup x := by
  have hname : (x == name) = false := beq_eq_false_iff_ne.mpr hx
  induction m with
  | nil => simp [setDef, List.lookup_cons, hname]
  | cons d rest ih =>
    obtain ⟨k, v⟩ := d
    unfold setDef
    split
    · rename_i hk
      subst hk
      rw [List.lookup_cons, hname, List.lookup_cons, hname]
    · rw [List.lookup_cons, List.lookup_cons, ih]

theorem bindName_lookup_ne (m : List (Bytes × NodeId)) (d : Bytes × NodeId) (x : Bytes)
    (hx : x ≠ d.1) : (bindName limit m d).lookup x = m.lookup x := by
  unfold bindName
  split
  · rfl
  · split
    · rfl
    · exact setDef_lookup_ne m d.1 d.2 x hx

theorem bindAll_lookup (defs : List (Bytes × NodeId)) (hnames : ∀ d ∈ defs, d.1 ≠ []) (x : Bytes) :
    (bindAll limit [] defs).lookup x =
      if x ∈ (defs.map (·.1)).eraseDups.take limit then lastOf defs x else none := by
  induction defs using List.reverseRecOn with
  | nil => simp [bindAll]
  | append_singleton defs d ih =>
    have hnames' : ∀ d ∈ defs, d.1 ≠ [] := fun d hd => hnames d (List.mem_append_left _ hd)
    have hkeys := foldl_bindName_keys limit (defs ++ [d]) hnames
    rw [List.foldl_append, List.foldl_cons, List.foldl_nil] at hkeys
    rw [bindAll_append]
    show (bindName limit (bindAll limit [] defs) d).lookup x = _
    rw [← hkeys, lastOf_append, lastOf_singleton]
    -- The last definition counts if its name was let in; another name is not touched.
    by_cases hx : d.1 = x
    · rw [if_pos hx, ← hx]
      split
      · rename_i hmem
        exact (bindName_lookup_iff limit _ d.1 d.2 (hnames d (by simp))).mpr hmem
      · rename_i hmem
        exact (lookup_eq_none _ _).mpr hmem
    · have hmem : x ∈ (bindName limit (bindAll limit [] defs) d).map (·.1) ↔
          x ∈ (bindAll limit [] defs).map (·.1) := by
        rw [bindName_keys limit _ d (hnames d (by simp))]
        split
        · exact Iff.rfl
        · simp [Ne.symm hx]
      rw [if_neg hx, bindName_lookup_ne _ d x (Ne.symm hx), ih hnames',
        ← foldl_bindName_keys limit defs hnames']
      simp only [Option.none_or]
      exact if_congr hmem.symm rfl rfl

/-- A name among the first ones, as many as the limit lets in. -/
def Kept (limit : Nat) (defs : List (Bytes × NodeId)) (x : Bytes) : Prop :=
  x ∈ (defs.map (·.1)).eraseDups.take limit

instance (limit : Nat) (defs : List (Bytes × NodeId)) (x : Bytes) : Decidable (Kept limit defs x) :=
  inferInstanceAs (Decidable (x ∈ _))

theorem kept_append {defs defs' : List (Bytes × NodeId)} {x : Bytes} (hx : x ∈ defs.map (·.1)) :
    Kept limit (defs ++ defs') x ↔ Kept limit defs x := by
  unfold Kept
  rw [List.map_append, List.eraseDups_append, List.take_append, List.mem_append]
  refine or_iff_left ?_
  intro hlater
  have hnew := List.mem_eraseDups.mp (List.mem_of_mem_take hlater)
  simp [List.removeAll, hx] at hnew

variable {start : List (Bytes × NodeId)} {events : List NameEvent}

/-- **Edges of events.** They lead from the last definition of a name to its readers, for the names
that the limit lets in. -/
theorem mem_emits_iff (hstart : ∀ d ∈ start, d.1 ≠ [])
    (hevents : ∀ d ∈ definitions events, d.1 ≠ []) {e : Edge} :
    e ∈ emits limit (bindAll limit [] start) events ↔
      ∃ x, Reads start events x e.source e.target ∧ Kept limit (start ++ definitions events) x ∧
        e.source ≠ e.target ∧ e.kind = .ddg := by
  -- Whether a name is kept is settled at its first definition.
  have hlookup : ∀ (before after : List NameEvent) (x : Bytes), events = before ++ after →
      ((bindAll limit (bindAll limit [] start) (definitions before)).lookup x = some e.source ↔
        lastOf (start ++ definitions before) x = some e.source ∧
        Kept limit (start ++ definitions events) x) := by
    rintro before after x rfl
    have hnames : ∀ d ∈ start ++ definitions before, d.1 ≠ [] := by
      intro d hd
      rcases List.mem_append.mp hd with hd | hd
      · exact hstart d hd
      · exact hevents d (by rw [definitions_append]; exact List.mem_append_left _ hd)
    rw [← bindAll_append, bindAll_lookup _ hnames, definitions_append, ← List.append_assoc]
    split
    · rename_i hkept
      rw [and_iff_left_of_imp]
      intro hlast
      exact (kept_append (List.mem_map_of_mem (mem_of_lastOf hlast))).mpr hkept
    · rename_i hkept
      refine iff_of_false (by simp) ?_
      rintro ⟨hlast, hall⟩
      exact hkept ((kept_append (List.mem_map_of_mem (mem_of_lastOf hlast))).mp hall)
  rw [mem_emits]
  constructor
  · rintro ⟨before, x, after, heq, hfound, hne, hkind⟩
    obtain ⟨hlast, hkept⟩ := (hlookup before _ x heq).mp hfound
    exact ⟨x, ⟨before, after, heq, hlast⟩, hkept, hne, hkind⟩
  · rintro ⟨x, ⟨before, after, heq, hlast⟩, hkept, hne, hkind⟩
    exact ⟨before, x, after, heq, (hlookup before _ x heq).mpr ⟨hlast, hkept⟩, hne, hkind⟩

end Limit

end DdgWalker

end Euxis.Cpg
