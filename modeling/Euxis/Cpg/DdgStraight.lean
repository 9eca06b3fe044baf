import Euxis.Cpg.DdgNested

/-!
# Data dependences of straight-line functions

A function that is a sequence of declarations, assignments and expressions. What an identifier
should depend on can be read off the statements before it: the last one that defines its name, or
else a parameter.
-/

namespace Euxis.Cpg

open Bindings DdgWalker

/-! ## Statements -/

/-- Nothing at or below the node is a parameter, a declaration or an assignment. -/
def IsExpression (g : Graph) (id : NodeId) : Prop :=
  ∀ c, Below g id c → ∀ n, g.get c = some n → n.kind ≠ .parameter ∧ n.kind ≠ .declaration ∧
    n.kind ≠ .assignment

/-- `define` has the declaration or assignment, what stands in front of its first identifier, that
identifier with its name, and the initialiser behind it. -/
inductive Statement where
  | define (stmt node : NodeId) (front : List NodeId) (target : NodeId) (name : Bytes) (init :
      List NodeId)
  | eval (stmt : NodeId)

namespace Statement

def stmt : Statement → NodeId
  | define stmt _ _ _ _ _ => stmt
  | eval stmt => stmt

def node : Statement → NodeId
  | define _ node _ _ _ _ => node
  | eval stmt => stmt

/-- The name that the statement defines. -/
def names : Statement → List Bytes
  | define _ _ _ _ name _ => [name]
  | eval _ => []

/-- A node in the initialiser or in the expression. -/
def InUse (g : Graph) (u : NodeId) : Statement → Prop
  | define _ _ _ _ _ init => ∃ c ∈ init, Below g c u
  | eval stmt => Below g stmt u

/-- An assignment begins with its target. In a declaration something may stand in front of the name,
such as a type. -/
def WellFormed (g : Graph) : Statement → Prop
  | define stmt node front target name init =>
    Wraps g stmt node ∧ g.children node = front ++ target :: init ∧
      identifierName g target = some name ∧
      (∀ c ∈ front, g.hasKind c .identifier = false) ∧ (∀ c ∈ front ++ init, IsExpression g c) ∧
      (g.hasKind node .declaration = true ∨ g.hasKind node .assignment = true ∧ front = [])
  | eval stmt => IsExpression g stmt

/-- The parts that the walk goes into: in a declaration it passes over every named identifier. -/
def walkedParts (g : Graph) : Statement → List NodeId
  | define _ node front _ _ init =>
    if g.hasKind node .declaration then (front ++ init).filter fun c => !(identifierName g c).isSome
    else init
  | eval stmt => [stmt]

/-- The names that the walk binds to the node. -/
def boundNames (g : Graph) : Statement → List Bytes
  | define _ node _ _ name _ =>
    if g.hasKind node .declaration then (identifierChildren g node).map (·.2) else [name]
  | eval _ => []

/-- The walk comes to the node. -/
def Walked (g : Graph) (u : NodeId) (s : Statement) : Prop := ∃ c ∈ s.walkedParts g, Visits g c u

end Statement

/-- A function whose body is a sequence of statements, with no function inside of it. -/
structure StraightLine (g : Graph) where
  fn : NodeId
  header : List NodeId
  body : NodeId
  statements : List Statement
  function : g.hasKind fn .functionDef = true
  children_fn : g.children fn = header ++ [body]
  block : g.hasKind body .block = true
  children_body : g.children body = statements.map (·.stmt)
  wellFormed : ∀ s ∈ statements, s.WellFormed g
  alone : ∀ f, g.hasKind f .functionDef = true → ¬ Relation.TransGen g.Child fn f

/-! ## Events of a statement -/

section Events

variable {g : Graph} (hg : g.Forest) (opts : DdgBuildOptions)

/-- What the walk of a node reads and binds, with the fuel that no tree uses up. -/
def eventsAt (g : Graph) (opts : DdgBuildOptions) (id : NodeId) : List NameEvent :=
  walkEvents g opts (g.nodeCount + 2) id

include hg

theorem eventsAt_eq (id : NodeId) :
    eventsAt g opts id = (identifierName g id).toList.map (.use · id) ++
      ((entered g opts id).flatMap (eventsAt g opts) ++ (bound g opts id).map (.bind · id)) := by
  obtain ⟨rank, hrank, hbound⟩ := g.exists_child_rank hg
  have henough : ∀ n, rank n < g.nodeCount + 2 := fun n => Nat.lt_succ_of_le (hbound n)
  rw [eventsAt, walkEvents_fuel rank hrank _ (g.nodeCount + 2 + 1) id (henough id)
    (Nat.lt_succ_of_lt (henough id))]
  rfl

theorem eventsAt_plain {id : NodeId} (h : IsPlain g id) :
    eventsAt g opts id = (g.children id).flatMap (eventsAt g opts) := by
  obtain ⟨n, hn, hplain⟩ := h
  rw [eventsAt_eq hg, identifierName_of_get hn, if_neg fun h => hplain.2.1 h.1,
    entered_plain opts hn hplain, bound_plain opts hn hplain.2.2.1 hplain.2.2.2]
  simp

theorem eventsAt_wraps {stmt node : NodeId} (h : Wraps g stmt node) :
    eventsAt g opts stmt = eventsAt g opts node := by
  induction h with
  | bare id => rfl
  | wrapped outer inner id hplain hchildren _ ih =>
    rw [eventsAt_plain hg opts hplain, hchildren, List.flatMap_singleton, ih]

omit hg in
theorem visits_of_walks {a u : NodeId} (h : Walks g a u) (hexpr : IsExpression g a) :
    Visits g a u := by
  induction h with
  | here a => exact .here a
  | down hopen hc _ ih =>
    obtain ⟨n, hn, hparam, hident⟩ := hopen
    have hkind := hexpr _ .refl n hn
    exact .through _ _ _ ⟨n, hn, hparam, hident, hkind.2.1, hkind.2.2⟩ hc
      (ih fun c hbelow => hexpr c (.head hc hbelow))

omit hg in
theorem definitions_expression {id : NodeId} (hexpr : IsExpression g id) :
    definitions (eventsAt g opts id) = [] := by
  rw [List.eq_nil_iff_forall_not_mem]
  rintro ⟨x, d⟩ hd
  obtain ⟨hwalks, hbound⟩ := bind_mem_walkEvents (mem_definitions.mp hd)
  obtain ⟨n, hn, hkind⟩ := (bound_defines hbound).2
  have hexpr := hexpr d (below_of_walks hwalks) n hn
  rcases hkind with hkind | hkind
  · exact hexpr.2.1 hkind
  · exact hexpr.2.2 hkind

theorem use_mem_expression {id u : NodeId} {x : Bytes} (hexpr : IsExpression g id) :
    .use x u ∈ eventsAt g opts id ↔ Visits g id u ∧ identifierName g u = some x := by
  constructor
  · intro h
    obtain ⟨hwalks, hname⟩ := use_mem_walkEvents h
    exact ⟨visits_of_walks hwalks hexpr, hname⟩
  · rintro ⟨hvisits, hname⟩
    induction hvisits with
    | here id =>
      rw [eventsAt_eq hg, hname]
      exact List.mem_append_left _ List.mem_cons_self
    | through outer inner id hplain hc _ ih =>
      rw [eventsAt_plain hg opts hplain]
      exact List.mem_flatMap.mpr ⟨inner, (g.mem_children outer inner).mpr hc,
        ih (fun c hbelow => hexpr c (.head hc hbelow)) hname⟩

omit hg in
theorem mem_walkedParts {stmt node target c : NodeId} {front init : List NodeId} {name : Bytes}
    (h : c ∈ (Statement.define stmt node front target name init).walkedParts g) :
    c ∈ front ++ init := by
  simp only [Statement.walkedParts] at h
  split at h
  · exact (List.mem_filter.mp h).1
  · exact List.mem_append_right _ h

omit hg in
theorem walkedParts_expression {s : Statement} (hs : s.WellFormed g) :
    ∀ c ∈ s.walkedParts g, IsExpression g c := by
  cases s with
  | define stmt node front target name init =>
    obtain ⟨-, -, -, -, hexpr, -⟩ := hs
    exact fun c hc => hexpr c (mem_walkedParts hc)
  | eval stmt =>
    intro c hc
    rw [List.mem_singleton.mp hc]
    exact hs

variable (hdeclarations : opts.trackDeclarations = true)
  (hassignments : opts.trackAssignments = true)

include hdeclarations hassignments

/-- **One statement.** It reads its parts and then binds its names. -/
theorem eventsAt_statement {s : Statement} (hs : s.WellFormed g) :
    eventsAt g opts s.stmt =
      (s.walkedParts g).flatMap (eventsAt g opts) ++ (s.boundNames g).map (.bind · s.node) := by
  cases s with
  | eval stmt => simp [Statement.stmt, Statement.walkedParts, Statement.boundNames]
  | define stmt node front target name init =>
    obtain ⟨hwraps, hchildren, hname, -, -, hkind | ⟨hkind, rfl⟩⟩ := hs
    · obtain ⟨n, hn, hdecl⟩ := Graph.hasKind_iff.mp hkind
      -- A declaration passes over every bare identifier among its children, and so over the target.
      have htarget : [target].filter (fun c => !(identifierName g c).isSome) = [] := by simp [hname]
      have hentered : entered g opts node = (front ++ init).filter fun c =>
          !(identifierName g c).isSome := by
        simp only [entered, hn, Option.map_some, hdecl, hdeclarations, Bool.true_eq_false, if_false]
        rw [hchildren, ← List.singleton_append, List.filter_append, List.filter_append, htarget,
          List.nil_append, List.filter_append]
      have hbound : bound g opts node =
          (identifierChildren g node).map (·.2) := by simp [bound, hn, hdecl, hdeclarations]
      simp only [Statement.stmt, Statement.walkedParts, Statement.boundNames, Statement.node,
        if_pos hkind]
      rw [eventsAt_wraps hg opts hwraps, eventsAt_eq hg, hentered, hbound, identifierName_of_get hn,
        if_neg (by simp [hdecl])]
      simp
    -- An assignment leaves out its first child alone.
    · obtain ⟨n, hn, hassign⟩ := Graph.hasKind_iff.mp hkind
      obtain ⟨m, hm, hident, hmname, hne⟩ := identifierName_eq_some target name hname
      have hdecl : g.hasKind node .declaration = false :=
        Graph.hasKind_ne hkind .declaration (by decide)
      have hentered : entered g opts node = init := by
        simp only [entered, hn, Option.map_some, hassign, hchildren, List.nil_append]
        simp [hm, hident]
      have hbound : bound g opts node = [name] := by
        have htarget : targetName g target = name := by
          simp [targetName, hm, Option.filter, hident, hmname]
        simp [bound, hn, hassign, hchildren, htarget, hassignments, hne]
      simp only [Statement.stmt, Statement.walkedParts, Statement.boundNames, Statement.node, hdecl]
      rw [eventsAt_wraps hg opts hwraps, eventsAt_eq hg, hentered, hbound, identifierName_of_get hn,
        if_neg (by simp [hassign])]
      simp

variable {s : Statement} (hs : s.WellFormed g)

include hs

theorem statement_round :
    ∃ uses, eventsAt g opts s.stmt = Bindings.round uses ((s.boundNames g).map (·, s.node)) := by
  have hparts : definitions ((s.walkedParts g).flatMap (eventsAt g opts)) = [] := by
    rw [definitions_flatMap, List.flatMap_eq_nil_iff]
    exact fun c hc => definitions_expression opts (walkedParts_expression hs c hc)
  obtain ⟨uses, huses⟩ := round_of_uses hparts
  refine ⟨uses, ?_⟩
  rw [eventsAt_statement hg opts hdeclarations hassignments hs, huses, Bindings.round,
    Bindings.round, List.map_nil, List.append_nil, List.map_map]
  rfl

theorem definitions_statement :
    definitions (eventsAt g opts s.stmt) = (s.boundNames g).map (·, s.node) := by
  obtain ⟨uses, huses⟩ := statement_round hg opts hdeclarations hassignments hs
  rw [huses, definitions_round]

theorem use_mem_statement {x : Bytes} {u : NodeId} :
    .use x u ∈ eventsAt g opts s.stmt ↔ s.Walked g u ∧ identifierName g u = some x := by
  rw [eventsAt_statement hg opts hdeclarations hassignments hs, List.mem_append, List.mem_flatMap]
  constructor
  · rintro (⟨c, hc, huse⟩ | huse)
    · obtain ⟨hvisits, hname⟩ :=
        (use_mem_expression hg opts (walkedParts_expression hs c hc)).mp huse
      exact ⟨⟨c, hc, hvisits⟩, hname⟩
    · obtain ⟨y, -, heq⟩ := List.mem_map.mp huse
      cases heq
  · rintro ⟨⟨c, hc, hvisits⟩, hname⟩
    exact Or.inl ⟨c, hc,
      (use_mem_expression hg opts (walkedParts_expression hs c hc)).mpr ⟨hvisits, hname⟩⟩

end Events

/-! ## Where a statement reads and defines -/

section Sites

variable {g : Graph} {s : Statement} (hs : s.WellFormed g) {u : NodeId}

include hs

theorem Statement.node_below : Below g s.stmt s.node := by
  cases s with
  | define stmt node front target name init => exact wraps_below g stmt node hs.1
  | eval stmt => exact .refl

theorem Statement.below_of_part {c : NodeId} (hc : c ∈ s.walkedParts g) : Below g s.stmt c := by
  cases s with
  | define stmt node front target name init =>
    obtain ⟨hwraps, hchildren, -⟩ := hs
    refine (wraps_below g stmt node hwraps).tail ((g.mem_children node c).mp ?_)
    rw [hchildren]
    exact List.perm_middle.mem_iff.mpr (List.mem_cons_of_mem target (mem_walkedParts hc))
  | eval stmt =>
    rw [List.mem_singleton.mp hc]
    exact .refl

theorem Statement.Walked.below (h : s.Walked g u) : Below g s.stmt u := by
  obtain ⟨c, hc, hvisits⟩ := h
  exact (Statement.below_of_part hs hc).trans (visits_below g c u hvisits)

theorem Statement.InUse.below (h : s.InUse g u) : Below g s.stmt u := by
  cases s with
  | define stmt node front target name init =>
    obtain ⟨hwraps, hchildren, -⟩ := hs
    obtain ⟨c, hc, hbelow⟩ := h
    refine ((wraps_below g stmt node hwraps).tail ((g.mem_children node c).mp ?_)).trans hbelow
    rw [hchildren]
    exact List.mem_append_right _ (List.mem_cons_of_mem target hc)
  | eval stmt => exact h

theorem Statement.names_subset : s.names ⊆ s.boundNames g := by
  cases s with
  | define stmt node front target name init =>
    obtain ⟨-, hchildren, hname, -⟩ := hs
    intro x hx
    rw [List.mem_singleton.mp hx]
    simp only [Statement.boundNames]
    split
    · refine List.mem_map.mpr ⟨(target, name), List.mem_flatMap.mpr ⟨target, ?_, ?_⟩, rfl⟩
      · rw [hchildren]
        simp
      · simp [hname]
    · exact List.mem_singleton_self name
  | eval stmt => exact List.nil_subset _

end Sites

/-! ## What should be read, and what is -/

namespace StraightLine

section Own

variable {g : Graph} (p : StraightLine g) (opts : DdgBuildOptions)

/-- What the walk meets in front of the body. -/
def headerEvents : List NameEvent := p.header.flatMap (eventsAt g opts)

/-- The definitions behind some statements, as the statements say. -/
def defined (before : List Statement) : List (Bytes × NodeId) :=
  parametersOf g p.fn ++ binders Statement.node Statement.names before

/-- The definitions behind some statements, as the walk binds them. -/
def boundBehind (before : List Statement) : List (Bytes × NodeId) :=
  parametersOf g p.fn ++ definitions (p.headerEvents opts) ++
    binders Statement.node (Statement.boundNames g) before

/-- An identifier in use position, and the last statement before its own that defines its name, or
else a parameter. -/
def Expected (d u : NodeId) : Prop :=
  ∃ before s after x, p.statements = before ++ s :: after ∧ s.InUse g u ∧
    identifierName g u = some x ∧ lastOf (p.defined before) x = some d

/-- No name is read or bound in a place where it is not used or defined. `header`: what is read in
front of the body is not bound there. `passedOver`: what is used but not walked has no definition.
`inFront`: what is walked but not used is not bound. `misbound`: a statement that binds a name which
it does not define is followed by a definition of it. -/
structure NoStrayNames : Prop where
  header : ∀ before x u after, p.headerEvents opts = before ++ .use x u :: after →
    x ∉ (parametersOf g p.fn ++ definitions before).map (·.1)
  passedOver : ∀ before s after x u, p.statements = before ++ s :: after → s.InUse g u →
    ¬ s.Walked g u →
    identifierName g u = some x → x ∉ (parametersOf g p.fn).map (·.1) ∧ ∀ s' ∈ before, x ∉ s'.names
  inFront : ∀ before s after x u, p.statements = before ++ s :: after → s.Walked g u →
    ¬ s.InUse g u → identifierName g u = some x →
    x ∉ (parametersOf g p.fn ++ definitions (p.headerEvents opts)).map (·.1) ∧ ∀ s' ∈ before,
    x ∉ s'.boundNames g
  misbound : ∀ before s after x u, p.statements = before ++ s :: after → s.InUse g u →
    s.Walked g u → identifierName g u = some x →
    (x ∈ (definitions (p.headerEvents opts)).map (·.1) → ∃ s' ∈ before, x ∈ s'.names) ∧
      Restored Statement.names (Statement.boundNames g) before x

variable {p} {opts} (hg : g.AstForest)

theorem stmt_child {s : Statement} (hs : s ∈ p.statements) : g.Child p.body s.stmt := by
  rw [← g.mem_children, p.children_body]
  exact List.mem_map_of_mem hs

theorem header_child {c : NodeId} (hc : c ∈ p.header ++ [p.body]) : g.Child p.fn c := by
  rw [← g.mem_children, p.children_fn]
  exact hc

include hg

theorem stmts_nodup : (p.statements.map (·.stmt)).Nodup := by
  rw [← p.children_body]
  exact Graph.nodup_of_single hg.single p.body

theorem same_statement {before before' after after' : List Statement} {s s' : Statement}
    {u : NodeId} (h : p.statements = before ++ s :: after)
    (h' : p.statements = before' ++ s' :: after') (hu : Below g s.stmt u)
    (hu' : Below g s'.stmt u) : before = before' ∧ s = s' := by
  have hstmt : s.stmt = s'.stmt := hg.forest.below_siblings (stmt_child (p := p) (by simp [h]))
    (stmt_child (p := p) (by simp [h'])) hu hu'
  have hnodup := stmts_nodup hg (p := p)
  rw [h, List.map_append, List.map_cons] at hnodup
  have hnot := (List.nodup_middle.mp hnodup).notMem
  rw [List.mem_append, not_or, hstmt] at hnot
  obtain ⟨rfl, rfl, -⟩ :=
    (List.append_cons_inj_of_notMem (fun hm => hnot.1 (List.mem_map_of_mem hm))
    fun hm => hnot.2 (List.mem_map_of_mem hm)).mp (h.symm.trans h')
  exact ⟨rfl, rfl⟩

theorem header_apart {c u : NodeId} (hc : c ∈ p.header) (hcu : Below g c u) {s : Statement}
    (hs : s ∈ p.statements) : ¬ Below g s.stmt u := by
  intro hu
  have heq := hg.forest.below_siblings (header_child (List.mem_append_left _ hc))
    (header_child (by simp)) hcu
    (Relation.ReflTransGen.head (stmt_child hs) hu)
  have hnodup := Graph.nodup_of_single hg.single p.fn
  rw [p.children_fn] at hnodup
  exact (List.nodup_append.mp hnodup).2.2 c hc p.body (List.mem_singleton_self _) heq

theorem nodes_distinct : p.statements.Pairwise (·.node ≠ ·.node) := by
  refine (List.pairwise_map.mp (stmts_nodup hg)).imp_of_mem ?_
  intro s s' hs hs' hne heq
  apply hne
  have hnode := Statement.node_below (p.wellFormed s hs)
  rw [heq] at hnode
  exact hg.forest.below_siblings (stmt_child hs) (stmt_child hs') hnode
    (Statement.node_below (p.wellFormed s' hs'))

theorem node_not_parameter {s : Statement} (hs : s ∈ p.statements) (x : Bytes) :
    (x, s.node) ∉ parametersOf g p.fn := by
  intro hmem
  obtain ⟨-, hparam, -⟩ := parameter_site hg.forest hmem
  have hs := p.wellFormed s hs
  cases s with
  | define stmt node front target name init =>
    obtain ⟨-, -, -, -, -, hkind | ⟨hkind, -⟩⟩ := hs
    · cases Graph.hasKind_unique hparam hkind
    · cases Graph.hasKind_unique hparam hkind
  | eval stmt =>
    obtain ⟨n, hn, hkind⟩ := Graph.hasKind_iff.mp hparam
    exact (hs stmt .refl n hn).1 hkind

theorem headerEvents_not_parameter {x : Bytes} {d : NodeId} (h : (x, d) ∈ parametersOf g p.fn) :
    (x, d) ∉ definitions (p.headerEvents opts) := by
  intro hmem
  obtain ⟨-, hparam, -⟩ := parameter_site hg.forest h
  obtain ⟨c, -, hbind⟩ := List.mem_flatMap.mp (mem_definitions.mp hmem)
  rw [bound_not_parameter (bind_mem_walkEvents hbind).2] at hparam
  cases hparam

theorem lastOf_eq_iff {before after : List Statement} (h : p.statements = before ++ after)
    (x : Bytes) :
    lastOf (p.boundBehind opts before) x = lastOf (p.defined before) x ↔
      (x ∈ (definitions (p.headerEvents opts)).map (·.1) → ∃ s ∈ before, x ∈ s.names) ∧
        Restored Statement.names (Statement.boundNames g) before x := by
  have hmem : ∀ s ∈ before, s ∈ p.statements := fun s hs => by simp [h, hs]
  have hnodes := nodes_distinct hg (p := p)
  rw [h] at hnodes
  exact lastOf_binders_eq_iff Statement.node
    (fun s hs => Statement.names_subset (p.wellFormed s (hmem s hs)))
    (List.pairwise_append.mp hnodes).1 (fun s hs => node_not_parameter hg (hmem s hs) x)
    fun _ => headerEvents_not_parameter hg

theorem eventsOf_fn :
    eventsOf g opts p.fn = p.headerEvents opts ++ p.statements.flatMap fun s =>
      eventsAt g opts s.stmt := by
  have hplain : IsPlain g p.body := by
    obtain ⟨n, hn, hkind⟩ := Graph.hasKind_iff.mp p.block
    exact ⟨n, hn, by simp [Plain, hkind]⟩
  show (g.children p.fn).flatMap (eventsAt g opts) = _
  rw [p.children_fn, List.flatMap_append, List.flatMap_singleton,
    eventsAt_plain hg.forest opts hplain, p.children_body, List.flatMap_map]
  rfl

variable (hdeclarations : opts.trackDeclarations = true)
  (hassignments : opts.trackAssignments = true)

include hdeclarations hassignments

theorem reads_iff {x : Bytes} {d u : NodeId} :
    Reads (parametersOf g p.fn) (eventsOf g opts p.fn) x d u ↔
      Reads (parametersOf g p.fn) (p.headerEvents opts) x d u ∨
        ∃ before s after, p.statements = before ++ s :: after ∧ s.Walked g u ∧
          identifierName g u = some x ∧ lastOf (p.boundBehind opts before) x = some d := by
  have huse : ∀ s ∈ p.statements, (.use x u ∈ eventsAt g opts s.stmt ↔ s.Walked g u ∧
      identifierName g u = some x) :=
    fun s hs => use_mem_statement hg.forest opts hdeclarations hassignments (p.wellFormed s hs)
  have hbinds : ∀ before after s, p.statements = before ++ s :: after →
      (before.flatMap fun s => definitions (eventsAt g opts s.stmt)) =
        binders Statement.node (Statement.boundNames g) before := by
    intro before after s h
    refine List.flatMap_congr fun s hs => ?_
    exact definitions_statement hg.forest opts hdeclarations hassignments
      (p.wellFormed s (by simp [h, hs]))
  rw [eventsOf_fn hg, reads_append, reads_chunks]
  · refine or_congr_right (exists_congr fun before => exists_congr fun s =>
      exists_congr fun after => ?_)
    refine and_congr_right fun h => ?_
    rw [huse s (by simp [h]), hbinds before after s h, and_assoc]
    rfl
  · intro s hs
    obtain ⟨uses, huses⟩ :=
      statement_round hg.forest opts hdeclarations hassignments (p.wellFormed s hs)
    exact ⟨uses, _, huses⟩

omit hdeclarations hassignments in
theorem not_expected_header {before after : List NameEvent} {x : Bytes} {u : NodeId}
    (h : p.headerEvents opts = before ++ .use x u :: after) (d : NodeId) : ¬ p.Expected d u := by
  rintro ⟨before', s, after', y, hsplit, hinUse, -⟩
  have hmem : .use x u ∈ p.headerEvents opts := by simp [h]
  obtain ⟨c, hc, huse⟩ := List.mem_flatMap.mp hmem
  have hs : s ∈ p.statements := by simp [hsplit]
  exact header_apart hg hc (below_of_walks (use_mem_walkEvents huse).1) hs
    (Statement.InUse.below (p.wellFormed s hs) hinUse)

section Statement

variable {before after : List Statement} {s : Statement}
  (hsplit : p.statements = before ++ s :: after) {d u : NodeId}
  {x : Bytes} (hu : Below g s.stmt u) (hname : identifierName g u = some x)

include hsplit hu hname

omit hdeclarations hassignments in
theorem expected_at : p.Expected d u ↔ s.InUse g u ∧ lastOf (p.defined before) x = some d := by
  constructor
  · rintro ⟨before', s', after', y, hsplit', hinUse, hy, hlast⟩
    have hbelow := Statement.InUse.below (p.wellFormed s' (by simp [hsplit'])) hinUse
    obtain ⟨rfl, rfl⟩ := same_statement hg hsplit hsplit' hu hbelow
    obtain rfl := Option.some.inj (hname.symm.trans hy)
    exact ⟨hinUse, hlast⟩
  · rintro ⟨hinUse, hlast⟩
    exact ⟨before, s, after, x, hsplit, hinUse, hname, hlast⟩

theorem reads_at : (∃ y, Reads (parametersOf g p.fn) (eventsOf g opts p.fn) y d u) ↔
    s.Walked g u ∧ lastOf (p.boundBehind opts before) x = some d := by
  have hs : s ∈ p.statements := by simp [hsplit]
  constructor
  · rintro ⟨y, hreads⟩
    rcases (reads_iff hg hdeclarations hassignments).mp hreads
      with hheader | ⟨before', s', after', hsplit', hwalked, hy, hlast⟩
    · obtain ⟨c, hc, huse⟩ := List.mem_flatMap.mp hheader.use_mem
      exact absurd hu (header_apart hg hc (below_of_walks (use_mem_walkEvents huse).1) hs)
    · have hbelow := Statement.Walked.below (p.wellFormed s' (by simp [hsplit'])) hwalked
      obtain ⟨rfl, rfl⟩ := same_statement hg hsplit hsplit' hu hbelow
      obtain rfl := Option.some.inj (hname.symm.trans hy)
      exact ⟨hwalked, hlast⟩
  · rintro ⟨hwalked, hlast⟩
    exact ⟨x, (reads_iff hg hdeclarations hassignments).mpr
      (Or.inr ⟨before, s, after, hsplit, hwalked, hname, hlast⟩)⟩

end Statement

/-- **The function by itself.** -/
theorem reads_expected_iff :
    (∀ d u, (∃ x, Reads (parametersOf g p.fn) (eventsOf g opts p.fn) x d u) ↔ p.Expected d u) ↔
      p.NoStrayNames opts := by
  constructor
  · intro h
    -- A wrong header, a use passed over, a walked one that is none, and a wrong binder.
    refine ⟨?_, ?_, ?_, ?_⟩
    · intro before x u after heq hx
      obtain ⟨d, hlast⟩ := exists_lastOf hx
      have hreads := (reads_iff hg hdeclarations hassignments).mpr
        (Or.inl ⟨before, after, heq, hlast⟩)
      exact not_expected_header hg heq d ((h d u).mp ⟨x, hreads⟩)
    · intro before s after x u hsplit hinUse hwalked hname
      have hu := Statement.InUse.below (p.wellFormed s (by simp [hsplit])) hinUse
      have hnone : x ∉ (p.defined before).map (·.1) := by
        intro hx
        obtain ⟨d, hlast⟩ := exists_lastOf hx
        have hexpected := (expected_at hg hsplit hu hname).mpr ⟨hinUse, hlast⟩
        exact hwalked ((reads_at hg hdeclarations hassignments hsplit hu hname).mp
          ((h d u).mpr hexpected)).1
      exact (not_mem_append_binders _ _).mp hnone
    · intro before s after x u hsplit hwalked hinUse hname
      have hu := Statement.Walked.below (p.wellFormed s (by simp [hsplit])) hwalked
      have hnone : x ∉ (p.boundBehind opts before).map (·.1) := by
        intro hx
        obtain ⟨d, hlast⟩ := exists_lastOf hx
        have hreads := (reads_at hg hdeclarations hassignments hsplit hu hname).mpr ⟨hwalked, hlast⟩
        exact hinUse ((expected_at hg hsplit hu hname).mp ((h d u).mp hreads)).1
      exact (not_mem_append_binders _ _).mp hnone
    · intro before s after x u hsplit hinUse hwalked hname
      have hu := Statement.InUse.below (p.wellFormed s (by simp [hsplit])) hinUse
      refine (lastOf_eq_iff hg hsplit x).mp (Option.ext fun d => ?_)
      have hiff := h d u
      rw [expected_at hg hsplit hu hname, reads_at hg hdeclarations hassignments hsplit hu hname]
        at hiff
      simpa [hinUse, hwalked] using hiff
  · intro h d u
    have hsame : ∀ before s after x, p.statements = before ++ s :: after → s.InUse g u →
        s.Walked g u →
        identifierName g u = some x →
        lastOf (p.boundBehind opts before) x = lastOf (p.defined before) x :=
      fun before s after x hsplit hinUse hwalked hname =>
        (lastOf_eq_iff hg hsplit x).mpr (h.misbound before s after x u hsplit hinUse hwalked hname)
    constructor
    · rintro ⟨x, hreads⟩
      rcases (reads_iff hg hdeclarations hassignments).mp hreads with
        ⟨before, after, heq, hlast⟩ | ⟨before, s, after, hsplit, hwalked, hname, hlast⟩
      · exact absurd (List.mem_map_of_mem (mem_of_lastOf hlast)) (h.header before x u after heq)
      · by_cases hinUse : s.InUse g u
        · rw [hsame before s after x hsplit hinUse hwalked hname] at hlast
          exact ⟨before, s, after, x, hsplit, hinUse, hname, hlast⟩
        · have hnone : x ∉ (p.boundBehind opts before).map (·.1) :=
            (not_mem_append_binders _ _).mpr
              (h.inFront before s after x u hsplit hwalked hinUse hname)
          exact absurd (List.mem_map_of_mem (mem_of_lastOf hlast)) hnone
    · rintro ⟨before, s, after, x, hsplit, hinUse, hname, hlast⟩
      have hu := Statement.InUse.below (p.wellFormed s (by simp [hsplit])) hinUse
      by_cases hwalked : s.Walked g u
      · rw [← hsame before s after x hsplit hinUse hwalked hname] at hlast
        exact (reads_at hg hdeclarations hassignments hsplit hu hname).mpr ⟨hwalked, hlast⟩
      · have hnone : x ∉ (p.defined before).map (·.1) :=
          (not_mem_append_binders _ _).mpr
            (h.passedOver before s after x u hsplit hinUse hwalked hname)
        exact absurd (List.mem_map_of_mem (mem_of_lastOf hlast)) hnone

end Own

/-! ## In a graph with other functions -/

section Around

variable {g : Graph} (hg : g.AstForest) {opts : DdgBuildOptions}

/-- In the walk of a function around it, nothing in the function reads what is defined outside of
it. -/
def Closed (p : StraightLine g) (opts : DdgBuildOptions) : Prop :=
  ∀ h, g.hasKind h .functionDef = true → Enters g h p.fn →
    ∀ x d u, Reads (parametersOf g h) (eventsOf g opts h) x d u →
    Keeps g opts h x → Below g p.fn u → Below g p.fn d

variable {p : StraightLine g} {d u : NodeId}

include hg

theorem expected_below (h : p.Expected d u) : Below g p.fn u ∧ Below g p.fn d := by
  obtain ⟨before, s, after, x, hsplit, hinUse, -, hlast⟩ := h
  have hstmt : ∀ s ∈ p.statements, Below g p.fn s.stmt := fun s hs =>
    (Relation.ReflTransGen.single (header_child (by simp))).tail (stmt_child hs)
  have hs : s ∈ p.statements := by simp [hsplit]
  refine ⟨(hstmt s hs).trans (Statement.InUse.below (p.wellFormed s hs) hinUse), ?_⟩
  rcases List.mem_append.mp (mem_of_lastOf hlast) with hmem | hmem
  · exact (parameter_site hg.forest hmem).1.to_reflTransGen
  · obtain ⟨s', hs', -, rfl⟩ := (mem_binders _ _).mp hmem
    have hs' : s' ∈ p.statements := by simp [hsplit, hs']
    exact (hstmt s' hs').trans (Statement.node_below (p.wellFormed s' hs'))

theorem reads_inner {h f : NodeId} {x : Bytes} (henters : Enters g h f)
    (hf : g.hasKind f .functionDef = true)
    (hreads : Reads (parametersOf g h) (eventsOf g opts h) x d u) (hu : Below g f u) :
    Reads [] (eventsOf g opts f) x d u ∨ ¬ Below g f d := by
  obtain ⟨before, after, hsplit, hapart⟩ := eventsOf_split hg opts henters hf
  rw [hsplit, List.append_assoc, reads_append, reads_append] at hreads
  rcases hreads with hreads | hreads | hreads
  · exact absurd hu (hapart _ (List.mem_append_left _ hreads.use_mem))
  · rcases hreads.cases with hlocal | hlast
    · exact Or.inl hlocal
    · refine Or.inr fun hd => ?_
      rcases List.mem_append.mp (mem_of_lastOf hlast) with hmem | hmem
      · obtain ⟨-, hparam, hnone⟩ := parameter_site hg.forest hmem
        rcases Relation.reflTransGen_iff_eq_or_transGen.mp hd with rfl | hd
        · cases Graph.hasKind_unique hparam hf
        · exact hnone f hf (below_of_enters henters) hd
      · exact hapart _ (List.mem_append_left _ (mem_definitions.mp hmem)) hd
  · exact absurd hu (hapart _ (List.mem_append_right _ hreads.use_mem))

theorem around_of_reads {h : NodeId} {x : Bytes} (hh : g.hasKind h .functionDef = true)
    (hreads : Reads (parametersOf g h) (eventsOf g opts h) x d u) (hu : Below g p.fn u) :
    h = p.fn ∨ Enters g h p.fn := by
  have henters := reads_enters hreads
  rcases hg.forest.below_or_below (below_of_enters henters).to_reflTransGen hu with hbelow | hbelow
  · rcases Relation.reflTransGen_iff_eq_or_transGen.mp hbelow with rfl | hbelow
    · exact Or.inl rfl
    · exact Or.inr (enters_between hg.forest henters hbelow hu)
  · rcases Relation.reflTransGen_iff_eq_or_transGen.mp hbelow with rfl | hbelow
    · exact Or.inl rfl
    · exact absurd hbelow (p.alone h hh)

end Around

/-! ## The limit on names -/

/-- The names below a node are not more than the limit. -/
def NamesFit (g : Graph) (limit : Nat) (fn : NodeId) : Prop :=
  ∀ names : List Bytes, names.Nodup →
    (∀ x ∈ names, ∃ n, Below g fn n ∧ identifierName g n = some x) → names.length ≤ limit

theorem name_of_defines {g : Graph} {x : Bytes} {d : NodeId} (h : Defines g d x) :
    ∃ n, Below g d n ∧ identifierName g n = some x := by
  obtain ⟨n, -, ⟨-, hx⟩ | ⟨-, target, values, hchildren, hx⟩⟩ := h
  · obtain ⟨ident, hident, rfl⟩ := List.mem_map.mp hx
    obtain ⟨c, hc, hident⟩ := List.mem_flatMap.mp hident
    have hchild := (g.mem_children d c).mp hc
    split at hident
    · rename_i name hname
      rw [List.mem_singleton.mp hident]
      exact ⟨c, .single hchild, hname⟩
    · rw [Option.mem_toList] at hident
      obtain ⟨gc, hgc, hident⟩ := List.exists_of_findSome?_eq_some hident
      obtain ⟨name, hname, rfl⟩ := Option.map_eq_some_iff.mp hident
      exact ⟨gc, (Relation.ReflTransGen.single hchild).tail ((g.mem_children c gc).mp hgc), hname⟩
  · refine ⟨target, .single ((g.mem_children d target).mp ?_), hx⟩
    rw [hchildren]
    exact List.mem_cons_self

theorem keeps_of_namesFit {g : Graph} (hg : g.Forest) {opts : DdgBuildOptions} {fn : NodeId}
    (hfit : NamesFit g opts.maxNamesPerFunction fn) {x : Bytes} {d u : NodeId}
    (hreads : Reads (parametersOf g fn) (eventsOf g opts fn) x d u) : Keeps g opts fn x := by
  have hsite : ∀ p ∈ parametersOf g fn ++ definitions (eventsOf g opts fn), Below g fn p.2 ∧
      Defines g p.2 p.1 := by
    rintro ⟨y, e⟩ he
    rcases List.mem_append.mp he with he | he
    · exact ⟨(parameter_site hg he).1.to_reflTransGen, parameterBindings_defines he⟩
    · obtain ⟨henters, hbound⟩ := bind_mem_bodyEvents (mem_definitions.mp he)
      exact ⟨(below_of_enters henters).to_reflTransGen, (bound_defines hbound).1⟩
  have hroom : ((parametersOf g fn ++ definitions (eventsOf g opts fn)).map
      (·.1)).eraseDups.length ≤
      opts.maxNamesPerFunction := by
    apply hfit
    · exact Merge.nodup_eraseDups _
    · intro y hy
      obtain ⟨q, hq, rfl⟩ := List.mem_map.mp (List.mem_eraseDups.mp hy)
      obtain ⟨hbelow, hdefines⟩ := hsite q hq
      obtain ⟨n, hn, hname⟩ := name_of_defines hdefines
      exact ⟨n, hbelow.trans hn, hname⟩
  unfold Keeps Kept
  rw [List.take_of_length_le hroom, List.mem_eraseDups]
  obtain ⟨before, after, heq, hlast⟩ := hreads
  refine List.mem_map.mpr ⟨(x, d), ?_, rfl⟩
  rw [heq, definitions_append, ← List.append_assoc]
  exact List.mem_append_left _ (mem_of_lastOf hlast)

/-- **Straight-line functions.** The run ends. The edges into the function are those that its
statements ask for exactly when no name is read or bound out of place, in the function itself and in
the functions around it. -/
theorem buildDdg_straight_iff (g : Graph) (hg : g.AstForest) (p : StraightLine g)
    (opts : DdgBuildOptions) (hdeclarations : opts.trackDeclarations = true)
    (hassignments : opts.trackAssignments = true) (hfit : NamesFit g opts.maxNamesPerFunction p.fn)
    (fuel : Nat) (hfuel : g.nodeCount + 1 < fuel) :
    ∃ g' stats added, buildDdg fuel g opts = some (g', stats) ∧ g'.edges = g.edges ++ added ∧
      ((∀ d u, Below g p.fn u → (⟨d, u, .ddg⟩ ∈ added ↔ p.Expected d u)) ↔ p.NoStrayNames opts ∧
        p.Closed opts) := by
  obtain ⟨g', stats, hrun, -⟩ := buildDdg_ends g hg.forest opts fuel hfuel
  obtain ⟨-, hedges⟩ := buildDdg_edges hrun
  refine ⟨g', stats, _, hrun, hedges, ?_⟩
  have hedge : ∀ d u,
      (⟨d, u, .ddg⟩ : Edge) ∈ (g.findByKind .functionDef).flatMap (functionEdges opts fuel g) ↔
      ∃ h, g.hasKind h .functionDef = true ∧
        ∃ x, Reads (parametersOf g h) (eventsOf g opts h) x d u ∧ Keeps g opts h x := by
    intro d u
    rw [List.mem_flatMap]
    refine exists_congr fun h => ?_
    rw [Graph.mem_findByKind, mem_functionEdges hg.forest fuel hfuel]
    simp
  -- Beyond what the function reads, only the functions around it can add edges into it.
  have hown : ∀ d u, (∃ x, Reads (parametersOf g p.fn) (eventsOf g opts p.fn) x d u) →
      ∃ h, g.hasKind h .functionDef = true ∧
        ∃ x, Reads (parametersOf g h) (eventsOf g opts h) x d u ∧ Keeps g opts h x := by
    rintro d u ⟨x, hreads⟩
    exact ⟨p.fn, p.function, x, hreads, keeps_of_namesFit hg.forest hfit hreads⟩
  rw [← reads_expected_iff hg hdeclarations hassignments]
  constructor
  · intro h
    refine ⟨fun d u => ⟨fun hreads => ?_, fun hexpected => ?_⟩, ?_⟩
    · have hu : Below g p.fn u :=
        (below_of_enters (reads_enters hreads.choose_spec)).to_reflTransGen
      exact (h d u hu).mp ((hedge d u).mpr (hown d u hreads))
    · obtain ⟨hu, hd⟩ := expected_below hg hexpected
      obtain ⟨f, hf, x, hreads, -⟩ := (hedge d u).mp ((h d u hu).mpr hexpected)
      rcases around_of_reads hg hf hreads hu with rfl | henters
      · exact ⟨x, hreads⟩
      · rcases reads_inner hg henters p.function hreads hu with hlocal | hout
        · exact ⟨x, hlocal.after _⟩
        · exact absurd hd hout
    · intro f hf henters x d u hreads hkeeps hu
      exact (expected_below hg ((h d u hu).mp ((hedge d u).mpr ⟨f, hf, x, hreads, hkeeps⟩))).2
  · rintro ⟨h, hclosed⟩ d u hu
    rw [hedge, ← h d u]
    refine ⟨?_, hown d u⟩
    rintro ⟨f, hf, x, hreads, hkeeps⟩
    rcases around_of_reads hg hf hreads hu with rfl | henters
    · exact ⟨x, hreads⟩
    · rcases reads_inner hg henters p.function hreads hu with hlocal | hout
      · exact ⟨x, hlocal.after _⟩
      · exact absurd (hclosed f hf henters x d u hreads hkeeps hu) hout

/-! ### `def f(x): y = x; g(y)` -/

theorem namesFit_of_nodes {g : Graph} {limit : Nat} (h : g.nodes.length ≤ limit) (fn : NodeId) :
    NamesFit g limit fn := by
  intro names hnodup hnames
  have hsub : names ⊆ g.nodes.map (·.name) := by
    intro x hx
    obtain ⟨id, -, hname⟩ := hnames x hx
    obtain ⟨n, hn, -, rfl, -⟩ := identifierName_eq_some id x hname
    exact List.mem_map_of_mem (g.get_eq_some_iff.mp hn).1
  have hle := (List.subperm_of_subset hnodup hsub).length_le
  rw [List.length_map] at hle
  exact Nat.le_trans hle h

theorem isExpression_of_le {g : Graph} (hg : g.PreOrder) (id : NodeId)
    (h : ∀ n ∈ g.nodes, id ≤ n.id → n.kind ≠ .parameter ∧ n.kind ≠ .declaration ∧
      n.kind ≠ .assignment) :
    IsExpression g id := by
  intro c hc n hn
  obtain ⟨hmem, rfl⟩ := g.get_eq_some_iff.mp hn
  exact h n hmem (below_le g hg id n.id hc)

def copyStraight : StraightLine copyFunction where
  fn := 1
  header := [2]
  body := 4
  statements := [.define 5 5 [] 6 (ascii "y") [7], .eval 8]
  function := by decide
  children_fn := by decide
  block := by decide
  children_body := by decide
  wellFormed := by
    intro s hs
    rcases List.mem_cons.mp hs with rfl | hs
    · refine ⟨.bare 5, by decide, by decide, nofun, ?_, Or.inr ⟨by decide, rfl⟩⟩
      intro c hc
      rw [List.nil_append, List.mem_singleton] at hc
      subst hc
      exact isExpression_of_le copyFunction_preOrder 7 (by decide)
    · rw [List.mem_singleton.mp hs]
      exact isExpression_of_le copyFunction_preOrder 8 (by decide)
  alone := by
    intro f hf habove
    have hmem := (Graph.mem_findByKind .functionDef f).mpr hf
    rw [show copyFunction.findByKind .functionDef = [1] by decide, List.mem_singleton] at hmem
    subst hmem
    exact copyFunction_preOrder.forest.acyclic 1 habove

theorem visits_of_below {g : Graph}
    (hleaf : ∀ n, g.hasKind n .identifier = true → g.children n = []) {a u : NodeId}
    (hexpr : IsExpression g a) (h : Below g a u) : Visits g a u := by
  induction h using Relation.ReflTransGen.head_induction_on with
  | refl => exact .here u
  | @head a c hc _ ih =>
    obtain ⟨n, hn⟩ := Graph.exists_get (g.child_valid a c hc).1
    have hkind := hexpr a .refl n hn
    refine .through a c u ⟨n, hn, hkind.1, ?_, hkind.2.1, hkind.2.2⟩ hc
      (ih fun b hb => hexpr b (.head hc hb))
    intro hident
    have hnone := hleaf a (by rw [Graph.hasKind_of_get hn, decide_eq_true hident])
    rw [← g.mem_children, hnone] at hc
    cases hc

theorem copyStraight_walked {s : Statement} (hs : s ∈ copyStraight.statements) (u : NodeId) :
    s.InUse copyFunction u ↔ s.Walked copyFunction u := by
  have hleaf : ∀ n, copyFunction.hasKind n .identifier = true → copyFunction.children n = [] := by
    intro n hn
    have hmem := (Graph.mem_findByKind .identifier n).mpr hn
    rw [show copyFunction.findByKind .identifier = [3, 6, 7, 9, 10] by decide] at hmem
    exact (by decide : ∀ n ∈ [3, 6, 7, 9, 10], copyFunction.children n = []) n hmem
  have hparts : s.InUse copyFunction u ↔ ∃ c ∈ s.walkedParts copyFunction,
      Below copyFunction c u := by
    rcases List.mem_cons.mp hs with rfl | hs
    · exact Iff.rfl
    · rw [List.mem_singleton.mp hs]
      simp [Statement.InUse, Statement.walkedParts]
  rw [hparts]
  refine exists_congr fun c => and_congr_right fun hc => ⟨?_, visits_below copyFunction c u⟩
  exact visits_of_below hleaf (walkedParts_expression (copyStraight.wellFormed s hs) c hc)

theorem copyStraight_noStrayNames : copyStraight.NoStrayNames {} := by
  have hheader : copyStraight.headerEvents {} = [] := by decide
  have hnames : ∀ s ∈ copyStraight.statements, s.boundNames copyFunction = s.names := by
    intro s hs
    rcases List.mem_cons.mp hs with rfl | hs
    · decide
    · rw [List.mem_singleton.mp hs]
      rfl
  refine ⟨?_, ?_, ?_, ?_⟩
  · intro before x u after h
    rw [hheader] at h
    simp at h
  · intro before s after x u hsplit hinUse hwalked
    exact absurd ((copyStraight_walked (by simp [hsplit]) u).mp hinUse) hwalked
  · intro before s after x u hsplit hwalked hinUse
    exact absurd ((copyStraight_walked (by simp [hsplit]) u).mpr hwalked) hinUse
  · intro before s after x u hsplit _ _ _
    refine ⟨fun hx => ?_, ?_⟩
    · rw [hheader] at hx
      cases hx
    · rintro before' s' after' rfl hb hn
      rw [hnames s' (by simp [hsplit])] at hb
      exact absurd hb hn

theorem copyStraight_exact : ∃ g' stats, buildDdg 12 copyFunction {} = some (g', stats) ∧
    ∀ d u, Below copyFunction 1 u → (⟨d, u, .ddg⟩ ∈ g'.edges ↔ copyStraight.Expected d u) := by
  have hclosed : copyStraight.Closed {} := by
    intro h hh henters
    exact absurd (below_of_enters henters) fun habove => by
      have hmem := (Graph.mem_findByKind .functionDef h).mpr hh
      rw [show copyFunction.findByKind .functionDef = [1] by decide, List.mem_singleton] at hmem
      subst hmem
      exact copyFunction_preOrder.forest.acyclic 1 habove
  obtain ⟨g', stats, added, hrun, hedges, hiff⟩ :=
    buildDdg_straight_iff copyFunction copyFunction_preOrder.astForest
    copyStraight {} rfl rfl (namesFit_of_nodes (by decide) _) 12 (by decide)
  refine ⟨g', stats, hrun, fun d u hu => ?_⟩
  rw [hedges, ← hiff.mpr ⟨copyStraight_noStrayNames, hclosed⟩ d u hu, List.mem_append, or_iff_right]
  exact fun h => absurd rfl ((by decide : ∀ e ∈ copyFunction.edges, e.kind ≠ .ddg) _ h)

/-! ### `fn f(x: i32) { let y = x; }` -/

def letFunction : Graph where
  nodes := [nodeNamed 1 .functionDef "", nodeNamed 2 .identifier "f", nodeNamed 3 .unknown "",
    nodeNamed 4 .parameter "",
    nodeNamed 5 .identifier "x", nodeNamed 6 .unknown "", nodeNamed 7 .block "",
    nodeNamed 8 .declaration "",
    nodeNamed 9 .identifier "y",
    nodeNamed 10 .identifier "x"].map fun n => { n with language := .rust }
  edges := [⟨1, 2, .astChild⟩, ⟨1, 3, .astChild⟩, ⟨3, 4, .astChild⟩, ⟨4, 5, .astChild⟩,
    ⟨4, 6, .astChild⟩, ⟨1, 7, .astChild⟩, ⟨7, 8, .astChild⟩, ⟨8, 9, .astChild⟩, ⟨8, 10, .astChild⟩]
  dense := by decide
  ends := by decide

theorem letFunction_preOrder : letFunction.PreOrder :=
  Graph.preOrder_of_edges (by decide) (by decide)

def letStraight : StraightLine letFunction where
  fn := 1
  header := [2, 3]
  body := 7
  statements := [.define 8 8 [] 9 (ascii "y") [10]]
  function := by decide
  children_fn := by decide
  block := by decide
  children_body := by decide
  wellFormed := by
    intro s hs
    rw [List.mem_singleton.mp hs]
    refine ⟨.bare 8, by decide, by decide, nofun, ?_, Or.inl (by decide)⟩
    intro c hc
    rw [List.nil_append, List.mem_singleton] at hc
    subst hc
    exact isExpression_of_le letFunction_preOrder 10 (by decide)
  alone := by
    intro f hf habove
    have hmem := (Graph.mem_findByKind .functionDef f).mpr hf
    rw [show letFunction.findByKind .functionDef = [1] by decide, List.mem_singleton] at hmem
    subst hmem
    exact letFunction_preOrder.forest.acyclic 1 habove

theorem letStraight_missing : letFunction.AstForest ∧ NamesFit letFunction 4096 letStraight.fn ∧
    letStraight.Expected 4 10 ∧ ∃ g' stats, buildDdg 12 letFunction {} = some (g', stats) ∧
    ⟨4, 10, .ddg⟩ ∉ g'.edges := by
  -- The initialiser is taken for a second declared name.
  refine ⟨letFunction_preOrder.astForest, namesFit_of_nodes (by decide) _, ?_, ?_⟩
  · exact ⟨[], _, [], ascii "x", rfl, ⟨10, List.mem_singleton_self 10, .refl⟩, by decide, by decide⟩
  · obtain ⟨g', stats, hrun, -⟩ :=
      buildDdg_ends letFunction letFunction_preOrder.forest {} 12 (by decide)
    have hnew : (letFunction.findByKind .functionDef).flatMap (functionEdges {} 12 letFunction) =
        [] := by decide
    refine ⟨g', stats, hrun, ?_⟩
    rw [(buildDdg_edges hrun).2, hnew]
    decide

end StraightLine

end Euxis.Cpg
