import Euxis.Cpg.Copies
import Euxis.Taint.BuiltinSpecs
import Euxis.Taint.Proofs

/-!
# Taint through copies
-/

namespace Euxis.Taint

open Cpg

def roleOf (g : Graph) (ast : Parse.Ast) (spec : TaintSpec) (id : NodeId) : Role :=
  (entryOf (classifyAll g ast spec {}).1 id).role

/-- The first assignment is a source, the call and nodes around it are the sinks, and nothing
sanitizes. -/
structure CopyRoles (g : Graph) (ast : Parse.Ast) (spec : TaintSpec) (p : CopyFunction g) :
    Prop where
  source : roleOf g ast spec p.first.node = .source
  sink : roleOf g ast spec p.call = .sink
  sinks : ∀ id, roleOf g ast spec id = .sink → Below g id p.call
  sanitizers : ∀ id, roleOf g ast spec id ≠ .sanitizer

/-- In the graph `g'` with the dependences of `g`, a path of them leads to the argument of the call,
and the flow into the call is reported. -/
def CopiesTainted (fuel : Nat) (g g' : Graph) (ast : Parse.Ast) (spec : TaintSpec)
    (p : CopyFunction g) : Prop :=
  Relation.TransGen g'.Ddg p.first.node p.use ∧
    ∃ result, analyze fuel g' ast spec = some result ∧
      ∃ f ∈ result.flows, f.sourceNode = p.first.node ∧ f.sinkNode = p.call

section

variable (g : Graph) (ast : Parse.Ast) (hbuilt : g = build ast) (spec : TaintSpec)
  (p : CopyFunction g)

theorem classifyAll_graph (g' : Graph) (hnodes : g'.nodes = g.nodes) :
    classifyAll g' ast spec {} = classifyAll g ast spec {} := by
  unfold classifyAll Graph.nodeCount
  rw [hnodes]

theorem parentChain_of_below (g : Graph) (a u : NodeId) (h : Below g a u) (hne : a ≠ u) :
    ∃ between, ParentChain g u (between ++ [a]) ∧ ∀ c ∈ between, Relation.TransGen g.Child a c := by
  induction h with
  | refl => exact absurd rfl hne
  | tail hab hbc ih =>
    rename_i b c
    by_cases hb : a = b
    · subst hb
      exact ⟨[], ⟨hbc, trivial⟩, by simp⟩
    · obtain ⟨between, hchain, hbelow⟩ := ih hb
      refine ⟨b :: between, ⟨hbc, hchain⟩, ?_⟩
      intro d hd
      rcases List.mem_cons.mp hd with rfl | hd
      · rcases Relation.reflTransGen_iff_eq_or_transGen.mp hab with h | h
        · exact absurd h.symm hb
        · exact h
      · exact hbelow d hd

theorem parentChain_mono (g g' : Graph) (hchild : ∀ p c, g.Child p c → g'.Child p c) (n : NodeId)
    (l : List NodeId) (h : ParentChain g n l) : ParentChain g' n l := by
  induction l generalizing n with
  | nil => trivial
  | cons p rest ih => exact ⟨hchild p n h.1, ih p h.2⟩

theorem role_below_call (hg : g.PreOrder) (hroles : CopyRoles g ast spec p) (id : NodeId)
    (h : Relation.TransGen g.Child p.call id) : roleOf g ast spec id ≠ .sink := by
  intro hsink
  exact hg.forest.acyclic p.call (h.trans_left (hroles.sinks id hsink))

theorem sinkFor_use (hg : g.PreOrder) (hroles : CopyRoles g ast spec p) (w : DdgWalker g) :
    SinkFor w.graph (classifyAll g ast spec {}).1 p.use p.call := by
  have hne : p.call ≠ p.use := by
    intro heq
    obtain ⟨n, hn, hkind⟩ := p.call_kind
    obtain ⟨n', hn', hkind', -⟩ := DdgWalker.identifierName_eq_some p.use _ p.use_name
    rw [heq, hn', Option.some.injEq] at hn
    rw [← hn, hkind'] at hkind
    cases hkind
  have hbelow := visits_below g p.call p.use p.use_visited
  obtain ⟨between, hchain, hbetween⟩ := parentChain_of_below g p.call p.use hbelow hne
  have huse : Relation.TransGen g.Child p.call p.use := by
    rcases Relation.reflTransGen_iff_eq_or_transGen.mp hbelow with h | h
    · exact absurd h.symm hne
    · exact h
  refine Or.inr ⟨role_below_call g ast spec p hg hroles p.use huse, hroles.sink, between, ?_, ?_⟩
  · exact parentChain_mono g w.graph (fun p c h => (w.graph_child p c).mpr h) p.use _ hchain
  · intro c hc
    exact ⟨role_below_call g ast spec p hg hroles c (hbetween c hc), hroles.sanitizers c⟩

include hbuilt

/-- Taint follows the value into the call exactly when nothing copies it on the way. -/
theorem copies_tainted_iff (hroles : CopyRoles g ast spec p) (opts : DdgBuildOptions) (fuel : Nat)
    (hfuel : g.nodeCount + 2 < fuel) :
    ∃ g' stats, buildDdg fuel g opts = some (g', stats) ∧
      (CopiesTainted fuel g g' ast spec p ↔
        opts.trackAssignments = true ∧ p.copies = [] ∧ p.HasRoom opts fuel) := by
  have hg : g.PreOrder := hbuilt ▸ build_preOrder ast
  have hast : ∀ e ∈ g.edges, e.kind = .astChild := hbuilt ▸ build_edges ast
  obtain ⟨g', stats, hbuild, hnodes, hpre⟩ := buildDdg_returns g hg opts fuel (by omega)
  refine ⟨g', stats, hbuild, ?_⟩
  rw [← p.first_reaches_use_iff opts fuel hg hast g' stats hbuild]
  constructor
  · intro h
    exact h.1
  -- Without a copy the call is one edge away, so the sink is found from there.
  · intro hpath
    have hddg := ddg_path_single fuel g hast opts g' stats hbuild _ _ hpath
    have hne := ((p.ddg_use_iff opts fuel hg hast g' stats hbuild _).mp hddg).1
    have hcount : g'.nodeCount + 2 < fuel := by
      unfold Graph.nodeCount at hfuel ⊢
      rw [hnodes]
      exact hfuel
    obtain ⟨result, hresult, hflows⟩ := analyze_spec g' ast spec hpre.forest fuel hcount
    obtain ⟨w, -, rfl⟩ := buildDdg_defUse fuel g opts g' stats hbuild
    refine ⟨hpath, result, hresult, (hflows p.first.node p.call).mpr ?_⟩
    unfold Tainted
    rw [classifyAll_graph g ast spec w.graph hnodes]
    refine ⟨hroles.source, [p.first.node, p.use], [], p.use, rfl, ?_, hne.symm, ?_, by simp⟩
    · exact List.isChain_pair.mpr hddg
    · exact sinkFor_use g ast spec p hg hroles w

end

/-! ## Two programs -/

def pyRange (startByte endByte : Nat) : Parse.SourceRange :=
  { startRow := 0, startColumn := startByte, endRow := 0, endColumn := endByte, startByte, endByte }

def directAst : Parse.Ast :=
  { language := .python,
    source := ascii "def f():\n a = input()\n eval(a)\n",
    namedNodes :=
      [(ascii "module", pyRange 0 31), (ascii "function_definition", pyRange 0 30),
       (ascii "identifier", pyRange 4 5), (ascii "parameters", pyRange 5 7),
       (ascii "block", pyRange 10 30),
       (ascii "expression_statement", pyRange 10 21), (ascii "assignment", pyRange 10 21),
       (ascii "identifier", pyRange 10 11), (ascii "call", pyRange 14 21),
       (ascii "identifier", pyRange 14 19),
       (ascii "argument_list", pyRange 19 21),
       (ascii "expression_statement", pyRange 23 30), (ascii "call", pyRange 23 30),
       (ascii "identifier", pyRange 23 27), (ascii "argument_list", pyRange 27 30),
       (ascii "identifier", pyRange 28 29)] }

def copiedAst : Parse.Ast :=
  { language := .python,
    source := ascii "def f():\n a = input()\n b = a\n eval(b)\n",
    namedNodes :=
      [(ascii "module", pyRange 0 38), (ascii "function_definition", pyRange 0 37),
       (ascii "identifier", pyRange 4 5), (ascii "parameters", pyRange 5 7),
       (ascii "block", pyRange 10 37),
       (ascii "expression_statement", pyRange 10 21), (ascii "assignment", pyRange 10 21),
       (ascii "identifier", pyRange 10 11), (ascii "call", pyRange 14 21),
       (ascii "identifier", pyRange 14 19),
       (ascii "argument_list", pyRange 19 21),
       (ascii "expression_statement", pyRange 23 28), (ascii "assignment", pyRange 23 28),
       (ascii "identifier", pyRange 23 24), (ascii "identifier", pyRange 27 28),
       (ascii "expression_statement", pyRange 30 37), (ascii "call", pyRange 30 37),
       (ascii "identifier", pyRange 30 34), (ascii "argument_list", pyRange 34 37),
       (ascii "identifier", pyRange 35 36)] }

def nodesOf (ast : Parse.Ast) (kinds : List (NodeKind × Bytes)) : List Node :=
  (ast.namedNodes.zip kinds).mapIdx fun i (named, kind, name) =>
    { id := i + 1, kind, rawKind := named.1, name, range := named.2, language := ast.language }

/-- Node `i + 2` is a child of entry `i`. -/
def treeEdges (parents : List NodeId) : List Edge := parents.mapIdx fun i p => ⟨p, i + 2, .astChild⟩

def directGraph : Graph where
  nodes := nodesOf directAst
    [(.translationUnit, []), (.functionDef, []), (.identifier, ascii "f"), (.parameter, []),
      (.block, []),
     (.unknown, []), (.assignment, []), (.identifier, ascii "a"), (.call, []),
     (.identifier, ascii "input"),
     (.unknown, []), (.unknown, []), (.call, []), (.identifier, ascii "eval"), (.unknown, []),
     (.identifier, ascii "a")]
  edges := treeEdges [1, 2, 2, 2, 5, 6, 7, 7, 9, 9, 5, 12, 13, 13, 15]
  dense := by decide
  ends := by decide

def copiedGraph : Graph where
  nodes := nodesOf copiedAst
    [(.translationUnit, []), (.functionDef, []), (.identifier, ascii "f"), (.parameter, []),
      (.block, []),
     (.unknown, []), (.assignment, []), (.identifier, ascii "a"), (.call, []),
     (.identifier, ascii "input"),
     (.unknown, []), (.unknown, []), (.assignment, []), (.identifier, ascii "b"),
     (.identifier, ascii "a"),
     (.unknown, []), (.call, []), (.identifier, ascii "eval"), (.unknown, []),
     (.identifier, ascii "b")]
  edges := treeEdges [1, 2, 2, 2, 5, 6, 7, 7, 9, 9, 5, 12, 13, 13, 5, 16, 17, 17, 19]
  dense := by decide
  ends := by decide

theorem graph_eq (g h : Graph) (hnodes : g.nodes = h.nodes) (hedges : g.edges = h.edges) :
    g = h := by
  obtain ⟨nodes, edges, _, _⟩ := g
  obtain ⟨nodes', edges', _, _⟩ := h
  obtain rfl : nodes = nodes' := hnodes
  obtain rfl : edges = edges' := hedges
  rfl

theorem build_directAst : build directAst = directGraph := graph_eq _ _ (by decide +kernel) rfl

theorem build_copiedAst : build copiedAst = copiedGraph := graph_eq _ _ (by decide +kernel) rfl

/-! Shapes of a graph that can be evaluated. -/

theorem exists_kind (g : Graph) (id : NodeId) (P : NodeKind → Prop) [DecidablePred P]
    (h : (g.get id).any (fun n => P n.kind) = true) : ∃ n, g.get id = some n ∧ P n.kind := by
  obtain ⟨n, hn, hkind⟩ := (Option.any_eq_true _ _).mp h
  exact ⟨n, hn, of_decide_eq_true hkind⟩

theorem defFree_of_closed (g : Graph) (id : NodeId) (ids : List NodeId) (hid : id ∈ ids)
    (hclosed : ∀ c ∈ ids, ∀ d ∈ g.children c, d ∈ ids)
    (hkinds : ∀ c ∈ ids, (g.get c).all fun n => n.kind ≠ .declaration ∧ n.kind ≠ .assignment) :
    DefFree g id := by
  intro c hc n hn
  have hmem : c ∈ ids := by
    clear hn
    induction hc with
    | refl => exact hid
    | tail _ hstep ih => exact hclosed _ ih _ ((g.mem_children _ _).mpr hstep)
  have h := hkinds c hmem
  rw [hn] at h
  simpa using h

theorem isAssign_of_children (g : Graph) (a : Assign) (target : NodeId)
    (hplain : (g.get a.stmt).any (fun n => Plain n.kind) = true)
    (hstmt : g.children a.stmt = [a.node])
    (hkind : (g.get a.node).any (fun n => n.kind = .assignment) = true)
    (hchildren : g.children a.node = target :: a.values)
    (hname : DdgWalker.identifierName g target = some a.name)
    (hvalues : ∀ v ∈ a.values, DefFree g v) : IsAssign g a :=
  ⟨Wraps.wrapped _ _ _ (exists_kind g _ Plain hplain) hstmt (Wraps.bare _),
    exists_kind g _ (· = .assignment) hkind, ⟨target, hchildren, hname⟩, hvalues⟩

theorem visits_of_children (g : Graph) (outer inner id : NodeId)
    (hplain : (g.get outer).any (fun n => Plain n.kind) = true) (hmem : inner ∈ g.children outer)
    (h : Visits g inner id) : Visits g outer id :=
  Visits.through outer inner id (exists_kind g _ Plain hplain) ((g.mem_children _ _).mp hmem) h

theorem below_of_children (g : Graph) (p c id : NodeId) (h : c ∈ g.children p) (hc : Below g c id) :
    Below g p id :=
  Relation.ReflTransGen.head ((g.mem_children p c).mp h) hc

def directFunction : CopyFunction directGraph where
  fn := 2
  header := [3, 4]
  body := 5
  first := { stmt := 6, node := 7, name := ascii "a", values := [9] }
  copies := []
  stmt := 12
  call := 13
  use := 16
  functions := by decide
  children_fn := by decide
  header_free := fun c hc => defFree_of_closed _ c [3, 4] hc (by decide) (by decide)
  body_plain := exists_kind _ _ Plain (by decide)
  children_body := by decide
  assigns := by
    intro a ha
    rw [List.mem_singleton.mp ha]
    refine isAssign_of_children _ _ 8 (by decide) (by decide) (by decide) (by decide) (by decide) ?_
    intro v hv
    exact defFree_of_closed _ v [9, 10, 11] (by simp_all) (by decide) (by decide)
  copied := List.isChain_singleton _
  call_wraps := Wraps.wrapped _ _ _ (exists_kind _ _ Plain (by decide)) (by decide) (Wraps.bare _)
  call_kind := exists_kind _ _ (· = .call) (by decide)
  call_free := defFree_of_closed _ _ [13, 14, 15, 16] (by decide) (by decide) (by decide)
  use_visited := visits_of_children _ _ 15 _ (by decide) (by decide)
    (visits_of_children _ _ 16 _ (by decide) (by decide) (Visits.here 16))
  use_name := by decide

def copiedFunction : CopyFunction copiedGraph where
  fn := 2
  header := [3, 4]
  body := 5
  first := { stmt := 6, node := 7, name := ascii "a", values := [9] }
  copies := [{ stmt := 12, node := 13, name := ascii "b", values := [15] }]
  stmt := 16
  call := 17
  use := 20
  functions := by decide
  children_fn := by decide
  header_free := fun c hc => defFree_of_closed _ c [3, 4] hc (by decide) (by decide)
  body_plain := exists_kind _ _ Plain (by decide)
  children_body := by decide
  assigns := by
    intro a ha
    rcases List.mem_cons.mp ha with rfl | ha
    · refine isAssign_of_children _ _ 8 (by decide) (by decide) (by decide) (by decide)
        (by decide) ?_
      intro v hv
      exact defFree_of_closed _ v [9, 10, 11] (by simp_all) (by decide) (by decide)
    · rw [List.mem_singleton.mp ha]
      refine isAssign_of_children _ _ 14 (by decide) (by decide) (by decide) (by decide)
        (by decide) ?_
      intro v hv
      exact defFree_of_closed _ v [15] hv (by decide) (by decide)
  copied := List.isChain_pair.mpr ⟨15, rfl, by decide⟩
  call_wraps := Wraps.wrapped _ _ _ (exists_kind _ _ Plain (by decide)) (by decide) (Wraps.bare _)
  call_kind := exists_kind _ _ (· = .call) (by decide)
  call_free := defFree_of_closed _ _ [17, 18, 19, 20] (by decide) (by decide) (by decide)
  use_visited := visits_of_children _ _ 19 _ (by decide) (by decide)
    (visits_of_children _ _ 20 _ (by decide) (by decide) (Visits.here 20))
  use_name := by decide

theorem copyRoles_of_table (g : Graph) (ast : Parse.Ast) (spec : TaintSpec) (p : CopyFunction g)
    (roles : List Role) (hroles : (classifyAll g ast spec {}).1.map (·.role) = roles)
    (hsource : roles[p.first.node]? = some .source) (hsink : roles[p.call]? = some .sink)
    (hsanitizer : .sanitizer ∉ roles)
    (hsinks : ∀ r ∈ roles.zipIdx, r.1 = .sink → Below g r.2 p.call) : CopyRoles g ast spec p := by
  -- An id outside of the table has no role.
  have hrole : ∀ id, roleOf g ast spec id = roles[id]?.getD .none := by
    intro id
    unfold roleOf entryOf
    rw [← hroles, List.getElem?_map]
    cases (classifyAll g ast spec {}).1[id]? <;> rfl
  refine ⟨by rw [hrole, hsource]; rfl, by rw [hrole, hsink]; rfl, ?_, ?_⟩
  · intro id h
    rw [hrole] at h
    cases hget : roles[id]? with
    | none =>
      rw [hget] at h
      cases h
    | some role =>
      rw [hget] at h
      exact hsinks (role, id) (List.mem_zipIdx_iff_getElem?.mpr hget) h
  · intro id h
    rw [hrole] at h
    cases hget : roles[id]? with
    | none =>
      rw [hget] at h
      cases h
    | some role =>
      rw [hget] at h
      rw [← show role = .sanitizer from h] at hsanitizer
      exact hsanitizer (List.mem_of_getElem? hget)

theorem directRoles : CopyRoles directGraph directAst builtinSpecs directFunction := by
  refine copyRoles_of_table _ _ _ _
    [.none, .sink, .sink, .none, .none, .sink, .source, .source, .none, .source, .none, .none,
      .sink, .sink, .none,
     .none, .none] (by decide +kernel) rfl rfl (by decide) ?_
  have h13 : Below directGraph 13 13 := Relation.ReflTransGen.refl
  have h12 := below_of_children directGraph 12 13 13 (by decide) h13
  have h5 := below_of_children directGraph 5 12 13 (by decide) h12
  have h2 := below_of_children directGraph 2 5 13 (by decide) h5
  have h1 := below_of_children directGraph 1 2 13 (by decide) h2
  simp [List.zipIdx, directFunction, h13, h12, h5, h2, h1]

theorem copiedRoles : CopyRoles copiedGraph copiedAst builtinSpecs copiedFunction := by
  refine copyRoles_of_table _ _ _ _
    [.none, .sink, .sink, .none, .none, .sink, .source, .source, .none, .source, .none, .none,
      .none, .none, .none,
     .none, .sink, .sink, .none, .none, .none] (by decide +kernel) rfl rfl (by decide) ?_
  have h17 : Below copiedGraph 17 17 := Relation.ReflTransGen.refl
  have h16 := below_of_children copiedGraph 16 17 17 (by decide) h17
  have h5 := below_of_children copiedGraph 5 16 17 (by decide) h16
  have h2 := below_of_children copiedGraph 2 5 17 (by decide) h5
  have h1 := below_of_children copiedGraph 1 2 17 (by decide) h2
  simp [List.zipIdx, copiedFunction, h17, h16, h5, h2, h1]

theorem direct_input_tainted :
    ∃ g' stats, buildDdg 19 directGraph {} = some (g', stats) ∧
      CopiesTainted 19 directGraph g' directAst builtinSpecs directFunction := by
  obtain ⟨g', stats, hbuild, hiff⟩ :=
    copies_tainted_iff directGraph directAst build_directAst.symm builtinSpecs
    directFunction directRoles {} 19 (by decide)
  exact ⟨g', stats, hbuild, hiff.mpr ⟨rfl, rfl, by unfold CopyFunction.HasRoom; decide⟩⟩

theorem copied_input_lost :
    copiedGraph = build copiedAst ∧ CopyRoles copiedGraph copiedAst builtinSpecs copiedFunction ∧
      ∃ g' stats, buildDdg 23 copiedGraph {} = some (g', stats) ∧
        ¬ Relation.TransGen g'.Ddg copiedFunction.first.node copiedFunction.use ∧
        ∃ result, analyze 23 g' copiedAst builtinSpecs = some result ∧
          ∀ f ∈ result.flows, f.sinkNode ≠ copiedFunction.call := by
  -- `a = input()`, `b = a`, `eval(b)`: nothing leads from the first statement to the call.
  have hg : copiedGraph.PreOrder := build_copiedAst ▸ build_preOrder copiedAst
  have hast : ∀ e ∈ copiedGraph.edges, e.kind = .astChild := build_copiedAst ▸ build_edges copiedAst
  obtain ⟨g', stats, hbuild, -, hpre⟩ := buildDdg_returns copiedGraph hg {} 23 (by decide)
  have hflows : ((buildDdg 23 copiedGraph {}).bind fun r =>
      (analyze 23 r.1 copiedAst builtinSpecs).map fun r => r.flows.map (·.sinkNode)) =
        some [5] := by decide +kernel
  rw [hbuild, Option.bind_some, Option.map_eq_some_iff] at hflows
  obtain ⟨result, hresult, hsinks⟩ := hflows
  refine ⟨build_copiedAst.symm, copiedRoles, g', stats, hbuild, ?_, result, hresult, ?_⟩
  · rw [copiedFunction.first_reaches_use_iff {} 23 hg hast g' stats hbuild]
    rintro ⟨-, hcopies, -⟩
    cases hcopies
  · intro f hf hcall
    have hmem := List.mem_map_of_mem (f := (·.sinkNode)) hf
    rw [hsinks, hcall] at hmem
    exact absurd hmem (by decide)

end Euxis.Taint
