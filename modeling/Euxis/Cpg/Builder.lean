import Euxis.Cpg.Graph

/-!
# From a syntax tree to a graph: `libs/cpg/src/types.cpp` and `libs/cpg/src/builder.cpp`
-/

namespace Euxis.Cpg

/-! ## Kinds -/

def classifyCommon (k : Bytes) : NodeKind :=
  if k = ascii "identifier" then .identifier
  else if k ∈ [ascii "call_expression", ascii "call"] then .call
  else if k ∈ [ascii "block", ascii "compound_statement", ascii "statement_block"] then .block
  else if k ∈ [ascii "return_statement", ascii "return"] then .return
  else if k ∈ [ascii "if_statement", ascii "if_expression"] then .if
  else if k ∈ [ascii "for_statement", ascii "for_expression", ascii "while_statement",
    ascii "while_expression", ascii "do_statement"] then .loop
  else if k ∈ [ascii "assignment_expression", ascii "assignment"] then .assignment
  else if k ∈ [ascii "number_literal", ascii "string_literal", ascii "boolean_literal",
    ascii "true", ascii "false",
      ascii "integer_literal", ascii "float_literal", ascii "char_literal",
      ascii "raw_string_literal",
      ascii "string", ascii "number", ascii "true_literal", ascii "false_literal", ascii "nil",
      ascii "none",
      ascii "null"] then .literal
  else if k ∈ [ascii "comment", ascii "line_comment", ascii "block_comment"] then .comment
  else .unknown

/-- The kinds whose names a grammar does not share with the others. -/
def grammarKinds : Parse.Language → List (Bytes × NodeKind)
  | .c | .cpp =>
    [(ascii "function_definition", .functionDef), (ascii "parameter_declaration", .parameter),
     (ascii "preproc_include", .preprocInclude), (ascii "declaration", .declaration)]
  | .rust =>
    [(ascii "function_item", .functionDef), (ascii "parameter", .parameter),
     (ascii "use_declaration", .preprocInclude), (ascii "let_declaration", .declaration),
     (ascii "const_item", .declaration), (ascii "static_item", .declaration)]
  | .go =>
    [(ascii "function_declaration", .functionDef), (ascii "method_declaration", .functionDef),
     (ascii "parameter_declaration", .parameter), (ascii "import_declaration", .preprocInclude),
     (ascii "var_declaration", .declaration), (ascii "const_declaration", .declaration),
     (ascii "short_var_declaration", .declaration)]
  | .python =>
    [(ascii "function_definition", .functionDef), (ascii "parameters", .parameter),
     (ascii "default_parameter", .parameter), (ascii "typed_parameter", .parameter),
     (ascii "import_statement", .preprocInclude), (ascii "import_from_statement", .preprocInclude),
     (ascii "assignment", .assignment)]
  | .javaScript | .typeScript =>
    [(ascii "function_declaration", .functionDef), (ascii "arrow_function", .functionDef),
     (ascii "method_definition", .functionDef), (ascii "function_expression", .functionDef),
     (ascii "formal_parameters", .parameter), (ascii "required_parameter", .parameter),
     (ascii "optional_parameter", .parameter), (ascii "rest_pattern", .parameter),
     (ascii "import_statement", .preprocInclude), (ascii "variable_declaration", .declaration),
     (ascii "lexical_declaration", .declaration), (ascii "for_in_statement", .loop),
     (ascii "for_of_statement", .loop)]
  | .java =>
    [(ascii "method_declaration", .functionDef), (ascii "constructor_declaration", .functionDef),
     (ascii "formal_parameter", .parameter), (ascii "import_declaration", .preprocInclude),
     (ascii "local_variable_declaration", .declaration), (ascii "field_declaration", .declaration),
     (ascii "enhanced_for_statement", .loop)]

def classify (lang : Parse.Language) (rawKind : Bytes) : NodeKind :=
  if rawKind ∈ [ascii "translation_unit", ascii "source_file", ascii "module", ascii "program",
      ascii "compilation_unit"] then .translationUnit
  else
    match (grammarKinds lang).lookup rawKind with
    | some kind => kind
    | none => classifyCommon rawKind

/-! ## Building -/

def extractName (kind : NodeKind) (text : Bytes) : Bytes := if kind ≠ .identifier then [] else text

/-- The stack of open nodes has its top first. -/
structure BuildState where
  graph : Graph
  stack : List (NodeId × Parse.SourceRange)
  valid : ∀ f ∈ stack, ValidId graph.nodes f.1

def makeNode (ast : Parse.Ast) (rawKind : Bytes) (range : Parse.SourceRange) : Node :=
  let kind := classify ast.language rawKind
  { id := kNullNode, kind, rawKind, name := extractName kind (ast.nodeText range), range,
    language := ast.language }

/-- The open nodes that end before the visited one starts are closed. -/
def closeBefore (range : Parse.SourceRange) (stack : List (NodeId × Parse.SourceRange)) :
    List (NodeId × Parse.SourceRange) :=
  stack.dropWhile fun f => f.2.endByte ≤ range.startByte

theorem addNode_valid (g : Graph) (n : Node) (id : NodeId) (h : ValidId g.nodes id) :
    ValidId (g.addNode n).nodes id := by
  refine ⟨h.1, Nat.le_trans h.2 ?_⟩
  simp [Graph.addNode]

theorem addNode_new (g : Graph) (n : Node) : ValidId (g.addNode n).nodes (g.nodeCount + 1) := by
  refine ⟨Nat.succ_ne_zero _, ?_⟩
  simp [Graph.addNode, Graph.nodeCount]

def visit (ast : Parse.Ast) (s : BuildState) (rawKind : Bytes) (range : Parse.SourceRange) :
    BuildState :=
  let id := s.graph.nodeCount + 1
  let g := s.graph.addNode (makeNode ast rawKind range)
  have hnew : ValidId g.nodes id := addNode_new s.graph _
  have hold : ∀ f ∈ closeBefore range s.stack, ValidId g.nodes f.1 := fun f hf =>
    addNode_valid s.graph _ f.1 (s.valid f ((List.dropWhile_sublist _).mem hf))
  match h : closeBefore range s.stack with
  | [] => { graph := g, stack := [(id, range)], valid := by simpa using hnew }
  | top :: rest =>
    { graph := g.addEdge ⟨top.1, id, .astChild⟩ ⟨hold top (by simp [h]), hnew⟩,
      stack := (id, range) :: top :: rest,
      valid := by
        intro f hf
        rcases List.mem_cons.mp hf with rfl | hf
        · exact hnew
        · exact hold f (by rw [h]; exact hf) }

/-- The code's `build` has an error type and never returns one. -/
def build (ast : Parse.Ast) : Graph :=
  (ast.namedNodes.foldl (fun s (rawKind, range) => visit ast s rawKind range)
    { graph := Graph.empty, stack := [], valid := nofun }).graph

/-! ## The shape of a built graph -/

def Graph.astTargets (g : Graph) : List NodeId :=
  (g.edges.filter (·.kind = .astChild)).map (·.target)

/-- Identifiers grow from parent to child, and no node is the target of two syntax edges. -/
structure Graph.PreOrder (g : Graph) : Prop where
  increasing : ∀ p c, g.Child p c → p < c
  single : g.astTargets.Nodup

theorem Graph.preOrder_of_edges {g : Graph} (hlt : ∀ e ∈ g.edges, e.source < e.target)
    (hsingle : g.astTargets.Nodup) : g.PreOrder := by
  refine ⟨?_, hsingle⟩
  rintro p c ⟨e, he, -, rfl, rfl⟩
  exact hlt e he

theorem visit_cases (ast : Parse.Ast) (s : BuildState) (rawKind : Bytes)
    (range : Parse.SourceRange) :
    (visit ast s rawKind range).graph.nodes = (s.graph.addNode (makeNode ast rawKind range)).nodes ∧
      ((visit ast s rawKind range).graph.edges = s.graph.edges ∨
        ∃ p, ValidId s.graph.nodes p ∧
          (visit ast s rawKind range).graph.edges = s.graph.edges ++
            [⟨p, s.graph.nodeCount + 1, .astChild⟩]) := by
  unfold visit
  split
  · exact ⟨rfl, Or.inl rfl⟩
  · rename_i top rest h
    refine ⟨rfl, Or.inr ⟨top.1, s.valid top ?_, rfl⟩⟩
    apply (List.dropWhile_sublist _).mem
    rw [show List.dropWhile _ s.stack = top :: rest from h]
    exact List.mem_cons_self

theorem astTargets_valid (g : Graph) (id : NodeId) (h : id ∈ g.astTargets) :
    ValidId g.nodes id := by
  unfold Graph.astTargets at h
  rw [List.mem_map] at h
  obtain ⟨e, he, rfl⟩ := h
  exact (g.ends e (List.mem_of_mem_filter he)).2

theorem visit_preOrder (ast : Parse.Ast) (s : BuildState) (rawKind : Bytes)
    (range : Parse.SourceRange) (h : s.graph.PreOrder) :
    (visit ast s rawKind range).graph.PreOrder := by
  obtain ⟨-, hedges | ⟨p, hp, hedges⟩⟩ := visit_cases ast s rawKind range
  · constructor
    · rintro p c ⟨e, he, hk, hs, ht⟩
      rw [hedges] at he
      exact h.increasing p c ⟨e, he, hk, hs, ht⟩
    · unfold Graph.astTargets
      rw [hedges]
      exact h.single
  · have hp' : p < s.graph.nodeCount + 1 := Nat.lt_succ_of_le hp.2
    constructor
    · rintro q c ⟨e, he, hk, rfl, rfl⟩
      rw [hedges] at he
      rcases List.mem_append.mp he with he | he
      · exact h.increasing _ _ ⟨e, he, hk, rfl, rfl⟩
      · rw [List.mem_singleton.mp he]
        exact hp'
    · unfold Graph.astTargets
      rw [hedges, List.filter_append, List.map_append]
      apply List.Nodup.append h.single (List.nodup_singleton _)
      -- The new node has a number that no edge has led to yet.
      intro a ha hb
      have hb' : a = s.graph.nodeCount + 1 := List.mem_singleton.mp hb
      have hle : a ≤ s.graph.nodeCount := (astTargets_valid s.graph a ha).2
      rw [hb'] at hle
      exact Nat.not_succ_le_self _ hle

theorem build_preOrder (ast : Parse.Ast) : (build ast).PreOrder := by
  unfold build
  apply List.foldlRecOn (motive := fun s : BuildState => s.graph.PreOrder)
  · refine ⟨?_, List.nodup_nil⟩
    rintro p c ⟨e, he, -⟩
    cases he
  · intro s hs n _
    exact visit_preOrder ast s n.1 n.2 hs

theorem build_edges (ast : Parse.Ast) : ∀ e ∈ (build ast).edges, e.kind = .astChild := by
  unfold build
  apply List.foldlRecOn (motive := fun s : BuildState => ∀ e ∈ s.graph.edges, e.kind = .astChild)
  · exact nofun
  · intro s hs n _ e he
    obtain ⟨-, hedges | ⟨p, -, hedges⟩⟩ := visit_cases ast s n.1 n.2
    · rw [hedges] at he
      exact hs e he
    · rw [hedges] at he
      rcases List.mem_append.mp he with he | he
      · exact hs e he
      · rw [List.mem_singleton.mp he]

theorem foldl_visit_nodes (ast : Parse.Ast) (named : List (Bytes × Parse.SourceRange))
    (s : BuildState) :
    (named.foldl (fun s (rawKind, range) => visit ast s rawKind range) s).graph.nodes.map
      (·.range) = s.graph.nodes.map (·.range) ++ named.map (·.2) := by
  induction named generalizing s with
  | nil => simp
  | cons n rest ih =>
    rw [List.foldl_cons, ih, (visit_cases ast s n.1 n.2).1]
    simp [Graph.addNode, makeNode]

theorem build_ranges (ast : Parse.Ast) :
    (build ast).nodes.map (·.range) = ast.namedNodes.map (·.2) := by
  unfold build
  rw [foldl_visit_nodes]
  rfl

namespace Graph

variable {g : Graph}

theorem unique_of_single (h : g.astTargets.Nodup) (p q c : NodeId) (hp : g.Child p c)
    (hq : g.Child q c) : p = q := by
  obtain ⟨e, he, hk, rfl, ht⟩ := hp
  obtain ⟨e', he', hk', rfl, ht'⟩ := hq
  have hinj := List.inj_on_of_nodup_map h
  have hm : e ∈ g.edges.filter (·.kind = .astChild) := List.mem_filter.mpr ⟨he, by simp [hk]⟩
  have hm' : e' ∈ g.edges.filter (·.kind = .astChild) := List.mem_filter.mpr ⟨he', by simp [hk']⟩
  rw [hinj hm hm' (ht.trans ht'.symm)]

theorem nodup_of_single (h : g.astTargets.Nodup) (p : NodeId) : (g.children p).Nodup := by
  unfold children
  split
  · exact List.nodup_nil
  · have hsub : ((g.edges.filter fun e => e.kind = .astChild ∧ e.source = p).map (·.target)).Sublist
        g.astTargets := by
      apply List.Sublist.map
      apply List.monotone_filter_right
      intro e he
      simp only [decide_eq_true_eq] at he ⊢
      exact he.1
    exact hsub.nodup h

theorem PreOrder.unique (h : g.PreOrder) (p q c : NodeId) (hp : g.Child p c) (hq : g.Child q c) :
    p = q :=
  unique_of_single h.single p q c hp hq

theorem PreOrder.forest (h : g.PreOrder) : g.Forest := g.forest_of_increasing h.unique h.increasing

theorem PreOrder.children_nodup (h : g.PreOrder) (p : NodeId) : (g.children p).Nodup :=
  nodup_of_single h.single p

end Graph

end Euxis.Cpg
