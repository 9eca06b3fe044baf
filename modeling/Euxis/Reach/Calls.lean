import Euxis.Reach.Proofs

/-!
# The edges of the call graph

Which edges `build_call_graph` returns, for every graph, and what they say about direct calls.
-/

namespace Euxis.Reach

open Cpg

/-! ## Callee names -/

/-- `[A-Za-z_][A-Za-z0-9_]*` -/
def isIdentifier : Bytes → Bool
  | [] => false
  | b :: rest => isWordByte b ∧ ¬ (ch '0' ≤ b ∧ b ≤ ch '9') ∧ rest.all isWordByte

theorem isIdentifier_word (name : Bytes) (h : isIdentifier name = true) :
    ∀ b ∈ name, isWordByte b = true := by
  cases name with
  | nil => nofun
  | cons b rest =>
    simp only [isIdentifier, decide_eq_true_eq, List.all_eq_true] at h
    intro c hc
    rcases List.mem_cons.mp hc with rfl | hc
    · exact h.1
    · exact h.2.2 c hc

theorem isIdentifier_ne_nil (name : Bytes) (h : isIdentifier name = true) : name ≠ [] := by
  rintro rfl
  cases h

theorem identifierTokens_call (name args : Bytes) (h : isIdentifier name = true) :
    identifierTokens (name ++ ch '(' :: args) =
      if 2 ≤ name.length then name :: identifierTokens args else identifierTokens args := by
  have hword : ∀ b ∈ name, (!isWordByte b) = false := by
    intro b hb
    rw [isIdentifier_word name h b hb]
    rfl
  unfold identifierTokens
  rw [List.splitOnP_append_cons_of_forall_mem hword (ch '(') (by decide), List.filter_cons]
  simp

theorem extractCalleeName_call (name args : Bytes) (h : isIdentifier name = true)
    (hlen : 2 ≤ name.length) : extractCalleeName (name ++ ch '(' :: args) = name := by
  unfold extractCalleeName
  rw [identifierTokens_call name args h, if_pos hlen]
  rfl

theorem extractCalleeName_length (text : Bytes) (h : extractCalleeName text ≠ []) :
    2 ≤ (extractCalleeName text).length := by
  unfold extractCalleeName at h ⊢
  cases htokens : identifierTokens text with
  | nil =>
    rw [htokens] at h
    exact absurd rfl h
  | cons token rest =>
    have hmem : token ∈ identifierTokens text := by
      rw [htokens]
      exact List.mem_cons_self
    unfold identifierTokens at hmem
    simpa using (List.mem_filter.mp hmem).2

/-! ## Functions by name -/

variable {g : Graph} {ast : Parse.Ast} {fuel : Nat}

/-- A function with the name that `extract_function_name` finds for it. -/
def HasName (fuel : Nat) (g : Graph) (ast : Parse.Ast) (fn : NodeId) (name : Bytes) : Prop :=
  fn ∈ g.findByKind .functionDef ∧ extractFunctionName fuel g ast fn = some name

theorem mem_functionsByName (byName : List (Bytes × NodeId))
    (h : functionsByName fuel g ast = some byName) (name : Bytes) (fn : NodeId) :
    (name, fn) ∈ byName ↔ HasName fuel g ast fn name ∧ name ≠ [] := by
  have hall := Search.foldlM_gathers (fun (byName : List (Bytes × NodeId)) x => x ∈ byName)
    (fun fn x => extractFunctionName fuel g ast fn = some x.1 ∧ x.1 ≠ [] ∧
      x.2 = fn) _ _ ?_ [] byName h (name, fn)
  · rw [hall]
    simp only [List.not_mem_nil, false_or, HasName]
    constructor
    · rintro ⟨a, ha, hname, hne, rfl⟩
      exact ⟨⟨ha, hname⟩, hne⟩
    · rintro ⟨⟨ha, hname⟩, hne⟩
      exact ⟨fn, ha, hname, hne, rfl⟩
  · intro before fn after hstep x
    rw [Option.bind_eq_bind, Option.bind_eq_some_iff] at hstep
    obtain ⟨found, hfound, hstep⟩ := hstep
    obtain rfl := Option.some.inj hstep
    obtain ⟨name, id⟩ := x
    -- A function without a name goes into no bucket.
    split
    · rename_i hempty
      simp only [hfound, Option.some.injEq]
      constructor
      · exact Or.inl
      · rintro (hold | ⟨rfl, hne, -⟩)
        · exact hold
        · exact absurd hempty hne
    · rename_i hempty
      simp only [List.mem_append, List.mem_singleton, Prod.mk.injEq, hfound, Option.some.injEq]
      constructor
      · rintro (hold | ⟨rfl, rfl⟩)
        · exact Or.inl hold
        · exact Or.inr ⟨rfl, hempty, rfl⟩
      · rintro (hold | ⟨rfl, -, rfl⟩)
        · exact Or.inl hold
        · exact Or.inr ⟨rfl, rfl⟩

/-! ## Edges -/

/-- A call node puts an edge from the function around it to each function with the name in its
text. -/
def Resolves (fuel : Nat) (g : Graph) (ast : Parse.Ast) (call : NodeId) (e : CallEdge) : Prop :=
  ∃ node, g.get call = some node ∧ extractCalleeName (ast.nodeText node.range) ≠ [] ∧
    HasName fuel g ast e.callee (extractCalleeName (ast.nodeText node.range)) ∧
    enclosingFunction g call = some e.caller

theorem mem_callees (byName : List (Bytes × NodeId)) (h : functionsByName fuel g ast = some byName)
    (name : Bytes) (fn : NodeId) : fn ∈ (byName.filter (·.1 = name)).map (·.2) ↔
      HasName fuel g ast fn name ∧ name ≠ [] := by
  rw [← mem_functionsByName byName h]
  simp only [List.mem_map, List.mem_filter, decide_eq_true_eq]
  constructor
  · rintro ⟨⟨found, id⟩, ⟨hmem, rfl⟩, rfl⟩
    exact hmem
  · intro hmem
    exact ⟨(name, fn), ⟨hmem, rfl⟩, rfl⟩

theorem addCall_edges (byName : List (Bytes × NodeId))
    (h : functionsByName fuel g ast = some byName) (result result' : CallGraphResult)
    (call : NodeId) (hadd : addCall g ast byName result call = some result') (e : CallEdge) :
    e ∈ result'.edges ↔ e ∈ result.edges ∨ Resolves fuel g ast call e := by
  have hcallees := mem_callees byName h
  unfold addCall at hadd
  unfold Resolves
  cases hnode : g.get call with
  | none =>
    rw [hnode] at hadd
    obtain rfl := Option.some.inj hadd
    simp
  | some node =>
    simp only [hnode] at hadd
    simp only [Option.some.injEq, exists_eq_left']
    generalize extractCalleeName (ast.nodeText node.range) = name at hadd hcallees ⊢
    split at hadd
    · rename_i hnone
      obtain rfl := Option.some.inj hadd
      constructor
      · exact Or.inl
      · rintro (hold | ⟨hne, hname, -⟩)
        · exact hold
        · have hmem := (hcallees name e.callee).mpr ⟨hname, hne⟩
          -- No function of that name: the call is passed over.
          rw [hnone.resolve_left hne] at hmem
          cases hmem
    · rw [Option.bind_eq_bind, Option.bind_eq_some_iff] at hadd
      obtain ⟨caller, hcaller, hadd⟩ := hadd
      obtain rfl := Option.some.inj hadd
      rw [List.mem_append, List.mem_map]
      constructor
      · rintro (hold | ⟨callee, hcallee, rfl⟩)
        · exact Or.inl hold
        · obtain ⟨hname, hne⟩ := (hcallees name callee).mp hcallee
          exact Or.inr ⟨hne, hname, hcaller⟩
      · rintro (hold | ⟨hne, hname, hcaller'⟩)
        · exact Or.inl hold
        · refine Or.inr ⟨e.callee, (hcallees name e.callee).mpr ⟨hname, hne⟩, ?_⟩
          rw [hcaller, Option.some.injEq] at hcaller'
          rw [hcaller']

theorem mem_buildCallGraph (result : CallGraphResult) (h : buildCallGraph fuel g ast = some result)
    (e : CallEdge) :
    e ∈ result.edges ↔ ∃ call ∈ g.findByKind .call, Resolves fuel g ast call e := by
  unfold buildCallGraph at h
  rw [Option.bind_eq_bind, Option.bind_eq_some_iff] at h
  obtain ⟨byName, hbyName, h⟩ := h
  have hall := Search.foldlM_gathers (fun (result : CallGraphResult) e => e ∈ result.edges)
    (Resolves fuel g ast) _ _
    (fun before call after => addCall_edges byName hbyName before after call) _ result h e
  rw [hall]
  simp

theorem callee_hasName (result : CallGraphResult) (h : buildCallGraph fuel g ast = some result)
    (e : CallEdge) (he : e ∈ result.edges) : ∃ name, HasName fuel g ast e.callee name ∧
      2 ≤ name.length := by
  obtain ⟨call, -, node, -, hne, hname, -⟩ := (mem_buildCallGraph result h e).mp he
  exact ⟨_, hname, extractCalleeName_length _ hne⟩

/-! ## The call graph is returned -/

theorem leftmostName_ends (hg : g.Forest) :
    ∃ bound, ∀ fuel, bound < fuel → ∀ fn, ∃ r, leftmostName g fuel [fn] = some r := by
  obtain ⟨rank, hrank, hbound⟩ := g.exists_child_rank hg
  -- The frontier may grow: a node has to weigh more than all its children together.
  have hloop : ∀ fuel frontier, Search.weight rank g.edges.length frontier < fuel →
      ∃ r, leftmostName g fuel frontier = some r := by
    intro fuel
    induction fuel with
    | zero => intro frontier h; omega
    | succ fuel ih =>
      intro frontier hfuel
      unfold leftmostName
      cases frontier with
      | nil => exact ⟨none, rfl⟩
      | cons current rest =>
        simp only
        split
        · exact ⟨_, rfl⟩
        · apply ih
          have hlt := Search.weight_lt rank g.edges.length current rest
            ((g.children current).filter (descends g))
            ((List.length_filter_le _ _).trans (g.children_length current)) (by
              intro c hc
              exact hrank current c ((g.mem_children current c).mp (List.mem_of_mem_filter hc)))
          omega
  refine ⟨(g.edges.length + 1) ^ (g.nodeCount + 1), ?_⟩
  intro fuel hfuel fn
  apply hloop
  have hpow : (g.edges.length + 1) ^ rank fn ≤ (g.edges.length + 1) ^ (g.nodeCount + 1) :=
    Nat.pow_le_pow_right (Nat.succ_pos _) (hbound fn)
  simp only [Search.weight, List.map_cons, List.map_nil, List.sum_cons, List.sum_nil]
  omega

theorem buildCallGraph_ends (hg : g.Forest) (ast : Parse.Ast) :
    ∃ bound, ∀ fuel, bound < fuel → ∃ result, buildCallGraph fuel g ast = some result := by
  obtain ⟨bound, hbound⟩ := leftmostName_ends hg
  refine ⟨bound, ?_⟩
  intro fuel hfuel
  have hname : ∀ fn, ∃ name, extractFunctionName fuel g ast fn = some name := by
    intro fn
    obtain ⟨r, hr⟩ := hbound fuel hfuel fn
    unfold extractFunctionName
    rw [hr]
    cases r with
    | none => exact ⟨_, rfl⟩
    | some name => exact ⟨name, rfl⟩
  obtain ⟨byName, hbyName⟩ : ∃ byName, functionsByName fuel g ast = some byName := by
    apply Search.foldlM_returns
    intro byName fn _
    obtain ⟨name, hname⟩ := hname fn
    rw [hname]
    exact ⟨_, rfl⟩
  unfold buildCallGraph
  rw [hbyName]
  apply Search.foldlM_returns
  intro result call _
  unfold addCall
  split
  · exact ⟨_, rfl⟩
  · simp only
    split
    · exact ⟨_, rfl⟩
    · obtain ⟨caller, hcaller⟩ := enclosingFunction_returns hg call
      rw [hcaller]
      exact ⟨_, rfl⟩

/-! ## Direct calls -/

/-- The innermost function around a node that is none itself, or the null node where there is no
function. -/
def Encloses (g : Graph) (node caller : NodeId) : Prop :=
  let above := Search.Decides (stepUp g) (fun m => if isFunction g m then some m else none) node
  above caller ∨ (caller = kNullNode ∧ ∀ fn, ¬ above fn)

theorem enclosingFunction_encloses (node caller : NodeId) (hnode : isFunction g node = false)
    (hne : node ≠ kNullNode) (h : enclosingFunction g node = some caller) :
    Encloses g node caller := by
  unfold enclosingFunction at h
  rw [if_neg hne, hnode] at h
  simp only [Bool.false_eq_true, if_false, Option.map_eq_some_iff] at h
  obtain ⟨r, hr, rfl⟩ := h
  have hdecides := Search.climb_some (stepUp g) _ _ node r hr
  unfold Encloses
  cases r with
  | some fn => exact Or.inl ((hdecides fn).mp rfl)
  | none =>
    refine Or.inr ⟨rfl, ?_⟩
    intro fn hfn
    cases (hdecides fn).mpr hfn

theorem mem_findByKind (kind : NodeKind) (id : NodeId) :
    id ∈ g.findByKind kind ↔ ∃ node, g.get id = some node ∧ node.kind = kind := by
  unfold Graph.findByKind
  rw [List.mem_map]
  refine exists_congr fun n => ?_
  rw [List.mem_filter, decide_eq_true_eq, and_right_comm, g.get_eq_some_iff]

/-- The call has an edge to each function of a name, from the function around it. -/
def Covered (fuel : Nat) (g : Graph) (ast : Parse.Ast) (result : CallGraphResult) (call : NodeId)
    (name : Bytes) : Prop :=
  ∀ fn, HasName fuel g ast fn name → ∃ caller, Encloses g call caller ∧
    { caller, callee := fn } ∈ result.edges

theorem enclosingFunction_of_call (result : CallGraphResult)
    (h : buildCallGraph fuel g ast = some result) (call : NodeId) (node : Node)
    (hget : g.get call = some node) (hkind : node.kind = .call) (fn : NodeId)
    (hne : extractCalleeName (ast.nodeText node.range) ≠ [])
    (hfn : HasName fuel g ast fn (extractCalleeName (ast.nodeText node.range))) :
    ∃ caller, enclosingFunction g call = some caller := by
  unfold buildCallGraph at h
  rw [Option.bind_eq_bind, Option.bind_eq_some_iff] at h
  obtain ⟨byName, hbyName, h⟩ := h
  have hcall : call ∈ g.findByKind .call := (mem_findByKind .call call).mpr ⟨node, hget, hkind⟩
  obtain ⟨before, after, hadd⟩ := Search.foldlM_round _ _ _ _ h call hcall
  have hmem := (mem_callees byName hbyName _ fn).mpr ⟨hfn, hne⟩
  unfold addCall at hadd
  simp only [hget] at hadd
  split at hadd
  · rename_i hnone
    rw [hnone.resolve_left hne] at hmem
    cases hmem
  · rw [Option.bind_eq_bind, Option.bind_eq_some_iff] at hadd
    obtain ⟨caller, hcaller, -⟩ := hadd
    exact ⟨caller, hcaller⟩

theorem covered_of_long (result : CallGraphResult) (h : buildCallGraph fuel g ast = some result)
    (call : NodeId) (node : Node) (hget : g.get call = some node) (hkind : node.kind = .call)
    (name args : Bytes) (hname : isIdentifier name = true)
    (htext : ast.nodeText node.range = name ++ ch '(' :: args) (hlen : 2 ≤ name.length) :
    Covered fuel g ast result call name := by
  intro fn hfn
  have hcallee : extractCalleeName (ast.nodeText node.range) = name := by
    rw [htext]
    exact extractCalleeName_call name args hname hlen
  rw [← hcallee] at hfn
  have hne : extractCalleeName (ast.nodeText node.range) ≠ [] := by
    rw [hcallee]
    exact isIdentifier_ne_nil name hname
  have hnot : isFunction g call = false := by
    simp [isFunction, hget, hkind]
  obtain ⟨caller, hcaller⟩ := enclosingFunction_of_call result h call node hget hkind fn hne hfn
  refine ⟨caller, enclosingFunction_encloses call caller hnot (g.valid_of_get call node hget).1
    hcaller, ?_⟩
  rw [mem_buildCallGraph result h]
  exact ⟨call, (mem_findByKind .call call).mpr ⟨node, hget, hkind⟩, node, hget, hne, hfn, hcaller⟩

/-- The call graph covers the direct calls of a name exactly when the name has two bytes at least or
no function has it; and on every forest there is a call graph. -/
theorem direct_calls_covered_iff (g : Graph) (ast : Parse.Ast) :
    (∀ (fuel : Nat) (result : CallGraphResult), buildCallGraph fuel g ast = some result →
      ∀ (call : NodeId) (node : Node) (name args : Bytes), g.get call = some node →
        node.kind = .call →
        isIdentifier name = true → ast.nodeText node.range = name ++ ch '(' :: (args ++ [ch ')']) →
        (Covered fuel g ast result call name ↔ 2 ≤ name.length ∨
          ∀ fn, ¬ HasName fuel g ast fn name)) ∧
    (g.Forest → ∃ bound, ∀ fuel, bound < fuel →
      ∃ result, buildCallGraph fuel g ast = some result) := by
  refine ⟨?_, fun hg => buildCallGraph_ends hg ast⟩
  intro fuel result h call node name args hget hkind hname htext
  constructor
  · intro hcovered
    by_cases hlen : 2 ≤ name.length
    · exact Or.inl hlen
    · right
      intro fn hfn
      obtain ⟨caller, -, he⟩ := hcovered fn hfn
      obtain ⟨found, hfound, hlong⟩ := callee_hasName result h _ he
      have hsame : found = name := Option.some.inj (hfound.2.symm.trans hfn.2)
      exact hlen (hsame ▸ hlong)
  · rintro (hlen | hnone)
    · exact covered_of_long result h call node hget hkind name (args ++ [ch ')']) hname htext hlen
    · intro fn hfn
      exact absurd hfn (hnone fn)

def spanNode (id : NodeId) (kind : NodeKind) (name : Bytes) (startByte endByte : Nat) : Node :=
  { id, kind, rawKind := [], name, language := .python,
    range := { startRow := 0, startColumn := 0, endRow := 0, endColumn := 0, startByte, endByte } }

/-- A function `go` and a call of it at file scope. -/
def goAst : Parse.Ast :=
  { language := .python, source := ascii "def go(): pass\ngo()\n", namedNodes := [] }

def goGraph : Graph where
  nodes := [spanNode 1 .translationUnit [] 0 20, spanNode 2 .functionDef [] 0 14,
    spanNode 3 .identifier (ascii "go") 4 6, spanNode 4 .call [] 15 19]
  edges := [⟨1, 2, .astChild⟩, ⟨2, 3, .astChild⟩, ⟨1, 4, .astChild⟩]
  dense := by decide
  ends := by decide

theorem goGraph_covered : ∃ result, buildCallGraph 5 goGraph goAst = some result ∧
    result.edges = [⟨0, 2⟩] ∧ Covered 5 goGraph goAst result 4 (ascii "go") := by
  obtain ⟨result, hresult, hedges⟩ : ∃ result, buildCallGraph 5 goGraph goAst = some result ∧
    result.edges = [⟨0, 2⟩] :=
    ⟨_, rfl, rfl⟩
  refine ⟨result, hresult, hedges, ?_⟩
  apply ((direct_calls_covered_iff goGraph goAst).1 5 result hresult 4 _ (ascii "go") [] rfl rfl rfl
    (by decide)).mpr
  exact Or.inl (by decide)

/-- The same with a name of one byte. -/
def fAst : Parse.Ast :=
  { language := .python, source := ascii "def f(): pass\nf()\n", namedNodes := [] }

def fGraph : Graph where
  nodes := [spanNode 1 .translationUnit [] 0 18, spanNode 2 .functionDef [] 0 13,
    spanNode 3 .identifier (ascii "f") 4 5, spanNode 4 .call [] 14 17]
  edges := [⟨1, 2, .astChild⟩, ⟨2, 3, .astChild⟩, ⟨1, 4, .astChild⟩]
  dense := by decide
  ends := by decide

theorem one_byte_call_missed : ∃ result, buildCallGraph 5 fGraph fAst = some result ∧
    fAst.nodeText (spanNode 4 .call [] 14 17).range = ascii "f()" ∧
    HasName 5 fGraph fAst 2 (ascii "f") ∧
    ¬ Covered 5 fGraph fAst result 4 (ascii "f") := by
  refine ⟨_, rfl, by decide, ⟨by decide, by decide⟩, ?_⟩
  intro hcovered
  obtain ⟨caller, -, he⟩ := hcovered 2 ⟨by decide, by decide⟩
  cases he

end Euxis.Reach
