import Euxis.Merge
import Euxis.Cpg.CfgOnce
import Euxis.Cpg.DdgEdges
import Mathlib.Data.List.Pairwise

/-!
# Data dependences of functions in functions

`build_ddg` walks each function with a map of its own, and the walk of a function goes on into the
functions inside of it. An inner function is so walked once for itself and once for each function
around it.
-/

namespace Euxis.Cpg

open Bindings DdgWalker

/-- The walk over the children of the first node may come to the second one. -/
def Enters (g : Graph) (a b : NodeId) : Prop := ∃ c, g.Child a c ∧ Walks g c b

structure Innermost (g : Graph) (f n : NodeId) : Prop where
  function : g.hasKind f .functionDef = true
  above : Relation.TransGen g.Child f n
  inner : ∀ f', g.hasKind f' .functionDef = true → Relation.TransGen g.Child f' n → Below g f' f

/-! ## Enough fuel -/

section Fuel

variable {g : Graph} {opts : DdgBuildOptions}

/-- What a function reads and binds, with the fuel that no tree uses up. -/
def eventsOf (g : Graph) (opts : DdgBuildOptions) (fn : NodeId) : List NameEvent :=
  bodyEvents g opts (g.nodeCount + 2) fn

def parametersOf (g : Graph) (fn : NodeId) : List (Bytes × NodeId) :=
  parameterBindings g (g.nodeCount + 2) fn

variable (rank : NodeId → Nat) (hrank : ∀ p c, g.Child p c → rank c < rank p)

include hrank

theorem walkEvents_fuel (fuel fuel' : Nat) (id : NodeId) (h : rank id < fuel)
    (h' : rank id < fuel') : walkEvents g opts fuel id = walkEvents g opts fuel' id := by
  induction fuel generalizing fuel' id with
  | zero => omega
  | succ fuel ih =>
    cases fuel' with
    | zero => omega
    | succ fuel' =>
      have hchildren : (entered g opts id).flatMap (walkEvents g opts fuel) =
          (entered g opts id).flatMap (walkEvents g opts fuel') := by
        apply List.flatMap_congr
        intro c hc
        have := hrank id c (entered_child hc).2
        exact ih fuel' c (by omega) (by omega)
      rw [walkEvents, walkEvents, hchildren]

theorem parameterBindings_fuel (fuel fuel' : Nat) (root : NodeId) (h : rank root < fuel)
    (h' : rank root < fuel') : parameterBindings g fuel root = parameterBindings g fuel' root := by
  induction fuel generalizing fuel' root with
  | zero => omega
  | succ fuel ih =>
    cases fuel' with
    | zero => omega
    | succ fuel' =>
      rw [parameterBindings, parameterBindings]
      apply List.flatMap_congr
      intro c hc
      have := hrank root c ((g.mem_children root c).mp hc)
      rw [ih fuel' c (by omega) (by omega)]

end Fuel

theorem functionEdges_fuel {g : Graph} (hg : g.Forest) (opts : DdgBuildOptions) (fuel : Nat)
    (hfuel : g.nodeCount + 1 < fuel) (fn : NodeId) :
    functionEdges opts fuel g fn =
      emits opts.maxNamesPerFunction (bindAll opts.maxNamesPerFunction [] (parametersOf g fn))
        (eventsOf g opts fn) := by
  obtain ⟨rank, hrank, hbound⟩ := g.exists_child_rank hg
  have henough : ∀ n, rank n < g.nodeCount + 2 := fun n => Nat.lt_succ_of_le (hbound n)
  have hfuel' : ∀ n, rank n < fuel := fun n => Nat.lt_of_le_of_lt (hbound n) hfuel
  have hbody : bodyEvents g opts fuel fn = eventsOf g opts fn :=
    List.flatMap_congr fun c _ => walkEvents_fuel rank hrank fuel _ c (hfuel' c) (henough c)
  rw [functionEdges, hbody, parameterBindings_fuel rank hrank fuel _ fn (hfuel' fn) (henough fn)]
  rfl

/-! ## Trees -/

section Trees

variable {g : Graph} {opts : DdgBuildOptions}

theorem rank_le_of_below (rank : NodeId → Nat) (hrank : ∀ p c, g.Child p c → rank c < rank p)
    {a b : NodeId} (h : Below g a b) : rank b ≤ rank a := by
  induction h with
  | refl => exact Nat.le_refl _
  | tail _ hc ih => exact Nat.le_trans (Nat.le_of_lt (hrank _ _ hc)) ih

theorem below_of_enters {a b : NodeId} (h : Enters g a b) : Relation.TransGen g.Child a b := by
  obtain ⟨c, hc, hwalks⟩ := h
  exact Relation.TransGen.head' hc (below_of_walks hwalks)

theorem walks_between (hg : g.Forest) {a f u : NodeId} (h : Walks g a u) (haf : Below g a f)
    (hfu : Below g f u) : Walks g a f := by
  induction h with
  | here a =>
    rcases Relation.ReflTransGen.cases_head haf with rfl | ⟨c, hac, hcf⟩
    · exact .here a
    · exact absurd (Relation.TransGen.head' hac (hcf.trans hfu)) (hg.acyclic a)
  | down hopen hc hwalks ih =>
    rcases Relation.ReflTransGen.cases_head haf with rfl | ⟨c, hac, hcf⟩
    · exact .here _
    · exact .down hopen hc
        (ih (hg.through_child hc (below_of_walks hwalks) (.head' hac hcf) hfu) hfu)

theorem enters_between (hg : g.Forest) {h f u : NodeId} (henters : Enters g h u)
    (hhf : Relation.TransGen g.Child h f) (hfu : Below g f u) : Enters g h f := by
  obtain ⟨c, hc, hwalks⟩ := henters
  exact ⟨c, hc, walks_between hg hwalks (hg.through_child hc (below_of_walks hwalks) hhf hfu) hfu⟩

theorem exists_innermost (hg : g.Forest) {f n : NodeId} (hf : g.hasKind f .functionDef = true)
    (h : Relation.TransGen g.Child f n) : ∃ f', Innermost g f' n := by
  induction h with
  | single hc =>
    refine ⟨f, hf, .single hc, ?_⟩
    intro f' _ habove
    obtain ⟨p, hp, hpn⟩ := Relation.TransGen.tail'_iff.mp habove
    rw [← hg.unique p f _ hpn hc]
    exact hp
  | tail hfm hc ih =>
    rename_i m n
    have hupper : ∀ f', Relation.TransGen g.Child f' n → Below g f' m := by
      intro f' habove
      obtain ⟨p, hp, hpn⟩ := Relation.TransGen.tail'_iff.mp habove
      rw [← hg.unique p m n hpn hc]
      exact hp
    by_cases hm : g.hasKind m .functionDef = true
    · exact ⟨m, hm, .single hc, fun f' _ habove => hupper f' habove⟩
    · obtain ⟨f₀, hf₀⟩ := ih
      refine ⟨f₀, hf₀.function, hf₀.above.tail hc, ?_⟩
      intro f' hf' habove
      rcases Relation.reflTransGen_iff_eq_or_transGen.mp (hupper f' habove) with rfl | habove
      · exact absurd hf' hm
      · exact hf₀.inner f' hf' habove

theorem identifier_not_function {u : NodeId} {x : Bytes} (h : identifierName g u = some x) :
    g.hasKind u .functionDef = false := by
  obtain ⟨n, hn, hkind, -⟩ := identifierName_eq_some u x h
  rw [Graph.hasKind_of_get hn, hkind]
  rfl

theorem parameter_site (hg : g.Forest) {fuel : Nat} {fn : NodeId} {d : Bytes × NodeId}
    (h : d ∈ parameterBindings g fuel fn) :
    Relation.TransGen g.Child fn d.2 ∧ g.hasKind d.2 .parameter = true ∧
      ∀ f, g.hasKind f .functionDef = true → Relation.TransGen g.Child fn f →
        ¬ Relation.TransGen g.Child f d.2 := by
  induction fuel generalizing fn with
  | zero => cases h
  | succ fuel ih =>
    rw [parameterBindings, List.mem_flatMap] at h
    obtain ⟨c, hc, h⟩ := h
    rw [g.mem_children] at hc
    split at h
    · cases h
    · rename_i n hn
      split at h
      · rename_i hkind
        obtain ⟨ident, -, rfl⟩ := List.mem_map.mp h
        refine ⟨.single hc, by rw [Graph.hasKind_of_get hn, decide_eq_true hkind], ?_⟩
        intro f _ hfn hfc
        obtain ⟨p, hp, hpc⟩ := Relation.TransGen.tail'_iff.mp hfc
        -- A direct child of the function has no other function between.
        obtain rfl := hg.unique p fn c hpc hc
        exact hg.acyclic p (hfn.trans_left hp)
      · split at h
        · rename_i hopen
          obtain ⟨habove, hkind, hnone⟩ := ih h
          refine ⟨.head hc habove, hkind, ?_⟩
          intro f hf hfn hfd
          -- The search for parameters does not go into a function, so none can stand on the way.
          rcases Relation.reflTransGen_iff_eq_or_transGen.mp
            (hg.through_child hc habove.to_reflTransGen hfn hfd.to_reflTransGen) with rfl | hcf
          · rw [Graph.hasKind_of_get hn, decide_eq_true_eq] at hf
            exact hopen.2 hf
          · exact hnone f hf hcf hfd
        · cases h

end Trees

section Inner

variable {g : Graph} {opts : DdgBuildOptions}

theorem identifierName_of_kind {c : NodeId} (h : g.hasKind c .identifier = false) :
    identifierName g c = none := by
  cases hname : identifierName g c with
  | none => rfl
  | some x =>
    obtain ⟨n, hn, hkind, -⟩ := identifierName_eq_some c x hname
    rw [Graph.hasKind_of_get hn, hkind] at h
    cases h

theorem mem_entered (opts : DdgBuildOptions) {id c : NodeId} (hopen : Open g id) (hc : g.Child id c)
    (hkind : g.hasKind c .identifier = false) : c ∈ entered g opts id := by
  obtain ⟨n, hn, hparam, hidentKind⟩ := hopen
  have hmem := (g.mem_children id c).mpr hc
  by_cases hdecl : n.kind = .declaration
  · simp only [entered, hn, Option.map_some, hdecl]
    split
    · exact hmem
    · exact List.mem_filter.mpr ⟨hmem, by simp [identifierName_of_kind hkind]⟩
  · by_cases hassign : n.kind = .assignment
    · simp only [entered, hn, Option.map_some, hassign]
      cases hchildren : g.children id with
      | nil =>
        rw [hchildren] at hmem
        cases hmem
      | cons target values =>
        rw [hchildren] at hmem
        dsimp only
        rcases List.mem_cons.mp hmem with rfl | hmem
        -- A target that is no identifier is walked like the values.
        · obtain ⟨m, hm⟩ := Graph.exists_get (g.child_valid id c hc).2
          rw [Graph.hasKind_of_get hm, decide_eq_false_iff_not] at hkind
          rw [if_pos (by simp [hm, hkind])]
          exact List.mem_append_right _ (List.mem_singleton_self c)
        · split
          · exact List.mem_append_left _ hmem
          · exact hmem
    · rw [entered_plain opts hn ⟨hparam, hidentKind, hdecl, hassign⟩]
      exact hmem

theorem walkEvents_function {f : NodeId} (hf : g.hasKind f .functionDef = true) (fuel : Nat) :
    walkEvents g opts (fuel + 1) f = bodyEvents g opts fuel f := by
  obtain ⟨n, hn, hkind⟩ := Graph.hasKind_iff.mp hf
  rw [walkEvents, identifierName_of_get hn, entered_plain opts hn (by simp [Plain, hkind]),
    bound_plain opts hn (by simp [hkind]) (by simp [hkind]), if_neg (by simp [hkind])]
  simp [bodyEvents]

end Inner

/-! ## Each identifier once -/

section Once

variable {g : Graph} (hg : g.AstForest) {opts : DdgBuildOptions}

include hg

theorem entered_nodup (id : NodeId) : (entered g opts id).Nodup := by
  have hnodup := Graph.nodup_of_single hg.single id
  unfold entered
  split
  · exact List.nodup_nil
  · exact List.nodup_nil
  · exact List.nodup_nil
  · split
    · exact hnodup
    · exact hnodup.filter _
  · split
    · exact List.nodup_nil
    · rename_i target values hchildren
      rw [hchildren] at hnodup
      split
      · exact (List.perm_append_singleton target values).nodup_iff.mpr hnodup
      · exact hnodup.of_cons
  · exact hnodup

theorem readers_children_nodup (fuel : Nat) (p : NodeId) (l : List NodeId) (hl : l.Nodup)
    (hchild : ∀ c ∈ l, g.Child p c) (h : ∀ c ∈ l, (readers (walkEvents g opts fuel c)).Nodup) :
    (readers (l.flatMap (walkEvents g opts fuel))).Nodup := by
  rw [readers_flatMap]
  refine List.nodup_flatMap.mpr ⟨h, hl.imp_of_mem ?_⟩
  intro c c' hc hc' hne
  rw [Function.onFun_apply, List.disjoint_left]
  intro u hu hu'
  obtain ⟨x, hx⟩ := mem_readers.mp hu
  obtain ⟨x', hx'⟩ := mem_readers.mp hu'
  exact hne (hg.forest.below_siblings (hchild c hc) (hchild c' hc')
    (below_of_walks (use_mem_walkEvents hx).1) (below_of_walks (use_mem_walkEvents hx').1))

theorem readers_walkEvents_nodup (fuel : Nat) (id : NodeId) :
    (readers (walkEvents g opts fuel id)).Nodup := by
  induction fuel generalizing id with
  | zero => exact List.nodup_nil
  | succ fuel ih =>
    have hchildren := readers_children_nodup hg fuel id (entered g opts id) (entered_nodup hg id)
      (fun c hc => (entered_child hc).2) fun c _ => ih c
    have hbinds : readers ((bound g opts id).map (.bind · id) : List NameEvent) = [] := by
      rw [readers, List.filterMap_map]
      exact List.filterMap_eq_nil_iff.mpr fun _ _ => rfl
    rw [walkEvents, readers_append, readers_append, hbinds, List.append_nil]
    cases hname : identifierName g id with
    | none => exact hchildren
    | some x =>
      obtain ⟨n, hn, hkind, -⟩ := identifierName_eq_some id x hname
      have hleaf : entered g opts id = [] := by simp [entered, hn, hkind]
      rw [hleaf]
      exact List.nodup_singleton id

theorem readers_eventsOf_nodup (fn : NodeId) : (readers (eventsOf g opts fn)).Nodup :=
  readers_children_nodup hg _ fn (g.children fn) (Graph.nodup_of_single hg.single fn)
    (fun c hc => (g.mem_children fn c).mp hc) fun c _ => readers_walkEvents_nodup hg _ c

end Once

/-! ## An inner function in the events of an outer one -/

section Split

variable {g : Graph} (hg : g.AstForest) (opts : DdgBuildOptions)

include hg

theorem siblings_split {p c f : NodeId} (l : List NodeId) (hl : l.Nodup)
    (hchild : ∀ c ∈ l, g.Child p c) (hc : c ∈ l) (hcf : Below g c f) (fuel : Nat)
    {inner before after : List NameEvent}
    (hsplit : walkEvents g opts fuel c = before ++ inner ++ after)
    (hapart : ∀ e ∈ before ++ after, ¬ Below g f e.site) :
    ∃ before' after', l.flatMap (walkEvents g opts fuel) = before' ++ inner ++ after' ∧
      ∀ e ∈ before' ++ after', ¬ Below g f e.site := by
  obtain ⟨left, right, rfl⟩ := List.append_of_mem hc
  -- Subtrees of siblings share no node, so an event of a sibling has its site elsewhere.
  have hsiblings : ∀ c' ∈ left ++ right, ∀ e ∈ walkEvents g opts fuel c', ¬ Below g f e.site := by
    intro c' hc' e he hsite
    obtain ⟨n, hn, hevent⟩ := mem_walkEvents he
    have hsame : e.site = n := by
      rcases hevent with ⟨x, -, rfl⟩ | ⟨x, -, rfl⟩ <;> rfl
    rw [hsame] at hsite
    have hmem : c' ∈ left ++ c :: right := List.perm_middle.mem_iff.mpr (List.mem_cons_of_mem c hc')
    obtain rfl := hg.forest.below_siblings (hchild c' hmem) (hchild c hc) (below_of_walks hn)
      (hcf.trans hsite)
    exact (List.nodup_middle.mp hl).notMem hc'
  refine ⟨left.flatMap (walkEvents g opts fuel) ++ before,
    after ++ right.flatMap (walkEvents g opts fuel), ?_, ?_⟩
  · rw [List.flatMap_append, List.flatMap_cons, hsplit]
    simp
  · intro e he
    simp only [List.mem_append, List.mem_flatMap] at he
    rcases he with (⟨c', hc', he⟩ | he) | (he | ⟨c', hc', he⟩)
    · exact hsiblings c' (List.mem_append_left _ hc') e he
    · exact hapart e (List.mem_append_left _ he)
    · exact hapart e (List.mem_append_right _ he)
    · exact hsiblings c' (List.mem_append_right _ hc') e he

theorem walkEvents_split (rank : NodeId → Nat) (hrank : ∀ p c, g.Child p c → rank c < rank p)
    {a f : NodeId} (h : Walks g a f) (hf : g.hasKind f .functionDef = true) (fuel : Nat)
    (hfuel : rank a < fuel) :
    ∃ before after, walkEvents g opts fuel a = before ++ walkEvents g opts fuel f ++ after ∧
      ∀ e ∈ before ++ after, ¬ Below g f e.site := by
  induction h generalizing fuel with
  | here a => exact ⟨[], [], by simp, nofun⟩
  | down hopen hc hwalks ih =>
    rename_i a c f
    have hlower := hrank a c hc
    have hkind : g.hasKind c .identifier = false := by
      cases hwalks with
      | here => exact Graph.hasKind_ne hf .identifier (by decide)
      | down hopen _ _ =>
        obtain ⟨n, hn, -, hident⟩ := hopen
        rw [Graph.hasKind_of_get hn, decide_eq_false hident]
    have hself : identifierName g a = none := by
      obtain ⟨n, hn, -, hident⟩ := hopen
      rw [identifierName_of_get hn, if_neg fun h => hident h.1]
    cases fuel with
    | zero => omega
    | succ fuel =>
      have hcf := below_of_walks hwalks
      have hrankf := rank_le_of_below rank hrank hcf
      obtain ⟨before, after, hsplit, hapart⟩ := ih hf fuel (by omega)
      obtain ⟨before, after, hsplit, hapart⟩ :=
        siblings_split hg opts (entered g opts a) (entered_nodup hg a)
        (fun c hc => (entered_child hc).2) (mem_entered opts hopen hc hkind) hcf fuel hsplit hapart
      refine ⟨before, after ++ (bound g opts a).map (.bind · a), ?_, ?_⟩
      · rw [walkEvents_fuel rank hrank (fuel + 1) fuel f (by omega) (by omega), walkEvents,
          hself, hsplit]
        simp
      · intro e he
        rw [← List.append_assoc, List.mem_append] at he
        rcases he with he | he
        · exact hapart e he
        · obtain ⟨x, -, rfl⟩ := List.mem_map.mp he
          -- The node itself binds behind its children, and it is not below `f`.
          exact fun hfa => hg.acyclic a (.head' hc (hcf.trans hfa))

theorem eventsOf_split {h f : NodeId} (henters : Enters g h f)
    (hf : g.hasKind f .functionDef = true) :
    ∃ before after, eventsOf g opts h = before ++ eventsOf g opts f ++ after ∧
      ∀ e ∈ before ++ after, ¬ Below g f e.site := by
  obtain ⟨rank, hrank, hbound⟩ := g.exists_child_rank hg.forest
  have henough : ∀ n, rank n < g.nodeCount + 2 := fun n => Nat.lt_succ_of_le (hbound n)
  obtain ⟨c, hc, hwalks⟩ := henters
  have hself : eventsOf g opts f = walkEvents g opts (g.nodeCount + 2) f := by
    rw [walkEvents_fuel rank hrank _ (g.nodeCount + 2 + 1) f (henough f)
      (Nat.lt_succ_of_lt (henough f)), walkEvents_function hf]
    rfl
  obtain ⟨before, after, hsplit, hapart⟩ :=
    walkEvents_split hg opts rank hrank hwalks hf _ (henough c)
  rw [hself]
  exact siblings_split hg opts (g.children h) (Graph.nodup_of_single hg.single h)
    (fun c hc => (g.mem_children h c).mp hc) ((g.mem_children h c).mpr hc)
    (below_of_walks hwalks) _ hsplit hapart

end Split

/-! ## Functions apart -/

/-- No two edges are the same, and none leads out of the function in which its name is defined. -/
structure RespectsFunctions (g : Graph) (added : List Edge) : Prop where
  distinct : (added.map fun e => (e.source, e.target)).Nodup
  inScope : ∀ e ∈ added, ∃ f f', Innermost g f e.source ∧ Innermost g f' e.target ∧ Below g f f'

/-- A name that the function may define under the limit on names. -/
def Keeps (g : Graph) (opts : DdgBuildOptions) (fn : NodeId) (x : Bytes) : Prop :=
  Kept opts.maxNamesPerFunction (parametersOf g fn ++ definitions (eventsOf g opts fn)) x

/-- A function that is walked inside of another one reads no declaration or assignment of its own,
and nothing outside of it reads one. -/
structure FunctionsApart (g : Graph) (opts : DdgBuildOptions) : Prop where
  inside : ∀ h f, g.hasKind h .functionDef = true → g.hasKind f .functionDef = true → Enters g h f →
    ∀ x d u, Reads [] (eventsOf g opts f) x d u → Keeps g opts h x → ¬ Keeps g opts f x
  outside : ∀ h f, g.hasKind h .functionDef = true → g.hasKind f .functionDef = true →
    Enters g h f →
    ∀ x d u, Reads (parametersOf g h) (eventsOf g opts h) x d u → Keeps g opts h x →
      Below g f d → Below g f u

section Apart

variable {g : Graph} {opts : DdgBuildOptions} {h f : NodeId} {x : Bytes} {d u : NodeId}

theorem bound_not_parameter (hx : x ∈ bound g opts d) : g.hasKind d .parameter = false := by
  obtain ⟨n, hn, hkind⟩ := (bound_defines hx).2
  rw [Graph.hasKind_of_get hn]
  rcases hkind with hkind | hkind <;> rw [hkind] <;> rfl

theorem reads_enters (hreads : Reads (parametersOf g h) (eventsOf g opts h) x d u) : Enters g h u :=
  (use_mem_bodyEvents hreads.use_mem).1

theorem reads_source (hg : g.Forest) (hreads : Reads (parametersOf g h) (eventsOf g opts h) x d u) :
    (Reads [] (eventsOf g opts h) x d u ∧ Enters g h d ∧ g.hasKind d .parameter = false) ∨
      (Relation.TransGen g.Child h d ∧ g.hasKind d .parameter = true ∧
        ∀ f, g.hasKind f .functionDef = true → Relation.TransGen g.Child h f →
          ¬ Relation.TransGen g.Child f d) := by
  rcases hreads.cases with hlocal | hparam
  · obtain ⟨henters, hbound⟩ := bind_mem_bodyEvents hlocal.bind_mem
    exact Or.inl ⟨hlocal, henters, bound_not_parameter hbound⟩
  · exact Or.inr (parameter_site hg (mem_of_lastOf hparam))

theorem reads_source_below (hg : g.Forest)
    (hreads : Reads (parametersOf g h) (eventsOf g opts h) x d u) :
    Relation.TransGen g.Child h d := by
  rcases reads_source hg hreads with ⟨-, henters, -⟩ | ⟨hbelow, -⟩
  · exact below_of_enters henters
  · exact hbelow

theorem apart_of_nested (hg : g.Forest) (hapart : FunctionsApart g opts)
    (hh : g.hasKind h .functionDef = true) (hf : g.hasKind f .functionDef = true)
    (hhf : Relation.TransGen g.Child h f)
    (hreads : Reads (parametersOf g h) (eventsOf g opts h) x d u) (hkeeps : Keeps g opts h x)
    {y : Bytes} (hreads' : Reads (parametersOf g f) (eventsOf g opts f) y d u)
    (hkeeps' : Keeps g opts f y) : False := by
  have henters := enters_between hg (reads_enters hreads) hhf
    (below_of_enters (reads_enters hreads')).to_reflTransGen
  obtain rfl : x = y :=
    Option.some.inj ((use_mem_bodyEvents hreads.use_mem).2.symm.trans
      (use_mem_bodyEvents hreads'.use_mem).2)
  rcases reads_source hg hreads' with ⟨hlocal, -, -⟩ | ⟨hfd, hparam, -⟩
  · exact hapart.inside h f hh hf henters x d u hlocal hkeeps hkeeps'
  · rcases reads_source hg hreads with ⟨-, -, hother⟩ | ⟨-, -, hnone⟩
    · rw [hparam] at hother
      cases hother
    · exact hnone f hf hhf hfd

theorem inScope_of_apart (hg : g.Forest) (hapart : FunctionsApart g opts)
    (hh : g.hasKind h .functionDef = true)
    (hreads : Reads (parametersOf g h) (eventsOf g opts h) x d u) (hkeeps : Keeps g opts h x) :
    ∃ f f', Innermost g f d ∧ Innermost g f' u ∧ Below g f f' := by
  have hhd := reads_source_below hg hreads
  have hhu := below_of_enters (reads_enters hreads)
  obtain ⟨f, hf⟩ := exists_innermost hg hh hhd
  obtain ⟨f', hf'⟩ := exists_innermost hg hh hhu
  refine ⟨f, f', hf, hf', ?_⟩
  rcases Relation.reflTransGen_iff_eq_or_transGen.mp (hf.inner h hh hhd) with rfl | hhf
  · exact hf'.inner f hh hhu
  · -- The definition lies in an inner function: what reads it lies there too.
    rcases reads_source hg hreads with ⟨-, henters, -⟩ | ⟨-, -, hnone⟩
    · have hwalked := enters_between hg henters hhf hf.above.to_reflTransGen
      have hfu := hapart.outside h f hh hf.function hwalked x d u hreads hkeeps
        hf.above.to_reflTransGen
      rcases Relation.reflTransGen_iff_eq_or_transGen.mp hfu with rfl | hfu
      · have hident := identifier_not_function (use_mem_bodyEvents hreads.use_mem).2
        rw [hf.function] at hident
        cases hident
      · exact hf'.inner f hf.function hfu
    · exact absurd hf.above (hnone f hf.function hhf)

theorem reads_ne (hreads : Reads (parametersOf g h) (eventsOf g opts h) x d u) : d ≠ u := by
  obtain ⟨⟨n, hn, hkind⟩, hname⟩ := reads_defines hreads
  obtain ⟨n', hn', hident, -⟩ := identifierName_eq_some u x hname
  rintro rfl
  obtain rfl := Option.some.inj (hn.symm.trans hn')
  rw [hident] at hkind
  rcases hkind with ⟨hkind | hkind, -⟩ | ⟨hkind, -⟩ <;> cases hkind

theorem mem_functionEdges (hg : g.Forest) (fuel : Nat) (hfuel : g.nodeCount + 1 < fuel) {e : Edge} :
    e ∈ functionEdges opts fuel g h ↔
      e.kind = .ddg ∧ ∃ x, Reads (parametersOf g h) (eventsOf g opts h) x e.source e.target ∧
      Keeps g opts h x := by
  rw [functionEdges_fuel hg opts fuel hfuel]
  refine (mem_emits_iff parameters_names bodyEvents_names).trans ?_
  constructor
  · rintro ⟨x, hreads, hkeeps, -, hkind⟩
    exact ⟨hkind, x, hreads, hkeeps⟩
  · rintro ⟨hkind, x, hreads, hkeeps⟩
    exact ⟨x, hreads, hkeeps, reads_ne hreads, hkind⟩

end Apart

section Main

variable {g : Graph} (hg : g.AstForest) {opts : DdgBuildOptions} {fuel : Nat}
  (hfuel : g.nodeCount + 1 < fuel)

include hg hfuel

theorem functionEdges_distinct (fn : NodeId) :
    ((functionEdges opts fuel g fn).map fun e => (e.source, e.target)).Nodup := by
  apply List.Nodup.of_map Prod.snd
  rw [List.map_map, functionEdges_fuel hg.forest opts fuel hfuel]
  exact (emits_targets _ _ _).nodup (readers_eventsOf_nodup hg fn)

theorem distinct_of_apart (hapart : FunctionsApart g opts) :
    (((g.findByKind .functionDef).flatMap (functionEdges opts fuel g)).map fun e =>
      (e.source, e.target)).Nodup := by
  rw [List.map_flatMap]
  refine List.nodup_flatMap.mpr ⟨fun fn _ => functionEdges_distinct hg hfuel fn, ?_⟩
  refine (Graph.findByKind_nodup .functionDef).imp_of_mem ?_
  intro f f' hf hf' hne
  rw [Graph.mem_findByKind] at hf hf'
  rw [Function.onFun_apply, List.disjoint_left]
  intro p hp hp'
  obtain ⟨e, he, rfl⟩ := List.mem_map.mp hp
  obtain ⟨e', he', heq⟩ := List.mem_map.mp hp'
  obtain ⟨hsource, htarget⟩ := Prod.mk.inj heq
  obtain ⟨-, x, hreads, hkeeps⟩ := (mem_functionEdges hg.forest fuel hfuel).mp he
  obtain ⟨-, y, hreads', hkeeps'⟩ := (mem_functionEdges hg.forest fuel hfuel).mp he'
  rw [hsource, htarget] at hreads'
  have habove := (below_of_enters (reads_enters hreads)).to_reflTransGen
  have habove' := (below_of_enters (reads_enters hreads')).to_reflTransGen
  rcases hg.forest.below_or_below habove habove' with h | h
  · rcases Relation.reflTransGen_iff_eq_or_transGen.mp h with rfl | h
    · exact hne rfl
    · exact apart_of_nested hg.forest hapart hf hf' h hreads hkeeps hreads' hkeeps'
  · rcases Relation.reflTransGen_iff_eq_or_transGen.mp h with rfl | h
    · exact hne rfl
    · exact apart_of_nested hg.forest hapart hf' hf h hreads' hkeeps' hreads hkeeps

theorem respects_of_apart (hapart : FunctionsApart g opts) :
    RespectsFunctions g ((g.findByKind .functionDef).flatMap (functionEdges opts fuel g)) := by
  refine ⟨distinct_of_apart hg hfuel hapart, ?_⟩
  intro e he
  obtain ⟨fn, hfn, he⟩ := List.mem_flatMap.mp he
  obtain ⟨-, x, hreads, hkeeps⟩ := (mem_functionEdges hg.forest fuel hfuel).mp he
  exact inScope_of_apart hg.forest hapart ((Graph.mem_findByKind .functionDef fn).mp hfn)
    hreads hkeeps

theorem apart_of_respects
    (hrespects : RespectsFunctions g
      ((g.findByKind .functionDef).flatMap (functionEdges opts fuel g))) :
    FunctionsApart g opts := by
  constructor
  · intro h f hh hf henters x d u hreads hkeeps hkeeps'
    have hbelow := below_of_enters henters
    have hinner : (⟨d, u, .ddg⟩ : Edge) ∈ functionEdges opts fuel g f :=
      (mem_functionEdges hg.forest fuel hfuel).mpr ⟨rfl, x, hreads.after (parametersOf g f),
        hkeeps'⟩
    have houter : (⟨d, u, .ddg⟩ : Edge) ∈ functionEdges opts fuel g h := by
      refine (mem_functionEdges hg.forest fuel hfuel).mpr ⟨rfl, x, ?_, hkeeps⟩
      obtain ⟨before, after, hsplit, -⟩ := eventsOf_split hg opts henters hf
      rw [hsplit, List.append_assoc]
      exact reads_append.mpr (Or.inr (reads_append.mpr (Or.inl (hreads.after _))))
    have hdistinct := hrespects.distinct
    rw [List.map_flatMap] at hdistinct
    obtain ⟨-, hpairwise⟩ := List.nodup_flatMap.mp hdistinct
    have hne : h ≠ f := by
      rintro rfl
      exact hg.acyclic h hbelow
    have : Std.Symm (Function.onFun List.Disjoint fun fn =>
        (functionEdges opts fuel g fn).map fun e => (e.source, e.target)) :=
      ⟨fun _ _ hdisjoint => hdisjoint.symm⟩
    have hdisjoint := hpairwise.forall ((Graph.mem_findByKind .functionDef h).mpr hh)
      ((Graph.mem_findByKind .functionDef f).mpr hf) hne
    exact hdisjoint (List.mem_map_of_mem houter) (List.mem_map_of_mem hinner)
  · intro h f hh hf henters x d u hreads hkeeps hfd
    have hedge : (⟨d, u, .ddg⟩ : Edge) ∈ functionEdges opts fuel g h :=
      (mem_functionEdges hg.forest fuel hfuel).mpr ⟨rfl, x, hreads, hkeeps⟩
    obtain ⟨f₁, f₂, hf₁, hf₂, hbelow⟩ := hrespects.inScope _
      (List.mem_flatMap.mpr ⟨h, (Graph.mem_findByKind .functionDef h).mpr hh, hedge⟩)
    have habove : Relation.TransGen g.Child f d := by
      rcases Relation.reflTransGen_iff_eq_or_transGen.mp hfd with rfl | habove
      · obtain ⟨⟨n, hn, hkind⟩, -⟩ := reads_defines hreads
        rw [Graph.hasKind_of_get hn, decide_eq_true_eq] at hf
        rw [hf] at hkind
        rcases hkind with ⟨hkind | hkind, -⟩ | ⟨hkind, -⟩ <;> cases hkind
      · exact habove
    exact ((hf₁.inner f hf habove).trans hbelow).trans hf₂.above.to_reflTransGen

end Main

/-- **Functions in functions.** The run ends. The edges are distinct and stay in the scope of their
definitions exactly when no function reads a definition of a function that is walked inside of it,
nor of itself when it is walked inside of another one. -/
theorem buildDdg_functions_iff (g : Graph) (hg : g.AstForest) (opts : DdgBuildOptions) (fuel : Nat)
    (hfuel : g.nodeCount + 1 < fuel) :
    ∃ g' stats added, buildDdg fuel g opts = some (g', stats) ∧ g'.edges = g.edges ++ added ∧
      (RespectsFunctions g added ↔ FunctionsApart g opts) := by
  obtain ⟨g', stats, hrun, -⟩ := buildDdg_ends g hg.forest opts fuel hfuel
  obtain ⟨-, hedges⟩ := buildDdg_edges hrun
  exact ⟨g', stats, _, hrun, hedges, apart_of_respects hg hfuel, respects_of_apart hg hfuel⟩

/-! ### `def outer(x): def inner(): show(x)` -/

def innerReader : Graph where
  nodes := [nodeNamed 1 .functionDef "", nodeNamed 2 .parameter "", nodeNamed 3 .identifier "x",
    nodeNamed 4 .block "",
    nodeNamed 5 .functionDef "", nodeNamed 6 .block "", nodeNamed 7 .call "",
    nodeNamed 8 .identifier "show",
    nodeNamed 9 .identifier "x"]
  edges := [⟨1, 2, .astChild⟩, ⟨2, 3, .astChild⟩, ⟨1, 4, .astChild⟩, ⟨4, 5, .astChild⟩,
    ⟨5, 6, .astChild⟩, ⟨6, 7, .astChild⟩, ⟨7, 8, .astChild⟩, ⟨7, 9, .astChild⟩]
  dense := by decide
  ends := by decide

theorem innerReader_preOrder : innerReader.PreOrder :=
  Graph.preOrder_of_edges (by decide) (by decide)

theorem innerReader_apart : FunctionsApart innerReader {} := by
  have hfunctions : ∀ f, innerReader.hasKind f .functionDef = true → f = 1 ∨ f = 5 := by
    intro f hf
    have hmem := (Graph.mem_findByKind .functionDef f).mpr hf
    rw [show innerReader.findByKind .functionDef = [1, 5] by decide] at hmem
    simpa using hmem
  have hlocal : ∀ f, innerReader.hasKind f .functionDef = true →
      definitions (eventsOf innerReader {} f) = [] := by
    intro f hf
    rcases hfunctions f hf with rfl | rfl <;> decide
  have hnone : ∀ f, innerReader.hasKind f .functionDef = true →
      ∀ x d u, ¬ Reads [] (eventsOf innerReader {} f) x d u := by
    intro f hf x d u hreads
    have hmem := mem_definitions.mpr hreads.bind_mem
    rw [hlocal f hf] at hmem
    cases hmem
  refine ⟨fun h f _ hf _ x d u hreads => absurd hreads (hnone f hf x d u), ?_⟩
  intro h f hh hf henters x d u hreads _ hbelow
  -- What is read is the parameter of the outer function.
  rcases hreads.cases with hreads | hparam
  · exact absurd hreads (hnone h hh x d u)
  · have hd : d = 2 := by
      have hmem := mem_of_lastOf hparam
      rcases hfunctions h hh with rfl | rfl
      · rw [show parametersOf innerReader 1 = [(ascii "x", 2)] by decide, List.mem_singleton]
          at hmem
        exact (Prod.mk.inj hmem).2
      · rw [show parametersOf innerReader 5 = [] by decide] at hmem
        cases hmem
    have hle := below_le _ innerReader_preOrder f d hbelow
    rcases hfunctions f hf with rfl | rfl
    · obtain ⟨c, hc, hwalks⟩ := henters
      have hlt := Nat.lt_of_lt_of_le (innerReader_preOrder.increasing h c hc)
        (below_le _ innerReader_preOrder c 1 (below_of_walks hwalks))
      rcases hfunctions h hh with rfl | rfl <;> exact absurd hlt (by decide)
    · rw [hd] at hle
      exact absurd hle (by decide)

theorem innerReader_respects : ∃ g' stats, buildDdg 11 innerReader {} = some (g', stats) ∧
    g'.edges = innerReader.edges ++ [⟨2, 9, .ddg⟩] ∧
    RespectsFunctions innerReader [⟨2, 9, .ddg⟩] := by
  obtain ⟨g', stats, added, hrun, hedges, hiff⟩ :=
    buildDdg_functions_iff innerReader innerReader_preOrder.astForest {} 11 (by decide)
  have hnew : (innerReader.findByKind .functionDef).flatMap (functionEdges {} 11 innerReader) =
      [⟨2, 9, .ddg⟩] := by decide
  obtain rfl : added = [⟨2, 9, .ddg⟩] := by
    rw [(buildDdg_edges hrun).2, hnew] at hedges
    exact (List.append_cancel_left hedges).symm
  exact ⟨g', stats, hrun, hedges, hiff.mpr innerReader_apart⟩

/-! ### `def outer(): def inner(): x = 1; show(x)` -/

def innerLocal : Graph where
  nodes := [nodeNamed 1 .functionDef "", nodeNamed 2 .block "", nodeNamed 3 .functionDef "",
    nodeNamed 4 .block "",
    nodeNamed 5 .assignment "", nodeNamed 6 .identifier "x", nodeNamed 7 .literal "",
    nodeNamed 8 .call "",
    nodeNamed 9 .identifier "show", nodeNamed 10 .identifier "x"]
  edges := [⟨1, 2, .astChild⟩, ⟨2, 3, .astChild⟩, ⟨3, 4, .astChild⟩, ⟨4, 5, .astChild⟩,
    ⟨5, 6, .astChild⟩, ⟨5, 7, .astChild⟩, ⟨4, 8, .astChild⟩, ⟨8, 9, .astChild⟩, ⟨8, 10, .astChild⟩]
  dense := by decide
  ends := by decide

theorem innerLocal_preOrder : innerLocal.PreOrder :=
  Graph.preOrder_of_edges (by decide) (by decide)

theorem innerLocal_repeats : innerLocal.AstForest ∧ (∀ e ∈ innerLocal.edges, e.kind ≠ .ddg) ∧
    ∃ g' stats, buildDdg 12 innerLocal {} = some (g', stats) ∧
      g'.edges = innerLocal.edges ++ [⟨5, 10, .ddg⟩, ⟨5, 10, .ddg⟩] ∧
      ¬ RespectsFunctions innerLocal [⟨5, 10, .ddg⟩, ⟨5, 10, .ddg⟩] := by
  refine ⟨innerLocal_preOrder.astForest, by decide, ?_⟩
  obtain ⟨g', stats, hrun, -⟩ :=
    buildDdg_ends innerLocal innerLocal_preOrder.forest {} 12 (by decide)
  have hnew : (innerLocal.findByKind .functionDef).flatMap (functionEdges {} 12 innerLocal) =
      [⟨5, 10, .ddg⟩, ⟨5, 10, .ddg⟩] := by decide
  refine ⟨g', stats, hrun, ?_, fun h => ?_⟩
  · rw [(buildDdg_edges hrun).2, hnew]
  · exact absurd h.distinct (by decide)

end Euxis.Cpg
