import Euxis.Reach.Calls

/-!
# What a finding's annotation depends on

`annotate_findings` indexes the functions under two paths at most, and takes the first function
around a finding's row. The header promises the function that encloses the finding.
-/

namespace Euxis.Reach

open Cpg

variable {g : Graph} {reach : ReachabilityResult}

def rowsContain (g : Graph) (f : Security.Finding) (fn : NodeId) : Bool :=
  (g.get fn).any fun n =>
    n.range.startRow ≤ (f.primaryLocation.startLine - 1).toNat ∧
      (f.primaryLocation.startLine - 1).toNat ≤ n.range.endRow

/-- A function whose rows contain the row of the finding. -/
def FunctionAround (g : Graph) (f : Security.Finding) (fn : NodeId) : Prop :=
  fn ∈ g.findByKind .functionDef ∧ rowsContain g f fn = true

/-- No function below it in the syntax tree is around the finding as well. -/
def InnermostAround (g : Graph) (f : Security.Finding) (fn : NodeId) : Prop :=
  FunctionAround g f fn ∧ ∀ other, FunctionAround g f other → ¬ Relation.TransGen g.Child fn other

/-- The first function around the finding, in the order of the graph. -/
def FirstAround (g : Graph) (f : Security.Finding) (fn : NodeId) : Prop :=
  (g.findByKind .functionDef).find? (rowsContain g f) = some fn

def functionTaxon (reach : ReachabilityResult) (fn : NodeId) : Bytes :=
  if fn ∈ reach.reachableFunctions then ascii "euxis:reachable:true"
  else ascii "euxis:reachable:false"

/-- The taxon that the header describes. -/
def RightTaxon (g : Graph) (reach : ReachabilityResult) (f : Security.Finding) (taxon : Bytes) :
    Prop :=
  (∀ fn, ¬ FunctionAround g f fn) ∧ taxon = ascii "euxis:reachable:unknown" ∨
  ∃ fn, InnermostAround g f fn ∧ taxon = functionTaxon reach fn

def withTaxon (f : Security.Finding) (taxon : Bytes) : Security.Finding :=
  { f with complianceTaxa := f.complianceTaxa ++ [taxon] }

/-- Each finding gets the taxon that it gets alone, and it is the right one. -/
def PerFinding (g : Graph) (reach : ReachabilityResult) (findings : List Security.Finding) : Prop :=
  ∀ p ∈ findings.zip (annotateFindings g reach findings), annotateFindings g reach [p.1] = [p.2] ∧
    ∃ taxon, p.2 = withTaxon p.1 taxon ∧ RightTaxon g reach p.1 taxon

/-! ## The index -/

/-- The first two different paths of the findings. -/
def earlyPaths (findings : List Security.Finding) : List Bytes :=
  (findings.map (·.primaryLocation.path)).eraseDups.take 2

theorem earlyPaths_cons (first : Security.Finding) (rest : List Security.Finding) :
    earlyPaths (first :: rest) = first.primaryLocation.path ::
      ((rest.find? (·.primaryLocation.path ≠ first.primaryLocation.path)).map
        (·.primaryLocation.path)).toList := by
  unfold earlyPaths
  rw [List.map_cons, List.eraseDups_cons, List.take_succ_cons, List.filter_map]
  have htake : ∀ paths : List Bytes, paths.eraseDups.take 1 = paths.head?.toList := by
    intro paths
    cases paths with
    | nil => rfl
    | cons path paths => rw [List.eraseDups_cons]; rfl
  rw [htake, List.head?_map, ← List.head?_filter]
  congr 5
  funext f
  rw [Bool.eq_iff_iff]
  simp

theorem functionsByPath_cons (hne : g.findByKind .functionDef ≠ []) (first : Security.Finding)
    (rest : List Security.Finding) : functionsByPath g (first :: rest) =
      (earlyPaths (first :: rest)).map fun path => (path, g.findByKind .functionDef) := by
  have hfind : (first :: rest).find? (·.primaryLocation.path ≠ first.primaryLocation.path) =
      rest.find? (·.primaryLocation.path ≠ first.primaryLocation.path) :=
    List.find?_cons_of_neg (by simp)
  unfold functionsByPath
  rw [if_neg hne, earlyPaths_cons, ← hfind]
  dsimp only
  split
  · rename_i hnone
    have hpath : (first :: rest).find? (·.primaryLocation.path ≠ first.primaryLocation.path) =
        none := hnone
    rw [hpath]
    rfl
  · rename_i other hsome
    have hpath : (first :: rest).find? (·.primaryLocation.path ≠ first.primaryLocation.path) =
        some other := hsome
    rw [hpath]
    rfl

theorem findFindingFunction_eq (findings : List Security.Finding) (f : Security.Finding)
    (hf : f ∈ findings) :
    findFindingFunction g f (functionsByPath g findings) =
      if f.primaryLocation.path ∈ earlyPaths findings then
        ((g.findByKind .functionDef).find? (rowsContain g f)).getD kNullNode
      else kNullNode := by
  cases findings with
  | nil => cases hf
  | cons first rest =>
    unfold findFindingFunction
    by_cases hne : g.findByKind .functionDef = []
    · simp [functionsByPath, hne]
    · rw [functionsByPath_cons hne]
      split_ifs with hpath
      · rw [List.lookup_graph (fun _ => g.findByKind .functionDef) hpath]
        rfl
      · rw [List.lookup_eq_none_iff.mpr]
        intro p hp
        obtain ⟨path, hmem, rfl⟩ := List.mem_map.mp hp
        refine bne_iff_ne.mpr ?_
        rintro rfl
        exact hpath hmem

/-! ## The taxon -/

theorem functionTaxon_eq_iff (a b : NodeId) : functionTaxon reach a = functionTaxon reach b ↔
    (a ∈ reach.reachableFunctions ↔ b ∈ reach.reachableFunctions) := by
  unfold functionTaxon
  split_ifs with ha hb hb
  · simp [ha, hb]
  · simp only [ha, hb, iff_false]
    decide
  · simp only [ha, hb, false_iff, not_true, iff_false]
    decide
  · simp [ha, hb]

theorem functionTaxon_ne_unknown (fn : NodeId) :
    functionTaxon reach fn ≠ ascii "euxis:reachable:unknown" := by
  unfold functionTaxon
  split
  · decide
  · decide

/-- The taxon of the first function around a finding. -/
def firstTaxon (g : Graph) (reach : ReachabilityResult) (f : Security.Finding) : Bytes :=
  (((g.findByKind .functionDef).find? (rowsContain g f)).map (functionTaxon reach)).getD
    (ascii "euxis:reachable:unknown")

theorem reachableTaxon_eq (findings : List Security.Finding) (f : Security.Finding)
    (hf : f ∈ findings) :
    reachableTaxon g reach (functionsByPath g findings) f =
      if f.primaryLocation.path ∈ earlyPaths findings then firstTaxon g reach f
      else ascii "euxis:reachable:unknown" := by
  unfold reachableTaxon firstTaxon
  rw [findFindingFunction_eq findings f hf]
  split
  · cases hfind : (g.findByKind .functionDef).find? (rowsContain g f) with
    | none => rfl
    | some fn =>
      obtain ⟨n, hn, -⟩ := (mem_findByKind .functionDef fn).mp (List.mem_of_find?_eq_some hfind)
      exact if_neg (g.valid_of_get fn n hn).1
  · rfl

theorem reachableTaxon_alone (f : Security.Finding) :
    reachableTaxon g reach (functionsByPath g [f]) f = firstTaxon g reach f := by
  rw [reachableTaxon_eq [f] f (List.mem_singleton.mpr rfl), if_pos]
  rw [earlyPaths_cons]
  exact List.mem_cons_self

theorem withTaxon_injective (f : Security.Finding) : Function.Injective (withTaxon f) := by
  intro a b h
  simpa [withTaxon] using h

theorem perFinding_iff (findings : List Security.Finding) :
    PerFinding g reach findings ↔ ∀ f ∈ findings,
    firstTaxon g reach f = reachableTaxon g reach (functionsByPath g findings) f ∧
      RightTaxon g reach f (firstTaxon g reach f) := by
  have hzip : findings.zip (annotateFindings g reach findings) =
      findings.map fun f =>
        (f, withTaxon f (reachableTaxon g reach (functionsByPath g findings) f)) := by
    have hid := List.zip_map' (f := id) (l := findings)
      (g := fun f => withTaxon f (reachableTaxon g reach (functionsByPath g findings) f))
    rwa [List.map_id] at hid
  have halone : ∀ f, annotateFindings g reach [f] = [withTaxon f (firstTaxon g reach f)] := by
    intro f
    rw [← reachableTaxon_alone]
    rfl
  unfold PerFinding
  simp only [hzip, List.forall_mem_map, halone, List.cons.injEq, and_true,
    (withTaxon_injective _).eq_iff]
  refine forall₂_congr fun f _ => and_congr_right fun heq => ?_
  rw [← heq]
  exact exists_eq_left'

theorem find?_around_eq_none (f : Security.Finding) :
    (g.findByKind .functionDef).find? (rowsContain g f) = none ↔ ∀ fn, ¬ FunctionAround g f fn := by
  rw [List.find?_eq_none]
  exact ⟨fun h fn hfn => h fn hfn.1 hfn.2, fun h fn hfn hrows => h fn ⟨hfn, hrows⟩⟩

/-- **The annotation of findings.** Each finding of a list gets the taxon that it gets alone and
that its innermost function asks for, exactly when each either has no function around it, or has one
of the first two paths of the list and a first function around it that is reachable like an
innermost one. -/
theorem annotateFindings_perFinding_iff (g : Graph) (reach : ReachabilityResult)
    (findings : List Security.Finding) :
    PerFinding g reach findings ↔ ∀ f ∈ findings, (∀ fn, ¬ FunctionAround g f fn) ∨
      f.primaryLocation.path ∈ earlyPaths findings ∧ ∃ fn first, InnermostAround g f fn ∧
      FirstAround g f first ∧
        (fn ∈ reach.reachableFunctions ↔ first ∈ reach.reachableFunctions) := by
  rw [perFinding_iff]
  refine forall₂_congr fun f hf => ?_
  rw [reachableTaxon_eq findings f hf]
  cases hfind : (g.findByKind .functionDef).find? (rowsContain g f) with
  | none =>
    have hnone := (find?_around_eq_none f).mp hfind
    have htaxon : firstTaxon g reach f =
        ascii "euxis:reachable:unknown" := by rw [firstTaxon, hfind]; rfl
    simp [htaxon, RightTaxon, hnone]
  | some first =>
    have hsome : ¬ ∀ fn, ¬ FunctionAround g f fn := by
      rw [← find?_around_eq_none, hfind]
      nofun
    have htaxon : firstTaxon g reach f = functionTaxon reach first := by rw [firstTaxon, hfind]; rfl
    -- The first function around stands in for the innermost one, and only its reachability shows.
    have hright : RightTaxon g reach f (functionTaxon reach first) ↔ ∃ fn, InnermostAround g f fn ∧
        (fn ∈ reach.reachableFunctions ↔ first ∈ reach.reachableFunctions) := by
      simp only [RightTaxon, hsome, false_and, false_or, functionTaxon_eq_iff]
      exact exists_congr fun fn => and_congr_right fun _ => Iff.comm
    rw [htaxon, hright]
    simp only [hsome, false_or, FirstAround, hfind, Option.some.injEq]
    refine and_congr ?_ (exists_congr fun fn => ?_)
    · split_ifs with hpath
      · simp [hpath]
      · simp [hpath, functionTaxon_ne_unknown]
    · simp

/-! ### `def outer(): def inner(): eval(x); return 0`, on four lines -/

def rowsNode (id : NodeId) (kind : NodeKind) (startRow endRow : Nat) : Node :=
  { id, kind, rawKind := [], name := [], range := ⟨startRow, 0, endRow, 0, 0, 0⟩,
    language := .python }

def outerGraph : Graph where
  nodes := [rowsNode 1 .translationUnit 0 3, rowsNode 2 .functionDef 0 3, rowsNode 3 .block 1 3,
    rowsNode 4 .functionDef 1 2]
  edges := [⟨1, 2, .astChild⟩, ⟨2, 3, .astChild⟩, ⟨3, 4, .astChild⟩]
  dense := by decide
  ends := by decide

def findingAt (path : String) (line : Int) : Security.Finding :=
  { primaryLocation := { path := ascii path, startLine := line } }

theorem outerGraph_not_perFinding : computeReachable 10 outerGraph [] {} = some ⟨[2], 1⟩ ∧
    ¬ PerFinding outerGraph ⟨[2], 1⟩ [findingAt "a.py" 3] ∧
    ¬ PerFinding outerGraph ⟨[2], 1⟩ [findingAt "a.py" 1, findingAt "b.py" 1,
      findingAt "c.py" 1] := by
  -- The inner function is called nowhere, and a finding in it counts as reachable.
  refine ⟨by decide, ?_, ?_⟩
  · intro h
    obtain ⟨-, hright⟩ := (perFinding_iff _).mp h _ List.mem_cons_self
    have hinner : FunctionAround outerGraph (findingAt "a.py" 3) 4 := ⟨by decide, by decide⟩
    have hbelow : Relation.TransGen outerGraph.Child 2 4 :=
      .tail (.single ((outerGraph.mem_children 2 3).mp (by decide)))
        ((outerGraph.mem_children 3 4).mp (by decide))
    rcases hright with ⟨hnone, -⟩ | ⟨fn, hfn, htaxon⟩
    · exact hnone 4 hinner
    · have htwo : firstTaxon outerGraph ⟨[2], 1⟩ (findingAt "a.py" 3) =
          functionTaxon ⟨[2], 1⟩ 2 := by decide
      have hreach : (2 : NodeId) ∈ [2] ↔ fn ∈ [2] :=
        (functionTaxon_eq_iff 2 fn).mp (htwo.symm.trans htaxon)
      obtain rfl := List.mem_singleton.mp (hreach.mp List.mem_cons_self)
      exact hfn.2 4 hinner hbelow
  · intro h
    obtain ⟨halone, -⟩ := (perFinding_iff _).mp h (findingAt "c.py" 1) (by decide)
    revert halone
    decide

end Euxis.Reach
