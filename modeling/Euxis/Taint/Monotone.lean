import Euxis.Taint.Proofs

/-!
# Roles along the tree

The text of a node contains the texts of the nodes below it, so a pattern that is found in a node is
found in every node above it.
-/

namespace Euxis.Taint

open Cpg

/-! ## An order of roles -/

/-- Roles by their precedence: a sanitizer wins over a sink, and a sink over a source. -/
def Role.rank : Role → Nat
  | .none => 0
  | .source => 1
  | .sink => 2
  | .sanitizer => 3

/-- The pattern of a spec is found in the text. -/
def hits (language : Parse.Language) (text : Bytes) (languages : List Parse.Language)
    (pattern : Bytes) : Bool :=
  appliesTo languages language && textMatches pattern text

theorem hits_nil (language : Parse.Language) (languages : List Parse.Language) (pattern : Bytes) :
    hits language [] languages pattern = false := by
  simp [hits, textMatches]

theorem hits_mono {language : Parse.Language} {text text' : Bytes} (h : text <:+: text')
    {languages : List Parse.Language} {pattern : Bytes}
    (hhit : hits language text languages pattern = true) :
    hits language text' languages pattern = true := by
  unfold hits textMatches at hhit ⊢
  rw [Bool.and_eq_true] at hhit ⊢
  obtain ⟨happlies, hmatch⟩ := hhit
  refine ⟨happlies, ?_⟩
  split at hmatch
  · cases hmatch
  · rename_i hne
    rw [not_or] at hne
    have htext : text' ≠ [] := by
      rintro rfl
      exact hne.2 (List.infix_nil.mp h)
    rw [if_neg (not_or.mpr ⟨hne.1, htext⟩)]
    exact decide_eq_true ((of_decide_eq_true hmatch).trans h)

variable (spec : TaintSpec) (language : Parse.Language)

theorem classify_role (text : Bytes) :
    (classify spec language text).role =
      if spec.sanitizers.any fun s => hits language text s.languages s.pattern then .sanitizer
      else if spec.sinks.any fun s => hits language text s.languages s.pattern then .sink
      else if spec.sources.any fun s => hits language text s.languages s.pattern then .source
      else .none := by
  by_cases htext : text = []
  · subst htext
    simp [classify, hits_nil]
  · unfold classify hits
    rw [if_neg htext]
    simp only [← List.findIdx?_isSome]
    -- Sanitizers are asked first, then sinks, then sources.
    split
    · rename_i hsan
      simp [hsan]
    · rename_i hsan
      split
      · rename_i hsink
        simp [hsan, hsink]
      · rename_i hsink
        split
        · rename_i hsource
          simp [hsan, hsink, hsource]
        · rename_i hsource
          simp [hsan, hsink, hsource]

theorem any_hits_mono {σ : Type} {text text' : Bytes} (h : text <:+: text') (specs : List σ)
    (languages : σ → List Parse.Language) (pattern : σ → Bytes)
    (hany : (specs.any fun s => hits language text (languages s) (pattern s)) = true) :
    (specs.any fun s => hits language text' (languages s) (pattern s)) = true := by
  rw [List.any_eq_true] at hany ⊢
  obtain ⟨s, hs, hhit⟩ := hany
  exact ⟨s, hs, hits_mono h hhit⟩

/-- **A longer text has no lower role.** -/
theorem classify_mono {text text' : Bytes} (h : text <:+: text') :
    (classify spec language text).role.rank ≤ (classify spec language text').role.rank := by
  have hsan := any_hits_mono language h spec.sanitizers (·.languages) (·.pattern)
  have hsink := any_hits_mono language h spec.sinks (·.languages) (·.pattern)
  have hsource := any_hits_mono language h spec.sources (·.languages) (·.pattern)
  rw [classify_role, classify_role]
  split
  · rename_i hhit
    rw [if_pos (hsan hhit)]
  · split
    · rename_i hhit
      rw [hsink hhit, if_pos rfl]
      split <;> decide
    · split
      · rename_i hhit
        rw [hsource hhit, if_pos rfl]
        split
        · decide
        · split <;> decide
      · exact Nat.zero_le _

/-! ## Ranges in ranges -/

/-- What the parser gives: a child lies in its parent, and the nodes lie in the text. -/
structure RangesNest (g : Graph) (ast : Parse.Ast) : Prop where
  inside : ∀ p c n m, g.Child p c → g.get p = some n → g.get c = some m →
    n.range.startByte ≤ m.range.startByte ∧ m.range.endByte ≤ n.range.endByte
  inText : ∀ n ∈ g.nodes, n.range.endByte ≤ ast.source.length

theorem nodeText_within (ast : Parse.Ast) {outer inner : Parse.SourceRange}
    (hstart : outer.startByte ≤ inner.startByte) (hend : inner.endByte ≤ outer.endByte)
    (htext : outer.endByte ≤ ast.source.length) : ast.nodeText inner <:+: ast.nodeText outer := by
  unfold Parse.Ast.nodeText
  split
  · exact List.nil_infix
  · rename_i hinner
    rw [if_neg (by omega)]
    -- The inner text is cut out of the outer one.
    have hcut : (ast.source.drop inner.startByte).take (inner.endByte - inner.startByte) =
        (((ast.source.drop outer.startByte).take (outer.endByte - outer.startByte)).drop
          (inner.startByte - outer.startByte)).take (inner.endByte - inner.startByte) := by
      rw [List.drop_take, List.drop_drop, List.take_take, Nat.add_sub_cancel' hstart,
        Nat.min_eq_left (by omega)]
    rw [hcut]
    exact (List.take_prefix _ _).isInfix.trans (List.drop_suffix _ _).isInfix

/-- Above a node there is no role of lower precedence. -/
def RolesRise (g : Graph) (roles : List ClassificationEntry) : Prop :=
  ∀ a n, Relation.TransGen g.Child a n →
    ((entryOf roles n).role = .sanitizer → (entryOf roles a).role = .sanitizer) ∧
    ((entryOf roles n).role = .sink → (entryOf roles a).role = .sink ∨
      (entryOf roles a).role = .sanitizer) ∧
    ((entryOf roles n).role = .source → (entryOf roles a).role ≠ .none)

/-- The part of a flow's path that runs along data dependences: all of it, or all but the hop to an
ancestor. -/
def DdgPart (g : Graph) (f : TaintFlow) (trail : List NodeId) : Prop :=
  trail.IsChain g.Ddg ∧
    (f.path = trail ∨ (f.path = trail ++ [f.sinkNode] ∧
      ∃ last, trail.getLast? = some last ∧ Relation.TransGen g.Child f.sinkNode last))

section Tree

variable {g : Graph} {ast : Parse.Ast} (hranges : RangesNest g ast) (stats : AnalysisStats)

include hranges

theorem rank_le_of_child {p c : NodeId} (h : g.Child p c) :
    (entryOf (classifyAll g ast spec stats).1 c).role.rank ≤
      (entryOf (classifyAll g ast spec stats).1 p).role.rank := by
  obtain ⟨hp, hc⟩ := g.child_valid p c h
  obtain ⟨n, hn⟩ := Graph.exists_get hp
  obtain ⟨m, hm⟩ := Graph.exists_get hc
  obtain ⟨hstart, hend⟩ := hranges.inside p c n m h hn hm
  rw [entryOf_classifyAll, entryOf_classifyAll, hn, hm]
  exact classify_mono spec ast.language
    (nodeText_within ast hstart hend (hranges.inText n (g.get_eq_some_iff.mp hn).1))

theorem rank_le_of_above {a n : NodeId} (h : Relation.TransGen g.Child a n) :
    (entryOf (classifyAll g ast spec stats).1 n).role.rank ≤
      (entryOf (classifyAll g ast spec stats).1 a).role.rank := by
  induction h with
  | single hc => exact rank_le_of_child spec hranges stats hc
  | tail _ hc ih => exact Nat.le_trans (rank_le_of_child spec hranges stats hc) ih

theorem rolesRise : RolesRise g (classifyAll g ast spec stats).1 := by
  intro a n h
  have hrank := rank_le_of_above spec hranges stats h
  cases hn : (entryOf (classifyAll g ast spec stats).1 n).role <;>
    cases ha : (entryOf (classifyAll g ast spec stats).1 a).role <;> simp_all [Role.rank]

end Tree

theorem flow_end {g : Graph} {roles : List ClassificationEntry} (hroles : RolesRise g roles)
    {s : NodeId} {f : TaintFlow} (hshape : WellShaped g s f)
    (hsink : (entryOf roles f.sinkNode).role = .sink) {trail : List NodeId} {last : NodeId}
    (htrail : DdgPart g f trail) (hlast : trail.getLast? = some last) :
    (entryOf roles last).role ≠ .sanitizer := by
  obtain ⟨-, -, hend, -⟩ := hshape
  intro hrole
  rcases htrail.2 with hpath | ⟨-, last', hlast', habove⟩
  · rw [hpath, hlast, Option.some.injEq] at hend
    rw [hend, hsink] at hrole
    cases hrole
  · obtain rfl := Option.some.inj (hlast.symm.trans hlast')
    rw [(hroles f.sinkNode last habove).1 hrole] at hsink
    cases hsink

/-- **Roles along the tree.** Above a sanitizer there are only sanitizers, above a sink only sinks
and sanitizers, and above a source nothing without a role. So no flow of the search ends its
dependences at a sanitizer. -/
theorem roles_monotone (g : Graph) (ast : Parse.Ast) (hranges : RangesNest g ast) (spec : TaintSpec)
    (stats : AnalysisStats) :
    RolesRise g (classifyAll g ast spec stats).1 ∧
      (g.Forest → ∀ s, (entryOf (classifyAll g ast spec stats).1 s).role = .source →
        ∀ fuel, g.nodeCount + 2 < fuel → ∀ flows stats', ∃ new stats'',
          bfsFromSource fuel g s (classifyAll g ast spec stats).1 spec flows stats' =
            some (flows ++ new, stats'') ∧
          ∀ f ∈ new, (∃ trail, DdgPart g f trail) ∧ ∀ trail last, DdgPart g f trail →
            trail.getLast? = some last →
            (entryOf (classifyAll g ast spec stats).1 last).role ≠ .sanitizer) := by
  have hroles := rolesRise spec hranges stats
  refine ⟨hroles, ?_⟩
  intro hg s hs fuel hfuel flows stats'
  obtain ⟨new, stats'', hrun, hsinks, hshapes⟩ :=
    bfsFromSource_spec g _ spec s hg hs fuel hfuel flows stats'
  refine ⟨new, stats'', hrun, ?_⟩
  intro f hf
  obtain ⟨path, between, last, -, -, -, hsinkFor, -⟩ := (hsinks f.sinkNode).mp ⟨f, hf, rfl⟩
  have hsink := sinkFor_role g _ last f.sinkNode hsinkFor
  refine ⟨(hshapes f hf).2.2.2, ?_⟩
  intro trail last htrail hlast
  exact flow_end hroles (hshapes f hf) hsink htrail hlast

theorem loopGraph_ranges : RangesNest loopGraph loopAst := by
  refine ⟨?_, by decide⟩
  rintro p c n m ⟨e, he, hkind, rfl, rfl⟩ hn hm
  have hall : ∀ e ∈ loopGraph.edges, e.kind = .astChild → ∀ n ∈ loopGraph.get e.source,
      ∀ m ∈ loopGraph.get e.target,
      n.range.startByte ≤ m.range.startByte ∧ m.range.endByte ≤ n.range.endByte := by decide
  exact hall e he hkind n hn m hm

theorem loopGraph_roles_monotone :
    RolesRise loopGraph (classifyAll loopGraph loopAst loopSpec {}).1 ∧
    (entryOf (classifyAll loopGraph loopAst loopSpec {}).1 3).role = .sink ∧
    ∃ new stats, bfsFromSource 7 loopGraph 2 (classifyAll loopGraph loopAst loopSpec {}).1
      loopSpec [] {} = some (new, stats) ∧
      ∀ f ∈ new, ∀ trail last, DdgPart loopGraph f trail → trail.getLast? = some last →
        (entryOf (classifyAll loopGraph loopAst loopSpec {}).1 last).role ≠ .sanitizer := by
  obtain ⟨hroles, hflows⟩ := roles_monotone loopGraph loopAst loopGraph_ranges loopSpec {}
  refine ⟨hroles, by decide, ?_⟩
  obtain ⟨new, stats, hrun, hnew⟩ := hflows loopGraph_forest 2 (by decide) 7 (by decide) [] {}
  exact ⟨new, stats, hrun, fun f hf => (hnew f hf).2⟩

end Euxis.Taint
