import Euxis.Taint.Code
import Mathlib.Data.List.Chain

/-!
# What the taint search reports

The search is the worklist search of `Search.lean` on paths. Its flows are those of the path-based
definition below.
-/

namespace Euxis.Taint

open Cpg

section Roles

variable (g : Graph) (roles : List ClassificationEntry)

/-! ## Sinks that a node stands for -/

/-- Each node of the list is the parent of the one before it. -/
def ParentChain (n : NodeId) : List NodeId → Prop
  | [] => True
  | p :: rest => g.Child p n ∧ ParentChain p rest

/-- The sink match: the node itself, or its nearest sink ancestor with no sanitizer below that. -/
def SinkFor (n k : NodeId) : Prop :=
  ((entryOf roles n).role = .sink ∧ k = n) ∨
    ((entryOf roles n).role ≠ .sink ∧ (entryOf roles k).role = .sink ∧
      ∃ between, ParentChain g n (between ++ [k]) ∧
        ∀ a ∈ between, (entryOf roles a).role ≠ .sink ∧ (entryOf roles a).role ≠ .sanitizer)

theorem above_iff (hg : g.Forest) (n : NodeId) (l : List NodeId) :
    Search.Above g.up n l ↔ ParentChain g n l := by
  induction l generalizing n with
  | nil => exact Iff.rfl
  | cons p rest ih =>
    unfold Search.Above ParentChain
    rw [g.up_iff hg, ih]

theorem parentChain_last_ne_null (n k : NodeId) (between : List NodeId)
    (h : ParentChain g n (between ++ [k])) : k ≠ kNullNode := by
  induction between generalizing n with
  | nil => exact (g.child_valid k n h.1).1.1
  | cons p rest ih => exact ih p h.2

theorem ancestorTest_eq_none (a : NodeId) :
    ancestorTest roles a = none ↔ (entryOf roles a).role ≠ .sink ∧
      (entryOf roles a).role ≠ .sanitizer := by
  unfold ancestorTest
  split_ifs with h1 h2
  · simp [h1]
  · simp [h2]
  · simp [h1, h2]

theorem ancestorTest_eq_some (a k : NodeId) (hk : k ≠ kNullNode) :
    ancestorTest roles a = some k ↔ (entryOf roles a).role = .sink ∧ k = a := by
  unfold ancestorTest
  split_ifs with h1 h2
  · simp [h1, eq_comm]
  · simp [h1, Ne.symm hk]
  · simp [h1]

theorem decides_iff (hg : g.Forest) (n k : NodeId) (hk : k ≠ kNullNode) :
    Search.Decides g.up (ancestorTest roles) n k ↔
      (entryOf roles k).role = .sink ∧ ∃ between, ParentChain g n (between ++ [k]) ∧
        ∀ a ∈ between, (entryOf roles a).role ≠ .sink ∧ (entryOf roles a).role ≠ .sanitizer := by
  unfold Search.Decides
  constructor
  · rintro ⟨passed, last, habove, hlast, hpassed⟩
    obtain ⟨hrole, rfl⟩ := (ancestorTest_eq_some roles last k hk).mp hlast
    exact ⟨hrole, passed, (above_iff g hg n _).mp habove,
      fun a ha => (ancestorTest_eq_none roles a).mp (hpassed a ha)⟩
  · rintro ⟨hrole, between, hchain, hbetween⟩
    exact ⟨between, k, (above_iff g hg n _).mpr hchain,
      (ancestorTest_eq_some roles k k hk).mpr ⟨hrole, rfl⟩,
      fun a ha => (ancestorTest_eq_none roles a).mpr (hbetween a ha)⟩

theorem sinkMatch_spec (hg : g.Forest) (source n : NodeId) (hn : n ≠ source)
    (hnull : n ≠ kNullNode) :
    ∃ r, sinkMatch g roles source n = some r ∧ ∀ k, SinkFor g roles n k ↔
      r ≠ kNullNode ∧ r = k := by
  obtain ⟨rank, hrank, hbound⟩ := g.exists_climb_rank hg
  obtain ⟨r, hr, hdecides⟩ :=
    Search.climb_spec g.up (ancestorTest roles) rank hrank (g.nodeCount + 1) n
    (Nat.lt_succ_of_le (hbound n))
  unfold sinkMatch
  rw [if_neg hn]
  by_cases hsink : (entryOf roles n).role = .sink
  · refine ⟨n, if_pos hsink, ?_⟩
    intro k
    unfold SinkFor
    constructor
    · rintro (⟨-, rfl⟩ | ⟨hne, -⟩)
      · exact ⟨hnull, rfl⟩
      · exact absurd hsink hne
    · rintro ⟨-, rfl⟩
      exact Or.inl ⟨hsink, rfl⟩
  -- No sink itself: the first ancestor that decides is a sink, or there is none.
  · refine ⟨r.getD kNullNode, by rw [if_neg hsink, hr]; rfl, ?_⟩
    intro k
    unfold SinkFor
    constructor
    · rintro (⟨hs, -⟩ | ⟨-, hrole, between, hchain, hbetween⟩)
      · exact absurd hs hsink
      · have hk := parentChain_last_ne_null g n k between hchain
        have := (hdecides k).mpr ((decides_iff g roles hg n k hk).mpr ⟨hrole, between,
          hchain, hbetween⟩)
        rw [this]
        exact ⟨hk, rfl⟩
    · rintro ⟨hne, rfl⟩
      cases r with
      | none => exact absurd rfl hne
      | some k =>
        obtain ⟨hrole, hrest⟩ := (decides_iff g roles hg n k hne).mp ((hdecides k).mp rfl)
        exact Or.inr ⟨hsink, hrole, hrest⟩

/-! ## Paths -/

/-- A path of data dependences from `s` to a node that stands for the sink `k`. No node between is a
sanitizer, and none but `s` itself stands for a sink. -/
def TaintPath (s k : NodeId) (path : List NodeId) : Prop :=
  ∃ between last, path = s :: between ++ [last] ∧ path.IsChain g.Ddg ∧ last ≠ s ∧
    SinkFor g roles last k ∧
    ∀ n ∈ between, (entryOf roles n).role ≠ .sanitizer ∧ (n = s ∨ ∀ k', ¬ SinkFor g roles n k')

/-- A flow from `s` runs along data dependences and ends at its sink, with at most one last hop to
an ancestor. -/
def WellShaped (s : NodeId) (f : TaintFlow) : Prop :=
  f.sourceNode = s ∧ f.path.head? = some s ∧ f.path.getLast? = some f.sinkNode ∧
    ∃ trail, trail.IsChain g.Ddg ∧
      (f.path = trail ∨ (f.path = trail ++ [f.sinkNode] ∧
        ∃ last, trail.getLast? = some last ∧ Relation.TransGen g.Child f.sinkNode last))

end Roles

/-! ## The search as a worklist search -/

section Bfs

variable (g : Graph) (roles : List ClassificationEntry) (spec : TaintSpec) (s : NodeId)

def endOf (path : List NodeId) : NodeId := path.getLastD kNullNode

/-- The search goes no further from this node. -/
def stops (n : NodeId) : Bool :=
  (sinkMatch g roles s n).getD kNullNode ≠ kNullNode ∨ (n ≠ s ∧ (entryOf roles n).role = .sanitizer)

def successors (path : List NodeId) : List (List NodeId) :=
  if stops g roles s (endOf path) then []
  else (g.edges.filter fun e => e.kind = .ddg ∧ e.source = endOf path).map fun e => path ++
    [e.target]

def emit (path : List NodeId) : Option TaintFlow :=
  let sink := (sinkMatch g roles s (endOf path)).getD kNullNode
  if sink ≠ kNullNode then some (makeFlow roles spec s path sink) else none

/-- The outcome of the loop once it has taken these paths from the queue. -/
def report (flows : List TaintFlow) (stats : AnalysisStats) (popped : List (List NodeId)) :
    List TaintFlow × AnalysisStats :=
  (flows ++ popped.filterMap (emit g roles spec s),
    { stats with
      flowsEmitted := stats.flowsEmitted + (popped.filterMap (emit g roles spec s)).length
      bfsNodesVisited := stats.bfsNodesVisited + popped.length })

theorem endOf_snoc (path : List NodeId) (n : NodeId) : endOf (path ++ [n]) = n := by
  simp [endOf]

theorem foldl_expand (path : List NodeId) (edges : List Edge)
    (work : Search.Work (List NodeId) NodeId) :
    edges.foldl (expand path (endOf path)) work =
      ((edges.filter fun e => e.kind = .ddg ∧ e.source = endOf path).map fun e => path ++
        [e.target]).foldl
        (Search.push endOf) work := by
  induction edges generalizing work with
  | nil => rfl
  | cons e rest ih =>
    rw [List.foldl_cons, ih]
    by_cases h : e.kind = .ddg ∧ e.source = endOf path
    · rw [List.filter_cons_of_pos (by simpa using h), List.map_cons, List.foldl_cons]
      congr 1
      unfold expand Search.push
      rw [if_neg (by simpa using h.1), if_neg (by simpa using h.2), endOf_snoc]
    · rw [List.filter_cons_of_neg (by simpa using h)]
      congr 1
      unfold expand
      by_cases hk : e.kind = .ddg
      · rw [if_neg (by simpa using hk), if_pos (fun hs => h ⟨hk, hs⟩)]
      · rw [if_pos hk]

theorem report_cons_some (flows : List TaintFlow) (stats : AnalysisStats) (path : List NodeId)
    (popped : List (List NodeId)) (f : TaintFlow) (hemit : emit g roles spec s path = some f) :
    report g roles spec s flows stats (path :: popped) =
      report g roles spec s (flows ++ [f])
        { stats with
          flowsEmitted := stats.flowsEmitted + 1
          bfsNodesVisited := stats.bfsNodesVisited + 1 } popped := by
  simp [report, hemit]
  omega

theorem report_cons_none (flows : List TaintFlow) (stats : AnalysisStats) (path : List NodeId)
    (popped : List (List NodeId)) (hemit : emit g roles spec s path = none) :
    report g roles spec s flows stats (path :: popped) =
      report g roles spec s flows { stats with bfsNodesVisited := stats.bfsNodesVisited + 1 }
        popped := by
  simp [report, hemit]
  omega

theorem advance_stopped (rest : List (List NodeId)) (visited : List NodeId) (path : List NodeId)
    (hstop : stops g roles s (endOf path) = true) :
    Search.advance endOf (successors g roles s) rest visited path =
      { frontier := rest, visited } := by
  unfold Search.advance successors
  rw [if_pos hstop]
  rfl

theorem advance_open (rest : List (List NodeId)) (visited : List NodeId) (path : List NodeId)
    (hgo : stops g roles s (endOf path) = false) :
    Search.advance endOf (successors g roles s) rest visited path =
      g.edges.foldl (expand path (endOf path)) { frontier := rest, visited } := by
  unfold Search.advance successors
  rw [if_neg (by rw [hgo]; exact Bool.false_ne_true), foldl_expand]

theorem bfsLoop_eq (htotal : ∀ n, ∃ r, sinkMatch g roles s n = some r) (fuel : Nat)
    (work : Search.Work (List NodeId) NodeId) (flows : List TaintFlow) (stats : AnalysisStats) :
    bfsLoop g roles spec s fuel work flows stats =
      (Search.loop endOf (successors g roles s) fuel work []).map
        (report g roles spec s flows stats) := by
  induction fuel generalizing work flows stats with
  | zero => rfl
  | succ fuel ih =>
    obtain ⟨frontier, visited⟩ := work
    unfold bfsLoop Search.loop
    cases frontier with
    | nil => simp [report]
    | cons path rest =>
      obtain ⟨r, hr⟩ := htotal (endOf path)
      have hr' : sinkMatch g roles s (path.getLastD kNullNode) = some r := hr
      simp only [hr', bind, Option.bind]
      rw [Search.loop_popped, Option.map_map]
      -- Each branch of the body is one round of the worklist search.
      by_cases hsink : r ≠ kNullNode
      · have hstop : stops g roles s (endOf path) = true := by simp [stops, hr, hsink]
        have hemit : emit g roles spec s path =
            some (makeFlow roles spec s path r) := by simp [emit, hr, hsink]
        rw [if_pos hsink, ih, advance_stopped g roles s rest visited path hstop]
        apply congrArg (fun f => Option.map f _)
        funext popped
        exact (report_cons_some g roles spec s flows stats path popped _ hemit).symm
      · have hnull : r = kNullNode := not_not.mp hsink
        have hemit : emit g roles spec s path = none := by simp [emit, hr, hnull]
        rw [if_neg hsink]
        by_cases hsan : path.getLastD kNullNode ≠ s ∧
          (entryOf roles (path.getLastD kNullNode)).role = .sanitizer
        · have hstop : stops g roles s (endOf path) = true := by
            simp only [stops, decide_eq_true_eq]
            exact Or.inr hsan
          rw [if_pos hsan, ih, advance_stopped g roles s rest visited path hstop]
          apply congrArg (fun f => Option.map f _)
          funext popped
          exact (report_cons_none g roles spec s flows stats path popped hemit).symm
        · have hgo : stops g roles s (endOf path) = false := by
            simp only [stops, decide_eq_false_iff_not, not_or]
            exact ⟨by simp [hr, hnull], hsan⟩
          rw [if_neg hsan, ih, advance_open g roles s rest visited path hgo]
          apply congrArg (fun f => Option.map f _)
          funext popped
          exact (report_cons_none g roles spec s flows stats path popped hemit).symm

/-! ## Trails -/

/-- A path that the search may hold. -/
structure Trail (path : List NodeId) : Prop where
  head : path.head? = some s
  chain : path.IsChain g.Ddg
  open_ : ∀ n ∈ path.dropLast, stops g roles s n = false

theorem trail_start : Trail g roles s [s] := ⟨rfl, List.isChain_singleton s, by simp⟩

theorem mem_successors (path next : List NodeId) :
    next ∈ successors g roles s path ↔
      stops g roles s (endOf path) = false ∧ ∃ n, g.Ddg (endOf path) n ∧ next = path ++ [n] := by
  unfold successors
  by_cases h : stops g roles s (endOf path) = true
  · simp [h]
  · rw [if_neg h]
    simp only [List.mem_map, List.mem_filter, decide_eq_true_eq]
    constructor
    · rintro ⟨e, ⟨he, hk, hs⟩, rfl⟩
      exact ⟨by simpa using h, e.target, ⟨e, he, hk, hs, rfl⟩, rfl⟩
    · rintro ⟨-, n, ⟨e, he, hk, hs, rfl⟩, rfl⟩
      exact ⟨e, ⟨he, hk, hs⟩, rfl⟩

theorem trail_next (path next : List NodeId) (ht : Trail g roles s path)
    (h : next ∈ successors g roles s path) : Trail g roles s next := by
  obtain ⟨hgo, n, hddg, rfl⟩ := (mem_successors g roles s path next).mp h
  have hne : path ≠ [] := by
    rintro rfl
    cases ht.head
  have hend : path.getLast? = some (endOf path) := by
    rw [endOf, List.getLastD_eq_getLast?, List.getLast?_eq_some_getLast hne]
    rfl
  refine ⟨by rw [List.head?_append, ht.head]; rfl, ?_, ?_⟩
  · apply ht.chain.append (List.isChain_singleton n)
    intro a ha b hb
    rw [hend] at ha
    rw [← Option.some.inj ha, ← Option.some.inj hb]
    exact hddg
  -- The old end becomes an inner node, and it was open because the search went on from there.
  · rw [List.dropLast_concat]
    intro m hm
    rw [← List.dropLast_append_getLast hne, List.mem_append, List.mem_singleton] at hm
    rcases hm with hm | hm
    · exact ht.open_ m hm
    · have : endOf path = m := by
        rw [List.getLast?_eq_some_getLast hne] at hend
        rw [hm]
        exact (Option.some.inj hend).symm
      rw [← this]
      exact hgo

theorem trail_of_reaches (path : List NodeId) (h : Search.Reaches (successors g roles s) [s] path) :
    Trail g roles s path := by
  induction h with
  | refl => exact trail_start g roles s
  | tail _ hstep ih => exact trail_next g roles s _ _ ih hstep

/-! ## Flows and paths -/

theorem sinkMatch_total (hg : g.Forest) (n : NodeId) : ∃ r, sinkMatch g roles s n = some r := by
  obtain ⟨rank, hrank, hbound⟩ := g.exists_climb_rank hg
  obtain ⟨r, hr, -⟩ := Search.climb_spec g.up (ancestorTest roles) rank hrank (g.nodeCount + 1) n
    (Nat.lt_succ_of_le (hbound n))
  unfold sinkMatch
  split_ifs
  · exact ⟨_, rfl⟩
  · exact ⟨_, rfl⟩
  · exact ⟨_, by rw [hr]; rfl⟩

theorem stops_eq_false_iff (hg : g.Forest) (n : NodeId) (hnull : n ≠ kNullNode) :
    stops g roles s n = false ↔
      n = s ∨ ((entryOf roles n).role ≠ .sanitizer ∧ ∀ k, ¬ SinkFor g roles n k) := by
  unfold stops
  rw [decide_eq_false_iff_not, not_or]
  by_cases hn : n = s
  · simp [hn, sinkMatch]
  · obtain ⟨r, hr, hsink⟩ := sinkMatch_spec g roles hg s n hn hnull
    simp only [hr, Option.getD_some, hn, false_or, not_not, not_and, ne_eq, not_false_eq_true,
      true_implies]
    constructor
    · rintro ⟨hnone, hsan⟩
      exact ⟨hsan, fun k hk => ((hsink k).mp hk).1 hnone⟩
    · rintro ⟨hsan, hno⟩
      refine ⟨?_, hsan⟩
      by_contra hne
      exact hno r ((hsink r).mpr ⟨hne, rfl⟩)

theorem ddg_chain_ne_null (path : List NodeId) (hchain : path.IsChain g.Ddg)
    (hlen : 2 ≤ path.length) : ∀ n ∈ path, n ≠ kNullNode := by
  induction path with
  | nil => simp
  | cons a rest ih =>
    cases rest with
    | nil => simp at hlen
    | cons b rest =>
      obtain ⟨hab, htail⟩ := List.isChain_cons_cons.mp hchain
      obtain ⟨ha, hb⟩ := g.ddg_valid a b hab
      intro n hn
      rcases List.mem_cons.mp hn with rfl | hn
      · exact ha.1
      · cases rest with
        | nil =>
          rw [List.mem_singleton.mp hn]
          exact hb.1
        | cons c rest => exact ih htail (by simp) n hn

theorem trail_split (path : List NodeId) (ht : Trail g roles s path) (hend : endOf path ≠ s) :
    ∃ between, path = s :: between ++ [endOf path] := by
  cases path with
  | nil => cases ht.head
  | cons a rest =>
    obtain rfl : a = s := Option.some.inj ht.head
    cases rest using List.reverseRecOn with
    | nil => exact absurd rfl hend
    | append_singleton between last =>
      refine ⟨between, ?_⟩
      rw [← List.cons_append, endOf_snoc]

theorem parentChain_transGen (n k : NodeId) (between : List NodeId)
    (h : ParentChain g n (between ++ [k])) : Relation.TransGen g.Child k n := by
  induction between generalizing n with
  | nil => exact Relation.TransGen.single h.1
  | cons p rest ih => exact Relation.TransGen.tail (ih p h.2) h.1

theorem taintPath_of_trail (hg : g.Forest) (hs : (entryOf roles s).role = .source)
    (path : List NodeId) (k : NodeId) (ht : Trail g roles s path) (hend : endOf path ≠ s)
    (hk : SinkFor g roles (endOf path) k) : TaintPath g roles s k path := by
  obtain ⟨between, hpath⟩ := trail_split g roles s path ht hend
  refine ⟨between, endOf path, hpath, ht.chain, hend, hk, ?_⟩
  intro n hn
  have hmem : n ∈ path.dropLast := by
    rw [hpath, List.dropLast_concat]
    exact List.mem_cons_of_mem _ hn
  have hnull := ddg_chain_ne_null g path ht.chain (by rw [hpath]; simp) n
    (List.mem_of_mem_dropLast hmem)
  rcases (stops_eq_false_iff g roles s hg n hnull).mp (ht.open_ n hmem) with rfl | ⟨hsan, hno⟩
  · exact ⟨by rw [hs]; decide, Or.inl rfl⟩
  · exact ⟨hsan, Or.inr hno⟩

theorem chain_popped (all : List (List NodeId))
    (hclosed : ∀ t ∈ all, ∀ u ∈ successors g roles s t, ∃ v ∈ all, endOf v = endOf u) (a : NodeId)
    (rest : List NodeId) (hchain : (a :: rest).IsChain g.Ddg) (ha : ∃ t ∈ all, endOf t = a)
    (hopen : ∀ n ∈ (a :: rest).dropLast, stops g roles s n = false) :
    ∃ t ∈ all, endOf t = endOf (a :: rest) := by
  induction rest generalizing a with
  | nil => exact ha
  | cons b rest ih =>
    obtain ⟨hab, htail⟩ := List.isChain_cons_cons.mp hchain
    obtain ⟨t, ht, rfl⟩ := ha
    have hnext : t ++ [b] ∈ successors g roles s t :=
      (mem_successors g roles s t _).mpr ⟨hopen _ (by simp), b, hab, rfl⟩
    obtain ⟨v, hv, hvend⟩ := hclosed t ht _ hnext
    rw [endOf_snoc] at hvend
    obtain ⟨w, hw, hwend⟩ := ih b htail ⟨v, hv, hvend⟩ fun n hn => hopen n (by
      rw [List.dropLast_cons_cons]
      exact List.mem_cons_of_mem _ hn)
    exact ⟨w, hw, hwend⟩

theorem emit_eq_some (hg : g.Forest) (path : List NodeId) (f : TaintFlow)
    (h : emit g roles spec s path = some f) (hnull : endOf path ≠ s → endOf path ≠ kNullNode) :
    ∃ k, endOf path ≠ s ∧ SinkFor g roles (endOf path) k ∧ f = makeFlow roles spec s path k := by
  have hend : endOf path ≠ s := by
    intro heq
    simp [emit, heq, sinkMatch] at h
  obtain ⟨r, hr, hsink⟩ := sinkMatch_spec g roles hg s _ hend (hnull hend)
  simp only [emit, hr, Option.getD_some] at h
  split at h
  · rename_i hne
    exact ⟨r, hend, (hsink r).mpr ⟨hne, rfl⟩, (Option.some.inj h).symm⟩
  · cases h

theorem wellShaped_makeFlow (path : List NodeId) (k : NodeId) (ht : Trail g roles s path)
    (hk : SinkFor g roles (endOf path) k) : WellShaped g s (makeFlow roles spec s path k) := by
  have hne : path ≠ [] := by
    rintro rfl
    cases ht.head
  have hlast : path.getLast? = some (endOf path) := by
    rw [endOf, List.getLastD_eq_getLast?, List.getLast?_eq_some_getLast hne]
    rfl
  by_cases heq : endOf path = k
  · have hp : (makeFlow roles spec s path k).path = path := if_neg (not_not.mpr heq)
    exact ⟨rfl, by rw [hp]; exact ht.head, by rw [hp, hlast, heq]; rfl, path, ht.chain, Or.inl hp⟩
  · have hp : (makeFlow roles spec s path k).path = path ++ [k] := if_pos heq
    refine ⟨rfl, by rw [hp, List.head?_append, ht.head]; rfl, by rw [hp]; simp [makeFlow], path, ht.chain,
      Or.inr ⟨hp, endOf path, hlast, ?_⟩⟩
    rcases hk with ⟨-, h⟩ | ⟨-, -, between, hchain, -⟩
    · exact absurd h.symm heq
    · exact parentChain_transGen g _ _ between hchain

theorem stops_between (hg : g.Forest) (between : List NodeId) (last : NodeId)
    (hchain : (s :: (between ++ [last])).IsChain g.Ddg)
    (hbetween : ∀ n ∈ between, (entryOf roles n).role ≠ .sanitizer ∧
      (n = s ∨ ∀ k', ¬ SinkFor g roles n k')) :
    ∀ n ∈ (s :: (between ++ [last])).dropLast, stops g roles s n = false := by
  have hnull := ddg_chain_ne_null g _ hchain (by simp)
  intro n hn
  rw [← List.cons_append, List.dropLast_concat] at hn
  rcases List.mem_cons.mp hn with rfl | hn
  · simp [stops, sinkMatch]
  · obtain ⟨hsan, hor⟩ := hbetween n hn
    rw [stops_eq_false_iff g roles s hg n (hnull n (by simp [hn]))]
    rcases hor with h | h
    · exact Or.inl h
    · exact Or.inr ⟨hsan, h⟩

theorem bfsFromSource_spec (hg : g.Forest) (hs : (entryOf roles s).role = .source) (fuel : Nat)
    (hfuel : g.nodeCount + 2 < fuel) (flows : List TaintFlow) (stats : AnalysisStats) :
    ∃ new stats', bfsFromSource fuel g s roles spec flows stats = some (flows ++ new, stats') ∧
      (∀ k, (∃ f ∈ new, f.sinkNode = k) ↔ ∃ path, TaintPath g roles s k path) ∧
      ∀ f ∈ new, WellShaped g s f := by
  have hnodes : ∀ t, ∀ u ∈ successors g roles s t, endOf u ∈ List.range (g.nodeCount + 1) := by
    intro t u hu
    obtain ⟨-, n, hddg, rfl⟩ := (mem_successors g roles s t u).mp hu
    rw [endOf_snoc, List.mem_range]
    exact Nat.lt_succ_of_le (g.ddg_valid _ n hddg).2.2
  obtain ⟨all, hall, hreach, hstart, hclosed⟩ := Search.search_spec endOf (successors g roles s)
    (List.range (g.nodeCount + 1)) hnodes [s] fuel (by rw [List.length_range]; omega)
  have htrail : ∀ t ∈ all, Trail g roles s t :=
    fun t ht => trail_of_reaches g roles s t (hreach t ht)
  have hnull : ∀ t ∈ all, endOf t ≠ s → endOf t ≠ kNullNode := by
    intro t ht hend
    obtain ⟨between, hpath⟩ := trail_split g roles s t (htrail t ht) hend
    exact ddg_chain_ne_null g t (htrail t ht).chain (by rw [hpath]; simp) _ (by
      rw [hpath, endOf_snoc]
      simp)
  have hemitted : ∀ f ∈ all.filterMap (emit g roles spec s), ∃ t ∈ all, ∃ k, endOf t ≠ s ∧
      SinkFor g roles (endOf t) k ∧ f = makeFlow roles spec s t k := by
    intro f hf
    obtain ⟨t, ht, hemit⟩ := List.mem_filterMap.mp hf
    obtain ⟨k, hk⟩ := emit_eq_some g roles spec s hg t f hemit (hnull t ht)
    exact ⟨t, ht, k, hk⟩
  refine ⟨all.filterMap (emit g roles spec s), (report g roles spec s flows stats all).2, ?_, ?_,
    ?_⟩
  · unfold bfsFromSource
    rw [bfsLoop_eq g roles spec s (sinkMatch_total g roles s hg)]
    have hstate : ({ frontier := [[s]], visited := [s] } : Search.Work (List NodeId) NodeId) =
        { frontier := [[s]], visited := [endOf [s]] } := rfl
    rw [hstate, hall]
    rfl
  · intro k
    constructor
    · rintro ⟨f, hf, rfl⟩
      obtain ⟨t, ht, k, hend, hk, rfl⟩ := hemitted f hf
      exact ⟨t, taintPath_of_trail g roles s hg hs t k (htrail t ht) hend hk⟩
    · rintro ⟨path, between, last, rfl, hchain, hne, hk, hbetween⟩
      have hpnull := ddg_chain_ne_null g _ hchain (by simp)
      have hopen := stops_between g roles s hg between last hchain hbetween
      -- The search may have come to the last node on another path, with the same sink.
      obtain ⟨t, ht, hend⟩ :=
        chain_popped g roles s all hclosed s (between ++ [last]) hchain hstart hopen
      rw [← List.cons_append, endOf_snoc] at hend
      obtain ⟨r, hr, hsink⟩ := sinkMatch_spec g roles hg s last hne (hpnull last (by simp))
      obtain ⟨hrne, rfl⟩ := (hsink k).mp hk
      refine ⟨makeFlow roles spec s t r, List.mem_filterMap.mpr ⟨t, ht, ?_⟩, rfl⟩
      simp only [emit, hend, hr, Option.getD_some]
      rw [if_pos hrne]
  · intro f hf
    obtain ⟨t, ht, k, -, hk, rfl⟩ := hemitted f hf
    exact wellShaped_makeFlow g roles spec s t k (htrail t ht) hk

end Bfs

/-! ## The table of roles -/

section Table

variable (spec : TaintSpec) (language : Parse.Language) (text : Node → Bytes)

theorem entryOf_set (roles : List ClassificationEntry) (id k : NodeId) (entry : ClassificationEntry)
    (hk : k < roles.length) : entryOf (roles.set id entry) k = if id = k then entry
      else entryOf roles k := by
  unfold entryOf
  rw [List.getElem?_set]
  split
  · rename_i h
    rw [if_pos (by rw [h]; exact hk)]
    rfl
  · rfl

theorem foldl_roles (nodes : List Node) (hnodup : (nodes.map (·.id)).Nodup)
    (roles : List ClassificationEntry) (stats : AnalysisStats) (k : NodeId)
    (hk : k < roles.length) :
    entryOf (nodes.foldl (fun (roles, stats) node =>
      (roles.set node.id (classify spec language (text node)),
        countRole stats (classify spec language (text node)).role)) (roles, stats)).1 k =
      match nodes.find? (·.id = k) with
      | some n => classify spec language (text n)
      | none => entryOf roles k := by
  induction nodes generalizing roles stats with
  | nil => rfl
  | cons n rest ih =>
    rw [List.map_cons, List.nodup_cons] at hnodup
    rw [List.foldl_cons, ih hnodup.2 _ _ (by rw [List.length_set]; exact hk),
      entryOf_set _ _ _ _ hk]
    by_cases hn : n.id = k
    · have hnone : rest.find? (·.id = k) = none := by
        rw [List.find?_eq_none]
        intro m hm hmk
        simp only [decide_eq_true_eq] at hmk
        exact hnodup.1 (List.mem_map.mpr ⟨m, hm, hmk.trans hn.symm⟩)
      rw [hnone, List.find?_cons_of_pos (by simpa using hn), if_pos hn]
    · rw [List.find?_cons_of_neg (by simpa using hn), if_neg hn]

theorem foldl_roles_length (nodes : List Node) (roles : List ClassificationEntry)
    (stats : AnalysisStats) :
    (nodes.foldl (fun (roles, stats) node =>
      (roles.set node.id (classify spec language (text node)),
        countRole stats (classify spec language (text node)).role)) (roles, stats)).1.length =
          roles.length := by
  induction nodes generalizing roles stats with
  | nil => rfl
  | cons n rest ih => rw [List.foldl_cons, ih, List.length_set]

end Table

theorem ids_nodup (g : Graph) : (g.nodes.map (·.id)).Nodup := by
  rw [List.nodup_iff_injective_getElem]
  rintro ⟨i, hi⟩ ⟨j, hj⟩ h
  rw [List.length_map] at hi hj
  simp only [List.getElem_map, g.dense i hi, g.dense j hj] at h
  ext
  exact Nat.succ.inj h

theorem find_id (g : Graph) (k : NodeId) : g.nodes.find? (·.id = k) = g.get k := by
  have hfound : ∀ n, g.nodes.find? (·.id = k) = some n → g.get k = some n := by
    intro n hn
    exact g.get_eq_some_iff.mpr ⟨List.mem_of_find?_eq_some hn, by simpa using List.find?_some hn⟩
  cases hfind : g.nodes.find? (·.id = k) with
  | some n => exact (hfound n hfind).symm
  | none =>
    rw [List.find?_eq_none] at hfind
    cases hget : g.get k with
    | none => rfl
    | some n =>
      obtain ⟨hmem, hid⟩ := g.get_eq_some_iff.mp hget
      exact absurd hid (by simpa using hfind n hmem)

theorem entryOf_classifyAll (g : Graph) (ast : Parse.Ast) (spec : TaintSpec) (stats : AnalysisStats)
    (k : NodeId) :
    entryOf (classifyAll g ast spec stats).1 k =
      match g.get k with
      | some n => classify spec ast.language (ast.nodeText n.range)
      | none => {} := by
  unfold classifyAll
  by_cases hk : k < g.nodeCount + 1
  · rw [foldl_roles spec ast.language (fun n => ast.nodeText n.range) g.nodes (ids_nodup g) _ stats
      k
      (by rw [List.length_replicate]; exact hk), find_id]
    cases g.get k with
    | some n => rfl
    | none =>
      simp only [entryOf, List.getElem?_replicate, if_pos hk]
      rfl
  · have hget : g.get k = none := by
      cases h : g.get k with
      | none => rfl
      | some n => exact absurd (Nat.lt_succ_of_le (g.valid_of_get k n h).2) hk
    rw [hget]
    unfold entryOf
    rw [List.getElem?_eq_none]
    · rfl
    · rw [foldl_roles_length spec ast.language (fun n => ast.nodeText n.range),
        List.length_replicate]
      exact Nat.le_of_not_lt hk

/-! ## The whole analysis -/

section Analysis

variable (g : Graph) (ast : Parse.Ast) (spec : TaintSpec)

/-- The pairs of a source and a sink between which a taint path runs. -/
def Tainted (s k : NodeId) : Prop :=
  (entryOf (classifyAll g ast spec {}).1 s).role = .source ∧
    ∃ path, TaintPath g (classifyAll g ast spec {}).1 s k path

theorem valid_of_role (k : NodeId) (h : (entryOf (classifyAll g ast spec {}).1 k).role ≠ .none) :
    ∃ n, g.get k = some n := by
  rw [entryOf_classifyAll] at h
  cases hget : g.get k with
  | some n => exact ⟨n, rfl⟩
  | none =>
    rw [hget] at h
    exact absurd rfl h

theorem sinkFor_role (roles : List ClassificationEntry) (n k : NodeId) (h : SinkFor g roles n k) :
    (entryOf roles k).role = .sink := by
  rcases h with ⟨h, rfl⟩ | ⟨-, h, -⟩ <;> exact h

theorem tainted_ends (s k : NodeId) (h : Tainted g ast spec s k) :
    (∃ n, g.get s = some n) ∧ ∃ n, g.get k = some n := by
  obtain ⟨hs, path, between, last, -, -, -, hk, -⟩ := h
  constructor
  · apply valid_of_role g ast spec
    rw [hs]
    decide
  · apply valid_of_role g ast spec
    rw [sinkFor_role g _ last k hk]
    decide

theorem foldlM_sources (hg : g.Forest) (fuel : Nat) (hfuel : g.nodeCount + 2 < fuel)
    (nodes : List Node) (flows : List TaintFlow) (stats : AnalysisStats) :
    ∃ out, nodes.foldlM (fun (flows, stats) node =>
        if (entryOf (classifyAll g ast spec {}).1 node.id).role ≠ .source then some (flows, stats)
        else bfsFromSource fuel g node.id (classifyAll g ast spec {}).1 spec flows stats) (flows,
          stats) = some out ∧
      ∀ s k, (∃ f ∈ out.1, f.sourceNode = s ∧ f.sinkNode = k) ↔
        (∃ f ∈ flows, f.sourceNode = s ∧ f.sinkNode = k) ∨ s ∈ nodes.map (·.id) ∧
        Tainted g ast spec s k := by
  induction nodes generalizing flows stats with
  | nil => exact ⟨_, rfl, by simp⟩
  | cons n rest ih =>
    rw [List.foldlM_cons]
    by_cases hrole : (entryOf (classifyAll g ast spec {}).1 n.id).role = .source
    -- A flow of this source only says where it ends, as the shape says where it starts.
    · obtain ⟨new, stats', hnew, hpaths, hshape⟩ :=
        bfsFromSource_spec g _ spec n.id hg hrole fuel hfuel flows stats
      obtain ⟨out, hout, hflows⟩ := ih (flows ++ new) stats'
      refine ⟨out, by simp only [hrole, ne_eq, not_true_eq_false, if_false, hnew]; exact hout, ?_⟩
      intro s k
      rw [hflows]
      constructor
      · rintro (⟨f, hf, rfl, rfl⟩ | ⟨hs, ht⟩)
        · rcases List.mem_append.mp hf with hf | hf
          · exact Or.inl ⟨f, hf, rfl, rfl⟩
          · have hsrc := (hshape f hf).1
            refine Or.inr ⟨by simp [hsrc], ?_⟩
            rw [hsrc]
            exact ⟨hrole, (hpaths _).mp ⟨f, hf, rfl⟩⟩
        · exact Or.inr ⟨List.mem_cons_of_mem _ hs, ht⟩
      · rintro (⟨f, hf, rfl, rfl⟩ | ⟨hs, ht⟩)
        · exact Or.inl ⟨f, List.mem_append_left _ hf, rfl, rfl⟩
        · rw [List.map_cons, List.mem_cons] at hs
          rcases hs with rfl | hs
          · obtain ⟨f, hf, rfl⟩ := (hpaths k).mpr ht.2
            exact Or.inl ⟨f, List.mem_append_right _ hf, (hshape f hf).1, rfl⟩
          · exact Or.inr ⟨hs, ht⟩
    · obtain ⟨out, hout, hflows⟩ := ih flows stats
      refine ⟨out, by simp only [ne_eq, hrole, not_false_eq_true, if_true]; exact hout, ?_⟩
      intro s k
      rw [hflows, List.map_cons, List.mem_cons]
      constructor
      · rintro (h | ⟨hs, ht⟩)
        · exact Or.inl h
        · exact Or.inr ⟨Or.inr hs, ht⟩
      · rintro (h | ⟨rfl | hs, ht⟩)
        · exact Or.inl h
        · exact absurd ht.1 hrole
        · exact Or.inr ⟨hs, ht⟩

theorem analyze_spec (hg : g.Forest) (fuel : Nat) (hfuel : g.nodeCount + 2 < fuel) :
    ∃ result, analyze fuel g ast spec = some result ∧
      ∀ s k, (∃ f ∈ result.flows, f.sourceNode = s ∧ f.sinkNode = k) ↔ Tainted g ast spec s k := by
  have hmem : ∀ s n, g.get s = some n → s ∈ g.nodes.map (·.id) := by
    intro s n h
    rw [← find_id] at h
    have hs := List.find?_some h
    simp only [decide_eq_true_eq] at hs
    exact List.mem_map.mpr ⟨n, List.mem_of_find?_eq_some h, hs⟩
  unfold analyze
  split
  -- The code returns early on an empty graph; nothing is tainted there.
  · rename_i h0
    refine ⟨{}, rfl, ?_⟩
    intro s k
    constructor
    · rintro ⟨f, hf, -⟩
      cases hf
    · intro ht
      obtain ⟨⟨n, hn⟩, -⟩ := tainted_ends g ast spec s k ht
      have := hmem s n hn
      rw [List.eq_nil_of_length_eq_zero h0] at this
      cases this
  · obtain ⟨out, hout, hflows⟩ :=
      foldlM_sources g ast spec hg fuel hfuel g.nodes [] (classifyAll g ast spec {}).2
    refine ⟨{ flows := out.1, stats := out.2 }, by simp only [hout]; rfl, ?_⟩
    intro s k
    rw [hflows]
    constructor
    · rintro (⟨f, hf, -⟩ | ⟨-, ht⟩)
      · cases hf
      · exact ht
    · intro ht
      obtain ⟨⟨n, hn⟩, -⟩ := tainted_ends g ast spec s k ht
      exact Or.inr ⟨hmem s n hn, ht⟩

theorem flowsToFindings_eq_nil (filePath : Bytes) (result : AnalysisResult)
    (h : ∀ s k, (∃ f ∈ result.flows, f.sourceNode = s ∧ f.sinkNode = k) ↔ Tainted g ast spec s k) :
    flowsToFindings result g filePath = [] ↔ ∀ s k, ¬ Tainted g ast spec s k := by
  unfold flowsToFindings
  rw [List.filterMap_eq_nil_iff]
  constructor
  · intro hnone s k ht
    obtain ⟨f, hf, rfl, rfl⟩ := (h s k).mpr ht
    obtain ⟨⟨n, hn⟩, m, hm⟩ := tainted_ends g ast spec _ _ ht
    have := hnone f hf
    simp [flowToFinding, hn, hm] at this
  · intro hnone f hf
    exact absurd ((h _ _).mp ⟨f, hf, rfl, rfl⟩) (hnone _ _)

theorem flowToFinding_source (filePath : Bytes) (flow : TaintFlow) (f : Security.Finding)
    (h : flowToFinding g filePath flow = some f) : f.source = .llmInferred := by
  unfold flowToFinding at h
  cases hsink : g.get flow.sinkNode with
  | none => simp [hsink] at h
  | some sink =>
    cases hsource : g.get flow.sourceNode with
    | none => simp [hsink, hsource] at h
    | some source =>
      simp only [hsink, hsource, Option.bind_eq_bind, Option.bind_some] at h
      rw [← Option.some.inj h]

theorem not_tainted_of_no_text (htext : ∀ n ∈ g.nodes, ast.nodeText n.range = []) (s k : NodeId) :
    ¬ Tainted g ast spec s k := by
  rintro ⟨hs, -⟩
  obtain ⟨n, hn⟩ := valid_of_role g ast spec s (by rw [hs]; decide)
  rw [entryOf_classifyAll, hn] at hs
  rw [← find_id] at hn
  simp [classify, htext n (List.mem_of_find?_eq_some hn)] at hs

end Analysis

/-- **The taint search.** From a source it ends on every graph, cyclic or not, reports exactly the
sinks of the path-based definition, and gives each flow a path of the right shape. -/
theorem taint_flows_iff_paths (g : Graph) (hg : g.Forest) (ast : Parse.Ast) (spec : TaintSpec)
    (stats₀ stats : AnalysisStats) (flows : List TaintFlow) (s : NodeId)
    (hs : (entryOf (classifyAll g ast spec stats₀).1 s).role = .source) (fuel : Nat)
    (hfuel : g.nodeCount + 2 < fuel) :
    ∃ new stats', bfsFromSource fuel g s (classifyAll g ast spec stats₀).1 spec flows stats =
        some (flows ++ new, stats') ∧
      (∀ k, (∃ f ∈ new, f.sinkNode = k) ↔
        ∃ path, TaintPath g (classifyAll g ast spec stats₀).1 s k path) ∧
      ∀ f ∈ new, WellShaped g s f :=
  bfsFromSource_spec g _ spec s hg hs fuel hfuel flows stats

/-! A call `run(a)` after the assignment `a=in`, with data dependences both ways between the
assignment and the argument of the call. -/

def loopAst : Parse.Ast := { language := .c, source := ascii "a=in;run(a)", namedNodes := [] }

def loopRange (startByte endByte : Nat) : Parse.SourceRange :=
  { startRow := 0, startColumn := startByte, endRow := 0, endColumn := endByte, startByte, endByte }

def loopNode (id : NodeId) (kind : NodeKind) (startByte endByte : Nat) : Node :=
  { id, kind, rawKind := [], name := [], range := loopRange startByte endByte, language := .c }

def loopGraph : Graph where
  nodes := [loopNode 1 .translationUnit 0 11, loopNode 2 .assignment 0 4, loopNode 3 .call 5 11,
    loopNode 4 .identifier 9 10]
  edges := [⟨1, 2, .astChild⟩, ⟨1, 3, .astChild⟩, ⟨3, 4, .astChild⟩, ⟨2, 4, .ddg⟩, ⟨4, 2, .ddg⟩]
  dense := by decide
  ends := by decide

def loopSpec : TaintSpec :=
  { name := ascii "loop",
    sources := [{ id := ascii "in", languages := [], pattern := ascii "in" }],
    sinks :=
      [{ id := ascii "run", languages := [], pattern := ascii "run", cwe := none, owasp := none,
         severity := .high }],
    sanitizers := [] }

theorem loopGraph_forest : loopGraph.Forest := by
  apply Graph.forest_of_increasing
  · rintro p q c ⟨e, he, hk, rfl, rfl⟩ ⟨e', he', hk', rfl, ht⟩
    revert e e'
    decide
  · rintro p c ⟨e, he, hk, rfl, rfl⟩
    revert e
    decide

theorem taint_flow_on_cycle :
    ∃ new stats', bfsFromSource 7 loopGraph 2 (classifyAll loopGraph loopAst loopSpec {}).1
      loopSpec [] {} = some ([] ++ new, stats') ∧
      (∀ k, (∃ f ∈ new, f.sinkNode = k) ↔
        ∃ path, TaintPath loopGraph (classifyAll loopGraph loopAst loopSpec {}).1 2 k path) ∧
      ∀ f ∈ new, WellShaped loopGraph 2 f :=
  taint_flows_iff_paths loopGraph loopGraph_forest loopAst loopSpec {} {} [] 2 (by decide)
    7 (by decide)

example : (bfsFromSource 7 loopGraph 2 (classifyAll loopGraph loopAst loopSpec {}).1
    loopSpec [] {}).map
    (fun r => r.1.map (·.path)) = some [[2, 4, 3]] := by
  decide

end Euxis.Taint
