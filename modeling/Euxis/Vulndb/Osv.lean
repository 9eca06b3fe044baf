import Euxis.Json.Value
import Euxis.Outcome
import Mathlib.Order.Lattice

/-!
# OSV records: `libs/vulndb/src/osv_client.cpp`

The parser of a response of osv.dev. Scores are floating-point numbers, and how they compare is a
parameter.
-/

namespace Euxis.Vulndb

/-! ## Records -/

inductive Severity where
  | unknown
  | low
  | medium
  | high
  | critical
  deriving DecidableEq, Repr

structure OsvVuln where
  id : Bytes
  aliases : List Bytes
  summary : Bytes
  details : Bytes
  fixedIn : Bytes
  vulnerableRange : Bytes
  severity : Severity
  cvssScore : Number
  references : List Bytes
  raw : Json

inductive ErrorKind where
  | networkFailure
  | upstreamStatus
  | invalidResponse
  | invalidPackage
  | offlineDumpUnreadable
  | timeout
  deriving DecidableEq, Repr

structure Error where
  kind : ErrorKind
  message : Bytes
  deriving DecidableEq, Repr

/-- The comparisons of a `double` that the code makes. -/
structure Doubles where
  positive : Number → Bool
  below : Number → Nat → Bool

def severityFromCvss (d : Doubles) (score : Number) : Severity :=
  if ¬ d.positive score then .unknown
  else if d.below score 4 then .low
  else if d.below score 7 then .medium
  else if d.below score 9 then .high
  else .critical

/-! ## Ranges -/

/-- `j.contains(key) && j[key].is_array()`, and the elements. -/
def elementsAt (j : Json) (key : Bytes) : List Json :=
  match j.find key with
  | some (.arr items) => items
  | _ => []

structure Bounds where
  lower : Bytes := []
  upper : Bytes := []
  fixedIn : Bytes

def addEvent (b : Bounds) (ev : Json) : Bounds :=
  let b :=
    match ev.findStr (ascii "introduced") with
    | some version => { b with lower := version }
    | none => b
  match ev.findStr (ascii "fixed") with
  | some version => { b with upper := version, fixedIn := version }
  | none => b

def rangeText (lower upper : Bytes) : Bytes :=
  let range := if lower ≠ [] then ascii ">=" ++ lower else []
  if upper ≠ [] then (if range ≠ [] then range ++ ascii ", " else range) ++ ascii "<" ++ upper
  else range

structure Affected where
  fixedIn : Bytes := []
  vulnerableRange : Bytes := []

def addRange (a : Affected) (r : Json) : Affected :=
  match r.find (ascii "events") with
  | some (.arr events) =>
    let b := events.foldl addEvent { fixedIn := a.fixedIn }
    { fixedIn := b.fixedIn
      vulnerableRange := if b.lower ≠ [] ∨ b.upper ≠ [] then rangeText b.lower b.upper
        else a.vulnerableRange }
  | _ => a

def affectedOf (v : Json) : Affected :=
  (elementsAt v (ascii "affected")).foldl
    (fun a aff => (elementsAt aff (ascii "ranges")).foldl addRange a) {}

/-! ## The response -/

/-- The number of the first `CVSS_V3` score. -/
def cvssOf : List Json → Except JsonError Number
  | [] => .ok (.int 0)
  | sev :: rest => do
    let sys ← sev.valueStr (ascii "type") []
    if sys = ascii "CVSS_V3" then
      match sev.find (ascii "score") with
      | some (.int i) => return .int i
      | some (.float text) => return .float text
      | _ => return .int 0
    else cvssOf rest

def parseVuln (d : Doubles) (v : Json) : Except JsonError OsvVuln := do
  let id ← v.valueStr (ascii "id") []
  let summary ← v.valueStr (ascii "summary") []
  let details ← v.valueStr (ascii "details") []
  let cvssScore ← cvssOf (elementsAt v (ascii "severity"))
  return {
    id, summary, details, cvssScore
    aliases := (elementsAt v (ascii "aliases")).filterMap fun a => a.getStr.toOption
    fixedIn := (affectedOf v).fixedIn
    vulnerableRange := (affectedOf v).vulnerableRange
    severity := severityFromCvss d cvssScore
    references := (elementsAt v (ascii "references")).filterMap (·.findStr (ascii "url"))
    raw := v }

/-- A list of records, an error of its own, or what the library throws. -/
def parseResponse (codec : JsonCodec) (d : Doubles) (body : Bytes) :
    Except JsonError (Except Error (List OsvVuln)) :=
  match codec.parse body with
  | none =>
    .ok (.error { kind := .invalidResponse, message := ascii "OSV response was not valid JSON" })
  | some (.obj members) => do
    let vulns ← (elementsAt (.obj members) (ascii "vulns")).mapM (parseVuln d)
    return .ok vulns
  | some _ =>
    .ok (.error { kind := .invalidResponse, message := ascii "OSV response was not a JSON object" })

/-! ## What the events describe -/

/-- An event, as far as its fields are strings. -/
structure Event where
  introduced : Option Bytes
  fixed : Option Bytes

def readEvent (ev : Json) : Event :=
  { introduced := ev.findStr (ascii "introduced"), fixed := ev.findStr (ascii "fixed") }

def eventsOf (r : Json) : Option (List Event) :=
  match r.find (ascii "events") with
  | some (.arr events) => some (events.map readEvent)
  | _ => none

/-- The ranges of all affected packages, in the order of the document. -/
def rangesOf (v : Json) : List (List Event) :=
  ((elementsAt v (ascii "affected")).flatMap fun aff => elementsAt aff (ascii "ranges")).filterMap
    eventsOf

def fixes (events : List Event) : List Bytes := events.filterMap (·.fixed)

def introductions (events : List Event) : List Bytes := events.filterMap (·.introduced)

/-- Each version that is introduced, with the version of the next fix. -/
def intervals : List Event → List (Bytes × Bytes)
  | [] => []
  | e :: rest =>
    match e.introduced, (fixes (e :: rest)).head? with
    | some introduced, some fixed => (introduced, fixed) :: intervals rest
    | _, _ => intervals rest

section Meaning

variable {V : Type} [LinearOrder V] (version : Bytes → V)

/-- A constraint of a range text. -/
def Meets (constraint : Bytes) (x : V) : Prop :=
  match constraint with
  | a :: b :: bound =>
    if a = ch '>' ∧ b = ch '=' then version bound ≤ x
    else if a = ch '<' then x < version (b :: bound)
    else False
  | _ => False

/-- The versions of a range text: they meet each constraint of a non-empty list. -/
def Covers (range : Bytes) (x : V) : Prop :=
  ∀ constraint ∈ range.splitOn (ch ','), Meets version (constraint.dropWhile (· = ch ' ')) x

/-- Nothing of the ranges is lost. -/
structure Kept (ranges : List (List Event)) (fixedIn vulnerableRange : Bytes) : Prop where
  firstFix : fixedIn = ((ranges.flatMap fixes).head?).getD []
  covered : ∀ events ∈ ranges, ∀ i ∈ intervals events, ∀ x : V, version i.1 ≤ x → x < version i.2 →
    Covers version vulnerableRange x

/-- Version strings are not empty and have no comma. -/
def VersionText (s : Bytes) : Prop := s ≠ [] ∧ ch ',' ∉ s

def WellFormed (ranges : List (List Event)) : Prop :=
  ∀ events ∈ ranges, ∀ e ∈ events, (∀ s ∈ e.introduced, VersionText s) ∧ ∀ s ∈ e.fixed,
    VersionText s

/-- The last introduction and the last fix of a range. -/
def lastBounds (events : List Event) : Option Bytes × Option Bytes :=
  ((introductions events).getLast?, (fixes events).getLast?)

/-- The same of the last range that has an introduction or a fix. -/
def outerBounds (ranges : List (List Event)) : Option (Option Bytes × Option Bytes) :=
  ((ranges.map lastBounds).filter fun b => b ≠ (none, none)).getLast?

/-- The first and the last fix are the same, and every interval lies between the last events of the
last range. -/
structure Holds (ranges : List (List Event)) : Prop where
  fix : (ranges.flatMap fixes).head? = (ranges.flatMap fixes).getLast?
  inside : ∀ events ∈ ranges, ∀ i ∈ intervals events, version i.1 < version i.2 →
    ∀ b ∈ outerBounds ranges, (∀ lower ∈ b.1, version lower ≤ version i.1) ∧ ∀ upper ∈ b.2,
      version i.2 ≤ version upper

end Meaning

/-! ## What the loops keep -/

theorem foldl_addEvent (events : List Json) (b : Bounds) :
    events.foldl addEvent b =
      { lower := ((introductions (events.map readEvent)).getLast?).getD b.lower
        upper := ((fixes (events.map readEvent)).getLast?).getD b.upper
        fixedIn := ((fixes (events.map readEvent)).getLast?).getD b.fixedIn } := by
  induction events generalizing b with
  | nil => rfl
  | cons ev rest ih =>
    rw [List.foldl_cons, ih]
    unfold addEvent introductions fixes
    simp only [List.map_cons, List.filterMap_cons, readEvent]
    cases ev.findStr (ascii "introduced") <;> cases ev.findStr (ascii "fixed") <;>
      simp [List.getLast?_cons]

def addEvents (a : Affected) (events : List Event) : Affected :=
  let lower := (lastBounds events).1.getD []
  let upper := (lastBounds events).2.getD []
  { fixedIn := ((fixes events).getLast?).getD a.fixedIn
    vulnerableRange := if lower ≠ [] ∨ upper ≠ [] then rangeText lower upper
      else a.vulnerableRange }

theorem addRange_eq (a : Affected) (r : Json) :
    addRange a r = ((eventsOf r).map (addEvents a)).getD a := by
  unfold addRange eventsOf
  split
  · rw [foldl_addEvent]
    rfl
  · rfl

theorem affectedOf_eq (v : Json) : affectedOf v = (rangesOf v).foldl addEvents {} := by
  unfold affectedOf rangesOf
  rw [List.foldl_filterMap, List.foldl_flatMap]
  congr 1
  funext a aff
  congr 1
  funext a r
  rw [addRange_eq]
  cases eventsOf r <;> rfl

theorem lastBounds_text (events : List Event)
    (hwf : ∀ e ∈ events, (∀ s ∈ e.introduced, VersionText s) ∧ ∀ s ∈ e.fixed, VersionText s) :
    (∀ s ∈ (lastBounds events).1, VersionText s) ∧ ∀ s ∈ (lastBounds events).2, VersionText s := by
  constructor
  · intro s hs
    obtain ⟨e, he, hes⟩ := List.mem_filterMap.mp (List.mem_of_getLast? hs)
    exact (hwf e he).1 s hes
  · intro s hs
    obtain ⟨e, he, hes⟩ := List.mem_filterMap.mp (List.mem_of_getLast? hs)
    exact (hwf e he).2 s hes

theorem bounds_empty_iff (b : Option Bytes × Option Bytes) (h1 : ∀ s ∈ b.1, VersionText s)
    (h2 : ∀ s ∈ b.2, VersionText s) : (b.1.getD [] ≠ [] ∨ b.2.getD [] ≠ []) ↔ b ≠ (none, none) := by
  obtain ⟨lower, upper⟩ := b
  cases lower with
  | some s => simp [(h1 s rfl).1]
  | none =>
    cases upper with
    | some s => simp [(h2 s rfl).1]
    | none => simp

theorem foldl_addEvents (ranges : List (List Event)) (hwf : WellFormed ranges) (a : Affected) :
    ranges.foldl addEvents a =
      { fixedIn := ((ranges.flatMap fixes).getLast?).getD a.fixedIn
        vulnerableRange := ((outerBounds ranges).map fun b =>
          rangeText (b.1.getD []) (b.2.getD [])).getD a.vulnerableRange } := by
  induction ranges generalizing a with
  | nil => rfl
  | cons events rest ih =>
    have hbounds := lastBounds_text events (hwf events List.mem_cons_self)
    have hempty := bounds_empty_iff (lastBounds events) hbounds.1 hbounds.2
    rw [List.foldl_cons, ih fun later hlater => hwf later (List.mem_cons_of_mem _ hlater)]
    have hfix : ((events :: rest).flatMap fixes).getLast? =
        ((rest.flatMap fixes).getLast?).or (fixes events).getLast? := by
      rw [List.flatMap_cons, List.getLast?_append]
    -- Later ranges win, and a range without bounds is passed over.
    have houter : outerBounds (events :: rest) =
        (outerBounds rest).or (if lastBounds events ≠ (none, none) then some (lastBounds events)
          else none) := by
      unfold outerBounds
      rw [List.map_cons, List.filter_cons]
      by_cases hb : lastBounds events = (none, none)
      · simp [hb]
      · simp [hb, List.getLast?_cons]
    rw [hfix, houter]
    unfold addEvents
    simp only [Affected.mk.injEq]
    constructor
    · cases (rest.flatMap fixes).getLast? <;> rfl
    · cases outerBounds rest with
      | some b => rfl
      | none =>
        simp only [Option.map_none, Option.getD_none, Option.none_or]
        by_cases hb : lastBounds events ≠ (none, none)
        · rw [if_pos (hempty.mpr hb), if_pos hb]
          rfl
        · rw [if_neg (mt hempty.mp hb), if_neg hb]
          rfl

/-! ## What a range text covers -/

section Meaning

variable {V : Type} [LinearOrder V] (version : Bytes → V)

theorem meets_lower (s : Bytes) (x : V) :
    Meets version ((ascii ">=" ++ s).dropWhile (· = ch ' ')) x ↔ version s ≤ x := Iff.rfl

theorem meets_upper (s : Bytes) (hs : s ≠ []) (x : V) :
    Meets version ((ascii "<" ++ s).dropWhile (· = ch ' ')) x ↔ x < version s := by
  cases s with
  | nil => exact absurd rfl hs
  | cons b rest => exact Iff.rfl

theorem splitOn_one (s : Bytes) (h : ch ',' ∉ s) : s.splitOn (ch ',') = [s] := by
  have := Bytes.splitOn_join (ch ',') [s] (by simpa using h) (by simp)
  simpa [Bytes.join] using this

theorem splitOn_two (s t : Bytes) (hs : ch ',' ∉ s) (ht : ch ',' ∉ t) :
    (s ++ ch ',' :: t).splitOn (ch ',') = [s, t] := by
  have := Bytes.splitOn_join (ch ',') [s, t] (by simp [hs, ht]) (by simp)
  simpa [Bytes.join] using this

theorem covers_rangeText (b : Option Bytes × Option Bytes) (hb : b ≠ (none, none))
    (h1 : ∀ s ∈ b.1, VersionText s) (h2 : ∀ s ∈ b.2, VersionText s) (x : V) :
    Covers version (rangeText (b.1.getD []) (b.2.getD [])) x ↔
      (∀ lower ∈ b.1, version lower ≤ x) ∧ ∀ upper ∈ b.2, x < version upper := by
  obtain ⟨lower, upper⟩ := b
  unfold Covers
  -- No comma inside a bound, so the text splits where the writer joined it.
  have hnot : ∀ (op s : Bytes), ch ',' ∉ op → ch ',' ∉ s → ch ',' ∉ op ++ s := by
    intro op s hop hs
    rw [List.mem_append, not_or]
    exact ⟨hop, hs⟩
  cases lower with
  | none =>
    cases upper with
    | none => exact absurd rfl hb
    | some u =>
      have hu := h2 u rfl
      have htext : rangeText ((none : Option Bytes).getD []) ((some u).getD []) =
          ascii "<" ++ u := by
        simp [rangeText, hu.1]
      rw [htext, splitOn_one _ (hnot _ u (by decide) hu.2)]
      simpa using meets_upper version u hu.1 x
  | some l =>
    have hl := h1 l rfl
    have hge : ascii ">=" ++ l ≠ [] := by simp [ascii]
    cases upper with
    | none =>
      have htext : rangeText ((some l).getD []) ((none : Option Bytes).getD []) =
          ascii ">=" ++ l := by
        simp [rangeText, hl.1]
      rw [htext, splitOn_one _ (hnot _ l (by decide) hl.2)]
      simpa using meets_lower version l x
    | some u =>
      have hu := h2 u rfl
      have htext : rangeText ((some l).getD []) ((some u).getD []) =
          (ascii ">=" ++ l) ++ ch ',' :: (ascii " <" ++ u) := by
        simp [rangeText, hl.1, hu.1, ascii]
      rw [htext, splitOn_two _ _ (hnot _ l (by decide) hl.2) (hnot _ u (by decide) hu.2)]
      have hblank : (ascii " <" ++ u).dropWhile (· = ch ' ') =
          (ascii "<" ++ u).dropWhile (· = ch ' ') := rfl
      have hlower := meets_lower version l x
      have hupper := meets_upper version u hu.1 x
      simpa [hblank] using and_congr hlower hupper

theorem interval_inside_iff (b : Option Bytes × Option Bytes) (i f : V) :
    (∀ x, i ≤ x → x < f → (∀ lower ∈ b.1, version lower ≤ x) ∧ ∀ upper ∈ b.2, x < version upper) ↔
      (i < f → (∀ lower ∈ b.1, version lower ≤ i) ∧ ∀ upper ∈ b.2, f ≤ version upper) := by
  constructor
  · intro h hif
    refine ⟨(h i le_rfl hif).1, ?_⟩
    intro upper hupper
    by_contra hlt
    push Not at hlt
    -- The larger of the start and the upper bound is in the interval and not below the bound.
    have hmax := (h (max i (version upper)) (le_max_left _ _) (max_lt hif hlt)).2 upper hupper
    exact absurd hmax (not_lt.mpr (le_max_right _ _))
  · intro h x hix hxf
    obtain ⟨hlower, hupper⟩ := h (lt_of_le_of_lt hix hxf)
    exact ⟨fun lower hl => (hlower lower hl).trans hix,
      fun upper hu => lt_of_lt_of_le hxf (hupper upper hu)⟩

/-! ## The parsed record -/

theorem outerBounds_text (ranges : List (List Event)) (hwf : WellFormed ranges)
    (b : Option Bytes × Option Bytes) (h : outerBounds ranges = some b) :
    b ≠ (none, none) ∧ (∀ s ∈ b.1, VersionText s) ∧ ∀ s ∈ b.2, VersionText s := by
  obtain ⟨hmem, hne⟩ := List.mem_filter.mp (List.mem_of_getLast? h)
  obtain ⟨events, hevents, rfl⟩ := List.mem_map.mp hmem
  exact ⟨by simpa using hne, lastBounds_text events (hwf events hevents)⟩

theorem mem_introductions (events : List Event) (i : Bytes × Bytes) (hi : i ∈ intervals events) :
    i.1 ∈ introductions events := by
  induction events with
  | nil => cases hi
  | cons e rest ih =>
    have hrest : i ∈ intervals rest → i.1 ∈ introductions (e :: rest) := by
      intro h
      unfold introductions at ih ⊢
      rw [List.filterMap_cons]
      cases e.introduced with
      | none => exact ih h
      | some s => exact List.mem_cons_of_mem _ (ih h)
    unfold intervals at hi
    split at hi
    · rename_i introduced fixed hintroduced _
      rcases List.mem_cons.mp hi with rfl | hi
      · exact List.mem_filterMap.mpr ⟨e, List.mem_cons_self, hintroduced⟩
      · exact hrest hi
    · exact hrest hi

theorem outerBounds_of_interval (ranges : List (List Event)) (events : List Event)
    (hevents : events ∈ ranges) (i : Bytes × Bytes) (hi : i ∈ intervals events) :
    ∃ b, outerBounds ranges = some b := by
  have hintroduced : introductions events ≠ [] := List.ne_nil_of_mem (mem_introductions events i hi)
  have hne : lastBounds events ≠ (none, none) := by
    intro hnone
    exact hintroduced (List.getLast?_eq_none_iff.mp (Prod.mk.inj hnone).1)
  have hmem : lastBounds events ∈ (ranges.map lastBounds).filter fun b => b ≠ (none, none) :=
    List.mem_filter.mpr ⟨List.mem_map_of_mem hevents, by simpa using hne⟩
  exact ⟨_, List.getLast?_eq_some_getLast (List.ne_nil_of_mem hmem)⟩

theorem firstFix_iff (versions : List Bytes) :
    (versions.getLast?).getD [] = (versions.head?).getD [] ↔
      versions.head? = versions.getLast? := by
  cases hhead : versions.head? with
  | none =>
    rw [List.head?_eq_none_iff.mp hhead]
    simp
  | some first =>
    cases hlast : versions.getLast? with
    | none =>
      rw [List.getLast?_eq_none_iff.mp hlast] at hhead
      cases hhead
    | some last => simp [eq_comm]

end Meaning

/-- The record keeps the first fix and covers all intervals exactly when the first and the last fix
are the same and no interval reaches over the last events of the last range. -/
theorem ranges_kept_iff {V : Type} [LinearOrder V] (version : Bytes → V) (d : Doubles) (v : Json)
    (rec : OsvVuln) (hparse : parseVuln d v = .ok rec) (hwf : WellFormed (rangesOf v)) :
    Kept version (rangesOf v) rec.fixedIn rec.vulnerableRange ↔ Holds version (rangesOf v) := by
  obtain ⟨id, -, hparse⟩ := Outcome.ok_of_bind hparse
  obtain ⟨summary, -, hparse⟩ := Outcome.ok_of_bind hparse
  obtain ⟨details, -, hparse⟩ := Outcome.ok_of_bind hparse
  obtain ⟨score, -, hparse⟩ := Outcome.ok_of_bind hparse
  obtain rfl := Except.ok.inj hparse
  have haffected : affectedOf v = _ := (affectedOf_eq v).trans (foldl_addEvents (rangesOf v) hwf {})
  dsimp only
  rw [haffected]
  -- From here on only the ranges matter, not the text they were read from.
  generalize rangesOf v = ranges at hwf
  dsimp only
  have hcovered : ∀ events ∈ ranges, ∀ i ∈ intervals events,
      (∀ x : V, version i.1 ≤ x → x < version i.2 →
        Covers version (((outerBounds ranges).map fun b =>
          rangeText (b.1.getD []) (b.2.getD [])).getD []) x) ↔
      (version i.1 < version i.2 → ∀ b ∈ outerBounds ranges,
        (∀ lower ∈ b.1, version lower ≤ version i.1) ∧ ∀ upper ∈ b.2,
        version i.2 ≤ version upper) := by
    intro events hevents i hi
    obtain ⟨b, hb⟩ := outerBounds_of_interval ranges events hevents i hi
    obtain ⟨hne, hlower, hupper⟩ := outerBounds_text ranges hwf b hb
    rw [hb]
    simp only [Option.map_some, Option.getD_some, covers_rangeText version b hne hlower hupper,
      Option.mem_def, Option.some.injEq, forall_eq']
    exact interval_inside_iff version b (version i.1) (version i.2)
  constructor
  · intro hkept
    exact ⟨(firstFix_iff _).mp hkept.firstFix, fun events hevents i hi =>
      (hcovered events hevents i hi).mp (hkept.covered events hevents i hi)⟩
  · intro hholds
    exact ⟨(firstFix_iff _).mpr hholds.fix, fun events hevents i hi =>
      (hcovered events hevents i hi).mpr (hholds.inside events hevents i hi)⟩

def introducedAt (s : String) : Json := .obj [(ascii "introduced", .str (ascii s))]

def fixedAt (s : String) : Json := .obj [(ascii "fixed", .str (ascii s))]

def vulnWith (events : List Json) : Json :=
  .obj [(ascii "affected",
    .arr [.obj [(ascii "ranges", .arr [.obj [(ascii "events", .arr events)]])]])]

/-- Versions of one digit. -/
def digitVersion (s : Bytes) : Nat := (s.headD 0).toNat

def noDoubles : Doubles := { positive := fun _ => false, below := fun _ _ => false }

theorem one_interval_kept :
    ∃ rec, parseVuln noDoubles (vulnWith [introducedAt "1", fixedAt "2"]) = .ok rec ∧
    rec.vulnerableRange = ascii ">=1, <2" ∧
    Kept digitVersion (rangesOf (vulnWith [introducedAt "1", fixedAt "2"])) rec.fixedIn
      rec.vulnerableRange := by
  refine ⟨_, rfl, by decide, ?_⟩
  apply (ranges_kept_iff digitVersion noDoubles (vulnWith [introducedAt "1", fixedAt "2"])
    _ rfl ?_).mpr
  · constructor
    · decide
    · intro events hevents i hi _ b hb
      obtain rfl := List.mem_singleton.mp hevents
      obtain rfl := List.mem_singleton.mp hi
      obtain rfl := Option.some.inj hb
      constructor
      · intro lower hlower
        obtain rfl := Option.some.inj hlower
        exact Nat.le_refl _
      · intro upper hupper
        obtain rfl := Option.some.inj hupper
        exact Nat.le_refl _
  · intro events hevents e he
    obtain rfl := List.mem_singleton.mp hevents
    rcases List.mem_cons.mp he with rfl | he
    · exact ⟨fun s hs => Option.some.inj hs ▸ ⟨by decide, by decide⟩, nofun⟩
    · obtain rfl := List.mem_singleton.mp he
      exact ⟨nofun, fun s hs => Option.some.inj hs ▸ ⟨by decide, by decide⟩⟩

theorem second_interval_overwrites :
    ∃ rec, parseVuln noDoubles (vulnWith [introducedAt "1", fixedAt "2", introducedAt "3",
      fixedAt "4"]) = .ok rec ∧ rec.fixedIn = ascii "4" ∧ rec.vulnerableRange = ascii ">=3, <4" ∧
      ¬ Kept digitVersion
        (rangesOf (vulnWith [introducedAt "1", fixedAt "2", introducedAt "3", fixedAt "4"]))
        rec.fixedIn rec.vulnerableRange := by
  -- Two intervals of one range: the last one is kept, and the last fix.
  refine ⟨_, rfl, by decide, by decide, ?_⟩
  intro hkept
  exact absurd hkept.firstFix (by decide)

end Euxis.Vulndb
