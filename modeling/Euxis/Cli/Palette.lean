import Euxis.Cli.FuzzyMatch
import Mathlib.Data.List.Sort
import Mathlib.Tactic.Common

/-!
# The command palette: `apps/cli/src/tui/palette.cpp`

A list of entries filtered by a query, with one selected entry and a window of ten rows. Moving the
selection moves the window with it. Filtering again puts the window back to the top, and the
selection only when the list has become too short for it.
-/

namespace Euxis.Cli

structure PaletteEntry where
  label : Bytes
  category : Bytes := []
  description : Bytes := []
  score : Nat := 0
  deriving DecidableEq, Repr

/-- A sort by score, the highest first. `std::sort` does not say how it orders entries with the same
score. -/
structure ScoreSort where
  sort : List PaletteEntry → List PaletteEntry
  perm : ∀ entries, (sort entries).Perm entries
  sorted : ∀ entries, (sort entries).Pairwise fun a b => b.score ≤ a.score

structure Palette where
  query : Bytes := []
  allEntries : List PaletteEntry := []
  filtered : List PaletteEntry := []
  selected : Int := 0
  scrollOffset : Int := 0
  deriving DecidableEq, Repr

inductive EventType where
  | key
  | resize
  | timer
  | signal
  | custom
  deriving DecidableEq, Repr

structure Event where
  type : EventType
  key : Int
  deriving DecidableEq, Repr

namespace Palette

def maxVisible : Int := 10

/-- The entries that match the query, with their scores. -/
def matching (query : Bytes) (entries : List PaletteEntry) : List PaletteEntry :=
  entries.filterMap fun entry =>
    let score := FuzzyMatch.score query entry.label
    if 0 < score then some { entry with score } else none

variable (S : ScoreSort)

def refilter (p : Palette) : Palette :=
  let filtered := S.sort (matching p.query p.allEntries)
  { p with
    scrollOffset := 0
    filtered
    selected := if (filtered.length : Int) ≤ p.selected then max 0 ((filtered.length : Int) - 1)
      else p.selected }

def setEntries (entries : List PaletteEntry) (p : Palette) : Palette :=
  refilter S { p with allEntries := entries }

def reset (p : Palette) : Palette := refilter S { p with query := [], selected := 0 }

/-- What an event does. The entry is the one that the callback gets. -/
structure Handled where
  handled : Bool
  chosen : Option PaletteEntry := none
  palette : Palette

def up (p : Palette) : Palette :=
  let selected := if 0 < p.selected then p.selected - 1 else p.selected
  { p with selected,
           scrollOffset := if selected < p.scrollOffset then selected else p.scrollOffset }

def down (p : Palette) : Palette :=
  let selected := if p.selected < (p.filtered.length : Int) - 1 then p.selected + 1 else p.selected
  { p with
    selected
    scrollOffset := if p.scrollOffset + maxVisible ≤ selected then selected - maxVisible + 1
      else p.scrollOffset }

def handleEvent (p : Palette) (event : Event) : Handled :=
  if event.type ≠ .key then { handled := false, palette := p }
  else if event.key = 1001 then { handled := true, palette := p.up }
  else if event.key = 1002 then { handled := true, palette := p.down }
  else if event.key = 13 ∨ event.key = 10 then
    { handled := true, chosen := p.filtered[p.selected.toNat]?, palette := p }
  else if event.key = 127 ∨ event.key = 8 then
    if p.query = [] then { handled := true, palette := p }
    else { handled := true, palette := refilter S { p with query := p.query.dropLast } }
  else if 32 ≤ event.key ∧ event.key ≤ 126 then
    { handled := true,
      palette := refilter S { p with query := p.query ++ [UInt8.ofNat event.key.toNat] } }
  else { handled := false, palette := p }

/-! ## Runs -/

inductive Op where
  | setEntries (entries : List PaletteEntry)
  | reset
  | event (event : Event)

def step (p : Palette) : Op → Palette
  | .setEntries entries => p.setEntries S entries
  | .reset => p.reset S
  | .event event => (p.handleEvent S event).palette

/-- A new palette after the operations. -/
def run (ops : List Op) : Palette := ops.foldl (step S) {}

/-- The selection is in the list and in the window. -/
def Visible (p : Palette) : Prop :=
  p.filtered ≠ [] → (0 ≤ p.selected ∧ p.selected < p.filtered.length) ∧
    (p.scrollOffset ≤ p.selected ∧ p.selected < p.scrollOffset + maxVisible)

instance (p : Palette) : Decidable p.Visible := inferInstanceAs (Decidable (_ → _))

/-- What an operation filters again, if it does. -/
def refiltered (p : Palette) : Op → Option Palette
  | .setEntries entries => some { p with allEntries := entries }
  | .reset => some { p with query := [], selected := 0 }
  | .event event =>
    if event.type ≠ .key then none
    else if event.key = 127 ∨ event.key = 8 then
      if p.query = [] then none else some { p with query := p.query.dropLast }
    else if 32 ≤ event.key ∧ event.key ≤ 126 then
      some { p with query := p.query ++ [UInt8.ofNat event.key.toNat] }
    else none

/-- An operation that filters again finds the selection in the first window, or no more entries than
that window shows. -/
def Safe (p : Palette) (op : Op) : Prop :=
  ∀ q, p.refiltered op = some q →
    q.selected < maxVisible ∨ ((matching q.query q.allEntries).length : Int) ≤ maxVisible

/-! ## One step -/

theorem length_filtered_refilter (p : Palette) :
    (refilter S p).filtered.length = (matching p.query p.allEntries).length := (S.perm _).length_eq

@[simp]
theorem scrollOffset_refilter (p : Palette) : (refilter S p).scrollOffset = 0 := rfl

theorem selected_refilter (p : Palette) :
    (refilter S p).selected =
      if ((refilter S p).filtered.length : Int) ≤ p.selected then
        max 0 (((refilter S p).filtered.length : Int) - 1)
      else p.selected := rfl

theorem selected_refilter_nonneg (p : Palette) (h : 0 ≤ p.selected) :
    0 ≤ (refilter S p).selected := by
  rw [selected_refilter]
  split
  · exact le_max_left _ _
  · exact h

theorem visible_refilter_iff (p : Palette) (h : 0 ≤ p.selected) :
    (refilter S p).Visible ↔
      p.selected < maxVisible ∨ ((matching p.query p.allEntries).length : Int) ≤ maxVisible := by
  rw [← length_filtered_refilter S]
  unfold Visible maxVisible
  rw [selected_refilter, scrollOffset_refilter, ← List.length_pos_iff]
  generalize (refilter S p).filtered.length = n
  constructor
  · intro hvisible
    rcases Nat.eq_zero_or_pos n with rfl | hn
    · omega
    · have hin := hvisible hn
      split at hin <;> omega
  · intro hsafe hn
    split <;> omega

theorem step_of_refiltered {p q : Palette} {op : Op} (h : p.refiltered op = some q) :
    p.step S op = refilter S q := by
  cases op with
  | setEntries entries =>
    cases h
    rfl
  | reset =>
    cases h
    rfl
  | event event =>
    unfold step handleEvent
    unfold refiltered at h
    grind

theorem step_of_not_refiltered {p : Palette} {op : Op} (h : p.refiltered op = none) :
    p.step S op = p ∨ p.step S op = p.up ∨ p.step S op = p.down := by
  cases op with
  | setEntries entries => cases h
  | reset => cases h
  | event event =>
    unfold step handleEvent
    unfold refiltered at h
    grind

theorem Visible.up {p : Palette} (h : p.Visible) : p.up.Visible := by
  intro hne
  have hp := h hne
  unfold maxVisible at hp
  unfold Palette.up maxVisible
  dsimp only
  split <;> split <;> omega

theorem Visible.down {p : Palette} (h : p.Visible) : p.down.Visible := by
  intro hne
  have hp := h hne
  unfold maxVisible at hp
  unfold Palette.down maxVisible
  dsimp only
  split <;> split <;> omega

theorem refiltered_selected_nonneg {p q : Palette} {op : Op} (h : p.refiltered op = some q)
    (hp : 0 ≤ p.selected) : 0 ≤ q.selected := by
  unfold refiltered at h
  grind

theorem step_selected_nonneg (p : Palette) (op : Op) (hp : 0 ≤ p.selected) :
    0 ≤ (p.step S op).selected := by
  cases h : p.refiltered op with
  | some q =>
    rw [step_of_refiltered S h]
    exact selected_refilter_nonneg S q (refiltered_selected_nonneg h hp)
  | none =>
    rcases step_of_not_refiltered S h with hstep | hstep | hstep
    · rw [hstep]
      exact hp
    · rw [hstep, up]
      dsimp only
      split <;> omega
    · rw [hstep, down]
      dsimp only
      split <;> omega

theorem safe_of_visible {p : Palette} {op : Op} (hp : 0 ≤ p.selected) (h : (p.step S op).Visible) :
    p.Safe op := by
  intro q hq
  rw [step_of_refiltered S hq, visible_refilter_iff S q (refiltered_selected_nonneg hq hp)] at h
  exact h

theorem Visible.step {p : Palette} {op : Op} (hp : 0 ≤ p.selected) (h : p.Visible)
    (hsafe : p.Safe op) : (p.step S op).Visible := by
  cases hq : p.refiltered op with
  | some q =>
    rw [step_of_refiltered S hq, visible_refilter_iff S q (refiltered_selected_nonneg hq hp)]
    exact hsafe q hq
  | none =>
    rcases step_of_not_refiltered S hq with hstep | hstep | hstep
    · rw [hstep]
      exact h
    · rw [hstep]
      exact h.up
    · rw [hstep]
      exact h.down

/-! ## All steps -/

theorem run_append_singleton (ops : List Op) (op : Op) :
    run S (ops ++ [op]) = (run S ops).step S op := by
  rw [run, List.foldl_append]
  rfl

theorem run_selected_nonneg (ops : List Op) : 0 ≤ (run S ops).selected := by
  induction ops using List.reverseRecOn with
  | nil => exact le_refl _
  | append_singleton ops op ih =>
    rw [run_append_singleton]
    exact step_selected_nonneg S _ op ih

/-- The selection of a new palette is in view after each of the operations if and only if all of
them are safe where they are made. -/
theorem palette_selection_visible_iff (S : ScoreSort) (ops : List Op) :
    (∀ before, before <+: ops → (run S before).Visible) ↔
      ∀ before op, before ++ [op] <+: ops → (run S before).Safe op := by
  constructor
  · intro hvisible before op hops
    have hafter := hvisible _ hops
    rw [run_append_singleton] at hafter
    exact safe_of_visible S (run_selected_nonneg S before) hafter
  · intro hsafe before
    induction before using List.reverseRecOn with
    | nil =>
      intro _ hne
      exact absurd rfl hne
    | append_singleton before op ih =>
      intro hops
      rw [run_append_singleton]
      have hbefore : (run S before).Visible := ih ((List.prefix_append before [op]).trans hops)
      exact hbefore.step S (run_selected_nonneg S before) (hsafe before op hops)

/-- Insertion sort by score. -/
def scoreSort : ScoreSort where
  sort := List.insertionSort fun a b => b.score ≤ a.score
  perm := List.perm_insertionSort _
  sorted entries := by
    have : Std.Total fun a b : PaletteEntry => b.score ≤ a.score :=
      ⟨fun a b => le_total b.score a.score⟩
    have : IsTrans PaletteEntry fun a b => b.score ≤ a.score := ⟨fun _ _ _ h₁ h₂ => le_trans h₂ h₁⟩
    exact List.pairwise_insertionSort _ entries

/-- Twelve entries, a selection at the end, and a character that all of them match. -/
def typeAtEnd : List Op :=
  [.setEntries (List.replicate 12 { label := ascii "e" })] ++
    List.replicate 11 (.event ⟨.key, 1002⟩) ++ [.event ⟨.key, 101⟩]

theorem typed_character_hides_selection :
    ¬ (run scoreSort typeAtEnd).Visible ∧ (run scoreSort typeAtEnd).filtered.length = 12 ∧
      (run scoreSort typeAtEnd).selected = 11 ∧ (run scoreSort typeAtEnd).scrollOffset = 0 := by
  decide +kernel

end Palette

end Euxis.Cli
