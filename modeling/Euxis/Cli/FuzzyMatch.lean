import Euxis.Bytes
import Mathlib.Data.List.Forall2

/-!
# Fuzzy matching: `FuzzyMatch` of `apps/cli/src/tui/palette.cpp`
-/

namespace Euxis.Cli.FuzzyMatch

/-- The start of a word: the first character, one behind `-`, `_` or a blank, or a capital behind a
small letter. -/
def atBoundary (before : Option UInt8) (c : UInt8) : Bool :=
  match before with
  | none => true
  | some b =>
    b = ch '-' ∨ b = ch '_' ∨ b = ch ' ' ∨ (ch 'a' ≤ b ∧ b ≤ ch 'z') ∧ (ch 'A' ≤ c ∧ c ≤ ch 'Z')

/-- What the loop over the candidate counts. -/
structure Counts where
  consecutive : Nat := 0
  maxConsecutive : Nat := 0
  boundaryBonus : Nat := 0
  deriving DecidableEq, Repr

def Counts.hit (n : Counts) (boundary : Bool) : Counts where
  consecutive := n.consecutive + 1
  maxConsecutive := max n.maxConsecutive (n.consecutive + 1)
  boundaryBonus := if boundary then n.boundaryBonus + 10 else n.boundaryBonus

/-- Goes through the candidate, behind the byte `before`. Returns what is left of the query. -/
def scan (before : Option UInt8) (n : Counts) : (candidate query : Bytes) → Bytes × Counts
  | [], query => (query, n)
  | _ :: _, [] => ([], n)
  | c :: candidate, q :: query =>
    if Bytes.lowerByte c = Bytes.lowerByte q then
      scan (some c) (n.hit (atBoundary before c)) candidate query
    else scan (some c) { n with consecutive := 0 } candidate (q :: query)

/-- The sums are `int` in the code. They agree for candidates of up to 10^8 bytes, which keep them
below 2^31. -/
def score (query candidate : Bytes) : Nat :=
  if query = [] then 1
  else if candidate = [] then 0
  else
    let isStart := (query.zip candidate).all fun (q, c) => Bytes.lowerByte q = Bytes.lowerByte c
    if isStart ∧ query.length ≤ candidate.length then 100
    else
      match scan none {} candidate query with
      | ([], n) => min (40 + n.maxConsecutive * 5 + n.boundaryBonus) 99
      | (_ :: _, _) => 0

/-- The loop of `match_positions`, from a position of the candidate on. -/
def positionsFrom (ci : Nat) : (candidate query : Bytes) → List Nat
  | [], _ => []
  | _ :: _, [] => []
  | c :: candidate, q :: query =>
    if Bytes.lowerByte c = Bytes.lowerByte q then ci :: positionsFrom (ci + 1) candidate query
    else positionsFrom (ci + 1) candidate (q :: query)

def matchPositions (query candidate : Bytes) : List Nat := positionsFrom 0 candidate query

/-! ## The greedy loops

Both loops take the first byte of the candidate that matches. If the query is a subsequence at all,
the rest of it still is one behind that byte. -/

theorem lower_cons (b : UInt8) (s : Bytes) :
    Bytes.lower (b :: s) = Bytes.lowerByte b :: Bytes.lower s := rfl

/-- The query is a subsequence of the candidate, up to ASCII case. -/
def Matches (query candidate : Bytes) : Prop := (Bytes.lower query).Sublist (Bytes.lower candidate)

theorem matches_nil (candidate : Bytes) : Matches [] candidate := List.nil_sublist _

theorem not_matches_nil (q : UInt8) (query : Bytes) : ¬ Matches (q :: query) [] := by
  intro h
  rw [Matches, lower_cons] at h
  cases h

theorem matches_cons_of_eq {c q : UInt8} (h : Bytes.lowerByte c = Bytes.lowerByte q)
    (query candidate : Bytes) :
    Matches (q :: query) (c :: candidate) ↔ Matches query candidate := by
  rw [Matches, lower_cons, lower_cons, h]
  exact List.cons_sublist_cons

theorem matches_cons_of_ne {c q : UInt8} (h : Bytes.lowerByte c ≠ Bytes.lowerByte q)
    (query candidate : Bytes) :
    Matches (q :: query) (c :: candidate) ↔ Matches (q :: query) candidate := by
  rw [Matches, lower_cons, lower_cons]
  constructor
  · exact List.Sublist.of_cons_of_ne h.symm
  · exact fun hsub => hsub.cons _

theorem scan_eq_nil_iff (before : Option UInt8) (n : Counts) (candidate query : Bytes) :
    (scan before n candidate query).1 = [] ↔ Matches query candidate := by
  induction candidate generalizing before n query with
  | nil =>
    cases query with
    | nil => simp [scan, matches_nil]
    | cons q query => simp [scan, not_matches_nil]
  | cons c candidate ih =>
    cases query with
    | nil => simp [scan, matches_nil]
    | cons q query =>
      rw [scan]
      split
      · rename_i h
        rw [ih, matches_cons_of_eq h]
      · rename_i h
        rw [ih, matches_cons_of_ne h]

/-- The place is that of a byte of the candidate, which is `q` up to case. -/
def PointsAt (candidate : Bytes) (i : Nat) (q : UInt8) : Prop :=
  ∃ c, candidate[i]? = some c ∧ Bytes.lowerByte c = Bytes.lowerByte q

theorem le_positionsFrom (ci : Nat) (candidate query : Bytes) :
    ∀ i ∈ positionsFrom ci candidate query, ci ≤ i := by
  induction candidate generalizing ci query with
  | nil => simp [positionsFrom]
  | cons c candidate ih =>
    cases query with
    | nil => simp [positionsFrom]
    | cons q query =>
      intro i hi
      rw [positionsFrom] at hi
      split at hi
      · rcases List.mem_cons.mp hi with rfl | hi
        · exact le_refl _
        · have := ih (ci + 1) query i hi
          omega
      · have := ih (ci + 1) (q :: query) i hi
        omega

theorem positionsFrom_pairwise (ci : Nat) (candidate query : Bytes) :
    (positionsFrom ci candidate query).Pairwise (· < ·) := by
  induction candidate generalizing ci query with
  | nil => simp [positionsFrom]
  | cons c candidate ih =>
    cases query with
    | nil => simp [positionsFrom]
    | cons q query =>
      rw [positionsFrom]
      split
      · exact .cons (le_positionsFrom (ci + 1) candidate query) (ih (ci + 1) query)
      · exact ih (ci + 1) (q :: query)

theorem PointsAt.cons {candidate : Bytes} {ci i : Nat} {q : UInt8} (c : UInt8) (hle : ci + 1 ≤ i)
    (h : PointsAt candidate (i - (ci + 1)) q) : PointsAt (c :: candidate) (i - ci) q := by
  obtain ⟨b, hb, hlower⟩ := h
  have hi : i - ci = (i - (ci + 1)) + 1 := by omega
  refine ⟨b, ?_, hlower⟩
  rw [hi, List.getElem?_cons_succ]
  exact hb

theorem positionsFrom_points (ci : Nat) (candidate query : Bytes) (h : Matches query candidate) :
    List.Forall₂ (fun i q => ci ≤ i ∧ PointsAt candidate (i - ci) q)
      (positionsFrom ci candidate query) query := by
  induction candidate generalizing ci query with
  | nil =>
    cases query with
    | nil => exact .nil
    | cons q query => exact absurd h (not_matches_nil q query)
  | cons c candidate ih =>
    cases query with
    | nil => exact .nil
    | cons q query =>
      rw [positionsFrom]
      split
      · rename_i heq
        have hrest := ih (ci + 1) query ((matches_cons_of_eq heq query candidate).mp h)
        refine .cons ⟨le_refl _, c, by simp, heq⟩ (hrest.imp ?_)
        rintro i q ⟨hle, hpoints⟩
        exact ⟨by omega, hpoints.cons c hle⟩
      · rename_i hne
        have hrest := ih (ci + 1) (q :: query) ((matches_cons_of_ne hne query candidate).mp h)
        refine hrest.imp ?_
        rintro i q ⟨hle, hpoints⟩
        exact ⟨by omega, hpoints.cons c hle⟩

/-! ## The score -/

theorem isStart_iff (query candidate : Bytes) :
    ((query.zip candidate).all fun (q, c) => Bytes.lowerByte q = Bytes.lowerByte c) = true ∧
      query.length ≤ candidate.length ↔ Bytes.lower query <+: Bytes.lower candidate := by
  induction query generalizing candidate with
  | nil => simp [Bytes.lower]
  | cons q query ih =>
    cases candidate with
    | nil => simp [Bytes.lower]
    | cons c candidate =>
      rw [lower_cons, lower_cons, List.cons_prefix_cons, ← ih candidate]
      simp [and_assoc]

theorem score_cases {query : Bytes} (hquery : query ≠ []) (candidate : Bytes) :
    Bytes.lower query <+: Bytes.lower candidate ∧ score query candidate = 100 ∨
      ¬ Bytes.lower query <+: Bytes.lower candidate ∧
        (Matches query candidate ∧ 40 ≤ score query candidate ∧ score query candidate ≤ 99 ∨
          ¬ Matches query candidate ∧ score query candidate = 0) := by
  obtain ⟨q, query, rfl⟩ := List.exists_cons_of_ne_nil hquery
  cases candidate with
  | nil => exact Or.inr ⟨by simp [Bytes.lower], Or.inr ⟨not_matches_nil q query, rfl⟩⟩
  | cons c candidate =>
    rw [score, if_neg (List.cons_ne_nil q query), if_neg (List.cons_ne_nil c candidate)]
    dsimp only
    by_cases hstart : Bytes.lower (q :: query) <+: Bytes.lower (c :: candidate)
    · rw [if_pos ((isStart_iff _ _).mpr hstart)]
      exact Or.inl ⟨hstart, rfl⟩
    · rw [if_neg (mt (isStart_iff _ _).mp hstart), ← scan_eq_nil_iff none {}]
      refine Or.inr ⟨hstart, ?_⟩
      split
      · rename_i n hscan
        refine Or.inl ⟨by rw [hscan], ?_⟩
        omega
      · rename_i rest more n hscan
        exact Or.inr ⟨by simp [hscan], rfl⟩

theorem score_pos_iff (query candidate : Bytes) :
    0 < score query candidate ↔ Matches query candidate := by
  by_cases hquery : query = []
  · subst hquery
    simp [score, matches_nil]
  · rcases score_cases hquery candidate
      with ⟨hstart, hscore⟩ | ⟨-, ⟨hmatches, hscore, -⟩ | ⟨hnot, hscore⟩⟩
    · have hmatches : Matches query candidate := hstart.sublist
      simp [hscore, hmatches]
    · simp only [hmatches, iff_true]
      omega
    · simp [hscore, hnot]

theorem score_eq_hundred_iff {query : Bytes} (hquery : query ≠ []) (candidate : Bytes) :
    score query candidate = 100 ↔ Bytes.lower query <+: Bytes.lower candidate := by
  rcases score_cases hquery candidate with ⟨hstart, hscore⟩ | ⟨hstart, ⟨-, -, hscore⟩ | ⟨-, hscore⟩⟩
  · simp [hstart, hscore]
  · simp only [hstart, iff_false]
    omega
  · simp [hstart, hscore]

/-- **Fuzzy matching.** The score is positive exactly when the query is a subsequence of the
candidate up to case. Then the positions are one for each byte of the query, in order, at a byte
that is the same up to case. The score of a query that is not empty is 100 exactly when the query
starts the candidate up to case. -/
theorem fuzzy_match_sound_complete (query candidate : Bytes) :
    (0 < score query candidate ↔ (Bytes.lower query).Sublist (Bytes.lower candidate)) ∧
      (0 < score query candidate →
        (matchPositions query candidate).length = query.length ∧
        (matchPositions query candidate).Pairwise (· < ·) ∧
          List.Forall₂ (PointsAt candidate) (matchPositions query candidate) query) ∧
      (query ≠ [] → (score query candidate = 100 ↔
        Bytes.lower query <+: Bytes.lower candidate)) := by
  refine ⟨score_pos_iff query candidate, ?_, fun hquery => score_eq_hundred_iff hquery candidate⟩
  intro hpos
  have hpoints := positionsFrom_points 0 candidate query ((score_pos_iff query candidate).mp hpos)
  refine ⟨hpoints.length_eq, positionsFrom_pairwise 0 candidate query, hpoints.imp ?_⟩
  rintro i q ⟨-, hat⟩
  exact hat

end Euxis.Cli.FuzzyMatch
