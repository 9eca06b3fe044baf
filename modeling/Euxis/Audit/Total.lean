import Euxis.Audit.Proofs
import Euxis.Json.Access

/-!
# Verifying any file

`verify_chain` catches the parse errors of the library and no others: a line that is JSON and not an
entry makes it throw, and so does a line with a number that no `double` holds, unless it stops
before that line.
-/

open Euxis.Outcome (Returns ok_bind)

namespace Euxis.Audit

open Chain (Guarded Linked)
open Json (hasType isString)

section

variable (hash : Bytes → Bytes) (parse : Bytes → Except JsonError Json)

/-- The line is no object with a string or nothing as `prev_hash`, and the parser does not refuse it
with a parse error. -/
def Mistyped (line : Bytes) : Prop := parse line ≠ .error .parseError ∧ ¬ WellTyped parse line

theorem wellTyped_iff (line : Bytes) :
    WellTyped parse line ↔ ∃ entry, parse line = .ok entry ∧
      Returns (entry.valueStr prevHashKey []) := by
  constructor
  · rintro ⟨members, hparse, hmember⟩
    exact ⟨.obj members, hparse, valueStr_wellTyped members hmember⟩
  · rintro ⟨entry, hparse, hreturns⟩
    obtain ⟨hobj, htype⟩ := (Json.valueStr_returns_iff entry prevHashKey []).mp hreturns
    obtain ⟨members, rfl⟩ := hobj.exists_members
    refine ⟨members, hparse, ?_⟩
    rw [Json.hasType_obj] at htype
    cases hlookup : members.lookup prevHashKey with
    | none => exact Or.inl rfl
    | some v =>
      rw [hlookup] at htype
      cases v with
      | str s => exact Or.inr ⟨s, rfl⟩
      | _ => cases htype

theorem link_eq_none_of_mistyped {line : Bytes} (h : ¬ WellTyped parse line) :
    link parse line = none := by
  unfold link
  cases hparse : parse line with
  | error e => rfl
  | ok entry =>
    dsimp only
    cases hv : entry.valueStr prevHashKey [] with
    | error e => rfl
    | ok prev => exact absurd ((wellTyped_iff parse line).mpr ⟨entry, hparse, prev, hv⟩) h

/-- The loop returns when no line that it reaches is mistyped. -/
theorem verifyLoop_returns_iff (expected : Bytes) (lines : List Bytes) :
    Returns (verifyLoop hash parse expected lines) ↔
      Guarded hash (link parse) (fun line => ¬ Mistyped parse line) expected
        (lines.filter (· ≠ [])) := by
  induction lines generalizing expected with
  | nil => simp [verifyLoop, Chain.guarded_nil]
  | cons line rest ih =>
    unfold verifyLoop
    by_cases hline : line = []
    · simp [hline, ih]
    · rw [if_neg hline, List.filter_cons_of_pos (by simpa using hline), Chain.guarded_cons]
      cases hparse : parse line with
      | error e =>
        have hnot : ¬ WellTyped parse line := by
          rintro ⟨members, hmembers, -⟩
          rw [hparse] at hmembers
          cases hmembers
        -- Of the errors of the parser only a parse error is caught, and answered with a no.
        cases e <;> simp [Mistyped, link, hparse, hnot]
      | ok entry =>
        dsimp only
        cases hv : entry.valueStr prevHashKey [] with
        | error e =>
          have hnot : ¬ WellTyped parse line := by
            rw [wellTyped_iff, hparse]
            rintro ⟨entry', hentry, prev, hprev⟩
            obtain rfl := Except.ok.inj hentry
            rw [hv] at hprev
            cases hprev
          simp [Mistyped, hparse, hnot]
        | ok prev =>
          have htyped : WellTyped parse line :=
            (wellTyped_iff parse line).mpr ⟨entry, hparse, prev, hv⟩
          have hlink : link parse line = some prev := by simp [link, hparse, hv, Except.toOption]
          rw [hlink, ok_bind]
          -- At a broken link the loop answers at once, and what stands behind it is never read.
          by_cases hprev : prev = expected
          · rw [if_neg (by simpa using hprev), ih]
            simp [Mistyped, htyped, hprev]
          · rw [if_pos hprev]
            simp [Mistyped, htyped, hprev]

theorem wellTyped_of_linked {start : Bytes} {lines : List Bytes}
    (h : Linked hash (link parse) start lines) {line : Bytes} (hline : line ∈ lines) :
    WellTyped parse line := by
  induction lines generalizing start with
  | nil => simp at hline
  | cons first rest ih =>
    rcases List.mem_cons.mp hline with rfl | hline
    · by_contra hnot
      have hnone := link_eq_none_of_mistyped parse hnot
      rw [h.1] at hnone
      cases hnone
    · exact ih h.2 hline

/-- The verdict is yes or no, and it is no when some line is no entry. -/
def Answers (file : Option Bytes) : Prop :=
  ∃ verdict, verifyChain hash parse file = .ok verdict ∧
    ((∃ line ∈ entries file, ¬ WellTyped parse line) → verdict = false)

/-- **Verification.** It answers exactly when no line that follows correctly chained entries only is
mistyped. -/
theorem verification_answers_iff (file : Option Bytes) :
    Answers hash parse file ↔
      ∀ front line rest, entries file = front ++ line :: rest → Linked hash (link parse) [] front →
        ¬ Mistyped parse line := by
  have hreturns : Returns (verifyChain hash parse file) ↔ _ :=
    verifyLoop_returns_iff hash parse [] (fileLines file)
  refine Iff.trans ⟨?_, ?_⟩ hreturns
  · rintro ⟨verdict, hverdict, -⟩
    exact ⟨verdict, hverdict⟩
  · rintro ⟨verdict, hverdict⟩
    refine ⟨verdict, hverdict, ?_⟩
    rintro ⟨line, hline, hnot⟩
    cases verdict with
    | false => rfl
    | true =>
      exact absurd (wellTyped_of_linked hash parse ((verifyChain_iff hash parse file).mp hverdict)
        hline) hnot

end

theorem array_line_throws :
    verifyChain id sampleParse (some (ascii "[]\n")) = .error .typeError ∧
      ¬ Answers id sampleParse (some (ascii "[]\n")) := by
  have hthrows : verifyChain id sampleParse (some (ascii "[]\n")) = .error .typeError := by rfl
  refine ⟨hthrows, ?_⟩
  rintro ⟨verdict, hverdict, -⟩
  rw [hthrows] at hverdict
  cases hverdict

end Euxis.Audit
