import Euxis.Lines
import Euxis.Playbook.Evidence

/-!
# The last line of an agent's output

The task prompt asks for a last line `VERDICT: PASS`, `VERDICT: FAIL` or `VERDICT: WARN`. The
verdict is searched for in the whole output instead.
-/

namespace Euxis.Playbook

/-- The verdicts that the task prompt asks for. -/
inductive Word where
  | pass
  | fail
  | warn
  deriving DecidableEq, Repr

namespace Word

def text : Word → Bytes
  | pass => ascii "PASS"
  | fail => ascii "FAIL"
  | warn => ascii "WARN"

def raw : Word → RawVerdict
  | pass => .pass
  | fail => .fail
  | warn => .warn

def line (word : Word) : Bytes := ascii "VERDICT: " ++ word.text

/-- The shortest phrases that the word is recognised by. -/
def marks (word : Word) : List Bytes :=
  [ascii "VERDICT: " ++ word.text, ascii "VERDICT:" ++ word.text,
    ascii "VERDICT " ++ emDash ++ ascii " " ++ word.text]

/-- The phrases that are searched for before the line of the word. -/
def rivals : Word → List Bytes
  | pass => []
  | fail => [line pass]
  | warn => marks pass ++ marks fail

end Word

/-! ## The search -/

theorem contains_trans (s t u : Bytes) (hst : s.contains t = true) (htu : t.contains u = true) :
    s.contains u = true :=
  decide_eq_true ((of_decide_eq_true htu).trans (of_decide_eq_true hst))

theorem contains_variants (out : Bytes) (word : Word) :
    out.contains word.line = true ∨ containsAny out (verdictVariants word.text) = true ↔
      ∃ mark ∈ word.marks, out.contains mark = true := by
  have hfinal : (ascii "FINAL VERDICT: " ++ word.text).contains word.line =
      true := by cases word <;> decide
  have hbold : (ascii "**VERDICT: " ++ word.text ++ ascii "**").contains word.line =
      true := by cases word <;> decide
  simp only [containsAny, verdictVariants, Word.marks, Word.line, List.any_cons, List.any_nil,
    Bool.or_false, Bool.or_eq_true,
    List.mem_cons, List.not_mem_nil, or_false, exists_eq_or_imp, exists_eq_left] at hfinal hbold ⊢
  constructor
  · rintro (h | h | h | h | h)
    · exact Or.inl h
    · exact Or.inr (Or.inl h)
    · exact Or.inl (contains_trans _ _ _ h hfinal)
    · exact Or.inl (contains_trans _ _ _ h hbold)
    · exact Or.inr (Or.inr h)
  · rintro (h | h | h)
    · exact Or.inl h
    · exact Or.inr (Or.inl h)
    · exact Or.inr (Or.inr (Or.inr (Or.inr h)))

theorem classifyRawVerdict_of_contains (output : Bytes) (word : Word)
    (h : output.upper.contains word.line = true) :
    classifyRawVerdict output = word.raw ↔ ∀ rival ∈ word.rivals,
      ¬ output.upper.contains rival = true := by
  unfold classifyRawVerdict
  dsimp only
  cases word with
  | pass =>
    change output.upper.contains (ascii "VERDICT: PASS") = true at h
    rw [if_pos h]
    simp [Word.raw, Word.rivals]
  | fail =>
    change output.upper.contains (ascii "VERDICT: FAIL") = true at h
    by_cases hp : output.upper.contains (ascii "VERDICT: PASS") = true
    · rw [if_pos hp]
      simp only [Word.raw, reduceCtorEq, false_iff, not_forall]
      exact ⟨Word.pass.line, List.mem_singleton_self _, not_not.mpr hp⟩
    · rw [if_neg hp, if_pos h]
      simp only [Word.raw, true_iff]
      intro rival hrival
      rwa [List.mem_singleton.mp hrival]
  | warn =>
    have hpass := contains_variants output.upper .pass
    have hfail := contains_variants output.upper .fail
    change output.upper.contains (ascii "VERDICT: PASS") = true ∨
      containsAny output.upper (verdictVariants (ascii "PASS")) = true ↔ _
      at hpass
    change output.upper.contains (ascii "VERDICT: FAIL") = true ∨
      containsAny output.upper (verdictVariants (ascii "FAIL")) = true ↔ _
      at hfail
    -- `WARN` is looked for last, behind the words and the variations of both others.
    have hrivals : (∀ rival ∈ Word.warn.rivals, ¬ output.upper.contains rival = true) ↔
        ¬ (∃ mark ∈ Word.pass.marks, output.upper.contains mark = true) ∧
          ¬ ∃ mark ∈ Word.fail.marks, output.upper.contains mark = true := by
      simp only [Word.rivals, List.forall_mem_append, not_exists, not_and]
    rw [hrivals, ← hpass, ← hfail]
    dsimp only [Word.raw]
    split_ifs <;> simp_all

/-! ## The last line -/

/-- **The last line.** It gives the verdict exactly when no earlier line holds a phrase that is
searched for before it. -/
theorem classifyRawVerdict_final_line_iff (output : Bytes) (before : List Bytes) (word : Word)
    (h : Lines.nonEmpty output = before ++ [word.line]) :
    classifyRawVerdict output = word.raw ↔ ∀ line ∈ before, ∀ rival ∈ word.rivals,
      ¬ line.upper.contains rival = true := by
  -- No phrase spans two lines, so it is in the output exactly if it is in one of its lines.
  have hclean : ∀ rival ∈ word.line :: word.rivals, Lines.Clean rival := by
    intro rival hrival
    have hboth : rival ≠ [] ∧ ch '\n' ∉ rival := by
      revert rival
      cases word <;> decide
    exact ⟨hboth.1, hboth.2⟩
  have hown : word.line.upper.contains word.line = true := by cases word <;> decide
  have hlast : ∀ rival ∈ word.rivals,
      ¬ word.line.upper.contains rival = true := by cases word <;> decide
  have hline : output.upper.contains word.line = true := by
    rw [Lines.contains_upper_iff _ _ (hclean _ List.mem_cons_self), h]
    exact ⟨word.line, List.mem_append_right _ (List.mem_singleton_self _), hown⟩
  rw [classifyRawVerdict_of_contains output word hline]
  constructor
  · intro hnone line hin rival hrival hcontains
    refine hnone rival hrival ?_
    rw [Lines.contains_upper_iff _ _ (hclean rival (List.mem_cons_of_mem _ hrival)), h]
    exact ⟨line, List.mem_append_left _ hin, hcontains⟩
  · intro hbefore rival hrival
    rw [Lines.contains_upper_iff _ _ (hclean rival (List.mem_cons_of_mem _ hrival)), h]
    rintro ⟨line, hin, hcontains⟩
    rcases List.mem_append.mp hin with hin | hin
    · exact hbefore line hin rival hrival hcontains
    · rw [List.mem_singleton.mp hin] at hcontains
      exact hlast rival hrival hcontains

/-! An agent that repeats its instructions before it fails the change. -/

def quotedInstructions : Bytes :=
  ascii "Just write: VERDICT: PASS" ++ ch '\n' :: ascii "Two tests fail." ++ ch '\n' ::
    ascii "VERDICT: FAIL" ++ [ch '\n']

theorem classifyRawVerdict_final_line_quoted :
    Lines.nonEmpty quotedInstructions =
        [ascii "Just write: VERDICT: PASS", ascii "Two tests fail."] ++ [Word.fail.line] ∧
      (classifyRawVerdict quotedInstructions = .fail ↔
        ∀ line ∈ [ascii "Just write: VERDICT: PASS", ascii "Two tests fail."],
          ∀ rival ∈ Word.fail.rivals, ¬ line.upper.contains rival = true) :=
  ⟨by decide +kernel, classifyRawVerdict_final_line_iff quotedInstructions
    [ascii "Just write: VERDICT: PASS", ascii "Two tests fail."] .fail (by decide +kernel)⟩

theorem quotedInstructions_pass :
    (Lines.nonEmpty quotedInstructions).getLast? = some (ascii "VERDICT: FAIL") ∧
      classifyRawVerdict quotedInstructions = .pass := by
  decide +kernel

end Euxis.Playbook
