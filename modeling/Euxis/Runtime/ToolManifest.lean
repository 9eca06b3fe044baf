import Euxis.Bytes
import Mathlib.Data.List.GetD

/-!
# Approval classes of tools

What a tool may do is read off its name and the scope it requires
(`libs/runtime/src/tool_manifest.cpp`).
-/

namespace Euxis.Runtime

open Euxis.Bytes

inductive ApprovalClass
  | readonly | execCapable | controlPlane
  deriving DecidableEq, Repr

/-! ## The code -/

/-- The inner loop of `starts_with_ci` and `contains_ci`: the bytes of `needle` against those of `s`
from `i` on, folded. -/
def matchesAt (s needle : Bytes) (i : Nat) : Bool :=
  (List.range needle.length).all fun j => lowerByte (s.getD (i + j) 0) = lowerByte (needle.getD j 0)

def startsWithCi (s needle : Bytes) : Bool := needle.length ≤ s.length && matchesAt s needle 0

def containsCi (s needle : Bytes) : Bool :=
  if needle = [] ∨ s.length < needle.length then false
  else (List.range (s.length - needle.length + 1)).any (matchesAt s needle)

/-- The lambda of `classify_approval`: the verb ends the name, or an underscore follows it. -/
def check (name verb : Bytes) : Bool :=
  startsWithCi name verb && (name.length = verb.length || name[verb.length]? = some (ch '_'))

/-- The `switch` on the folded first byte. -/
def verbsFor (first : UInt8) : List Bytes :=
  if first = ch 'c' then [ascii "check", ascii "count"]
  else if first = ch 'd' then [ascii "describe"]
  else if first = ch 'f' then [ascii "fetch"]
  else if first = ch 'g' then [ascii "get"]
  else if first = ch 'l' then [ascii "list", ascii "lookup"]
  else if first = ch 'q' then [ascii "query"]
  else if first = ch 'r' then [ascii "read"]
  else if first = ch 's' then [ascii "show", ascii "status", ascii "scan", ascii "search"]
  else if first = ch 'v' then [ascii "validate", ascii "view"]
  else []

def classifyApproval (name requiredScope : Bytes) : ApprovalClass :=
  if containsCi requiredScope (ascii "admin") || containsCi requiredScope (ascii "control")
      || containsCi requiredScope (ascii "policy") then .controlPlane
  else match name with
    | [] => .execCapable
    | c0 :: _ => if (verbsFor (lowerByte c0)).any (check name) then .readonly else .execCapable

/-! ## What the header says -/

def controlWords : List Bytes := [ascii "admin", ascii "control", ascii "policy"]

def readonlyVerbs : List Bytes :=
  [ascii "check", ascii "count", ascii "describe", ascii "fetch", ascii "get", ascii "list",
    ascii "lookup", ascii "query",
    ascii "read", ascii "show", ascii "status", ascii "scan", ascii "search", ascii "validate",
    ascii "view"]

/-- One of the control words stands in the scope, in any case. -/
def ControlScope (scope : Bytes) : Prop := ∃ word ∈ controlWords, word <:+: lower scope

/-- The name is the verb in any case, and then ends or goes on with an underscore. -/
def StartsWithVerb (name verb : Bytes) : Prop :=
  ∃ start rest, name = start ++ rest ∧ lower start = verb ∧
    (rest = [] ∨ ∃ more, rest = ch '_' :: more)

def ReadonlyName (name : Bytes) : Prop := ∃ verb ∈ readonlyVerbs, StartsWithVerb name verb

/-! ## Comparing without case -/

theorem lower_length (s : Bytes) : (lower s).length = s.length := by simp [lower]

theorem matchesAt_iff (s needle : Bytes) (i : Nat) (h : i + needle.length ≤ s.length) :
    matchesAt s needle i = true ↔ lower needle <+: (lower s).drop i := by
  rw [List.prefix_iff_getElem]
  simp only [matchesAt, List.all_eq_true, List.mem_range, decide_eq_true_eq, List.length_drop,
    lower_length]
  constructor
  · intro hall
    refine ⟨by omega, ?_⟩
    intro j hj
    have hlt : j < needle.length := by simpa [lower_length] using hj
    have heq := hall j hlt
    rw [List.getD_eq_getElem _ _ (by omega), List.getD_eq_getElem _ _ hlt] at heq
    simp [lower, heq]
  · rintro ⟨_, hall⟩ j hj
    have heq := hall j hj
    rw [List.getD_eq_getElem _ _ (by omega), List.getD_eq_getElem _ _ hj]
    simpa [lower] using heq.symm

theorem startsWithCi_iff (s needle : Bytes) :
    startsWithCi s needle = true ↔ lower needle <+: lower s := by
  unfold startsWithCi
  by_cases h : needle.length ≤ s.length
  · simpa [h] using matchesAt_iff s needle 0 (by omega)
  · have hshort : ¬ lower needle <+: lower s := by
      intro hp
      have := hp.length_le
      rw [lower_length, lower_length] at this
      exact h this
    simp [h, hshort]

theorem containsCi_iff (s needle : Bytes) (hne : needle ≠ []) :
    containsCi s needle = true ↔ lower needle <:+: lower s := by
  unfold containsCi
  by_cases h : s.length < needle.length
  · have hshort : ¬ lower needle <:+: lower s := by
      intro hi
      have := hi.length_le
      rw [lower_length, lower_length] at this
      omega
    simp [h, hshort]
  · rw [if_neg (by simp [hne, h])]
    simp only [List.any_eq_true, List.mem_range]
    constructor
    · rintro ⟨i, hi, hm⟩
      have hp := (matchesAt_iff s needle i (by omega)).mp hm
      exact hp.isInfix.trans (List.drop_suffix i _).isInfix
    · rintro ⟨before, after, heq⟩
      have hlen := congrArg List.length heq
      simp only [List.length_append, lower_length] at hlen
      refine ⟨before.length, by omega, ?_⟩
      rw [matchesAt_iff s needle before.length (by omega), ← heq, List.append_assoc, List.drop_left]
      exact List.prefix_append _ _

/-! ## The verbs -/

theorem check_iff (name verb : Bytes) (hlow : lower verb = verb) :
    check name verb = true ↔ StartsWithVerb name verb := by
  unfold check StartsWithVerb
  rw [Bool.and_eq_true, startsWithCi_iff, hlow]
  constructor
  · rintro ⟨hp, hend⟩
    have hle := hp.length_le
    rw [lower_length] at hle
    refine ⟨name.take verb.length, name.drop verb.length, (List.take_append_drop _ _).symm, ?_, ?_⟩
    · rw [List.prefix_iff_eq_take] at hp
      rw [lower, List.map_take]
      exact hp.symm
    · rw [Bool.or_eq_true, decide_eq_true_eq, decide_eq_true_eq] at hend
      rcases hend with hlen | hunder
      · exact Or.inl (List.drop_eq_nil_of_le (by omega))
      · right
        rw [← List.head?_drop] at hunder
        exact ⟨_, List.eq_cons_of_mem_head? hunder⟩
  · rintro ⟨start, rest, rfl, rfl, hrest⟩
    refine ⟨⟨lower rest, by simp [lower]⟩, ?_⟩
    rcases hrest with rfl | ⟨more, rfl⟩
    · simp [lower_length]
    · simp [lower_length]

theorem readonlyVerbs_lower : ∀ verb ∈ readonlyVerbs, lower verb = verb := by decide

theorem readonlyVerbs_dispatched :
    ∀ verb ∈ readonlyVerbs, verb ≠ [] ∧ verb ∈ verbsFor (verb.headD 0) := by decide

theorem verbsFor_subset (first : UInt8) : verbsFor first ⊆ readonlyVerbs := by
  unfold verbsFor
  split_ifs <;> decide

theorem dispatch_iff (c0 : UInt8) (cs : Bytes) :
    (verbsFor (lowerByte c0)).any (check (c0 :: cs)) = true ↔ ReadonlyName (c0 :: cs) := by
  rw [List.any_eq_true]
  constructor
  · rintro ⟨verb, hmem, hcheck⟩
    have hverb := verbsFor_subset _ hmem
    exact ⟨verb, hverb, (check_iff _ verb (readonlyVerbs_lower verb hverb)).mp hcheck⟩
  · rintro ⟨verb, hverb, hstart⟩
    obtain ⟨hne, hbranch⟩ := readonlyVerbs_dispatched verb hverb
    refine ⟨verb, ?_, (check_iff _ verb (readonlyVerbs_lower verb hverb)).mpr hstart⟩
    obtain ⟨start, rest, hname, rfl, -⟩ := hstart
    cases start with
    | nil => exact absurd rfl hne
    | cons b bs =>
      injection hname with hb
      rw [hb]
      exact hbranch

theorem not_readonlyName_nil : ¬ ReadonlyName [] := by
  rintro ⟨verb, hverb, start, rest, hname, rfl, -⟩
  have hnil := (List.append_eq_nil_iff.mp hname.symm).1
  subst hnil
  exact (readonlyVerbs_dispatched _ hverb).1 rfl

theorem scope_override_iff (scope : Bytes) :
    (containsCi scope (ascii "admin") || containsCi scope (ascii "control") ||
      containsCi scope (ascii "policy")) = true
      ↔ ControlScope scope := by
  have hlow : ∀ word ∈ controlWords, word ≠ [] ∧ lower word = word := by decide
  have heach : ∀ word ∈ controlWords, (containsCi scope word = true ↔ word <:+: lower scope) := by
    intro word hword
    rw [containsCi_iff scope word (hlow word hword).1, (hlow word hword).2]
  unfold ControlScope
  rw [Bool.or_eq_true, Bool.or_eq_true, heach _ (by decide), heach _ (by decide),
    heach _ (by decide)]
  simp only [controlWords, List.exists_mem_cons_iff, List.not_mem_nil, false_and, exists_false,
    or_false, or_assoc]

/-- The dispatch decides what the table of verbs decides. -/
theorem classify_approval_eq_table (name scope : Bytes) :
    (classifyApproval name scope = .controlPlane ↔ ControlScope scope) ∧
      (classifyApproval name scope = .readonly ↔ ¬ ControlScope scope ∧ ReadonlyName name) ∧
      (classifyApproval name scope = .execCapable ↔ ¬ ControlScope scope ∧
        ¬ ReadonlyName name) := by
  unfold classifyApproval
  by_cases hscope : ControlScope scope
  · rw [if_pos ((scope_override_iff scope).mpr hscope)]
    simp [hscope]
  · rw [if_neg (mt (scope_override_iff scope).mp hscope)]
    cases name with
    | nil => simp [hscope, not_readonlyName_nil]
    | cons c0 cs =>
      by_cases hname : ReadonlyName (c0 :: cs)
      · simp only [(dispatch_iff c0 cs).mpr hname]
        simp [hscope, hname]
      · have hno : ¬ (verbsFor (lowerByte c0)).any (check (c0 :: cs)) = true :=
          mt (dispatch_iff c0 cs).mp hname
        simp only [if_neg hno]
        simp [hscope, hname]

/-- The name goes on behind the verb, so it is no verb. -/
example : classifyApproval (ascii "getup_destructive_action") [] = .execCapable := by decide

example : classifyApproval (ascii "GET_status") [] = .readonly := by decide

example : classifyApproval (ascii "list_files") (ascii "session:Control") =
    .controlPlane := by decide

end Euxis.Runtime
