import Mathlib.Data.List.Basic
import Mathlib.Data.List.Infix

/-!
# Names behind separators

A sequence of names written as one text, each behind a separator, and perhaps one more separator at
the end. When such a text is a prefix of another one, either the names are a prefix or the last name
goes on in the longer text.
-/

namespace Euxis.Delimited

variable {α : Type} {sep : α}

/-- A name that can be read back. -/
structure Name (sep : α) (name : List α) : Prop where
  ne_nil : name ≠ []
  free : sep ∉ name

/-- Each name behind a separator. -/
def spell (sep : α) (names : List (List α)) : List α := names.flatMap (sep :: ·)

/-- The last name is the beginning of a longer one in the same place. -/
def GoesOn (names names' : List (List α)) : Prop :=
  ∃ init final more rest, more ≠ [] ∧ names = init ++ [final] ∧
    names' = init ++ (final ++ more) :: rest

/-- The text is empty or starts with a separator. -/
def AtSep (sep : α) (text : List α) : Prop := text = [] ∨ text.head? = some sep

/-- What may stand behind the last name. -/
def Final (sep : α) (tail : List α) : Prop := tail = [] ∨ tail = [sep]

theorem Final.atSep {tail : List α} (h : Final sep tail) : AtSep sep tail := by
  rcases h with rfl | rfl
  · exact Or.inl rfl
  · exact Or.inr rfl

@[simp]
theorem spell_nil : spell sep [] = [] := rfl

@[simp]
theorem spell_cons (name : List α) (names : List (List α)) :
    spell sep (name :: names) = sep :: (name ++ spell sep names) := rfl

theorem spell_append (names names' : List (List α)) :
    spell sep (names ++ names') = spell sep names ++ spell sep names' :=
  List.flatMap_append

theorem sep_intercalate (names : List (List α)) (h : names ≠ []) :
    sep :: [sep].intercalate names = spell sep names := by
  induction names with
  | nil => exact absurd rfl h
  | cons name rest ih =>
    cases rest with
    | nil => simp [spell]
    | cons next more =>
      rw [spell_cons, ← ih (by simp)]
      simp [List.intercalate]

theorem atSep_spell (names : List (List α)) {tail : List α} (htail : AtSep sep tail) :
    AtSep sep (spell sep names ++ tail) := by
  cases names with
  | nil => exact htail
  | cons name rest => exact Or.inr rfl

/-! ## Prefixes -/

theorem free_prefix {p p' u : List α} (hp : sep ∉ p) (hu : AtSep sep u) (h : p <+: p' ++ u) :
    p <+: p' := by
  induction p generalizing p' with
  | nil => exact List.nil_prefix
  | cons a p ih =>
    rw [List.mem_cons, not_or] at hp
    cases p' with
    | nil =>
      rcases hu with rfl | hhead
      · exact h
      · obtain ⟨more, hmore⟩ := h
        rw [List.nil_append] at hmore
        rw [← hmore] at hhead
        exact absurd (Option.some.inj hhead).symm hp.1
    | cons b p' =>
      rw [List.cons_append, List.cons_prefix_cons] at h
      rw [List.cons_prefix_cons]
      exact ⟨h.1, ih hp.2 h.2⟩

theorem sep_prefix {p p' u x : List α} (hp : sep ∉ p) (hp' : sep ∉ p') (hu : AtSep sep u)
    (h : p ++ sep :: x <+: p' ++ u) : p = p' ∧ sep :: x <+: u := by
  obtain ⟨more, rfl⟩ := free_prefix hp hu ((List.prefix_append p (sep :: x)).trans h)
  rw [List.append_assoc, List.prefix_append_right_inj] at h
  cases more with
  | nil => simpa using h
  | cons c more =>
    rw [List.cons_append, List.cons_prefix_cons] at h
    exact absurd (by simp [h.1]) hp'

variable {names names' : List (List α)} {tail : List α}

theorem prefix_or_goesOn (hn : ∀ name ∈ names, Name sep name) (hn' : ∀ name ∈ names', Name sep name)
    (htail : Final sep tail) (h : spell sep names <+: spell sep names' ++ tail) :
    names <+: names' ∨ GoesOn names names' := by
  induction names generalizing names' with
  | nil => exact Or.inl List.nil_prefix
  | cons name rest ih =>
    have hname := hn name List.mem_cons_self
    cases names' with
    | nil =>
      have hlen := h.length_le
      have hpos := List.length_pos_of_ne_nil hname.ne_nil
      have hone : tail.length ≤ 1 := by rcases htail with rfl | rfl <;> simp
      simp only [spell_cons, spell_nil, List.nil_append, List.length_cons, List.length_append]
        at hlen
      omega
    | cons name' rest' =>
      have hname' := hn' name' List.mem_cons_self
      rw [spell_cons, spell_cons, List.cons_append, List.cons_prefix_cons, List.append_assoc] at h
      cases rest with
      | nil =>
        -- Only the last name can go on: behind any other the prefix has its separator.
        obtain ⟨more, rfl⟩ :=
          free_prefix hname.free (atSep_spell rest' htail.atSep) (by simpa using h.2)
        cases more with
        | nil => exact Or.inl (by simp)
        | cons c more => exact Or.inr ⟨[], name, c :: more, rest', by simp, rfl, rfl⟩
      | cons next rest =>
        obtain ⟨rfl, hrest⟩ := sep_prefix hname.free hname'.free (atSep_spell rest' htail.atSep) h.2
        rcases ih (fun n hmem => hn n (List.mem_cons_of_mem _ hmem))
          (fun n hmem => hn' n (List.mem_cons_of_mem _ hmem)) hrest
          with hp | ⟨init, final, more, after, hne, hlast, hafter⟩
        · exact Or.inl (List.cons_prefix_cons.mpr ⟨rfl, hp⟩)
        · exact Or.inr ⟨name :: init, final, more, after,
            hne, by rw [hlast]; rfl, by rw [hafter]; rfl⟩

theorem spell_prefix_of_goesOn (h : GoesOn names names') :
    spell sep names <+: spell sep names' := by
  obtain ⟨init, final, more, rest, -, rfl, rfl⟩ := h
  refine ⟨more ++ spell sep rest, ?_⟩
  simp [spell_append]

theorem GoesOn.getLast_ne (hn : ∀ name ∈ names, Name sep name) (h : GoesOn names names') :
    (spell sep names).getLast? ≠ some sep := by
  obtain ⟨init, final, -, -, -, rfl, -⟩ := h
  have hfinal := hn final (by simp)
  intro hlast
  have hmem : sep ∈ final.getLast? := by
    rw [spell_append, spell_cons, spell_nil, List.append_nil,
      List.getLast?_append_of_ne_nil _ (by simp),
      List.getLast?_cons, List.getLast?_eq_getLast_of_ne_nil hfinal.ne_nil] at hlast
    rw [List.getLast?_eq_getLast_of_ne_nil hfinal.ne_nil]
    exact hlast
  exact hfinal.free (List.mem_of_getLast? hmem)

theorem GoesOn.not_prefix (h : GoesOn names names') : ¬ names <+: names' := by
  obtain ⟨init, final, more, rest, hne, rfl, rfl⟩ := h
  intro hp
  rw [List.prefix_append_right_inj, List.cons_prefix_cons] at hp
  exact hne (by simpa using hp.1)

theorem prefix_of_sep (hn : ∀ name ∈ names, Name sep name) (hn' : ∀ name ∈ names', Name sep name)
    (htail : Final sep tail) (h : spell sep names ++ [sep] <+: spell sep names' ++ tail) :
    names <+: names' := by
  rcases prefix_or_goesOn hn hn' htail ((List.prefix_append _ _).trans h)
    with hp | ⟨init, final, more, rest, hne, rfl, rfl⟩
  · exact hp
  · have hfree := (hn' (final ++ more) (by simp)).free
    obtain ⟨c, more, rfl⟩ := List.exists_cons_of_ne_nil hne
    simp only [spell_append, spell_cons, spell_nil, List.append_assoc, List.cons_append,
      List.nil_append, List.prefix_append_right_inj, List.cons_prefix_cons, true_and] at h
    exact absurd (by simp [h.1]) hfree

/-! ## Reading the names -/

/-- What stands between separators, without the empty pieces. -/
def namesOf [DecidableEq α] (sep : α) (text : List α) : List (List α) :=
  (text.splitOn sep).filter (· ≠ [])

theorem namesOf_sep [DecidableEq α] (text : List α) :
    namesOf sep (sep :: text) = namesOf sep text := by
  have hsplit := List.splitOn_append_cons_self (a := sep) [] text
  rw [List.nil_append] at hsplit
  simp [namesOf, hsplit]

theorem namesOf_name [DecidableEq α] {name text : List α} (hname : Name sep name)
    (htext : AtSep sep text) : namesOf sep (name ++ text) = name :: namesOf sep text := by
  have hone := List.splitOn_eq_singleton hname.free
  rcases htext with rfl | hhead
  · simp [namesOf, hone, hname.ne_nil]
  · obtain ⟨more, rfl⟩ := List.head?_eq_some_iff.mp hhead
    rw [namesOf_sep]
    simp [namesOf, List.splitOn_append_cons_self, hone, hname.ne_nil]

theorem namesOf_spell [DecidableEq α] (hn : ∀ name ∈ names, Name sep name)
    (htail : Final sep tail) : namesOf sep (spell sep names ++ tail) = names := by
  have hnone : namesOf sep tail = [] := by
    rcases htail with rfl | rfl
    · simp [namesOf]
    · rw [namesOf_sep]
      simp [namesOf]
  induction names with
  | nil => exact hnone
  | cons name rest ih =>
    rw [spell_cons, List.cons_append, namesOf_sep, List.append_assoc,
      namesOf_name (hn name List.mem_cons_self) (atSep_spell rest htail.atSep),
      ih fun n hmem => hn n (List.mem_cons_of_mem _ hmem)]

end Euxis.Delimited
