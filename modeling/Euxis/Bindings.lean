import Mathlib.Data.List.Basic
import Mathlib.Data.List.Induction

/-!
# Names that are bound and read

A walk over a program meets names: some are bound to a node, others are read at a node. A reader
reads the last definition of its name before it.
-/

namespace Euxis.Bindings

inductive Event (ν δ : Type) where
  | use (x : ν) (u : δ)
  | bind (x : ν) (d : δ)
  deriving DecidableEq, Repr

variable {ν δ : Type}

/-- Where the name is met. -/
def Event.site : Event ν δ → δ
  | .use _ u => u
  | .bind _ d => d

def definitions (events : List (Event ν δ)) : List (ν × δ) :=
  events.filterMap fun
    | .use _ _ => none
    | .bind x d => some (x, d)

def readers (events : List (Event ν δ)) : List δ :=
  events.filterMap fun
    | .use _ u => some u
    | .bind _ _ => none

/-- Reads, then definitions. -/
def round (uses binds : List (ν × δ)) : List (Event ν δ) :=
  uses.map (fun p => .use p.1 p.2) ++ binds.map fun p => .bind p.1 p.2

theorem mem_definitions {events : List (Event ν δ)} {x : ν} {d : δ} :
    (x, d) ∈ definitions events ↔ .bind x d ∈ events := by
  rw [definitions, List.mem_filterMap]
  constructor
  · rintro ⟨e, he, h⟩
    cases e with
    | use y u => cases h
    | bind y d' =>
      obtain ⟨rfl, rfl⟩ := Prod.mk.inj (Option.some.inj h)
      exact he
  · intro h
    exact ⟨_, h, rfl⟩

theorem mem_readers {events : List (Event ν δ)} {u : δ} :
    u ∈ readers events ↔ ∃ x, .use x u ∈ events := by
  rw [readers, List.mem_filterMap]
  constructor
  · rintro ⟨e, he, h⟩
    cases e with
    | use y v =>
      obtain rfl := Option.some.inj h
      exact ⟨y, he⟩
    | bind y d => cases h
  · rintro ⟨x, h⟩
    exact ⟨_, h, rfl⟩

@[simp]
theorem definitions_append (es fs : List (Event ν δ)) :
    definitions (es ++ fs) = definitions es ++ definitions fs :=
  List.filterMap_append

@[simp]
theorem readers_append (es fs : List (Event ν δ)) : readers (es ++ fs) = readers es ++ readers fs :=
  List.filterMap_append

theorem definitions_flatMap {ι : Type} (l : List ι) (f : ι → List (Event ν δ)) :
    definitions (l.flatMap f) = l.flatMap fun i => definitions (f i) := by
  induction l with
  | nil => rfl
  | cons i rest ih => rw [List.flatMap_cons, definitions_append, ih, List.flatMap_cons]

theorem readers_flatMap {ι : Type} (l : List ι) (f : ι → List (Event ν δ)) :
    readers (l.flatMap f) = l.flatMap fun i => readers (f i) := by
  induction l with
  | nil => rfl
  | cons i rest ih => rw [List.flatMap_cons, readers_append, ih, List.flatMap_cons]

theorem definitions_round (uses binds : List (ν × δ)) : definitions (round uses binds) = binds := by
  have huses : definitions (uses.map fun p => (.use p.1 p.2 : Event ν δ)) = [] := by
    rw [definitions, List.filterMap_map]
    exact List.filterMap_eq_nil_iff.mpr fun _ _ => rfl
  have hbinds : definitions (binds.map fun p => (.bind p.1 p.2 : Event ν δ)) = binds := by
    rw [definitions, List.filterMap_map]
    exact List.filterMap_some
  rw [round, definitions_append, huses, hbinds, List.nil_append]

theorem round_of_uses {events : List (Event ν δ)} (h : definitions events = []) :
    ∃ uses, events = round uses [] := by
  induction events with
  | nil => exact ⟨[], rfl⟩
  | cons e rest ih =>
    cases e with
    | use x u =>
      obtain ⟨uses, huses⟩ := ih h
      exact ⟨(x, u) :: uses, by rw [huses]; rfl⟩
    | bind x d => cases h

/-! ## The last definition -/

section Last

variable [DecidableEq ν]

def lastOf (defs : List (ν × δ)) (x : ν) : Option δ := defs.reverse.lookup x

@[simp]
theorem lastOf_nil (x : ν) : lastOf ([] : List (ν × δ)) x = none := rfl

theorem lastOf_append (before after : List (ν × δ)) (x : ν) :
    lastOf (before ++ after) x = (lastOf after x).or (lastOf before x) := by
  rw [lastOf, List.reverse_append, List.lookup_append]
  rfl

theorem lastOf_singleton (y : ν) (d : δ) (x : ν) : lastOf [(y, d)] x = if y = x then some d
    else none := by
  by_cases h : y = x
  · simp [lastOf, h]
  · have hne : (x == y) = false := beq_eq_false_iff_ne.mpr (Ne.symm h)
    simp [lastOf, List.lookup_cons, hne, h]

theorem lastOf_eq_none {defs : List (ν × δ)} {x : ν} :
    lastOf defs x = none ↔ x ∉ defs.map (·.1) := by
  rw [lastOf, List.lookup_eq_none_iff]
  constructor
  · intro h hx
    obtain ⟨p, hp, rfl⟩ := List.mem_map.mp hx
    simpa using h p (List.mem_reverse.mpr hp)
  · rintro h ⟨y, d⟩ hd
    rw [List.mem_reverse] at hd
    apply bne_iff_ne.mpr
    rintro rfl
    exact h (List.mem_map_of_mem hd)

theorem exists_lastOf {defs : List (ν × δ)} {x : ν} (h : x ∈ defs.map (·.1)) :
    ∃ d, lastOf defs x = some d := by
  cases hlast : lastOf defs x with
  | none => exact absurd h (lastOf_eq_none.mp hlast)
  | some d => exact ⟨d, rfl⟩

theorem mem_of_lastOf {defs : List (ν × δ)} {x : ν} {d : δ} (h : lastOf defs x = some d) :
    (x, d) ∈ defs := by
  obtain ⟨before, after, heq, -⟩ := List.lookup_eq_some_iff.mp h
  rw [← List.mem_reverse, heq]
  simp

end Last

/-! ## What is read -/

section Reads

variable [DecidableEq ν] {start : List (ν × δ)} {es fs : List (Event ν δ)} {x : ν} {d u : δ}

/-- At `u` the name is read, and `d` is its last definition before that, or in `start` if there is
none. -/
def Reads (start : List (ν × δ)) (events : List (Event ν δ)) (x : ν) (d u : δ) : Prop :=
  ∃ before after, events = before ++ .use x u :: after ∧
    lastOf (start ++ definitions before) x = some d

theorem reads_append : Reads start (es ++ fs) x d u ↔ Reads start es x d u ∨
    Reads (start ++ definitions es) fs x d u := by
  constructor
  · rintro ⟨before, after, heq, hlast⟩
    rcases List.append_eq_append_iff.mp heq.symm with ⟨rest, hes, hfs⟩ | ⟨rest, hbefore, hfs⟩
    · cases rest with
      | nil =>
        rw [List.append_nil] at hes
        subst hes
        refine Or.inr ⟨[], after, hfs.symm, ?_⟩
        simpa [definitions] using hlast
      | cons e rest =>
        obtain ⟨rfl, -⟩ := List.cons.inj hfs
        exact Or.inl ⟨before, rest, hes, hlast⟩
    · subst hbefore
      refine Or.inr ⟨rest, after, hfs, ?_⟩
      rwa [definitions_append, ← List.append_assoc] at hlast
  · rintro (⟨before, after, rfl, hlast⟩ | ⟨before, after, rfl, hlast⟩)
    · exact ⟨before, after ++ fs, by simp, hlast⟩
    · exact ⟨es ++ before, after, by simp, by rwa [definitions_append, ← List.append_assoc]⟩

theorem not_reads_nil : ¬ Reads start [] x d u := by
  rintro ⟨before, after, heq, -⟩
  exact List.cons_ne_nil _ _ (List.append_eq_nil_iff.mp heq.symm).2

theorem reads_use (y : ν) (v : δ) : Reads start [.use y v] x d u ↔ y = x ∧ v = u ∧
    lastOf start x = some d := by
  constructor
  · rintro ⟨before, after, heq, hlast⟩
    cases before with
    | nil =>
      obtain ⟨heq, -⟩ := List.cons.inj heq
      obtain ⟨rfl, rfl⟩ := Event.use.inj heq
      simpa [definitions] using hlast
    | cons e rest => simp at heq
  · rintro ⟨rfl, rfl, hlast⟩
    exact ⟨[], [], rfl, by simpa [definitions] using hlast⟩

theorem reads_cons (e : Event ν δ) : Reads start (e :: es) x d u ↔
    Reads start [e] x d u ∨ Reads (start ++ definitions [e]) es x d u := by
  rw [← reads_append, List.singleton_append]

theorem Reads.after (h : Reads [] es x d u) (start : List (ν × δ)) : Reads start es x d u := by
  obtain ⟨before, after, heq, hlast⟩ := h
  refine ⟨before, after, heq, ?_⟩
  rw [lastOf_append, show lastOf (definitions before) x = some d from hlast]
  rfl

theorem Reads.cases (h : Reads start es x d u) : Reads [] es x d u ∨ lastOf start x = some d := by
  obtain ⟨before, after, heq, hlast⟩ := h
  rw [lastOf_append] at hlast
  cases hbefore : lastOf (definitions before) x with
  | none =>
    rw [hbefore] at hlast
    exact Or.inr hlast
  | some d' =>
    rw [hbefore] at hlast
    obtain rfl := Option.some.inj hlast
    exact Or.inl ⟨before, after, heq, hbefore⟩

theorem Reads.use_mem (h : Reads start es x d u) : .use x u ∈ es := by
  obtain ⟨before, after, rfl, -⟩ := h
  simp

theorem Reads.bind_mem (h : Reads [] es x d u) : .bind x d ∈ es := by
  obtain ⟨before, after, rfl, hlast⟩ := h
  exact List.mem_append_left _ (mem_definitions.mp (mem_of_lastOf hlast))

theorem reads_uses (uses : List (ν × δ)) :
    Reads start (uses.map fun p => .use p.1 p.2) x d u ↔ (x, u) ∈ uses ∧
      lastOf start x = some d := by
  induction uses with
  | nil => simp [not_reads_nil]
  | cons p rest ih =>
    obtain ⟨y, v⟩ := p
    rw [List.map_cons, reads_cons, reads_use, show definitions [(.use y v : Event ν δ)] = [] from
      rfl, List.append_nil, ih, List.mem_cons, Prod.mk.injEq]
    constructor
    · rintro (⟨rfl, rfl, hlast⟩ | ⟨hmem, hlast⟩)
      · exact ⟨Or.inl ⟨rfl, rfl⟩, hlast⟩
      · exact ⟨Or.inr hmem, hlast⟩
    · rintro ⟨⟨rfl, rfl⟩ | hmem, hlast⟩
      · exact Or.inl ⟨rfl, rfl, hlast⟩
      · exact Or.inr ⟨hmem, hlast⟩

theorem not_reads_binds (binds : List (ν × δ)) :
    ¬ Reads start (binds.map fun p => .bind p.1 p.2) x d u := by
  intro h
  obtain ⟨p, -, hp⟩ := List.mem_map.mp h.use_mem
  cases hp

theorem reads_round (uses binds : List (ν × δ)) :
    Reads start (round uses binds) x d u ↔ (x, u) ∈ uses ∧ lastOf start x = some d := by
  rw [round, reads_append, reads_uses]
  exact or_iff_left (not_reads_binds binds)

theorem reads_chunks {ι : Type} (chunks : List ι) (events : ι → List (Event ν δ))
    (hround : ∀ i ∈ chunks, ∃ uses binds, events i = round uses binds) :
    Reads start (chunks.flatMap events) x d u ↔
      ∃ before i after, chunks = before ++ i :: after ∧ .use x u ∈ events i ∧
        lastOf (start ++ before.flatMap fun i => definitions (events i)) x = some d := by
  induction chunks generalizing start with
  | nil => simp [not_reads_nil]
  | cons i rest ih =>
    -- Inside a chunk all reads come first, so they see what was bound before the chunk.
    have hone : Reads start (events i) x d u ↔ .use x u ∈ events i ∧ lastOf start x = some d := by
      obtain ⟨uses, binds, hi⟩ := hround i List.mem_cons_self
      rw [hi, reads_round]
      simp [round]
    rw [List.flatMap_cons, reads_append, hone, ih fun i hi => hround i (List.mem_cons_of_mem _ hi)]
    constructor
    · rintro (⟨hmem, hlast⟩ | ⟨before, j, after, rfl, hmem, hlast⟩)
      · exact ⟨[], i, rest, rfl, hmem, by simpa using hlast⟩
      · exact ⟨i :: before, j, after, rfl, hmem, by simpa using hlast⟩
    · rintro ⟨before, j, after, heq, hmem, hlast⟩
      cases before with
      | nil =>
        obtain ⟨rfl, rfl⟩ := List.cons.inj heq
        exact Or.inl ⟨hmem, by simpa using hlast⟩
      | cons k before =>
        obtain ⟨rfl, rfl⟩ := List.cons.inj heq
        exact Or.inr ⟨before, j, after, rfl, hmem, by simpa using hlast⟩

end Reads

/-! ## Two ways to bind -/

section Binders

variable {ι : Type} (node : ι → δ) (names bound : ι → List ν)

/-- Each item binds its names to its node. -/
def binders (items : List ι) : List (ν × δ) := items.flatMap fun i => (names i).map (·, node i)

/-- An item that binds the name without defining it is followed by one that defines it. -/
def Restored (items : List ι) (x : ν) : Prop :=
  ∀ before i after, items = before ++ i :: after → x ∈ bound i → x ∉ names i →
    ∃ j ∈ after, x ∈ names j

theorem binders_concat (items : List ι) (i : ι) :
    binders node names (items ++ [i]) = binders node names items ++ (names i).map (·, node i) := by
  simp [binders]

theorem mem_binders {items : List ι} {x : ν} {d : δ} :
    (x, d) ∈ binders node names items ↔ ∃ i ∈ items, x ∈ names i ∧ node i = d := by
  simp [binders]

theorem mem_binders_names {items : List ι} {x : ν} :
    x ∈ (binders node names items).map (·.1) ↔ ∃ i ∈ items, x ∈ names i := by
  simp [binders]

theorem not_mem_append_binders {start : List (ν × δ)} {items : List ι} {x : ν} :
    x ∉ (start ++ binders node names items).map (·.1) ↔ x ∉ start.map (·.1) ∧
      ∀ i ∈ items, x ∉ names i := by
  rw [List.map_append, List.mem_append, not_or, mem_binders_names]
  simp

theorem lastOf_item [DecidableEq ν] (xs : List ν) (d : δ) (x : ν) :
    lastOf (xs.map (·, d)) x = if x ∈ xs then some d else none := by
  cases hlast : lastOf (xs.map (·, d)) x with
  | none =>
    have hx := lastOf_eq_none.mp hlast
    rw [if_neg (by simpa using hx)]
  | some d' =>
    obtain ⟨y, hy, heq⟩ := List.mem_map.mp (mem_of_lastOf hlast)
    obtain ⟨rfl, rfl⟩ := Prod.mk.inj heq
    rw [if_pos hy]

variable {names bound}

theorem restored_nil (x : ν) : Restored names bound ([] : List ι) x := by
  intro before i after heq
  cases before <;> cases heq

theorem restored_concat {items : List ι} {i : ι} {x : ν} :
    Restored names bound (items ++ [i]) x ↔ x ∈ names i ∨
      (x ∉ bound i ∧ Restored names bound items x) := by
  constructor
  · intro h
    by_cases hx : x ∈ names i
    · exact Or.inl hx
    · refine Or.inr ⟨?_, ?_⟩
      · intro hb
        obtain ⟨j, hj, -⟩ := h items i [] rfl hb hx
        cases hj
      · rintro before k after rfl hb hk
        obtain ⟨j, hj, hxj⟩ := h before k (after ++ [i]) (by simp) hb hk
        rcases List.mem_append.mp hj with hj | hj
        · exact ⟨j, hj, hxj⟩
        · rw [List.mem_singleton.mp hj] at hxj
          exact absurd hxj hx
  · intro h before k after heq hb hk
    -- The item in question is the new one, or the new one may be what restores it.
    rcases List.eq_nil_or_concat' after with rfl | ⟨after, j, rfl⟩
    · obtain ⟨-, rfl⟩ := List.append_inj' heq rfl |>.imp id fun h => (List.cons.inj h).1
      rcases h with h | ⟨h, -⟩
      · exact absurd h hk
      · exact absurd hb h
    · rw [← List.cons_append, ← List.append_assoc] at heq
      obtain ⟨hitems, hj⟩ := List.append_inj' heq rfl
      obtain rfl := (List.cons.inj hj).1
      rcases h with h | ⟨-, h⟩
      · exact ⟨i, by simp, h⟩
      · obtain ⟨j, hj, hxj⟩ := h before k after hitems hb hk
        exact ⟨j, List.mem_append_left _ hj, hxj⟩

/-- Items that bind more names than they define, behind `extra` definitions: the last definition of
a name is the right one when each wrong one is followed by a right one. -/
theorem lastOf_binders_eq_iff [DecidableEq ν] {start extra : List (ν × δ)} {items : List ι} {x : ν}
    (hsub : ∀ i ∈ items, names i ⊆ bound i) (hnodes : items.Pairwise (node · ≠ node ·))
    (hstart : ∀ i ∈ items, (x, node i) ∉ start) (hextra : ∀ d, (x, d) ∈ start → (x, d) ∉ extra) :
    lastOf (start ++ extra ++ binders node bound items) x =
      lastOf (start ++ binders node names items) x ↔
      (x ∈ extra.map (·.1) → ∃ i ∈ items, x ∈ names i) ∧ Restored names bound items x := by
  induction items using List.reverseRecOn with
  | nil =>
    simp only [binders, List.flatMap_nil, List.append_nil, List.not_mem_nil, false_and,
      exists_false, restored_nil, and_true, imp_false]
    rw [lastOf_append, ← lastOf_eq_none]
    cases hlast : lastOf extra x with
    | none => simp
    | some d =>
      simp only [Option.some_or, reduceCtorEq, iff_false]
      intro heq
      exact hextra d (mem_of_lastOf heq.symm) (mem_of_lastOf hlast)
  | append_singleton items i ih =>
    obtain ⟨hbefore, -, hlater⟩ := List.pairwise_append.mp hnodes
    have ih := ih (fun j hj => hsub j (List.mem_append_left _ hj)) hbefore
      fun j hj => hstart j (List.mem_append_left _ hj)
    rw [binders_concat, binders_concat, ← List.append_assoc, ← List.append_assoc,
      lastOf_append _ ((bound i).map _),
      lastOf_append _ ((names i).map _), lastOf_item, lastOf_item, restored_concat]
    by_cases hx : x ∈ names i
    · have hb := hsub i (by simp) hx
      simp only [hx, hb, if_true, Option.some_or, true_or, and_true, true_iff]
      exact fun _ => ⟨i, by simp, hx⟩
    · by_cases hb : x ∈ bound i
      · -- The item binds the name wrongly, and nothing comes after it.
        simp only [hx, hb, if_true, if_false, Option.some_or, Option.none_or, not_true, false_and,
          or_self, and_false, iff_false]
        intro heq
        rcases List.mem_append.mp (mem_of_lastOf heq.symm) with hmem | hmem
        · exact hstart i (by simp) hmem
        · obtain ⟨j, hj, -, hnode⟩ := (mem_binders node names).mp hmem
          exact hlater j hj i (List.mem_singleton_self i) hnode
      · simp only [hx, hb, if_false, Option.none_or, not_false_eq_true, true_and, false_or, ih,
          List.mem_append, List.mem_singleton]
        refine and_congr_left fun _ => imp_congr_right fun _ => exists_congr fun j => ?_
        constructor
        · rintro ⟨hj, hxj⟩
          exact ⟨Or.inl hj, hxj⟩
        · rintro ⟨hj | rfl, hxj⟩
          · exact ⟨hj, hxj⟩
          · exact absurd hxj hx

end Binders

end Euxis.Bindings
