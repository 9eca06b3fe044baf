import Mathlib.Data.List.Dedup
import Mathlib.Data.Option.Basic

/-!
# Runs of a step function

A system takes one event at a time, and an event may be impossible in a state. A condition on the
state and the next event narrows the runs: what holds of every state such runs reach is shown one
step at a time. Behind the runs come their histories: what holds because of one event, and which
values were used last.
-/

namespace Euxis.Trace

variable {σ ε : Type} (step : σ → ε → Option σ) (ok : σ → ε → Prop)

/-- The states that runs from `start` reach, all of whose events meet `ok`. -/
inductive Reaches (start : σ) : σ → Prop where
  | start : Reaches start start
  | next {s s' : σ} (e : ε) : Reaches start s → ok s e → step s e = some s' → Reaches start s'

variable {step ok}

theorem Reaches.keeps (inv : σ → Prop) {start s : σ} (h : Reaches step ok start s) (h0 : inv start)
    (hstep : ∀ s e s', inv s → ok s e → step s e = some s' → inv s') : inv s := by
  induction h with
  | start => exact h0
  | next e _ hok hnext ih => exact hstep _ e _ ih hok hnext

theorem Reaches.trans {start s s' : σ} (h : Reaches step ok start s) (h' : Reaches step ok s s') :
    Reaches step ok start s' := by
  induction h' with
  | start => exact h
  | next e _ hok hnext ih => exact ih.next e hok hnext

theorem Reaches.mono {ok' : σ → ε → Prop} (himp : ∀ s e, ok s e → ok' s e) {start s : σ}
    (h : Reaches step ok start s) : Reaches step ok' start s := by
  induction h with
  | start => exact .start
  | next e _ hok hnext ih => exact ih.next e (himp _ e hok) hnext

variable (step ok)

/-- The state after a list of events, when each one is possible and meets the condition. -/
def run [∀ s e, Decidable (ok s e)] (s : σ) : List ε → Option σ
  | [] => some s
  | e :: es => if ok s e then (step s e).bind fun s' => run s' es else none

variable {step ok}

theorem Reaches.of_run [∀ s e, Decidable (ok s e)] {start s s' : σ} (es : List ε)
    (h : Reaches step ok start s) (hrun : run step ok s es = some s') :
    Reaches step ok start s' := by
  induction es generalizing s with
  | nil =>
    simp only [run, Option.some.injEq] at hrun
    rw [← hrun]
    exact h
  | cons e es ih =>
    unfold run at hrun
    split at hrun
    · rename_i hok
      obtain ⟨s1, h1, hrest⟩ := Option.bind_eq_some_iff.mp hrun
      exact ih (h.next e hok h1) hrest
    · exact absurd hrun (by simp)

/-! ## What is seen along a run -/

section Seen

variable {ω : Type} (step) (see : σ → ε → List ω)

/-- What the events of a run show, in order. -/
def seen (s : σ) : List ε → List ω
  | [] => []
  | e :: es => see s e ++ ((step s e).map fun s' => seen s' es).getD []

variable {step see}

theorem run_seen [∀ s e, Decidable (ok s e)] (rel : σ → List ω → Prop)
    (hstep : ∀ s e s' before, rel s before → step s e = some s' → rel s' (before ++ see s e))
    (es : List ε) (s s' : σ) (before : List ω) (hrel : rel s before)
    (hrun : run step ok s es = some s') : rel s' (before ++ seen step see s es) := by
  induction es generalizing s before with
  | nil =>
    simp only [run, Option.some.injEq] at hrun
    subst hrun
    simpa [seen] using hrel
  | cons e es ih =>
    unfold run at hrun
    split at hrun
    · obtain ⟨s1, h1, hrest⟩ := Option.bind_eq_some_iff.mp hrun
      have hrest := ih s1 (before ++ see s e) (hstep s e s1 before hrel h1) hrest
      simpa [seen, h1] using hrest
    · exact absurd hrun (by simp)

end Seen

/-! ## Steps that are always possible -/

section Total

variable (move : σ → ε → σ)

/-- The property holds in every state of the run. -/
def Always (P : σ → Prop) (s : σ) : List ε → Prop
  | [] => P s
  | e :: es => P s ∧ Always P (move s e) es

/-- Each event is good in the state that it meets. -/
def Each (good : σ → ε → Prop) (s : σ) : List ε → Prop
  | [] => True
  | e :: es => good s e ∧ Each good (move s e) es

variable {move} {P aux : σ → Prop} {good : σ → ε → Prop}

theorem Always.head {s : σ} {es : List ε} (h : Always move P s es) : P s := by
  cases es with
  | nil => exact h
  | cons e es => exact h.1

/-- When the good events are those that keep the property, the runs that keep it are those of good
events. -/
theorem always_iff_each (haux : ∀ s e, aux s → aux (move s e))
    (hstep : ∀ s e, aux s → P s → (P (move s e) ↔ good s e)) (es : List ε) (s : σ) (h : aux s)
    (hP : P s) : Always move P s es ↔ Each move good s es := by
  induction es generalizing s with
  | nil => exact ⟨fun _ => trivial, fun _ => hP⟩
  | cons e es ih =>
    constructor
    · rintro ⟨-, hrest⟩
      exact ⟨(hstep s e h hP).mp hrest.head, (ih _ (haux s e h) hrest.head).mp hrest⟩
    · rintro ⟨hgood, hrest⟩
      have hnext := (hstep s e h hP).mpr hgood
      exact ⟨hP, (ih _ (haux s e h) hnext).mpr hrest⟩

theorem each_iff_forall {p : ε → Prop} (es : List ε) (s : σ) :
    Each move (fun _ e => p e) s es ↔ ∀ e ∈ es, p e := by
  induction es generalizing s with
  | nil => simp [Each]
  | cons e es ih => rw [Each, ih, List.forall_mem_cons]

end Total

/-! ## One party of several steps -/

theorem getElem?_set_cases {γ : Type} {l : List γ} {t t' : Nat} {x y : γ}
    (h : (l.set t x)[t']? = some y) : (t' = t ∧ y = x) ∨ (t' ≠ t ∧ l[t']? = some y) := by
  rw [List.getElem?_set] at h
  split at h
  · rename_i heq
    split at h
    · rw [Option.some.injEq] at h
      exact Or.inl ⟨heq.symm, h.symm⟩
    · exact absurd h (by simp)
  · rename_i hne
    exact Or.inr ⟨fun heq => hne heq.symm, h⟩

end Euxis.Trace

namespace Euxis

/-! ## Since an event -/

variable {ε : Type} {P Q : ε → Prop}

/-- There is an event with `P`, and every event behind it has `Q`. -/
def Since (P Q : ε → Prop) (history : List ε) : Prop :=
  ∃ before e later, history = before ++ e :: later ∧ P e ∧ ∀ x ∈ later, Q x

theorem not_since_nil : ¬ Since P Q [] := by
  rintro ⟨before, e, later, h, -⟩
  exact absurd h (by simp)

theorem since_concat (history : List ε) (e : ε) :
    Since P Q (history ++ [e]) ↔ P e ∨ (Since P Q history ∧ Q e) := by
  constructor
  · rintro ⟨before, a, later, h, ha, hlater⟩
    rcases List.eq_nil_or_concat later with rfl | ⟨rest, last, rfl⟩
    · obtain ⟨-, hlast⟩ := List.append_inj' h rfl
      rw [(List.cons.inj hlast).1]
      exact Or.inl ha
    · rw [List.concat_eq_append, ← List.cons_append, ← List.append_assoc] at h
      obtain ⟨hhistory, hlast⟩ := List.append_inj' h rfl
      rw [(List.cons.inj hlast).1]
      rw [List.concat_eq_append] at hlater
      refine Or.inr ⟨⟨before, a, rest, hhistory, ha,
        fun x hx => hlater x (List.mem_append_left _ hx)⟩, ?_⟩
      exact hlater last (List.mem_append_right _ (List.mem_singleton_self last))
  · rintro (he | ⟨⟨before, a, later, rfl, ha, hlater⟩, he⟩)
    · exact ⟨history, e, [], rfl, he, by simp⟩
    · refine ⟨before, a, later ++ [e], by simp, ha, ?_⟩
      intro x hx
      rcases List.mem_append.mp hx with hx | hx
      · exact hlater x hx
      · rw [List.mem_singleton.mp hx]
        exact he

end Euxis

namespace Euxis.Recency

/-! ## The most recently used -/

variable {α : Type} [DecidableEq α]

theorem dedup_concat (history : List α) (a : α) :
    (history ++ [a]).dedup = history.dedup.filter (· ≠ a) ++ [a] := by
  induction history with
  | nil => rfl
  | cons x rest ih =>
    rw [List.cons_append]
    by_cases hx : x ∈ rest
    · rw [List.dedup_cons_of_mem (List.mem_append_left _ hx), List.dedup_cons_of_mem hx, ih]
    · rw [List.dedup_cons_of_notMem hx]
      by_cases ha : x = a
      · rw [List.dedup_cons_of_mem (by simp [ha]), ih]
        simp [ha]
      · rw [List.dedup_cons_of_notMem (by simp [hx, ha]), ih]
        simp [ha]

/-- The values of the list were used after all other values of the history, and stand in the order
of their last use. -/
def Recent (l history : List α) : Prop := l <:+ history.dedup

namespace Recent

variable {l history : List α}

theorem nodup (h : Recent l history) : l.Nodup := (List.nodup_dedup history).sublist h.sublist

theorem touch (h : Recent l history) (a : α) :
    Recent (l.filter (· ≠ a) ++ [a]) (history ++ [a]) := by
  obtain ⟨older, hsplit⟩ := h
  refine ⟨older.filter (· ≠ a), ?_⟩
  rw [dedup_concat, ← hsplit, List.filter_append, List.append_assoc]

theorem drop (h : Recent l history) (n : Nat) : Recent (l.drop n) history :=
  (List.drop_suffix n l).trans h

end Recent

end Euxis.Recency
