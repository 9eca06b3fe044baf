import Mathlib.Data.List.Nodup
import Euxis.Trace

/-!
# Workers that share out a list by strides

Worker `t` of `n` takes the items `t`, `t + n`, `t + 2 * n` and so on. For each item it looks
something up in a shared store, and later stores what it has made of it; the workers interleave
freely. When an item sees nothing of what the others store, the results are those of one loop over
the list.
-/

namespace Euxis.Workers

open Euxis.Trace (getElem?_set_cases)

/-- What is done with an item: a lookup in the store, and the work on what was found. -/
structure Task (α κ β σ ε : Type) where
  look : α → σ → κ
  work : α → κ → σ → Except ε (β × σ)

/-- The item a worker is at, and what it has looked up for it. -/
structure Worker (κ : Type) where
  next : Nat
  looked : Option κ

/-- `writes` keeps account of the worker and the index of every write to the results. -/
structure Pool (κ β σ : Type) where
  workers : List (Worker κ)
  results : List β
  writes : List (Nat × Nat)
  store : σ

inductive Event where
  | look (t : Nat)
  | finish (t : Nat)

variable {α κ β σ ε : Type} (task : Task α κ β σ ε) (items : List α) (n : Nat)

def start (blank : β) (store : σ) : Pool κ β σ :=
  { workers := (List.range n).map fun t => { next := t, looked := none }
    results := items.map fun _ => blank
    writes := []
    store }

def lookStep (p : Pool κ β σ) (t : Nat) : Option (Pool κ β σ) := do
  let w ← p.workers[t]?
  let a ← items[w.next]?
  match w.looked with
  | some _ => none
  | none =>
    some { p with workers := p.workers.set t { w with looked := some (task.look a p.store) } }

def finishStep (p : Pool κ β σ) (t : Nat) : Option (Pool κ β σ) := do
  let w ← p.workers[t]?
  let a ← items[w.next]?
  let k ← w.looked
  match task.work a k p.store with
  | .error _ => none
  | .ok (b, store) =>
    some {
      workers := p.workers.set t { next := w.next + n, looked := none }
      results := p.results.set w.next b
      writes := p.writes ++ [(t, w.next)]
      store }

def step (p : Pool κ β σ) : Event → Option (Pool κ β σ)
  | .look t => lookStep task items p t
  | .finish t => finishStep task items n p t

/-- Every worker has run past the end of the list. -/
def Finished (p : Pool κ β σ) : Prop := ∀ w ∈ p.workers, items.length ≤ w.next

/-- The loop over the list. -/
def sequential (store : σ) : List α → Except ε (List β × σ)
  | [] => .ok ([], store)
  | a :: rest => do
    let (b, store) ← task.work a (task.look a store) store
    let (bs, store) ← sequential store rest
    return (b :: bs, store)

/-- The work on one item changes nothing that another item looks up, and its result depends on the
store through the lookup alone, for the stores that meet `ok`. -/
structure Independent (ok : σ → Prop) : Prop where
  keeps : ∀ a k s b s', ok s → task.work a k s = .ok (b, s') → ok s'
  same : ∀ a k s s', ok s → ok s' → (task.work a k s).map Prod.fst = (task.work a k s').map Prod.fst
  frame : ∀ a ∈ items, ∀ a' ∈ items, a ≠ a' → ∀ k s b s', ok s → task.work a k s = .ok (b, s') →
    task.look a' s' = task.look a' s

/-- What the work on an item gives when it is done first. -/
def alone (store : σ) (a : α) : Except ε β := (task.work a (task.look a store) store).map Prod.fst

/-! ## Steps -/

variable {task items n}

theorem lookStep_some {p p' : Pool κ β σ} {t : Nat} (h : lookStep task items p t = some p') :
    ∃ w a, p.workers[t]? = some w ∧ items[w.next]? = some a ∧
      p' = { p with
          workers := p.workers.set t { w with looked := some (task.look a p.store) } } := by
  unfold lookStep at h
  simp only [Option.bind_eq_bind, Option.bind_eq_some_iff] at h
  obtain ⟨w, hw, a, ha, h⟩ := h
  split at h
  · exact absurd h (by simp)
  · rw [Option.some.injEq] at h
    exact ⟨w, a, hw, ha, h.symm⟩

theorem finishStep_some {p p' : Pool κ β σ} {t : Nat} (h : finishStep task items n p t = some p') :
    ∃ w a k b s', p.workers[t]? = some w ∧ items[w.next]? = some a ∧ w.looked = some k ∧
      task.work a k p.store = .ok (b, s') ∧
      p' = {
        workers := p.workers.set t { next := w.next + n, looked := none }
        results := p.results.set w.next b
        writes := p.writes ++ [(t, w.next)]
        store := s' } := by
  unfold finishStep at h
  simp only [Option.bind_eq_bind, Option.bind_eq_some_iff] at h
  obtain ⟨w, hw, a, ha, k, hk, h⟩ := h
  split at h
  · exact absurd h (by simp)
  · rename_i b s' hwork
    rw [Option.some.injEq] at h
    exact ⟨w, a, k, b, s', hw, ha, hk, hwork, h.symm⟩

/-! ## What the workers keep -/

/-- Behind a worker its items are done, each written once; ahead of it they still see the store of
the start. -/
structure Shared (task : Task α κ β σ ε) (items : List α) (n : Nat) (ok : σ → Prop) (s0 : σ)
    (p : Pool κ β σ) : Prop where
  workers : p.workers.length = n
  results : p.results.length = items.length
  store : ok p.store
  aligned : ∀ (t : Nat) (w : Worker κ), p.workers[t]? = some w → w.next % n = t
  looked : ∀ (t : Nat) (w : Worker κ) (k : κ) (a : α), p.workers[t]? = some w → w.looked = some k →
    items[w.next]? = some a → k = task.look a s0
  ahead : ∀ (t : Nat) (w : Worker κ) (i : Nat) (a : α), p.workers[t]? = some w → i % n = t →
    w.next ≤ i → items[i]? = some a → task.look a p.store = task.look a s0
  behind : ∀ (t : Nat) (w : Worker κ) (i : Nat) (a : α), p.workers[t]? = some w → i % n = t →
    i < w.next → items[i]? = some a → ∃ b, alone task s0 a = .ok b ∧ p.results[i]? = some b
  written : ∀ (t : Nat) (w : Worker κ) (i : Nat), p.workers[t]? = some w → i % n = t →
    i < items.length → p.writes.filter (fun e => e.2 = i) = if i < w.next then [(t, i)] else []

theorem start_shared {ok : σ → Prop} {s0 : σ} (blank : β) (h0 : ok s0) :
    Shared task items n ok s0 (start items n blank s0) := by
  have hget : ∀ t w, (start items n blank s0 : Pool κ β σ).workers[t]? = some w →
      t < n ∧ w = { next := t, looked := none } := by
    intro t w hw
    simp only [start, List.getElem?_map, Option.map_eq_some_iff] at hw
    obtain ⟨t', ht', rfl⟩ := hw
    obtain ⟨hlt, hval⟩ := List.getElem?_eq_some_iff.mp ht'
    simp only [List.length_range] at hlt
    simp only [List.getElem_range] at hval
    exact ⟨hlt, by rw [hval]⟩
  -- A worker starts at its own number, and no index of its stride is below that.
  have hle : ∀ i t, i % n = t → t ≤ i := by
    intro i t hi
    rw [← hi]
    exact Nat.mod_le i n
  constructor
  · simp [start]
  · simp [start]
  · exact h0
  · intro t w hw
    obtain ⟨hlt, rfl⟩ := hget t w hw
    exact Nat.mod_eq_of_lt hlt
  · intro t w k a hw hk _
    obtain ⟨_, rfl⟩ := hget t w hw
    exact absurd hk (by simp)
  · intro t w i a _ _ _ _
    rfl
  · intro t w i a hw hi hlt _
    obtain ⟨_, rfl⟩ := hget t w hw
    have := hle i t hi
    simp only at hlt
    omega
  · intro t w i hw hi _
    obtain ⟨_, rfl⟩ := hget t w hw
    have := hle i t hi
    rw [if_neg (by simp only; omega)]
    rfl

theorem lookStep_shared {ok : σ → Prop} {s0 : σ} {p p' : Pool κ β σ} {t : Nat}
    (h : Shared task items n ok s0 p) (hstep : lookStep task items p t = some p') :
    Shared task items n ok s0 p' := by
  obtain ⟨w, a, hw, ha, rfl⟩ := lookStep_some hstep
  have hget : ∀ (t' : Nat) (w' : Worker κ),
      (p.workers.set t { w with looked := some (task.look a p.store) })[t']? = some w' →
      ∃ w'' : Worker κ, p.workers[t']? = some w'' ∧ w''.next = w'.next := by
    intro t' w' hw'
    rcases getElem?_set_cases hw' with ⟨rfl, rfl⟩ | ⟨_, hw'⟩
    · exact ⟨w, hw, rfl⟩
    · exact ⟨w', hw', rfl⟩
  constructor
  · simpa using h.workers
  · exact h.results
  · exact h.store
  · intro t' w' hw'
    obtain ⟨w'', hw'', hnext⟩ := hget t' w' hw'
    rw [← hnext]
    exact h.aligned t' w'' hw''
  · intro t' w' k a' hw' hk ha'
    rcases getElem?_set_cases hw' with ⟨rfl, rfl⟩ | ⟨_, hw'⟩
    · rw [Option.some.injEq] at hk
      rw [ha, Option.some.injEq] at ha'
      rw [← hk, ← ha']
      exact h.ahead t' w w.next a hw (h.aligned t' w hw) (Nat.le_refl _) ha
    · exact h.looked t' w' k a' hw' hk ha'
  · intro t' w' i a' hw' hi hle
    obtain ⟨w'', hw'', hnext⟩ := hget t' w' hw'
    rw [← hnext] at hle
    exact h.ahead t' w'' i a' hw'' hi hle
  · intro t' w' i a' hw' hi hlt
    obtain ⟨w'', hw'', hnext⟩ := hget t' w' hw'
    rw [← hnext] at hlt
    exact h.behind t' w'' i a' hw'' hi hlt
  · intro t' w' i hw' hi hlt
    obtain ⟨w'', hw'', hnext⟩ := hget t' w' hw'
    rw [← hnext]
    exact h.written t' w'' i hw'' hi hlt

theorem alone_of_work {ok : σ → Prop} (h : Independent task items ok) {s0 s s' : σ} {a : α} {b : β}
    (h0 : ok s0) (hs : ok s) (hwork : task.work a (task.look a s0) s = .ok (b, s')) :
    alone task s0 a = .ok b := by
  unfold alone
  rw [h.same a _ s0 s h0 hs, hwork]
  rfl

theorem stride_lt {i j : Nat} (hmod : i % n = j % n) (h : i < j + n) (hne : i ≠ j) : i < j := by
  by_contra hle
  have hi := Nat.div_add_mod i n
  have hj := Nat.div_add_mod j n
  have hdiv : j / n < i / n := by
    refine Nat.lt_of_le_of_ne (Nat.div_le_div_right (by omega)) fun heq => hne ?_
    rw [← hi, ← hj, heq, hmod]
  have hmul : n * (j / n) + n ≤ n * (i / n) := by
    rw [← Nat.mul_succ]
    exact Nat.mul_le_mul_left n hdiv
  omega

theorem finishStep_shared {ok : σ → Prop} {s0 : σ} {p p' : Pool κ β σ} {t : Nat}
    (hind : Independent task items ok) (hnodup : items.Nodup) (hn : 0 < n) (h0 : ok s0)
    (h : Shared task items n ok s0 p) (hstep : finishStep task items n p t = some p') :
    Shared task items n ok s0 p' := by
  obtain ⟨w, a, k, b, s', hw, ha, hk, hwork, rfl⟩ := finishStep_some hstep
  have haligned := h.aligned t w hw
  have hlook := h.looked t w k a hw hk ha
  subst hlook
  have halone : alone task s0 a = .ok b := alone_of_work hind h0 h.store hwork
  have hlt : w.next < items.length := (List.getElem?_eq_some_iff.mp ha).1
  -- The other items keep what they see.
  have hframe : ∀ (i : Nat) (a' : α), i ≠ w.next → items[i]? = some a' →
      task.look a' s' = task.look a' p.store := by
    intro i a' hne ha'
    refine hind.frame a (List.mem_of_getElem? ha) a' (List.mem_of_getElem? ha') ?_ _ _ _ _
      h.store hwork
    rintro rfl
    exact hne ((List.getElem?_inj hlt hnodup).mp (ha.trans ha'.symm)).symm
  constructor
  · simpa using h.workers
  · simpa using h.results
  · exact hind.keeps _ _ _ _ _ h.store hwork
  · intro t' w' hw'
    rcases getElem?_set_cases hw' with ⟨rfl, rfl⟩ | ⟨_, hw'⟩
    · simpa using haligned
    · exact h.aligned t' w' hw'
  · intro t' w' k' a' hw' hk' ha'
    rcases getElem?_set_cases hw' with ⟨rfl, rfl⟩ | ⟨_, hw'⟩
    · exact absurd hk' (by simp)
    · exact h.looked t' w' k' a' hw' hk' ha'
  · intro t' w' i a' hw' hi hle ha'
    rcases getElem?_set_cases hw' with ⟨rfl, rfl⟩ | ⟨hne, hw'⟩
    · simp only at hle
      rw [hframe i a' (by omega) ha']
      exact h.ahead t' w i a' hw hi (by omega) ha'
    · rw [hframe i a' (by rintro rfl; omega) ha']
      exact h.ahead t' w' i a' hw' hi hle ha'
  · intro t' w' i a' hw' hi hbehind ha'
    rcases getElem?_set_cases hw' with ⟨rfl, rfl⟩ | ⟨hne, hw'⟩
    · by_cases hnow : i = w.next
      · subst hnow
        rw [ha, Option.some.injEq] at ha'
        refine ⟨b, ha' ▸ halone, ?_⟩
        rw [List.getElem?_set_self (by rw [h.results]; exact hlt)]
      · have hold := stride_lt (hi.trans haligned.symm) hbehind hnow
        obtain ⟨b', halone', hres⟩ := h.behind t' w i a' hw hi hold ha'
        refine ⟨b', halone', ?_⟩
        rw [List.getElem?_set_ne (Ne.symm hnow)]
        exact hres
    · obtain ⟨b', halone', hres⟩ := h.behind t' w' i a' hw' hi hbehind ha'
      refine ⟨b', halone', ?_⟩
      rw [List.getElem?_set_ne (by rintro rfl; omega)]
      exact hres
  · intro t' w' i hw' hi hilt
    rw [List.filter_append]
    rcases getElem?_set_cases hw' with ⟨rfl, rfl⟩ | ⟨hne, hw'⟩
    · rw [h.written t' w i hw hi hilt]
      by_cases hnow : i = w.next
      · subst hnow
        rw [if_neg (Nat.lt_irrefl _), if_pos (by simp only; omega)]
        simp
      · have hsame : i < w.next + n ↔ i < w.next :=
          ⟨fun hlt => stride_lt (hi.trans haligned.symm) hlt hnow, fun hlt => by omega⟩
        simp only [hsame]
        simp [Ne.symm hnow]
    · rw [h.written t' w' i hw' hi hilt]
      have hother : w.next ≠ i := by
        rintro rfl
        omega
      simp [hother]

theorem reaches_shared {ok : σ → Prop} {s0 : σ} {blank : β} {p : Pool κ β σ}
    (hind : Independent task items ok) (hnodup : items.Nodup) (hn : 0 < n) (h0 : ok s0)
    (h : Trace.Reaches (step task items n) (fun _ _ => True) (start items n blank s0) p) :
    Shared task items n ok s0 p := by
  apply h.keeps (Shared task items n ok s0) (start_shared blank h0)
  intro p e p' hp _ hstep
  cases e with
  | look t => exact lookStep_shared hp hstep
  | finish t => exact finishStep_shared hind hnodup hn h0 hp hstep

/-! ## Results -/

theorem worker_of {ok : σ → Prop} {s0 : σ} {p : Pool κ β σ} (h : Shared task items n ok s0 p)
    (hn : 0 < n) (i : Nat) : ∃ w, p.workers[i % n]? = some w := by
  have hlt : i % n < p.workers.length := by
    rw [h.workers]
    exact Nat.mod_lt i hn
  exact ⟨_, List.getElem?_eq_getElem hlt⟩

theorem finished_writes {ok : σ → Prop} {s0 : σ} {p : Pool κ β σ} (h : Shared task items n ok s0 p)
    (hn : 0 < n) (hfin : Finished items p) (i : Nat) (hi : i < items.length) :
    p.writes.filter (fun e => e.2 = i) = [(i % n, i)] := by
  obtain ⟨w, hw⟩ := worker_of h hn i
  have hle := hfin w (List.mem_of_getElem? hw)
  rw [h.written (i % n) w i hw rfl hi, if_pos (by omega)]

theorem sequential_cons (s : σ) (a : α) (rest : List α) (bs : List β) (s' : σ) :
    sequential task s (a :: rest) = .ok (bs, s') ↔
      ∃ b s1 bs', task.work a (task.look a s) s = .ok (b, s1) ∧
      sequential task s1 rest = .ok (bs', s') ∧ bs = b :: bs' := by
  rw [sequential]
  cases hwork : task.work a (task.look a s) s with
  | error e => simp [bind, Except.bind]
  | ok r =>
    obtain ⟨b, s1⟩ := r
    cases hseq : sequential task s1 rest with
    | error e => simp [bind, Except.bind, hseq]
    | ok r =>
      obtain ⟨bs', s2⟩ := r
      simp only [bind, Except.bind, hseq, pure, Except.pure, Except.ok.injEq, Prod.mk.injEq]
      constructor
      · rintro ⟨rfl, rfl⟩
        exact ⟨b, s1, bs', ⟨rfl, rfl⟩, hseq, rfl⟩
      · rintro ⟨_, _, bs'', ⟨rfl, rfl⟩, hrest, rfl⟩
        rw [hseq, Except.ok.injEq, Prod.mk.injEq] at hrest
        rw [hrest.1]
        exact ⟨rfl, hrest.2⟩

theorem alone_ok {s : σ} {a : α} {b : β} (h : alone task s a = .ok b) :
    ∃ s', task.work a (task.look a s) s = .ok (b, s') := by
  unfold alone at h
  cases hwork : task.work a (task.look a s) s with
  | error e =>
    rw [hwork] at h
    exact absurd h (by simp [Except.map])
  | ok r =>
    rw [hwork] at h
    obtain rfl := Except.ok.inj h
    exact ⟨r.2, rfl⟩

theorem alone_after {ok : σ → Prop} (hind : Independent task items ok) {a : α} {rest : List α}
    (hsub : a :: rest ⊆ items) (hnotin : a ∉ rest) {k : κ} {s s' : σ} {b : β} (hs : ok s)
    (hwork : task.work a k s = .ok (b, s')) :
    rest.map (alone task s') = rest.map (alone task s) := by
  apply List.map_congr_left
  intro x hx
  have hne : a ≠ x := by
    rintro rfl
    exact hnotin hx
  have hlook := hind.frame a (hsub List.mem_cons_self) x (hsub (List.mem_cons_of_mem _ hx)) hne _ _
    _ _ hs hwork
  unfold alone
  rw [hlook]
  exact hind.same x _ s' s (hind.keeps _ _ _ _ _ hs hwork) hs

theorem sequential_alone {ok : σ → Prop} (hind : Independent task items ok) (l : List α)
    (hsub : l ⊆ items) (hnodup : l.Nodup) (s : σ) (hs : ok s) (bs : List β) :
    (∃ s', sequential task s l = .ok (bs, s')) ↔ l.map (alone task s) = bs.map .ok := by
  induction l generalizing s bs with
  | nil =>
    simp only [sequential, Except.ok.injEq, Prod.mk.injEq, List.map_nil, List.nil_eq,
      List.map_eq_nil_iff]
    exact ⟨fun ⟨_, h, _⟩ => h, fun h => ⟨s, h, rfl⟩⟩
  | cons a rest ih =>
    obtain ⟨hnotin, hnodup⟩ := List.nodup_cons.mp hnodup
    have hsub' : rest ⊆ items := fun x hx => hsub (List.mem_cons_of_mem _ hx)
    constructor
    · rintro ⟨s', h⟩
      obtain ⟨b, s1, bs', hwork, hseq, rfl⟩ := (sequential_cons s a rest bs s').mp h
      have hs1 := hind.keeps _ _ _ _ _ hs hwork
      rw [List.map_cons, List.map_cons, alone_of_work hind hs hs hwork,
        ← alone_after hind hsub hnotin hs hwork, (ih hsub' hnodup s1 hs1 bs').mp ⟨s', hseq⟩]
    · intro h
      cases bs with
      | nil => exact absurd h (by simp)
      | cons b bs =>
        obtain ⟨hb, hbs⟩ := List.cons.inj h
        obtain ⟨s1, hwork⟩ := alone_ok hb
        have hs1 := hind.keeps _ _ _ _ _ hs hwork
        -- What the first item stores is under keys of its own, so the others do not see it.
        have hrest : rest.map (alone task s1) = bs.map .ok :=
          (alone_after hind hsub hnotin hs hwork).trans hbs
        obtain ⟨s', hseq⟩ := (ih hsub' hnodup s1 hs1 bs).mpr hrest
        exact ⟨s', (sequential_cons s a rest _ s').mpr ⟨b, s1, bs, hwork, hseq, rfl⟩⟩

/-- In the end the results are those of the loop. -/
theorem finished_sequential {ok : σ → Prop} {s0 : σ} {p : Pool κ β σ}
    (hind : Independent task items ok) (hnodup : items.Nodup) (hn : 0 < n) (h0 : ok s0)
    (h : Shared task items n ok s0 p) (hfin : Finished items p) :
    ∃ s', sequential task s0 items = .ok (p.results, s') := by
  rw [sequential_alone hind items (List.Subset.refl _) hnodup s0 h0]
  apply List.ext_getElem?
  intro i
  rw [List.getElem?_map, List.getElem?_map]
  cases ha : items[i]? with
  | none =>
    have hlen : p.results[i]? = none := by
      rw [List.getElem?_eq_none_iff, h.results]
      exact List.getElem?_eq_none_iff.mp ha
    rw [hlen]
    rfl
  | some a =>
    obtain ⟨w, hw⟩ := worker_of h hn i
    have hle := hfin w (List.mem_of_getElem? hw)
    have hlt := (List.getElem?_eq_some_iff.mp ha).1
    obtain ⟨b, halone, hres⟩ := h.behind (i % n) w i a hw rfl (by omega) ha
    rw [hres, Option.map_some, Option.map_some, halone]

theorem step_enabled {ok : σ → Prop} {s0 : σ} {p : Pool κ β σ} (hind : Independent task items ok)
    (hnodup : items.Nodup) (h0 : ok s0) (h : Shared task items n ok s0 p) {bs : List β} {s' : σ}
    (hseq : sequential task s0 items = .ok (bs, s')) (t : Nat) (w : Worker κ)
    (hw : p.workers[t]? = some w) (hlt : w.next < items.length) :
    (step task items n p (.look t)).isSome ∨ (step task items n p (.finish t)).isSome := by
  have ha : items[w.next]? = some items[w.next] := List.getElem?_eq_getElem hlt
  cases hk : w.looked with
  | none =>
    left
    simp [step, lookStep, hw, ha, hk]
  | some k =>
    right
    have hlook := h.looked t w k _ hw hk ha
    -- The worker has looked before, at another store, but an independent task finds the same there.
    have halone : ∃ b, alone task s0 items[w.next] = .ok b := by
      have hmap := (sequential_alone hind items (List.Subset.refl _) hnodup s0 h0 bs).mp ⟨s', hseq⟩
      have hmem : alone task s0 items[w.next] ∈ bs.map Except.ok := by
        rw [← hmap]
        exact List.mem_map_of_mem (List.getElem_mem hlt)
      obtain ⟨b, _, hb⟩ := List.mem_map.mp hmem
      exact ⟨b, hb.symm⟩
    obtain ⟨b, hb⟩ := halone
    cases hwork : task.work items[w.next] k p.store with
    | error e =>
      unfold alone at hb
      rw [hind.same _ _ s0 p.store h0 h.store, ← hlook, hwork] at hb
      exact absurd hb (by simp [Except.map])
    | ok r => simp [step, finishStep, hw, ha, hk, hwork]

end Euxis.Workers
