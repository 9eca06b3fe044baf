import Mathlib.Logic.Function.Basic
import Euxis.Ring
import Euxis.Trace

/-!
# Keyboard focus

`apps/cli/src/tui/focus_manager.cpp`: the widgets of a focus chain, one of them focused, and the
modals above them. A widget is a number; its flag and whether it can take the focus (`focusable() &&
visible()`) are kept beside the manager.
-/

namespace Euxis.Cli.Focus

open Euxis.Ring (ring)

structure Manager where
  widgets : List Nat := []
  current : Int := -1
  modalStack : List Nat := []
  focused : Nat → Bool := fun _ => false
  fit : Nat → Bool

def Manager.hasModal (s : Manager) : Bool := !s.modalStack.isEmpty

/-- `set_focused` on a widget. -/
def setFocused (s : Manager) (w : Nat) (f : Bool) : Manager :=
  { s with focused := Function.update s.focused w f }

/-- `set_focused` on the widget at an index, where there is one. -/
def setFocusedAt (s : Manager) (i : Int) (f : Bool) : Manager :=
  if 0 ≤ i ∧ i < s.widgets.length then (s.widgets[i.toNat]?).elim s fun w => setFocused s w f else s

def add (s : Manager) (w : Nat) : Manager := { s with widgets := s.widgets ++ [w] }

def remove (s : Manager) (w : Nat) : Manager :=
  match s.widgets.idxOf? w with
  | none => s
  | some idx =>
    let widgets := s.widgets.eraseIdx idx
    { s with
      widgets
      current := if widgets = [] ∨ (idx : Int) = s.current then -1 else if idx < s.current then
        s.current - 1 else s.current }

def clear (s : Manager) : Manager :=
  { s with widgets := [], current := -1,
           focused := s.widgets.foldl (fun flags w => Function.update flags w false) s.focused }

/-- The focus leaves the current widget and goes to the one at `idx`. -/
def moveTo (s : Manager) (idx : Nat) : Manager :=
  setFocusedAt { setFocusedAt s s.current false with current := idx } idx true

def fitAt (s : Manager) (i : Nat) : Bool := (s.widgets[i]?).any s.fit

def focusAlong (s : Manager) (places : List Nat) : Manager × Bool :=
  if s.hasModal then (s, false)
  else if s.widgets = [] then (s, false)
  else
    match places.find? (fitAt s) with
    | some idx => (moveTo s idx, true)
    | none => (s, false)

def focusNext (s : Manager) : Manager × Bool :=
  let start := if s.current < 0 then 0 else (s.current + 1).toNat
  let n := s.widgets.length
  focusAlong s ((List.range n).map fun i => (start + i) % n)

def focusPrev (s : Manager) : Manager × Bool :=
  let n := s.widgets.length
  let start := if s.current ≤ 0 then n - 1 else (s.current - 1).toNat
  focusAlong s ((List.range n).map fun i => (start + n - i) % n)

def setFocus (s : Manager) (w : Nat) : Manager × Bool :=
  match s.widgets.idxOf? w with
  | none => (s, false)
  | some idx => if !s.fit w then (s, false) else (moveTo s idx, true)

def pushModal (s : Manager) (modal : Nat) : Manager :=
  { setFocused s modal true with modalStack := s.modalStack ++ [modal] }

def popModal (s : Manager) : Manager :=
  match s.modalStack.getLast? with
  | none => s
  | some modal =>
    let s := { setFocused s modal false with modalStack := s.modalStack.dropLast }
    setFocusedAt s s.current true

/-! ## Runs -/

inductive Op where
  | add (w : Nat)
  | remove (w : Nat)
  | clear
  | focusNext
  | focusPrev
  | setFocus (w : Nat)
  | pushModal (modal : Nat)
  | popModal
  /-- A widget is shown, hidden, or stops taking the focus. -/
  | setFit (w : Nat) (fit : Bool)

def step (s : Manager) : Op → Manager
  | .add w => add s w
  | .remove w => remove s w
  | .clear => clear s
  | .focusNext => (focusNext s).1
  | .focusPrev => (focusPrev s).1
  | .setFocus w => (setFocus s w).1
  | .pushModal modal => pushModal s modal
  | .popModal => popModal s
  | .setFit w fit => { s with fit := Function.update s.fit w fit }

/-- A widget is added once, without focus, and no modal stands in the chain. -/
def Proper (s : Manager) : Op → Prop
  | .add w => w ∉ s.widgets ∧ w ∉ s.modalStack ∧ s.focused w = false
  | .pushModal modal => modal ∉ s.widgets
  | _ => True

def Reaches (fit : Nat → Bool) : Manager → Prop :=
  Trace.Reaches (fun s op => some (step s op)) Proper { fit }

/-! ## One widget of the chain has the focus -/

/-- The index points into the chain or before it, and the flag of a widget in the chain is set where
the index points. -/
structure Inv (s : Manager) : Prop where
  nodup : s.widgets.Nodup
  low : -1 ≤ s.current
  high : s.current < s.widgets.length
  flags : ∀ (i : Nat) (w : Nat), s.widgets[i]? = some w →
    (s.focused w = true ↔ (i : Int) = s.current)
  apart : ∀ w ∈ s.widgets, w ∉ s.modalStack

theorem setFocusedAt_eq (s : Manager) (i : Nat) (w : Nat) (f : Bool) (h : s.widgets[i]? = some w) :
    setFocusedAt s i f = setFocused s w f := by
  have hi := (List.getElem?_eq_some_iff.mp h).1
  rw [setFocusedAt, if_pos ⟨by omega, by omega⟩, Int.toNat_natCast, h]
  rfl

theorem setFocusedAt_flags (s : Manager) (i : Int) (f : Bool) :
    setFocusedAt s i f = { s with focused := (setFocusedAt s i f).focused } := by
  unfold setFocusedAt
  split
  · cases s.widgets[i.toNat]? <;> rfl
  · rfl

theorem getElem?_inj {l : List Nat} (h : l.Nodup) {i j w : Nat} (hi : l[i]? = some w)
    (hj : l[j]? = some w) : i = j :=
  (List.getElem?_inj (List.getElem?_eq_some_iff.mp hi).1 h).mp (hi.trans hj.symm)

theorem focused_blurred {s : Manager} (h : Inv s) (i w : Nat) (hw : s.widgets[i]? = some w) :
    (setFocusedAt s s.current false).focused w = false := by
  by_cases hcurrent : (i : Int) = s.current
  · rw [← hcurrent, setFocusedAt_eq s i w false hw]
    exact Function.update_self w false s.focused
  · have hflag : s.focused w = false := by
      rw [← Bool.not_eq_true, h.flags i w hw]
      exact hcurrent
    unfold setFocusedAt
    split
    · cases hat : s.widgets[s.current.toNat]? with
      | none => exact hflag
      | some c =>
        have hne : w ≠ c := by
          rintro rfl
          have := getElem?_inj h.nodup hw hat
          omega
        exact (Function.update_of_ne hne false s.focused).trans hflag
    · exact hflag

theorem inv_moveTo {s : Manager} (h : Inv s) (idx : Nat) (hidx : idx < s.widgets.length) :
    Inv (moveTo s idx) := by
  have hblurred := focused_blurred h
  have hat : s.widgets[idx]? = some s.widgets[idx] := List.getElem?_eq_getElem hidx
  unfold moveTo
  rw [setFocusedAt_flags s s.current false]
  generalize (setFocusedAt s s.current false).focused = flags at hblurred
  dsimp only
  have hset := setFocusedAt_eq { s with current := (idx : Int), focused := flags } idx
    s.widgets[idx] true hat
  rw [hset]
  refine ⟨h.nodup, ?_, ?_, ?_, h.apart⟩
  · simp only [setFocused]
    omega
  · simp only [setFocused]
    omega
  · intro i w hw
    simp only [setFocused] at hw ⊢
    -- The old flag is taken off before the new one is set, so no other flag can be left.
    rw [Function.update_apply]
    split
    · rename_i heq
      rw [heq] at hw
      have := getElem?_inj h.nodup hw hat
      simp [this]
    · rename_i hne
      rw [hblurred i w hw]
      simp only [Bool.false_eq_true, false_iff]
      intro hi
      obtain rfl : i = idx := by omega
      exact hne (Option.some.inj (hw.symm.trans hat))

theorem fitAt_lt {s : Manager} {i : Nat} (h : fitAt s i = true) : i < s.widgets.length := by
  unfold fitAt at h
  by_contra hi
  rw [List.getElem?_eq_none (by omega)] at h
  exact absurd h (by simp)

theorem inv_focusAlong {s : Manager} (h : Inv s) (places : List Nat) :
    Inv (focusAlong s places).1 := by
  unfold focusAlong
  split
  · exact h
  · split
    · exact h
    · split
      · rename_i idx hfind
        exact inv_moveTo h idx (fitAt_lt (List.find?_some hfind))
      · exact h

theorem inv_remove {s : Manager} (h : Inv s) (w : Nat) : Inv (remove s w) := by
  unfold remove
  split
  · exact h
  · rename_i idx hidx
    have hlt : idx < s.widgets.length := (List.idxOf?_eq_some_iff.mp hidx).1
    have hlen : (s.widgets.eraseIdx idx).length = s.widgets.length - 1 :=
      List.length_eraseIdx_of_lt hlt
    have hlow := h.low
    have hhigh := h.high
    refine ⟨h.nodup.eraseIdx idx, ?_, ?_, ?_, ?_⟩
    · dsimp only
      split
      · omega
      · split <;> omega
    · dsimp only
      rw [hlen]
      split
      · omega
      · split
        · omega
        · rename_i hne hge
          rw [not_or] at hne
          omega
    · intro i x hx
      dsimp only at hx ⊢
      -- The widgets behind the removed one move up, and so does the index of the current one.
      rw [List.getElem?_eraseIdx] at hx
      have hnonempty : s.widgets.eraseIdx idx ≠ [] := by
        apply List.ne_nil_of_mem (a := x)
        rw [← List.getElem?_eraseIdx] at hx
        exact List.mem_of_getElem? hx
      split at hx
      · rename_i hi
        rw [h.flags i x hx]
        simp only [hnonempty, false_or]
        split
        · omega
        · split <;> omega
      · rename_i hi
        rw [h.flags (i + 1) x hx]
        simp only [hnonempty, false_or]
        split
        · omega
        · split <;> omega
    · intro x hx
      exact h.apart x (List.mem_of_mem_eraseIdx hx)

theorem inv_clear (s : Manager) : Inv (clear s) := by
  refine ⟨List.nodup_nil, Int.le_refl _, ?_, ?_, ?_⟩ <;> simp [clear]

theorem inv_add {s : Manager} (h : Inv s) {w : Nat} (hw : w ∉ s.widgets) (hmodal : w ∉ s.modalStack)
    (hflag : s.focused w = false) : Inv (add s w) := by
  have hhigh := h.high
  refine ⟨?_, h.low, ?_, ?_, ?_⟩
  · rw [add, ← List.concat_eq_append]
    exact h.nodup.concat hw
  · simp only [add, List.length_append, List.length_singleton]
    omega
  · intro i x hx
    rcases Nat.lt_or_ge i s.widgets.length with hi | hi
    · rw [add, List.getElem?_append_left hi] at hx
      exact h.flags i x hx
    · rw [add, List.getElem?_append_right hi, List.getElem?_singleton] at hx
      split at hx
      · obtain rfl := Option.some.inj hx
        simp only [add, hflag, Bool.false_eq_true, false_iff]
        omega
      · exact absurd hx (by simp)
  · intro x hx
    rcases List.mem_append.mp hx with hx | hx
    · exact h.apart x hx
    · rw [List.mem_singleton.mp hx]
      exact hmodal

theorem inv_setFocused {s : Manager} (h : Inv s) {m : Nat} (hm : m ∉ s.widgets) (f : Bool) :
    Inv (setFocused s m f) := by
  refine ⟨h.nodup, h.low, h.high, ?_, h.apart⟩
  intro i w hw
  have hne : w ≠ m := by
    rintro rfl
    exact hm (List.mem_of_getElem? hw)
  simp only [setFocused, Function.update_of_ne hne]
  exact h.flags i w hw

theorem inv_pushModal {s : Manager} (h : Inv s) {m : Nat} (hm : m ∉ s.widgets) :
    Inv (pushModal s m) := by
  obtain ⟨hnodup, hlow, hhigh, hflags, hapart⟩ := inv_setFocused h hm true
  refine ⟨hnodup, hlow, hhigh, hflags, ?_⟩
  intro w hw hmem
  rcases List.mem_append.mp hmem with hmem | hmem
  · exact h.apart w hw hmem
  · rw [List.mem_singleton] at hmem
    exact hm (hmem ▸ hw)

theorem inv_setFocusedAt {s : Manager} (h : Inv s) : Inv (setFocusedAt s s.current true) := by
  unfold setFocusedAt
  split
  · cases hat : s.widgets[s.current.toNat]? with
    | none => exact h
    | some c =>
      refine ⟨h.nodup, h.low, h.high, ?_, h.apart⟩
      intro i w hw
      simp only [Option.elim_some, setFocused, Function.update_apply] at hw ⊢
      split
      · rename_i heq
        subst heq
        have := getElem?_inj h.nodup hw hat
        simp only [true_iff]
        omega
      · exact h.flags i w hw
  · exact h

theorem inv_popModal {s : Manager} (h : Inv s) : Inv (popModal s) := by
  unfold popModal
  split
  · exact h
  · rename_i modal hmodal
    have hm : modal ∉ s.widgets := fun hw => h.apart modal hw (List.mem_of_getLast? hmodal)
    obtain ⟨hnodup, hlow, hhigh, hflags, hapart⟩ := inv_setFocused h hm false
    apply inv_setFocusedAt (s :=
      { setFocused s modal false with modalStack := s.modalStack.dropLast })
    exact ⟨hnodup, hlow, hhigh, hflags,
      fun w hw hmem => hapart w hw (List.mem_of_mem_dropLast hmem)⟩

theorem inv_step {s : Manager} (h : Inv s) (op : Op) (hop : Proper s op) : Inv (step s op) := by
  cases op with
  | add w => exact inv_add h hop.1 hop.2.1 hop.2.2
  | remove w => exact inv_remove h w
  | clear => exact inv_clear s
  | focusNext => exact inv_focusAlong h _
  | focusPrev => exact inv_focusAlong h _
  | setFocus w =>
    simp only [step, setFocus]
    split
    · exact h
    · rename_i idx hidx
      split
      · exact h
      · exact inv_moveTo h idx (List.idxOf?_eq_some_iff.mp hidx).1
  | pushModal modal => exact inv_pushModal h hop
  | popModal => exact inv_popModal h
  | setFit w fit => exact ⟨h.nodup, h.low, h.high, h.flags, h.apart⟩

theorem inv_start (fit : Nat → Bool) : Inv { fit } := by
  refine ⟨List.nodup_nil, Int.le_refl _, ?_, ?_, ?_⟩ <;> simp

theorem inv_of_reaches {fit : Nat → Bool} {s : Manager} (h : Reaches fit s) : Inv s := by
  apply Trace.Reaches.keeps Inv h (inv_start fit)
  intro s op s' hs hop hstep
  rw [← Option.some.inj hstep]
  exact inv_step hs op hop

theorem moveTo_fields (s : Manager) (idx : Nat) :
    moveTo s idx = { s with current := (idx : Int), focused := (moveTo s idx).focused } := by
  unfold moveTo
  rw [setFocusedAt_flags, setFocusedAt_flags s]

/-- Where `focus_next` begins to look. -/
def nextStart (s : Manager) : Nat := if s.current < 0 then 0 else (s.current + 1).toNat

theorem focusNext_eq {s : Manager} {d : Nat} (hmodal : s.hasModal = false)
    (h : (ring s.widgets.length (nextStart s)).find? (fitAt s) = some d) :
    focusNext s = (moveTo s d, true) := by
  have hne : s.widgets ≠ [] := by
    intro hnil
    rw [hnil] at h
    simp [ring] at h
  simp only [focusNext, focusAlong, Ring.map_up]
  rw [hmodal, if_neg Bool.false_ne_true, if_neg hne]
  rw [nextStart] at h
  rw [h]

theorem focusPrev_eq {s : Manager} {c : Nat} (hmodal : s.hasModal = false) (hinv : Inv s)
    (h : (ring s.widgets.length s.current.toNat).reverse.find? (fitAt s) = some c) :
    focusPrev s = (moveTo s c, true) := by
  have hne : s.widgets ≠ [] := by
    intro hnil
    rw [hnil] at h
    simp [ring] at h
  have hpos := List.length_pos_iff.mpr hne
  have hhigh := hinv.high
  have hplaces : ring s.widgets.length ((if s.current ≤ 0 then s.widgets.length - 1
      else (s.current - 1).toNat) + 1) = ring s.widgets.length s.current.toNat := by
    split
    · rw [Nat.sub_add_cancel hpos, Int.toNat_of_nonpos (by assumption), ring, ring,
        ← List.rotate_mod, List.length_range, Nat.mod_self]
    · congr 1
      omega
  simp only [focusPrev, focusAlong, Ring.map_down, hplaces]
  rw [hmodal, if_neg Bool.false_ne_true, if_neg hne, h]

theorem nextStart_moved (s : Manager) (d : Nat) (flags : Nat → Bool) :
    nextStart { s with current := (d : Int), focused := flags } = d + 1 := by
  rw [nextStart, if_neg (Int.not_lt.mpr (Int.natCast_nonneg d))]
  rfl

theorem fitAt_moved (s : Manager) (i : Int) (flags : Nat → Bool) :
    fitAt { s with current := i, focused := flags } = fitAt s := rfl

/-- The places that the focus comes to with one `focus_next` after the other. -/
def tabs (s : Manager) : Nat → List Int
  | 0 => []
  | m + 1 => (focusNext s).1.current :: tabs (focusNext s).1 m

theorem tabs_eq_visits (m : Nat) {s : Manager} (hmodal : s.hasModal = false)
    (hm : m ≤ ((ring s.widgets.length (nextStart s)).filter (fitAt s)).length) :
    tabs s m = (Ring.visits s.widgets.length (fitAt s) (nextStart s) m).map Int.ofNat := by
  induction m generalizing s with
  | zero => rfl
  | succ m ih =>
    cases hfind : (ring s.widgets.length (nextStart s)).find? (fitAt s) with
    | none =>
      have hnil : (ring s.widgets.length (nextStart s)).filter (fitAt s) = [] :=
        List.filter_eq_nil_iff.mpr fun a ha => List.find?_eq_none.mp hfind a ha
      rw [hnil] at hm
      exact absurd hm (by simp)
    | some d =>
      obtain ⟨rest, hfilter, hnext⟩ := Ring.filter_of_find hfind
      rw [hfilter, List.length_cons] at hm
      have hfields := moveTo_fields s d
      generalize (moveTo s d).focused = flags at hfields
      have hrest := ih (s := { s with current := (d : Int), focused := flags }) hmodal (by
        rw [nextStart_moved, fitAt_moved, hnext, List.length_append]
        omega)
      rw [tabs, focusNext_eq hmodal hfind, hfields, hrest, nextStart_moved, fitAt_moved,
        Ring.visits, hfind]
      rfl

/-- From a focused widget that can take the focus, the tab key visits every such widget once, in the
order of the ring, and the last visit is where it began; and one step back undoes one step
forward. -/
theorem tab_round (fit : Nat → Bool) (s : Manager) (h : Reaches fit s) (hmodal : s.modalStack = [])
    (c : Nat) (hc : s.current = c) (hfit : fitAt s c = true) :
    tabs s ((List.range s.widgets.length).countP (fitAt s)) =
      ((ring s.widgets.length (c + 1)).filter (fitAt s)).map Int.ofNat ∧
      (∃ before, (ring s.widgets.length (c + 1)).filter (fitAt s) = before ++ [c]) ∧
      (focusPrev (focusNext s).1).1.current = s.current := by
  have hinv := inv_of_reaches h
  have hmodal' : s.hasModal = false := by rw [Manager.hasModal, hmodal]; rfl
  have hlt := fitAt_lt hfit
  have hstart : nextStart s = c + 1 := by
    rw [nextStart, hc, if_neg (by omega)]
    omega
  have hcount : (List.range s.widgets.length).countP (fitAt s) =
      ((ring s.widgets.length (c + 1)).filter (fitAt s)).length := by
    rw [List.countP_eq_length_filter, ring]
    exact ((List.rotate_perm _ _).filter _).length_eq.symm
  obtain ⟨before, hlast⟩ := Ring.ring_succ hlt
  refine ⟨?_, ?_, ?_⟩
  · rw [tabs_eq_visits _ hmodal' (by rw [hstart, hcount]), hstart, Ring.visits_eq _ _ hcount.le,
      hcount, List.take_length]
  · exact ⟨before.filter
      (fitAt s), by rw [hlast, List.filter_append, List.filter_cons_of_pos hfit, List.filter_nil]⟩
  · have hsome : ((ring s.widgets.length (c + 1)).find? (fitAt s)).isSome := by
      rw [List.find?_isSome, hlast]
      exact ⟨c, List.mem_append_right _ (List.mem_singleton_self c), hfit⟩
    obtain ⟨d, hd⟩ := Option.isSome_iff_exists.mp hsome
    -- What the walk forward passed over was not fit, and the walk back passes over the same places.
    have hback := Ring.find_back hlt hfit hd
    rw [focusNext_eq hmodal' (by rw [hstart]; exact hd)]
    have hmoved := inv_moveTo hinv d (fitAt_lt (List.find?_some hd))
    have hfields := moveTo_fields s d
    generalize (moveTo s d).focused = flags at hfields
    rw [hfields] at hmoved ⊢
    have hprev := focusPrev_eq (s := { s with current := (d : Int), focused := flags }) hmodal'
      hmoved hback
    rw [hprev, moveTo_fields, hc]

/-! ## Three widgets, the second one hidden -/

def sampleOps : List Op := [.add 0, .add 1, .add 2, .focusNext]

def sampleFit (w : Nat) : Bool := w != 1

def sampleManager : Manager := sampleOps.foldl step { fit := sampleFit }

theorem reaches_sampleManager : Reaches sampleFit sampleManager := by
  refine .next .focusNext (.next (.add 2) (.next (.add 1) (.next (.add 0) .start ?_ rfl) ?_ rfl) ?_
    rfl) trivial rfl <;>
    simp [Proper, step, add]

theorem sampleManager_tab_round :
    (focusPrev (focusNext sampleManager).1).1.current = sampleManager.current :=
  (tab_round sampleFit sampleManager reaches_sampleManager rfl 0 rfl rfl).2.2

end Euxis.Cli.Focus
