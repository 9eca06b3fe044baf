import Mathlib.Data.List.Basic
import Mathlib.Tactic.Ring

/-!
# Layouts

`apps/cli/src/tui/layout.cpp`: boxes, splits and floats share out a rectangle among the widgets
below them. The boxes that stack and the boxes that line up differ in their axis only, and so do the
splits. A product of an extent and a `float`, rounded or cut off, is a function of the extent.
-/

namespace Euxis.Cli.Layout

/-! ## Rectangles -/

structure Rect where
  x : Int
  y : Int
  w : Int
  h : Int

def Rect.contains (r : Rect) (c : Int × Int) : Bool :=
  decide (c.1 ≥ r.x ∧ c.1 < r.x + r.w ∧ c.2 ≥ r.y ∧ c.2 < r.y + r.h)

def Rect.empty (r : Rect) : Bool := decide (r.w ≤ 0 ∨ r.h ≤ 0)

inductive Axis where
  | vertical
  | horizontal

def Rect.start (r : Rect) : Axis → Int
  | .vertical => r.y
  | .horizontal => r.x

def Rect.extent (r : Rect) : Axis → Int
  | .vertical => r.h
  | .horizontal => r.w

/-- The part of the rectangle from `pos` on, `size` long. -/
def Rect.slice (r : Rect) (axis : Axis) (pos size : Int) : Rect :=
  match axis with
  | .vertical => { r with y := pos, h := size }
  | .horizontal => { r with x := pos, w := size }

/-! ## Widgets -/

/-- `null` is a pointer to nothing; a leaf is a widget that draws itself. -/
inductive Widget where
  | null
  | leaf (visible : Bool) (id : Nat)
  | box (visible : Bool) (axis : Axis) (children : List Widget)
  | split (visible : Bool) (axis : Axis) (share : Int → Int) (first second : Widget)
  | float (visible : Bool) (width : Int → Int) (maxRows : Int) (content : Widget)

def Widget.visible : Widget → Bool
  | .null => false
  | .leaf visible _ => visible
  | .box visible _ _ => visible
  | .split visible _ _ _ _ => visible
  | .float visible _ _ _ => visible

def Widget.isNull : Widget → Bool
  | .null => true
  | _ => false

def hBox (children : List Widget) : Widget := .box true .horizontal children

def vSplit (top bottom : Widget) (share : Int → Int) : Widget :=
  .split true .vertical share top bottom

/-- What is drawn: a leaf in its rectangle, or the border of a float. -/
structure Draw where
  leaf : Option Nat
  rect : Rect

mutual

def render : Widget → Rect → List Draw
  | .null, _ => []
  | .leaf _ id, area => [⟨some id, area⟩]
  | .box _ axis children, area =>
    if area.empty then []
    else
      let visibleCount : Int := children.countP Widget.visible
      if visibleCount = 0 then []
      else
        renderEach axis area (area.extent axis / visibleCount) children
          (area.extent axis % visibleCount) (area.start axis)
  | .split _ axis share first second, area =>
    if area.empty then []
    else
      let size := share (area.extent axis)
      (if first.visible then render first (area.slice axis (area.start axis) size) else []) ++
        (if second.visible then
          render second (area.slice axis (area.start axis + size) (area.extent axis - size))
            else [])
  | .float _ width maxRows content, area =>
    if content.isNull || area.empty then []
    else
      let w := width area.w
      let h := min maxRows (area.h - 2)
      if w < 10 ∨ h < 3 then []
      else
        let x := area.x + (area.w - w).tdiv 2
        let y := area.y + (area.h - h).tdiv 2
        ⟨none, ⟨x, y, w, h⟩⟩ :: render content ⟨x + 1, y + 1, w - 2, h - 2⟩

/-- The loop over the children of a box. -/
def renderEach (axis : Axis) (area : Rect) (each : Int) : List Widget → Int → Int → List Draw
  | [], _, _ => []
  | child :: rest, remainder, pos =>
    if !child.visible then renderEach axis area each rest remainder pos
    else
      let size := each + (if remainder > 0 then 1 else 0)
      render child (area.slice axis pos size) ++
        renderEach axis area each rest (if remainder > 0 then remainder - 1
          else remainder) (pos + size)

end

/-! ## What is drawn where -/

/-- How many leaves are drawn over a cell. -/
def covers (draws : List Draw) (c : Int × Int) : Nat :=
  draws.countP fun d => d.leaf.isSome && d.rect.contains c

def Rect.covers (r : Rect) (c : Int × Int) : Nat := if r.contains c then 1 else 0

/-- A share of an extent is a part of it. -/
def Share (share : Int → Int) : Prop := ∀ n, 0 ≤ n → 0 ≤ share n ∧ share n ≤ n

mutual

/-- The ratios of the splits and the widths of the floats lie between nothing and the whole. -/
def Widget.Fair : Widget → Prop
  | .null => True
  | .leaf _ _ => True
  | .box _ _ children => FairAll children
  | .split _ _ share first second => Share share ∧ first.Fair ∧ second.Fair
  | .float _ width _ content => Share width ∧ content.Fair

def FairAll : List Widget → Prop
  | [] => True
  | child :: rest => child.Fair ∧ FairAll rest

end

mutual

/-- Every widget is there and visible, and nothing floats. -/
def Widget.Full : Widget → Prop
  | .null => False
  | .leaf _ _ => True
  | .box _ _ children => children ≠ [] ∧ FullAll children
  | .split _ _ _ first second =>
    first.visible = true ∧ first.Full ∧ second.visible = true ∧ second.Full
  | .float _ _ _ _ => False

def FullAll : List Widget → Prop
  | [] => True
  | child :: rest => child.visible = true ∧ child.Full ∧ FullAll rest

end

/-! ## Cells of rectangles -/

theorem Rect.contains_iff (r : Rect) (c : Int × Int) :
    r.contains c = true ↔ c.1 ≥ r.x ∧ c.1 < r.x + r.w ∧ c.2 ≥ r.y ∧ c.2 < r.y + r.h := by
  rw [Rect.contains, decide_eq_true_eq]

theorem Rect.not_contains_of_empty {r : Rect} (h : r.empty = true) (c : Int × Int) :
    ¬ r.contains c = true := by
  rw [Rect.empty, decide_eq_true_eq] at h
  rw [Rect.contains_iff]
  omega

theorem Rect.extent_pos {r : Rect} (h : ¬ r.empty = true) (axis : Axis) : 0 < r.extent axis := by
  rw [Rect.empty, decide_eq_true_eq, not_or, not_le, not_le] at h
  cases axis with
  | vertical => exact h.2
  | horizontal => exact h.1

theorem Rect.slice_whole (r : Rect) (axis : Axis) :
    r.slice axis (r.start axis) (r.extent axis) = r := by
  cases axis <;> rfl

theorem Rect.slice_empty (r : Rect) (axis : Axis) (pos size : Int) (h : size ≤ 0) :
    (r.slice axis pos size).empty = true := by
  cases axis with
  | vertical => exact decide_eq_true (Or.inr h)
  | horizontal => exact decide_eq_true (Or.inl h)

theorem Rect.slice_add (r : Rect) (axis : Axis) (pos a b : Int) (c : Int × Int) (ha : 0 ≤ a)
    (hb : 0 ≤ b) :
    ((r.slice axis pos (a + b)).contains c = true ↔
      (r.slice axis pos a).contains c = true ∨ (r.slice axis (pos + a) b).contains c = true) ∧
      ¬ ((r.slice axis pos a).contains c = true ∧
        (r.slice axis (pos + a) b).contains c = true) := by
  cases axis with
  | vertical =>
    simp only [Rect.contains_iff, Rect.slice]
    omega
  | horizontal =>
    simp only [Rect.contains_iff, Rect.slice]
    omega

theorem Rect.covers_slice_add (r : Rect) (axis : Axis) (pos a b : Int) (c : Int × Int) (ha : 0 ≤ a)
    (hb : 0 ≤ b) :
    (r.slice axis pos (a + b)).covers c = (r.slice axis pos a).covers c +
      (r.slice axis (pos + a) b).covers c := by
  obtain ⟨hor, hnot⟩ := r.slice_add axis pos a b c ha hb
  unfold Rect.covers
  by_cases hfirst : (r.slice axis pos a).contains c = true
  · have hsecond : ¬ (r.slice axis (pos + a) b).contains c = true := fun h => hnot ⟨hfirst, h⟩
    rw [if_pos (hor.mpr (Or.inl hfirst)), if_pos hfirst, if_neg hsecond]
  · rw [if_neg hfirst, Nat.zero_add]
    by_cases hsecond : (r.slice axis (pos + a) b).contains c = true
    · rw [if_pos (hor.mpr (Or.inr hsecond)), if_pos hsecond]
    · rw [if_neg hsecond, if_neg]
      rw [hor]
      exact fun h => h.elim hfirst hsecond

/-! ## Drawings in a rectangle -/

/-- Everything is drawn inside, no two leaves over one cell, and where nothing is left out a leaf
over every cell. -/
structure Placed (full : Prop) (draws : List Draw) (area : Rect) : Prop where
  inside : ∀ d ∈ draws, ∀ c, d.rect.contains c = true → area.contains c = true
  once : ∀ c, covers draws c ≤ area.covers c
  all : full → ∀ c, covers draws c = area.covers c

theorem Placed.nothing {full : Prop} {area : Rect} (h : full → area.empty = true) :
    Placed full [] area where
  inside := by simp
  once := fun c => Nat.zero_le _
  all := by
    intro hfull c
    rw [Rect.covers, if_neg (Rect.not_contains_of_empty (h hfull) c)]
    rfl

theorem Placed.leaf (full : Prop) (id : Nat) (area : Rect) :
    Placed full [⟨some id, area⟩] area := by
  have hcovers : ∀ c, covers [⟨some id, area⟩] c = area.covers c := by
    intro c
    rw [covers, List.countP_singleton]
    rfl
  refine ⟨?_, fun c => (hcovers c).le, fun _ c => hcovers c⟩
  intro d hd c hc
  rw [List.mem_singleton] at hd
  rw [hd] at hc
  exact hc

theorem Placed.append {full full' : Prop} {draws draws' : List Draw} {r : Rect} {axis : Axis}
    {pos a b : Int} (ha : 0 ≤ a) (hb : 0 ≤ b) (h : Placed full draws (r.slice axis pos a))
    (h' : Placed full' draws' (r.slice axis (pos + a) b)) :
    Placed (full ∧ full') (draws ++ draws') (r.slice axis pos (a + b)) := by
  have hcovers : ∀ c, covers (draws ++ draws') c = covers draws c + covers draws' c :=
    fun c => List.countP_append
  refine ⟨?_, ?_, ?_⟩
  · intro d hd c hc
    rw [(r.slice_add axis pos a b c ha hb).1]
    rcases List.mem_append.mp hd with hd | hd
    · exact Or.inl (h.inside d hd c hc)
    · exact Or.inr (h'.inside d hd c hc)
  · intro c
    rw [hcovers, r.covers_slice_add axis pos a b c ha hb]
    exact Nat.add_le_add (h.once c) (h'.once c)
  · rintro ⟨hfull, hfull'⟩ c
    rw [hcovers, r.covers_slice_add axis pos a b c ha hb, h.all hfull c, h'.all hfull' c]

theorem Placed.mono {full full' : Prop} {draws : List Draw} {area : Rect}
    (h : Placed full draws area) (himp : full' → full) : Placed full' draws area :=
  ⟨h.inside, h.once, fun hfull => h.all (himp hfull)⟩

theorem Placed.frame {full : Prop} {draws : List Draw} {inner border area : Rect}
    (h : Placed full draws inner) (hinner : ∀ c, inner.contains c = true → border.contains c = true)
    (hborder : ∀ c, border.contains c = true → area.contains c = true) :
    Placed False (⟨none, border⟩ :: draws) area := by
  refine ⟨?_, ?_, False.elim⟩
  · intro d hd c hc
    rcases List.mem_cons.mp hd with rfl | hd
    · exact hborder c hc
    · exact hborder c (hinner c (h.inside d hd c hc))
  · intro c
    have hcovers : covers (⟨none, border⟩ :: draws) c = covers draws c := by
      rw [covers, List.countP_cons_of_neg (by simp)]
      rfl
    have hle : inner.covers c ≤ area.covers c := by
      unfold Rect.covers
      split
      · rename_i hc
        rw [if_pos (hborder c (hinner c hc))]
      · exact Nat.zero_le _
    rw [hcovers]
    exact (h.once c).trans hle

/-! ## Every tree -/

theorem Placed.part {child : Widget} {draws : List Draw} {area : Rect}
    (h : child.visible = true → Placed child.Full draws area) :
    Placed (child.visible = true ∧ child.Full) (if child.visible then draws else []) area := by
  by_cases hvisible : child.visible = true
  · rw [if_pos hvisible]
    exact (h hvisible).mono fun hfull => hfull.2
  · rw [if_neg hvisible]
    exact .nothing fun hfull => absurd hfull.1 hvisible

theorem placed_float {width : Int → Int} {maxRows : Int} {content : Widget} {area : Rect}
    (visible : Bool) (hshare : Share width)
    (h : ∀ inner, Placed content.Full (render content inner) inner) :
    Placed False (render (.float visible width maxRows content) area) area := by
  simp only [render]
  split
  · exact .nothing False.elim
  · split
    · exact .nothing False.elim
    · rename_i hempty hsize
      simp only [Bool.or_eq_true, not_or] at hempty
      have hw := Rect.extent_pos hempty.2 .horizontal
      have hh := Rect.extent_pos hempty.2 .vertical
      obtain ⟨hlow, hhigh⟩ := hshare area.w (by simp only [Rect.extent] at hw; omega)
      apply (h _).frame
      · intro c hc
        rw [Rect.contains_iff] at hc ⊢
        dsimp only at hc ⊢
        omega
      · intro c hc
        rw [Rect.contains_iff] at hc ⊢
        dsimp only at hc ⊢
        rw [Int.tdiv_eq_ediv_of_nonneg (by omega), Int.tdiv_eq_ediv_of_nonneg (by omega)] at hc
        omega

theorem countP_of_fullAll (children : List Widget) (h : FullAll children) :
    children.countP Widget.visible = children.length := by
  induction children with
  | nil => rfl
  | cons child rest ih => rw [List.countP_cons_of_pos h.1, ih h.2.2, List.length_cons]

theorem share_step (each remainder : Int) (k : Nat) :
    each * (k + 1 : Nat) + remainder =
      (each + if remainder > 0 then 1 else 0) + (each * k + if remainder > 0 then remainder - 1
        else remainder) := by
  rw [Nat.cast_succ, mul_add, mul_one]
  split <;> omega

mutual

theorem placed_render (w : Widget) (area : Rect) (hw : w.Fair) :
    Placed w.Full (render w area) area := by
  cases w with
  | null => exact .nothing False.elim
  | leaf visible id =>
    rw [render]
    exact .leaf _ id area
  | box visible axis children =>
    rw [render]
    split
    · rename_i hempty
      exact .nothing fun _ => hempty
    · rename_i hempty
      have hpos := Rect.extent_pos hempty axis
      dsimp only
      split
      · rename_i hnone
        apply Placed.nothing
        intro hfull
        have hlength := countP_of_fullAll children hfull.2
        have hne := List.length_pos_iff.mpr hfull.1
        omega
      · have hcount : (0 : Int) < children.countP Widget.visible := by omega
        -- The quotient goes to every visible child, and the remainder to the first ones.
        have heach := placed_renderEach axis area
          (area.extent axis / children.countP Widget.visible) children
          (area.extent axis % children.countP Widget.visible) (area.start axis) hw
          (Int.ediv_nonneg hpos.le hcount.le) (Int.emod_nonneg _ (by omega))
          (Int.emod_lt_of_pos _ hcount).le
        rw [mul_comm, Int.mul_ediv_add_emod, Rect.slice_whole] at heach
        exact heach.mono fun hfull => hfull.2
  | split visible axis share first second =>
    obtain ⟨hshare, hfirst, hsecond⟩ := hw
    rw [render]
    split
    · rename_i hempty
      exact .nothing fun _ => hempty
    · rename_i hempty
      obtain ⟨hlow, hhigh⟩ := hshare (area.extent axis) (Rect.extent_pos hempty axis).le
      have happend := Placed.append hlow
        (by omega : 0 ≤ area.extent axis - share (area.extent axis))
        (Placed.part fun _ =>
          placed_render first (area.slice axis (area.start axis) (share (area.extent axis))) hfirst)
        (Placed.part fun _ => placed_render second
          (area.slice axis (area.start axis + share (area.extent axis))
            (area.extent axis - share (area.extent axis))) hsecond)
      rw [add_sub_cancel, Rect.slice_whole] at happend
      exact happend.mono fun hfull => ⟨⟨hfull.1, hfull.2.1⟩, hfull.2.2.1, hfull.2.2.2⟩
  | float visible width maxRows content =>
    exact (placed_float visible hw.1 fun inner => placed_render content inner hw.2).mono False.elim

theorem placed_renderEach (axis : Axis) (area : Rect) (each : Int) (children : List Widget)
    (remainder pos : Int) (hw : FairAll children) (he : 0 ≤ each) (hr : 0 ≤ remainder)
    (hk : remainder ≤ children.countP Widget.visible) :
    Placed (FullAll children) (renderEach axis area each children remainder pos)
      (area.slice axis pos (each * children.countP Widget.visible + remainder)) := by
  cases children with
  | nil =>
    rw [renderEach]
    apply Placed.nothing
    intro _
    apply Rect.slice_empty
    rw [List.countP_nil] at hk ⊢
    omega
  | cons child rest =>
    obtain ⟨hchild, hrest⟩ := hw
    rw [renderEach]
    by_cases hvisible : child.visible = true
    · rw [List.countP_cons_of_pos hvisible] at hk ⊢
      rw [hvisible, Bool.not_true, if_neg Bool.false_ne_true]
      have htail := placed_renderEach axis area each rest (if remainder > 0 then remainder - 1
        else remainder)
        (pos + (each + if remainder > 0 then 1 else 0)) hrest he (by split <;> omega)
          (by split <;> omega)
      have hpart := Int.mul_nonneg he (Int.natCast_nonneg (rest.countP Widget.visible))
      have happend := Placed.append (by split <;> omega) (by split <;> omega)
        (placed_render child (area.slice axis pos (each + if remainder > 0 then 1 else 0)) hchild)
          htail
      rw [share_step each remainder (rest.countP Widget.visible)]
      exact happend.mono fun hfull => ⟨hfull.2.1, hfull.2.2⟩
    -- A hidden child takes no part, and no share of the remainder either.
    · rw [List.countP_cons_of_neg hvisible] at hk ⊢
      rw [Bool.not_eq_true] at hvisible
      rw [hvisible, Bool.not_false, if_pos rfl]
      exact (placed_renderEach axis area each rest remainder pos hrest he hr hk).mono fun hfull =>
        hfull.2.2

end

end Euxis.Cli.Layout
