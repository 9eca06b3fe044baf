import Mathlib.Data.List.Basic
import Mathlib.Logic.Relation

/-!
# Searches level by level

A search that takes nodes from the front of a queue and appends what lies below them sees a tree
level by level.
-/

namespace Euxis.Levels

variable {α β : Type}

/-- The nodes of the list and of the levels below it, as many levels as `depth`. -/
def order (below : α → List α) : Nat → List α → List α
  | 0, _ => []
  | depth + 1, l => l ++ order below depth (l.flatMap below)

/-- The first result of the test, for nodes from a queue. -/
def search (below : α → List α) (test : α → Option β) : Nat → List α → Option (Option β)
  | 0, _ => none
  | _ + 1, [] => some none
  | fuel + 1, current :: rest =>
    match test current with
    | some b => some (some b)
    | none => search below test fuel (rest ++ below current)

@[simp]
theorem order_nil (below : α → List α) (depth : Nat) : order below depth [] = [] := by
  induction depth with
  | zero => rfl
  | succ depth ih => exact ih

section Order

variable {below : α → List α} {test : α → Option β}

/-- **The search sees the levels in order.** -/
theorem search_order (rank : α → Nat) (hrank : ∀ a, ∀ b ∈ below a, rank b < rank a) (fuel : Nat)
    {rest next : List α} {depth : Nat} (hrest : ∀ a ∈ rest, rank a ≤ depth)
    (hnext : ∀ a ∈ next, rank a < depth) {r : Option β}
    (h : search below test fuel (rest ++ next) = some r) :
    r = (rest ++ order below depth (next ++ rest.flatMap below)).findSome? test := by
  induction fuel generalizing rest next depth with
  | zero => cases h
  | succ fuel ih =>
    cases rest with
    | cons current rest =>
      rw [List.cons_append, search] at h
      rw [List.cons_append, List.findSome?_cons]
      split at h
      · rename_i b hb
        rw [hb]
        exact (Option.some.inj h).symm
      · rename_i hnone
        rw [hnone, List.flatMap_cons, ← List.append_assoc]
        refine ih (fun a ha => hrest a (List.mem_cons_of_mem _ ha)) ?_
          (by rwa [← List.append_assoc])
        intro a ha
        rcases List.mem_append.mp ha with ha | ha
        · exact hnext a ha
        · exact Nat.lt_of_lt_of_le (hrank current a ha) (hrest current List.mem_cons_self)
    | nil =>
      -- One level is done: the queue holds the next one.
      cases next with
      | nil =>
        rw [List.nil_append, search] at h
        simpa using (Option.some.inj h).symm
      | cons current next =>
        cases depth with
        | zero => exact absurd (hnext current List.mem_cons_self) (Nat.not_lt_zero _)
        | succ depth =>
          rw [List.nil_append, search] at h
          rw [List.nil_append, List.flatMap_nil, List.append_nil, order, List.cons_append,
            List.findSome?_cons]
          split at h
          · rename_i b hb
            rw [hb]
            exact (Option.some.inj h).symm
          · rename_i hnone
            rw [hnone, List.flatMap_cons]
            refine ih (fun a ha => ?_) (fun a ha => ?_) h
            · exact Nat.le_of_lt_succ (hnext a (List.mem_cons_of_mem _ ha))
            · exact Nat.lt_of_lt_of_le (hrank current a ha)
                (Nat.le_of_lt_succ (hnext current List.mem_cons_self))

theorem search_eq (rank : α → Nat) (hrank : ∀ a, ∀ b ∈ below a, rank b < rank a) (fuel depth : Nat)
    {l : List α} (hdepth : ∀ a ∈ l, rank a < depth) {r : Option β}
    (h : search below test fuel l = some r) : r = (order below depth l).findSome? test := by
  have horder := search_order rank hrank fuel (nofun : ∀ a ∈ [], rank a ≤ depth) hdepth h
  rwa [List.flatMap_nil, List.append_nil, List.nil_append] at horder

theorem order_prefix (below : α → List α) (depth more : Nat) (l : List α) :
    order below depth l <+: order below (depth + more) l := by
  induction depth generalizing l with
  | zero => exact List.nil_prefix
  | succ depth ih =>
    rw [Nat.succ_add]
    exact (List.prefix_append_right_inj l).mpr (ih _)

theorem order_flatMap (depth : Nat) (l : List α) :
    (order below depth l).flatMap below = order below depth (l.flatMap below) := by
  induction depth generalizing l with
  | zero => rfl
  | succ depth ih => rw [order, List.flatMap_append, ih, order]

theorem mem_order {depth : Nat} {l : List α} {a b : α} (rank : α → Nat)
    (hrank : ∀ a, ∀ b ∈ below a, rank b < rank a) (ha : a ∈ l) (hdepth : rank a < depth)
    (h : Relation.ReflTransGen (fun a b => b ∈ below a) a b) : b ∈ order below depth l := by
  induction h using Relation.ReflTransGen.head_induction_on generalizing depth l with
  | refl =>
    cases depth with
    | zero => omega
    | succ depth => exact List.mem_append_left _ ha
  | @head a c hc _ ih =>
    cases depth with
    | zero => omega
    | succ depth =>
      have := hrank a c hc
      exact List.mem_append_right _ (ih (List.mem_flatMap.mpr ⟨a, ha, hc⟩) (by omega))

theorem reaches_of_mem_order {depth : Nat} {l : List α} {b : α} (h : b ∈ order below depth l) :
    ∃ a ∈ l, Relation.ReflTransGen (fun a b => b ∈ below a) a b := by
  induction depth generalizing l with
  | zero => cases h
  | succ depth ih =>
    rcases List.mem_append.mp h with h | h
    · exact ⟨b, h, .refl⟩
    · obtain ⟨c, hc, hreach⟩ := ih h
      obtain ⟨a, ha, hac⟩ := List.mem_flatMap.mp hc
      exact ⟨a, ha, .head hac hreach⟩

end Order

/-! ## A part of the tree -/

section Part

variable {below : α → List α} (ok P R : α → Bool)

/-- The levels of a part of the tree are the levels of the tree without the other nodes. -/
theorem order_filter (hP : ∀ a, R a = true → ∀ b ∈ below a, R b = true ∧ P b = (P a && ok b))
    (depth : Nat) (l : List α) (hl : ∀ a ∈ l, R a = true) :
    order (fun a => (below a).filter ok) depth (l.filter P) = (order below depth l).filter P := by
  -- One level: a node of the part has its part of the children, and any other node has none.
  have hnext : ∀ l : List α, (∀ a ∈ l, R a = true) →
      ((l.filter P).flatMap fun a => (below a).filter ok) = (l.flatMap below).filter P := by
    intro l hl
    induction l with
    | nil => rfl
    | cons a rest ih =>
      have ih := ih fun b hb => hl b (List.mem_cons_of_mem _ hb)
      have hbelow : (below a).filter P = if P a then (below a).filter ok else [] := by
        split
        · rename_i ha
          refine List.filter_congr fun b hb => ?_
          rw [(hP a (hl a List.mem_cons_self) b hb).2, ha, Bool.true_and]
        · rename_i ha
          rw [List.filter_eq_nil_iff]
          intro b hb
          rw [(hP a (hl a List.mem_cons_self) b hb).2, Bool.eq_false_iff.mpr ha, Bool.false_and]
          exact Bool.false_ne_true
      rw [List.flatMap_cons, List.filter_append, hbelow, ← ih, List.filter_cons]
      split
      · rw [List.flatMap_cons]
      · rfl
  induction depth generalizing l with
  | zero => rfl
  | succ depth ih =>
    have hbelow : ∀ b ∈ l.flatMap below, R b = true := by
      intro b hb
      obtain ⟨a, ha, hb⟩ := List.mem_flatMap.mp hb
      exact (hP a (hl a ha) b hb).1
    rw [order, order, List.filter_append, hnext l hl, ih _ hbelow]

end Part

/-! ## The first result -/

section First

variable {below : α → List α} {f : α → Option β} {P : α → Bool}

/-- A node has the first result among those with the property: nothing with the property and a
result stands in front of it. -/
def FirstIn (P : α → Prop) (f : α → Option β) (l : List α) (a : α) : Prop :=
  ∃ front back, l = front ++ a :: back ∧ P a ∧ (f a).isSome = true ∧ ∀ b ∈ front, P b → f b = none

theorem FirstIn.holds {P : α → Prop} {l : List α} {a : α} (h : FirstIn P f l a) : P a := by
  obtain ⟨-, -, -, hP, -⟩ := h
  exact hP

theorem firstIn_unique {P : α → Prop} {l : List α} {a a' : α} (h : FirstIn P f l a)
    (h' : FirstIn P f l a') : a = a' := by
  obtain ⟨front, back, hl, hP, hsome, hnone⟩ := h
  obtain ⟨front', back', hl', hP', hsome', hnone'⟩ := h'
  rcases List.append_eq_append_iff.mp (hl.symm.trans hl') with ⟨t, hfront, heq⟩ | ⟨t, hfront, heq⟩
  · cases t with
    | nil => exact (List.cons.inj heq).1
    | cons b t =>
      obtain ⟨rfl, -⟩ := List.cons.inj heq
      rw [hnone' a (by simp [hfront]) hP] at hsome
      cases hsome
  · cases t with
    | nil => exact (List.cons.inj heq).1.symm
    | cons b t =>
      obtain ⟨rfl, -⟩ := List.cons.inj heq
      rw [hnone a' (by simp [hfront]) hP'] at hsome'
      cases hsome'

theorem FirstIn.mono {P Q : α → Prop} {l : List α} {a : α} (h : FirstIn Q f l a)
    (hPQ : ∀ b, P b → Q b) (hP : P a) : FirstIn P f l a := by
  obtain ⟨front, back, hl, -, hsome, hnone⟩ := h
  exact ⟨front, back, hl, hP, hsome, fun b hb hPb => hnone b hb (hPQ b hPb)⟩

theorem FirstIn.or {P Q : α → Prop} {l : List α} {a : α} (h : FirstIn P f l a)
    (h' : FirstIn Q f l a) : FirstIn (fun b => P b ∨ Q b) f l a := by
  obtain ⟨front, back, hl, hP, hsome, hnone⟩ := h
  obtain ⟨front', back', hl', hQ, -, hnone'⟩ := h'
  have hsame : front = front' := by
    rcases List.append_eq_append_iff.mp (hl.symm.trans hl') with ⟨t, hfront, heq⟩ | ⟨t, hfront, heq⟩
    · cases t with
      | nil => simpa using hfront.symm
      | cons b t =>
        obtain ⟨rfl, -⟩ := List.cons.inj heq
        rw [hnone' a (by simp [hfront]) hQ] at hsome
        cases hsome
    · cases t with
      | nil => simpa using hfront
      | cons b t =>
        obtain ⟨rfl, -⟩ := List.cons.inj heq
        rw [hnone a (by simp [hfront]) hP] at hsome
        cases hsome
  subst hsame
  exact ⟨front, back, hl, Or.inl hP, hsome, fun b hb h => h.elim (hnone b hb) (hnone' b hb)⟩

theorem findSome?_filter_some {l : List α} {b : β} (h : (l.filter P).findSome? f = some b) :
    ∃ a, FirstIn (P · = true) f l a ∧ f a = some b := by
  induction l with
  | nil => cases h
  | cons c rest ih =>
    -- A node that is left out, or that has no result, is passed over.
    have hskip : (P c = true → f c = none) → (rest.filter P).findSome? f = some b →
        ∃ a, FirstIn (P · = true) f (c :: rest) a ∧ f a = some b := by
      intro hc hrest
      obtain ⟨a, ⟨front, back, rfl, hP, hsome, hnone⟩, hf⟩ := ih hrest
      refine ⟨a, ⟨c :: front, back, rfl, hP, hsome, ?_⟩, hf⟩
      intro d hd
      rcases List.mem_cons.mp hd with rfl | hd
      · exact hc
      · exact hnone d hd
    rw [List.filter_cons] at h
    split at h
    · rename_i hP
      rw [List.findSome?_cons] at h
      split at h
      · rename_i b' hb
        rw [Option.some.inj h] at hb
        exact ⟨c, ⟨[], rest, rfl, hP, by simp [hb], nofun⟩, hb⟩
      · rename_i hnone
        exact hskip (fun _ => hnone) h
    · rename_i hP
      exact hskip (fun h => absurd h hP) h

theorem findSome?_part (l : List α) (hP : ∀ a ∈ l, ∀ b ∈ below a, (f b).isSome = true → P b = P a) :
    (l.filter P).findSome? (fun a => (below a).findSome? f) =
      ((l.flatMap below).filter P).findSome? f := by
  induction l with
  | nil => rfl
  | cons a rest ih =>
    have ih := ih fun b hb => hP b (List.mem_cons_of_mem _ hb)
    -- The children with a result are all in the part, or none of them is.
    have hbelow : ∀ bs : List α, (∀ b ∈ bs, (f b).isSome = true → P b = P a) →
        (bs.filter P).findSome? f = if P a then bs.findSome? f else none := by
      intro bs hbs
      induction bs with
      | nil => simp
      | cons b bs ihb =>
        have ihb := ihb fun c hc => hbs c (List.mem_cons_of_mem _ hc)
        have hb := hbs b List.mem_cons_self
        rw [List.filter_cons, List.findSome?_cons]
        cases hf : f b with
        | none =>
          split
          · rw [List.findSome?_cons, hf]
            exact ihb
          · exact ihb
        | some y =>
          rw [hb (by simp [hf])]
          split
          · rw [List.findSome?_cons, hf]
          · rename_i hPa
            rw [ihb, if_neg hPa]
    rw [List.flatMap_cons, List.filter_append, List.findSome?_append,
      hbelow _ (hP a List.mem_cons_self), ← ih, List.filter_cons]
    split
    · rw [List.findSome?_cons]
      cases (below a).findSome? f <;> rfl
    · rfl

end First

/-! ## A limit on the depth -/

section Limited

variable (limit : Nat) (below : α → List α) (test : α → Option β)

/-- Below a node at a depth up to the limit. -/
def limitedBelow (t : α × Nat) : List (α × Nat) :=
  if limit < t.2 then [] else (below t.1).map (·, t.2 + 1)

def limitedTest (t : α × Nat) : Option β := if limit < t.2 then none else test t.1

theorem order_limited (depth d : Nat) (l : List α) (hdepth : limit + 1 - d ≤ depth) :
    (order (limitedBelow limit below) depth (l.map (·, d))).findSome? (limitedTest limit test) =
      (order below (limit + 1 - d) l).findSome? test := by
  induction depth generalizing d l with
  | zero =>
    rw [show limit + 1 - d = 0 by omega]
    rfl
  | succ depth ih =>
    rw [order, List.findSome?_append]
    by_cases hd : limit < d
    · have hbelow : (l.map (·, d)).flatMap (limitedBelow limit below) = [] := by
        rw [List.flatMap_map, List.flatMap_eq_nil_iff]
        exact fun a _ => if_pos hd
      have htest : (l.map (·, d)).findSome? (limitedTest limit test) = none := by
        rw [List.findSome?_map, List.findSome?_eq_none_iff]
        exact fun a _ => if_pos hd
      rw [hbelow, htest, order_nil, show limit + 1 - d = 0 by omega]
      rfl
    · have hbelow : (l.map (·, d)).flatMap (limitedBelow limit below) =
          (l.flatMap below).map (·, d + 1) := by
        simp [limitedBelow, hd, List.flatMap_map, List.map_flatMap]
      have htest : (l.map (·, d)).findSome? (limitedTest limit test) = l.findSome? test := by
        simp [limitedTest, hd, List.findSome?_map, Function.comp_def]
      rw [hbelow, htest, ih (d + 1) _ (by omega), show limit + 1 - d = limit + 1 - (d + 1) +
        1 by omega, order, List.findSome?_append]

end Limited

end Euxis.Levels
