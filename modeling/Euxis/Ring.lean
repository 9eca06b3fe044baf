import Mathlib.Data.List.Rotate
import Mathlib.Data.List.Range
import Mathlib.Data.List.Nodup

/-!
# Places in a ring

The places `0` to `n - 1`, walked upwards or downwards and round, to the first one that is fit.
Where each walk begins behind the place that the last one found, every fit place is found in its
turn.
-/

namespace Euxis.Ring

variable {n : Nat} {p : Nat → Bool}

/-- All places, from `k` on. -/
def ring (n k : Nat) : List Nat := (List.range n).rotate k

theorem map_up (n k : Nat) : (List.range n).map (fun i => (k + i) % n) = ring n k := by
  apply List.ext_getElem
  · simp [ring]
  · intro i hi _
    simp [ring, List.getElem_rotate, Nat.add_comm k i]

theorem map_down (n k : Nat) :
    (List.range n).map (fun i => (k + n - i) % n) = (ring n (k + 1)).reverse := by
  apply List.ext_getElem
  · simp [ring]
  · intro i hi _
    have hin : i < n := by simpa using hi
    have hsum : n - 1 - i + (k + 1) = k + n - i := by omega
    simp [ring, List.getElem_rotate, hsum]

theorem getElem?_ring {k i : Nat} (hi : i < n) : (ring n k)[i]? = some ((i + k) % n) := by
  have hlt : (i + k) % n < n := Nat.mod_lt _ (by omega)
  rw [ring, List.getElem?_rotate (by simpa using hi), List.length_range, List.getElem?_range hlt]

theorem ring_of_split {k d : Nat} {pre post : List Nat} (h : ring n k = pre ++ d :: post) :
    ring n d = d :: (post ++ pre) ∧ ring n (d + 1) = post ++ (pre ++ [d]) := by
  have hlen : pre.length < n := by
    have := congrArg List.length h
    simp [ring] at this
    omega
  have hd : d = (pre.length + k) % n := by
    have := getElem?_ring (k := k) hlen
    rw [h] at this
    simpa using this
  have hrotate : ∀ m, ring n (d + m) = (ring n k).rotate (pre.length + m) := by
    intro m
    rw [ring, ring, List.rotate_rotate, ← List.rotate_mod, ← List.rotate_mod _ (k + _),
      List.length_range, hd]
    congr 1
    rw [Nat.mod_add_mod]
    congr 1
    omega
  constructor
  · have h0 := hrotate 0
    rw [Nat.add_zero, Nat.add_zero, h, List.rotate_append_length_eq] at h0
    exact h0
  · rw [hrotate 1, h, List.append_cons,
      show pre.length + 1 = (pre ++ [d]).length by simp, List.rotate_append_length_eq]

theorem ring_succ {c : Nat} (hc : c < n) : ∃ before, ring n (c + 1) = before ++ [c] := by
  have hmem : c ∈ ring n 0 := by simpa [ring] using hc
  obtain ⟨pre, post, hsplit⟩ := List.append_of_mem hmem
  exact ⟨post ++ pre, by rw [(ring_of_split hsplit).2, List.append_assoc]⟩

theorem filter_of_find {k d : Nat} (h : (ring n k).find? p = some d) :
    ∃ rest, (ring n k).filter p = d :: rest ∧ (ring n (d + 1)).filter p = rest ++ [d] := by
  obtain ⟨hd, pre, post, hsplit, hpre⟩ := List.find?_eq_some_iff_append.mp h
  have hunfit : pre.filter p = [] := by
    apply List.filter_eq_nil_iff.mpr
    intro a ha
    simpa using hpre a ha
  refine ⟨post.filter p, ?_, ?_⟩
  · rw [hsplit, List.filter_append, hunfit, List.filter_cons_of_pos hd, List.nil_append]
  · rw [(ring_of_split hsplit).2, List.filter_append, List.filter_append, hunfit,
      List.filter_cons_of_pos hd]
    simp

theorem find_back {c d : Nat} (hc : c < n) (hp : p c = true)
    (h : (ring n (c + 1)).find? p = some d) : (ring n d).reverse.find? p = some c := by
  obtain ⟨hd, pre, post, hsplit, hpre⟩ := List.find?_eq_some_iff_append.mp h
  obtain ⟨before, hlast⟩ := ring_succ hc
  rw [(ring_of_split hsplit).1, List.reverse_cons, List.reverse_append, List.append_assoc,
    List.find?_append]
  have hnone : pre.reverse.find? p = none := by
    apply List.find?_eq_none.mpr
    intro a ha
    simpa using hpre a (List.mem_reverse.mp ha)
  rw [hnone, Option.none_or]
  rcases List.eq_nil_or_concat post with rfl | ⟨more, last, rfl⟩
  · -- Nothing else is fit: the walk up went all the way round.
    rw [hlast] at hsplit
    obtain ⟨-, hcd⟩ := List.append_inj' hsplit rfl
    rw [List.reverse_nil, List.nil_append, ← (List.cons.inj hcd).1]
    exact List.find?_cons_of_pos hp
  · rw [List.concat_eq_append] at hsplit ⊢
    rw [hlast, ← List.cons_append, ← List.append_assoc] at hsplit
    obtain ⟨-, hcl⟩ := List.append_inj' hsplit rfl
    rw [List.reverse_append, List.reverse_singleton, ← (List.cons.inj hcl).1, List.append_assoc]
    exact List.find?_cons_of_pos hp

/-! ## Walk after walk -/

/-- What `m` walks find, each one beginning behind the place that the last one found. -/
def visits (n : Nat) (p : Nat → Bool) (k : Nat) : Nat → List Nat
  | 0 => []
  | m + 1 => ((ring n k).find? p).elim [] fun d => d :: visits n p (d + 1) m

theorem visits_eq (k m : Nat) (hm : m ≤ ((ring n k).filter p).length) :
    visits n p k m = ((ring n k).filter p).take m := by
  induction m generalizing k with
  | zero => simp [visits]
  | succ m ih =>
    cases hfind : (ring n k).find? p with
    | none =>
      have hnil : (ring n k).filter p = [] :=
        List.filter_eq_nil_iff.mpr fun a ha => List.find?_eq_none.mp hfind a ha
      rw [hnil] at hm
      exact absurd hm (by simp)
    | some d =>
      obtain ⟨rest, hfilter, hnext⟩ := filter_of_find hfind
      rw [hfilter, List.length_cons] at hm
      rw [visits, hfind, hfilter, List.take_succ_cons, Option.elim_some,
        ih (d + 1) (by rw [hnext, List.length_append]; omega), hnext,
        List.take_append_of_le_length (by omega)]

end Euxis.Ring
