import Mathlib.Data.List.Induction
import Mathlib.Data.List.Nodup
import Mathlib.Data.List.Perm.Subperm
import Mathlib.Logic.Function.Basic

/-!
# Merging records through an index

Records come one after the other. The first record of a key makes an entry, a later one changes it,
and the keys are kept in the order of their first appearance.
-/

namespace Euxis.Merge

variable {ρ κ ε : Type} [DecidableEq κ] (key : ρ → κ) (make : ρ → ε) (change : ε → ρ → ε)

structure Index (κ ε : Type) where
  order : List κ := []
  entry : κ → Option ε := fun _ => none

def add (index : Index κ ε) (r : ρ) : Index κ ε :=
  match index.entry (key r) with
  | none =>
    { order := index.order ++ [key r],
      entry := Function.update index.entry (key r) (some (make r)) }
  | some e => { index with entry := Function.update index.entry (key r) (some (change e r)) }

/-- The distinct keys, in the order of their first appearance. -/
def distinct (keys : List κ) : List κ := keys.eraseDups

/-- The entry of the records of one key. -/
def gather : List ρ → Option ε
  | [] => none
  | r :: later => some (later.foldl change (make r))

omit [DecidableEq κ] in
theorem gather_append (records : List ρ) (r : ρ) :
    gather make change (records ++ [r]) =
      some (match gather make change records with
        | none => make r
        | some e => change e r) := by
  cases records with
  | nil => rfl
  | cons first later => simp [gather, List.foldl_append]

omit [DecidableEq κ] in
theorem gather_eq_none (records : List ρ) : gather make change records = none ↔ records = [] := by
  cases records with
  | nil => simp [gather]
  | cons first later => simp [gather]

theorem mem_distinct (keys : List κ) (k : κ) : k ∈ distinct keys ↔ k ∈ keys := List.mem_eraseDups

theorem distinct_concat (keys : List κ) (k : κ) :
    distinct (keys ++ [k]) = distinct keys ++ if k ∈ keys then [] else [k] := by
  unfold distinct
  rw [List.eraseDups_append]
  by_cases hmem : k ∈ keys
  · simp [List.removeAll, hmem]
  · simp [List.removeAll, hmem, List.eraseDups_cons]

theorem nodup_eraseDups {α : Type} [BEq α] [LawfulBEq α] (l : List α) : l.eraseDups.Nodup := by
  induction l using List.reverseRecOn with
  | nil => exact List.nodup_nil
  | append_singleton l a ih =>
    rw [List.eraseDups_append]
    refine ih.append ?_ ?_
    · by_cases hmem : a ∈ l
      · simp [List.removeAll, hmem]
      · simp [List.removeAll, hmem, List.eraseDups_cons]
    · intro b hb hb'
      rw [List.mem_eraseDups] at hb hb'
      simp only [List.removeAll, List.mem_filter] at hb'
      simp [hb] at hb'

theorem distinct_nodup (keys : List κ) : (distinct keys).Nodup := nodup_eraseDups keys

theorem distinct_perm {keys keys' : List κ} (h : keys.Perm keys') :
    (distinct keys).Perm (distinct keys') := by
  rw [List.perm_ext_iff_of_nodup (distinct_nodup keys) (distinct_nodup keys')]
  intro a
  rw [mem_distinct, mem_distinct]
  exact h.mem_iff

theorem distinct_map {ι : Type} [DecidableEq ι] (f : ι → κ) (l : List ι)
    (hf : ∀ a ∈ l, ∀ b ∈ l, f a = f b → a = b) : distinct (l.map f) = (distinct l).map f := by
  induction l using List.reverseRecOn with
  | nil => rfl
  | append_singleton l a ih =>
    have hold := ih fun b hb c hc => hf b (List.mem_append_left _ hb) c (List.mem_append_left _ hc)
    have hmem : f a ∈ l.map f ↔ a ∈ l := by
      constructor
      · intro h
        obtain ⟨b, hb, hba⟩ := List.mem_map.mp h
        rw [← hf b (List.mem_append_left _ hb) a (by simp) hba]
        exact hb
      · exact List.mem_map_of_mem
    rw [List.map_append, List.map_singleton, distinct_concat, distinct_concat,
      List.map_append, hold]
    by_cases ha : a ∈ l
    · rw [if_pos ha, if_pos (hmem.mpr ha)]
      rfl
    · rw [if_neg ha, if_neg (mt hmem.mp ha)]
      rfl

theorem nodup_of_distinct_length {keys : List κ} (h : keys.length ≤ (distinct keys).length) :
    keys.Nodup := by
  have hsub : (distinct keys).Subperm keys :=
    List.subperm_of_subset (distinct_nodup keys) fun k hk => (mem_distinct keys k).mp hk
  exact (hsub.perm_of_length_le h).nodup_iff.mp (distinct_nodup keys)

/-! ## Groups -/

/-- Each key with the pieces that came under it, joined in their order. -/
def groups {α : Type} (pieces : List (κ × List α)) : List (κ × List α) :=
  (distinct (pieces.map (·.1))).map fun k => (k, (pieces.filter (·.1 = k)).flatMap (·.2))

theorem groups_perm {α ι : Type} (pieces : List (κ × List α)) (wholes : List ι) (id : ι → κ)
    (text : ι → List α) (hid : (wholes.map id).Nodup)
    (hkeys : ∀ k, k ∈ pieces.map (·.1) ↔ k ∈ wholes.map id)
    (htext : ∀ w ∈ wholes, (pieces.filter (·.1 = id w)).flatMap (·.2) = text w) :
    (groups pieces).Perm (wholes.map fun w => (id w, text w)) := by
  have hperm : (distinct (pieces.map (·.1))).Perm (wholes.map id) := by
    rw [List.perm_ext_iff_of_nodup (distinct_nodup _) hid]
    intro k
    rw [mem_distinct, hkeys]
  refine (hperm.map _).trans ?_
  rw [List.map_map]
  apply List.Perm.of_eq
  apply List.map_congr_left
  intro w hw
  rw [Function.comp_apply, htext w hw]

theorem groups_of_nodup {α : Type} (pieces : List (κ × List α)) (h : (pieces.map (·.1)).Nodup) :
    (groups pieces).Perm pieces := by
  have hgroups := groups_perm pieces pieces (·.1) (·.2) h (fun _ => Iff.rfl) ?_
  · simpa using hgroups
  · intro p hp
    have hone : pieces.filter (·.1 = p.1) = [p] := by
      have hinj := List.inj_on_of_nodup_map h
      have hall : ∀ q ∈ pieces.filter (·.1 = p.1), q = p := by
        intro q hq
        obtain ⟨hq, hkey⟩ := List.mem_filter.mp hq
        exact hinj hq hp (of_decide_eq_true hkey)
      have hnodup : (pieces.filter (·.1 = p.1)).Nodup := (List.Nodup.of_map _ h).filter _
      have hmem : p ∈ pieces.filter (·.1 = p.1) := List.mem_filter.mpr ⟨hp, decide_eq_true rfl⟩
      have hreplicate := List.eq_replicate_of_mem hall
      rw [hreplicate] at hnodup hmem ⊢
      rw [List.nodup_replicate] at hnodup
      have hpos := List.length_pos_of_mem hmem
      rw [List.length_replicate] at hpos
      have hlength : (pieces.filter (·.1 = p.1)).length = 1 := by omega
      rw [hlength, List.replicate_one]
    rw [hone, List.flatMap_singleton]

/-- **The merge.** The index holds one entry for each key, made of the records of that key alone. -/
theorem merged (records : List ρ) :
    (records.foldl (add key make change) {}).order = distinct (records.map key) ∧
      ∀ k, (records.foldl (add key make change) {}).entry k =
        gather make change (records.filter (key · = k)) := by
  induction records using List.reverseRecOn with
  | nil => exact ⟨rfl, fun _ => rfl⟩
  | append_singleton records r ih =>
    obtain ⟨horder, hentry⟩ := ih
    rw [List.foldl_append, List.foldl_cons, List.foldl_nil]
    generalize records.foldl (add key make change) {} = index at horder hentry
    -- The records so far have filled the index: a key is in it exactly if some record had it.
    have hpresent : index.entry (key r) = none ↔ key r ∉ records.map key := by
      rw [hentry, gather_eq_none, List.filter_eq_nil_iff]
      simp
    have hfilter : ∀ k, (records ++ [r]).filter (key · = k) =
        records.filter (key · = k) ++ if key r = k then [r] else [] := by
      intro k
      rw [List.filter_append]
      by_cases hk : key r = k
      · simp [hk]
      · simp [hk]
    have hgather : ∀ k, gather make change ((records ++ [r]).filter (key · = k)) =
        Function.update index.entry (key r) (some (match index.entry (key r) with
          | none => make r
          | some e => change e r)) k := by
      intro k
      rw [hfilter]
      by_cases hk : key r = k
      · subst hk
        rw [if_pos rfl, gather_append, ← hentry, Function.update_self]
      · rw [if_neg hk, List.append_nil, Function.update_of_ne (Ne.symm hk), hentry]
    have hdups : distinct ((records ++ [r]).map key) =
        index.order ++ if key r ∈ records.map key then [] else [key r] := by
      rw [List.map_append, horder]
      exact distinct_concat (records.map key) (key r)
    unfold add
    cases hcase : index.entry (key r) with
    | none =>
      have hnew := hpresent.mp hcase
      rw [hcase] at hgather
      refine ⟨?_, fun k => (hgather k).symm⟩
      rw [hdups, if_neg hnew]
    | some e =>
      have hold : key r ∈ records.map key := by
        by_contra hnew
        rw [hpresent.mpr hnew] at hcase
        cases hcase
      rw [hcase] at hgather
      refine ⟨?_, fun k => (hgather k).symm⟩
      rw [hdups, if_pos hold, List.append_nil]

end Euxis.Merge
