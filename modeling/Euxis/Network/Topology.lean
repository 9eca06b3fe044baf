import Euxis.Bytes
import Euxis.Postings
import Euxis.Trace

/-!
# The topology grid: `libs/network/src/topology_grid.cpp`

A map of nodes, an index from capabilities to node ids, and a square matrix that grows with the
number of nodes. The cells of the matrix are of any type with a zero.
-/

namespace Euxis.Network.Topology

open Postings Trace

structure NodeInfo where
  id : Bytes
  role : Bytes
  status : Bytes
  capabilities : List Bytes
  deriving DecidableEq

structure Grid (γ : Type) where
  size : Nat
  data : List γ
  nodes : AList fun _ : Bytes => NodeInfo
  index : Index Bytes Bytes

section Operations

variable {γ : Type} [Zero γ]

def new (size : Nat) : Grid γ :=
  { size, data := List.replicate (size * size) 0, nodes := ∅, index := ∅ }

/-- `operator[]`: nothing out of bounds. -/
def cell (g : Grid γ) (i j : Nat) : Option γ :=
  if i < g.size ∧ j < g.size then g.data[i * g.size + j]? else none

/-- A write through `operator[]`. -/
def write (g : Grid γ) (i j : Nat) (value : γ) : Grid γ :=
  if i < g.size ∧ j < g.size then { g with data := g.data.set (i * g.size + j) value } else g

def unregisterNode (g : Grid γ) (id : Bytes) : Grid γ :=
  match g.nodes.lookup id with
  | none => g
  | some node =>
    { g with index := node.capabilities.foldl (drop id) g.index, nodes := g.nodes.erase id }

/-- The writes of the two copy loops, in order. -/
def copies (data : List γ) (size newSize : Nat) : List (Nat × γ) :=
  (List.range size).flatMap fun i => (List.range size).map fun j => (i * newSize + j,
    data.getD (i * size + j) 0)

def resize (g : Grid γ) : Grid γ :=
  if g.size < g.nodes.entries.length then
    let newSize := g.nodes.entries.length
    { g with
      data := (copies g.data g.size newSize).foldl (fun d w => d.set w.1 w.2)
        (List.replicate (newSize * newSize) 0)
      size := newSize }
  else g

def registerNode (g : Grid γ) (node : NodeInfo) : Grid γ :=
  let g := if node.id ∈ g.nodes then unregisterNode g node.id else g
  resize { g with
    nodes := g.nodes.insert node.id node
    index := node.capabilities.foldl (push node.id) g.index }

/-- `nodes_.at` throws for an id that is not registered. -/
def findNodesByCapability (g : Grid γ) (capability : Bytes) : Option (List NodeInfo) :=
  (listed g.index capability).mapM g.nodes.lookup

inductive Op (γ : Type) where
  | registerNode (node : NodeInfo)
  | unregisterNode (id : Bytes)
  | write (i j : Nat) (value : γ)

def step (g : Grid γ) : Op γ → Grid γ
  | .registerNode node => registerNode g node
  | .unregisterNode id => unregisterNode g id
  | .write i j value => write g i j value

end Operations

/-! ## The matrix -/

section Matrix

variable {γ : Type}

theorem foldl_set_getElem? (f : Nat → γ) (writes : List (Nat × γ)) (h : ∀ w ∈ writes, w.2 = f w.1)
    (data : List γ) (k : Nat) :
    (writes.foldl (fun d w => d.set w.1 w.2) data)[k]? =
      if k ∈ writes.map Prod.fst ∧ k < data.length then some (f k) else data[k]? := by
  induction writes generalizing data with
  | nil => simp
  | cons w rest ih =>
    rw [List.foldl_cons, ih (fun v hv => h v (List.mem_cons_of_mem _ hv)), List.length_set,
      List.map_cons, List.getElem?_set]
    have hw := h w List.mem_cons_self
    by_cases hrest : k ∈ rest.map Prod.fst
    · by_cases hlt : k < data.length
      · simp [hrest, hlt]
      · have hne : ¬ w.1 < data.length ∨ w.1 ≠ k := by omega
        rcases hne with hne | hne
        · simp [hlt, hne]
        · simp [hlt, hne]
    · by_cases hk : w.1 = k
      · subst hk
        by_cases hlt : w.1 < data.length
        · simp [hrest, hlt, hw]
        · simp [hrest, hlt]
      · have hk' : ¬ k = w.1 := fun heq => hk heq.symm
        simp [hrest, hk, hk']

theorem length_foldl_set (writes : List (Nat × γ)) (data : List γ) :
    (writes.foldl (fun d w => d.set w.1 w.2) data).length = data.length := by
  induction writes generalizing data with
  | nil => rfl
  | cons w rest ih => rw [List.foldl_cons, ih, List.length_set]

theorem flat_index (i j n : Nat) (hj : j < n) : (i * n + j) / n = i ∧ (i * n + j) % n = j := by
  constructor
  · rw [Nat.add_comm, Nat.add_mul_div_right _ _ (by omega), Nat.div_eq_of_lt hj, Nat.zero_add]
  · rw [Nat.add_comm, Nat.add_mul_mod_self_right, Nat.mod_eq_of_lt hj]

theorem flat_index_lt (i j n : Nat) (hi : i < n) (hj : j < n) : i * n + j < n * n := by
  rw [Nat.mul_comm i]
  exact Nat.mul_add_lt_mul_of_lt_of_lt hi hj

theorem cell_resize [Zero γ] (g : Grid γ) (hfull : g.data.length = g.size * g.size) (i j : Nat)
    (hi : i < g.size) (hj : j < g.size) : cell (resize g) i j = cell g i j := by
  unfold resize
  split
  · rename_i hgrows
    have hj' : j < g.nodes.entries.length := by omega
    have hold : i * g.size + j < g.data.length := by
      rw [hfull]
      exact flat_index_lt i j g.size hi hj
    have hnew := flat_index_lt i j g.nodes.entries.length (by omega) hj'
    -- The loop writes row by row into the wider matrix; by row and column it is the old cell.
    let old := fun k => g.data.getD (k / g.nodes.entries.length * g.size +
      k % g.nodes.entries.length) 0
    have hwrites : ∀ w ∈ copies g.data g.size g.nodes.entries.length, w.2 = old w.1 := by
      intro w hw
      simp only [copies, List.mem_flatMap, List.mem_map, List.mem_range] at hw
      obtain ⟨a, ha, b, hb, rfl⟩ := hw
      obtain ⟨hrow, hcolumn⟩ := flat_index a b g.nodes.entries.length (by omega)
      dsimp only [old]
      rw [hrow, hcolumn]
    have hmem : i * g.nodes.entries.length + j ∈ (copies g.data g.size g.nodes.entries.length).map
        Prod.fst := by
      simp only [copies, List.mem_map, List.mem_flatMap, List.mem_range]
      exact ⟨_, ⟨i, hi, j, hj, rfl⟩, rfl⟩
    obtain ⟨hrow, hcolumn⟩ := flat_index i j g.nodes.entries.length hj'
    unfold cell
    dsimp only
    rw [if_pos ⟨by omega, hj'⟩, if_pos ⟨hi, hj⟩, foldl_set_getElem? old _ hwrites,
      if_pos ⟨hmem, by simpa using hnew⟩]
    dsimp only [old]
    rw [hrow, hcolumn, List.getD_eq_getElem?_getD, List.getElem?_eq_getElem hold]
    rfl
  · rfl

end Matrix

/-! ## What every run keeps -/

section Kept

variable {γ : Type}

/-- How often the node under the id has the capability. -/
def uses (g : Grid γ) (c id : Bytes) : Nat :=
  ((g.nodes.lookup id).map fun n => n.capabilities.count c).getD 0

/-- A node is under its own id, the index has it once for each time it lists the capability, and the
matrix is square. -/
structure Kept (g : Grid γ) : Prop where
  own : ∀ id n, g.nodes.lookup id = some n → n.id = id
  counts : ∀ c id, (listed g.index c).count id = uses g c id
  full : g.data.length = g.size * g.size

theorem lookup_unregisterNode (g : Grid γ) (id other : Bytes) :
    (unregisterNode g id).nodes.lookup other = if other = id then none
      else g.nodes.lookup other := by
  unfold unregisterNode
  by_cases hother : other = id
  · subst hother
    rw [if_pos rfl]
    split
    · rename_i hnone
      exact hnone
    · exact AList.lookup_erase other g.nodes
  · rw [if_neg hother]
    split
    · rfl
    · exact AList.lookup_erase_ne hother

/-- The node goes from the index as often as it was there: where it does not have a capability, the
index did not have it. -/
theorem count_unregisterNode (g : Grid γ) (id : Bytes) (h : Kept g) (c other : Bytes) :
    (listed (unregisterNode g id).index c).count other = if other = id then 0
      else (listed g.index c).count other := by
  have hcounts := h.counts c id
  unfold uses at hcounts
  unfold unregisterNode
  split
  · rename_i hnone
    rw [hnone] at hcounts
    split
    · rename_i hother
      rw [hother, hcounts]
      rfl
    · rfl
  · rename_i node hnode
    rw [hnode] at hcounts
    dsimp only
    rw [listed_dropAll]
    by_cases hother : other = id
    · subst hother
      rw [if_pos rfl]
      split
      · exact List.count_eq_zero_of_not_mem (by simp)
      · rename_i hnot
        rw [hcounts, Option.map_some, Option.getD_some]
        exact List.count_eq_zero_of_not_mem hnot
    · rw [if_neg hother]
      split
      · exact List.count_filter (by simpa using hother)
      · rfl

theorem unregisterNode_kept (g : Grid γ) (id : Bytes) (h : Kept g) :
    Kept (unregisterNode g id) := by
  refine ⟨?_, ?_, ?_⟩
  · intro other n hlookup
    rw [lookup_unregisterNode] at hlookup
    split at hlookup
    · cases hlookup
    · exact h.own other n hlookup
  · intro c other
    rw [count_unregisterNode g id h, uses, lookup_unregisterNode]
    split
    · rfl
    · exact h.counts c other
  · unfold unregisterNode
    split
    · exact h.full
    · exact h.full

/-- The grid without the node that is to be registered. -/
def cleared (g : Grid γ) (node : NodeInfo) : Grid γ :=
  if node.id ∈ g.nodes then unregisterNode g node.id else g

theorem cleared_kept (g : Grid γ) (node : NodeInfo) (h : Kept g) :
    Kept (cleared g node) ∧ (cleared g node).nodes.lookup node.id = none := by
  unfold cleared
  split
  · exact ⟨unregisterNode_kept g node.id h, by rw [lookup_unregisterNode, if_pos rfl]⟩
  · rename_i hnot
    exact ⟨h, by rwa [AList.lookup_eq_none]⟩

def inserted (g : Grid γ) (node : NodeInfo) : Grid γ :=
  { g with nodes := g.nodes.insert node.id node,
           index := node.capabilities.foldl (push node.id) g.index }

theorem registerNode_eq [Zero γ] (g : Grid γ) (node : NodeInfo) :
    registerNode g node = resize (inserted (cleared g node) node) := rfl

theorem inserted_kept (g : Grid γ) (node : NodeInfo) (h : Kept g)
    (hnew : g.nodes.lookup node.id = none) : Kept (inserted g node) := by
  refine ⟨?_, ?_, h.full⟩
  · intro id n hlookup
    by_cases hid : id = node.id
    · subst hid
      have hsome : some node = some n := (AList.lookup_insert g.nodes).symm.trans hlookup
      rw [← Option.some.inj hsome]
    · have hold : (inserted g node).nodes.lookup id = g.nodes.lookup id :=
        AList.lookup_insert_ne hid
      exact h.own id n (hold.symm.trans hlookup)
  · intro c id
    have hcounts := h.counts c id
    unfold uses at hcounts ⊢
    rw [inserted]
    dsimp only
    rw [count_listed_pushAll, hcounts]
    by_cases hid : id = node.id
    · subst hid
      rw [hnew, AList.lookup_insert]
      simp
    · rw [AList.lookup_insert_ne hid, if_neg hid, Nat.add_zero]

theorem resize_kept [Zero γ] (g : Grid γ) (h : Kept g) : Kept (resize g) := by
  unfold resize
  split
  · exact ⟨h.own, h.counts, by simp [length_foldl_set]⟩
  · exact h

theorem step_kept [Zero γ] (g : Grid γ) (op : Op γ) (h : Kept g) : Kept (step g op) := by
  cases op with
  | registerNode node =>
    obtain ⟨hcleared, hnew⟩ := cleared_kept g node h
    exact resize_kept _ (inserted_kept _ node hcleared hnew)
  | unregisterNode id => exact unregisterNode_kept g id h
  | write i j value =>
    simp only [step, write]
    split
    · exact ⟨h.own, h.counts, by simp [h.full]⟩
    · exact h

end Kept

/-! ## The consistent grids -/

section Consistent

variable {γ : Type}

theorem mapM_lookup {α β : Type} (f : α → Option β) (key : β → α) (ids : List α)
    (h : ∀ id ∈ ids, ∃ b, f id = some b ∧ key b = id) :
    ∃ result, ids.mapM f = some result ∧ result.map key = ids ∧ ∀ b ∈ result,
      f (key b) = some b := by
  induction ids with
  | nil => exact ⟨[], rfl, rfl, by simp⟩
  | cons id rest ih =>
    obtain ⟨b, hb, hkey⟩ := h id List.mem_cons_self
    obtain ⟨result, hresult, hmap, hall⟩ :=
      ih fun other hother => h other (List.mem_cons_of_mem _ hother)
    refine ⟨b :: result, ?_, ?_, ?_⟩
    · simp [List.mapM_cons, hb, hresult]
    · rw [List.map_cons, hkey, hmap]
    · rw [List.forall_mem_cons]
      exact ⟨by rw [hkey, hb], hall⟩

/-- The index lists exactly the nodes that have the capability, each once, a search finds them, and
a larger matrix keeps the cells of the smaller one. -/
structure Consistent [Zero γ] (g : Grid γ) : Prop where
  exact : ∀ c id, id ∈ listed g.index c ↔ ∃ n, g.nodes.lookup id = some n ∧ c ∈ n.capabilities
  once : ∀ c, (listed g.index c).Nodup
  registered : ∀ c, ∀ id ∈ listed g.index c, id ∈ g.nodes
  found : ∀ c, ∃ result, findNodesByCapability g c = some result ∧ result.Nodup ∧
    ∀ n, n ∈ result ↔ g.nodes.lookup n.id = some n ∧ c ∈ n.capabilities
  grown : ∀ node, g.size < (registerNode g node).size → ∀ i j, i < g.size → j < g.size →
    ∃ value, cell g i j = some value ∧ cell (registerNode g node) i j = some value

/-- No node has a capability twice. -/
def Plain (g : Grid γ) : Prop := ∀ id n, g.nodes.lookup id = some n → n.capabilities.Nodup

theorem mem_listed (g : Grid γ) (h : Kept g) (c id : Bytes) :
    id ∈ listed g.index c ↔ ∃ n, g.nodes.lookup id = some n ∧ c ∈ n.capabilities := by
  rw [← List.count_pos_iff, h.counts, uses]
  cases g.nodes.lookup id with
  | none => simp
  | some n => simp

theorem nodup_listed_iff (g : Grid γ) (h : Kept g) : (∀ c, (listed g.index c).Nodup) ↔ Plain g := by
  constructor
  · intro honce id n hlookup
    rw [List.nodup_iff_count_le_one]
    intro c
    have hcount := h.counts c id
    rw [uses, hlookup, Option.map_some, Option.getD_some] at hcount
    rw [← hcount]
    exact List.nodup_iff_count_le_one.mp (honce c) id
  · intro hplain c
    rw [List.nodup_iff_count_le_one]
    intro id
    rw [h.counts, uses]
    cases hlookup : g.nodes.lookup id with
    | none => simp
    | some n =>
      rw [Option.map_some, Option.getD_some]
      exact List.nodup_iff_count_le_one.mp (hplain id n hlookup) c

theorem findNodesByCapability_eq (g : Grid γ) (h : Kept g) (c : Bytes) :
    ∃ result, findNodesByCapability g c = some result ∧ result.map NodeInfo.id = listed g.index c ∧
      ∀ n, n ∈ result ↔ g.nodes.lookup n.id = some n ∧ c ∈ n.capabilities := by
  have hlookup : ∀ id ∈ listed g.index c, ∃ n, g.nodes.lookup id = some n ∧ n.id = id := by
    intro id hid
    obtain ⟨n, hn, -⟩ := (mem_listed g h c id).mp hid
    exact ⟨n, hn, h.own id n hn⟩
  obtain ⟨result, hresult, hmap, hall⟩ := mapM_lookup g.nodes.lookup NodeInfo.id _ hlookup
  refine ⟨result, hresult, hmap, ?_⟩
  intro n
  constructor
  · intro hn
    have hid : n.id ∈ listed g.index c := by
      rw [← hmap]
      exact List.mem_map_of_mem hn
    obtain ⟨n', hn', hc⟩ := (mem_listed g h c n.id).mp hid
    rw [hall n hn] at hn'
    obtain rfl := Option.some.inj hn'
    exact ⟨hall n hn, hc⟩
  · rintro ⟨hn, hc⟩
    have hid := (mem_listed g h c n.id).mpr ⟨n, hn, hc⟩
    rw [← hmap, List.mem_map] at hid
    obtain ⟨n', hn', heq⟩ := hid
    have hsame := hall n' hn'
    rw [heq, hn] at hsame
    rwa [Option.some.inj hsame]

theorem cleared_size (g : Grid γ) (node : NodeInfo) :
    (cleared g node).size = g.size ∧ (cleared g node).data = g.data := by
  unfold cleared unregisterNode
  split
  · split
    · exact ⟨rfl, rfl⟩
    · exact ⟨rfl, rfl⟩
  · exact ⟨rfl, rfl⟩

theorem cell_isSome (g : Grid γ) (h : Kept g) (i j : Nat) (hi : i < g.size) (hj : j < g.size) :
    ∃ value, cell g i j = some value := by
  have hlt : i * g.size + j < g.data.length := by
    rw [h.full]
    exact flat_index_lt i j g.size hi hj
  exact ⟨g.data[i * g.size + j], by rw [cell, if_pos ⟨hi, hj⟩, List.getElem?_eq_getElem hlt]⟩

theorem cell_registerNode [Zero γ] (g : Grid γ) (h : Kept g) (node : NodeInfo) (i j : Nat)
    (hi : i < g.size) (hj : j < g.size) : cell (registerNode g node) i j = cell g i j := by
  obtain ⟨hsize, hdata⟩ := cleared_size g node
  have hsize' : (inserted (cleared g node) node).size = g.size := hsize
  have hdata' : (inserted (cleared g node) node).data = g.data := hdata
  rw [registerNode_eq,
    cell_resize _ (by rw [hsize', hdata', h.full]) i j (by rwa [hsize']) (by rwa [hsize'])]
  unfold cell
  rw [hsize', hdata']

theorem consistent_iff [Zero γ] (g : Grid γ) (h : Kept g) : Consistent g ↔ Plain g := by
  constructor
  · intro hconsistent
    exact (nodup_listed_iff g h).mp hconsistent.once
  · intro hplain
    have honce := (nodup_listed_iff g h).mpr hplain
    refine ⟨mem_listed g h, honce, ?_, ?_, ?_⟩
    · intro c id hid
      obtain ⟨n, hn, -⟩ := (mem_listed g h c id).mp hid
      exact AList.lookup_isSome.mp (by rw [hn]; rfl)
    · intro c
      obtain ⟨result, hresult, hmap, hmem⟩ := findNodesByCapability_eq g h c
      refine ⟨result, hresult, ?_, hmem⟩
      apply List.Nodup.of_map NodeInfo.id
      rw [hmap]
      exact honce c
    · intro node _ i j hi hj
      obtain ⟨value, hvalue⟩ := cell_isSome g h i j hi hj
      exact ⟨value, hvalue, by rw [cell_registerNode g h node i j hi hj, hvalue]⟩

end Consistent

/-! ## Runs -/

section Runs

variable {γ : Type} [Zero γ]

/-- A registered node does not list a capability twice. -/
def Distinct : Op γ → Prop
  | .registerNode node => node.capabilities.Nodup
  | _ => True

theorem new_kept (size : Nat) : Kept (new size : Grid γ) :=
  ⟨by simp [new], by simp [new, uses, listed], by simp [new]⟩

theorem lookup_registerNode (g : Grid γ) (node : NodeInfo) (id : Bytes) :
    (registerNode g node).nodes.lookup id = if id = node.id then some node
      else g.nodes.lookup id := by
  have hresize : (registerNode g node).nodes = (cleared g node).nodes.insert node.id node := by
    rw [registerNode_eq, resize]
    split
    · rfl
    · rfl
  rw [hresize]
  split
  · rename_i hid
    rw [hid, AList.lookup_insert]
  · rename_i hid
    rw [AList.lookup_insert_ne hid, cleared]
    split
    · rw [lookup_unregisterNode, if_neg hid]
    · rfl

theorem step_plain_iff (g : Grid γ) (op : Op γ) (h : Plain g) :
    Plain (step g op) ↔ Distinct op := by
  cases op with
  | registerNode node =>
    constructor
    · intro hplain
      exact hplain node.id node (by rw [step, lookup_registerNode, if_pos rfl])
    · intro hnodup id n hlookup
      rw [step, lookup_registerNode] at hlookup
      split at hlookup
      · rw [← Option.some.inj hlookup]
        exact hnodup
      · exact h id n hlookup
  | unregisterNode id =>
    refine ⟨fun _ => trivial, fun _ other n hlookup => ?_⟩
    rw [step, lookup_unregisterNode] at hlookup
    split at hlookup
    · cases hlookup
    · exact h other n hlookup
  | write i j value =>
    refine ⟨fun _ => trivial, fun _ id n hlookup => h id n ?_⟩
    rw [← hlookup, step, write]
    split
    · rfl
    · rfl

/-- The index and the matrix are consistent after every step of a run when no registered node lists
a capability twice, and only then. -/
theorem topology_consistent_iff (size : Nat) (ops : List (Op γ)) :
    Always step Consistent (new size) ops ↔ ∀ op ∈ ops, Distinct op := by
  have hstart : Plain (new size : Grid γ) := by simp [Plain, new]
  rw [← @each_iff_forall _ _ step _ ops (new size)]
  apply always_iff_each (fun g op (h : Kept g) => step_kept g op h)
  · intro g op hkept hconsistent
    rw [consistent_iff _ (step_kept g op hkept)]
    exact step_plain_iff g op ((consistent_iff g hkept).mp hconsistent)
  · exact new_kept size
  · exact (consistent_iff _ (new_kept size)).mpr hstart

/-- A node that lists a capability twice. -/
def worker : NodeInfo :=
  { id := ascii "n1", role := ascii "worker", status := ascii "online",
    capabilities := [ascii "compute", ascii "compute"] }

theorem worker_found_twice :
    findNodesByCapability (registerNode (new 0 : Grid Nat) worker) (ascii "compute") =
      some [worker, worker] ∧
      ¬ Always step Consistent (new 0 : Grid Nat) [.registerNode worker] := by
  refine ⟨by decide +kernel, ?_⟩
  rintro ⟨-, h⟩
  have hlisted : listed (step (new 0 : Grid Nat) (.registerNode worker)).index (ascii "compute") =
      [ascii "n1", ascii "n1"] := by
    decide +kernel
  have honce := h.once (ascii "compute")
  rw [hlisted] at honce
  simp at honce

end Runs

end Euxis.Network.Topology
