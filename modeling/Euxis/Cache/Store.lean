import Mathlib.Data.List.Dedup
import Euxis.Cache.Key
import Euxis.Trace

/-!
# The cache of scan results: `libs/cache/src/store.cpp`

One table of SQLite, with the key of a row as its primary key. What SQLite itself reports as an
error is left out, and an `int64` is an integer.
-/

namespace Euxis.Cache

open Scan (KeyInputs)

/-- Zero, or less, stands for a field that is not given. -/
structure CacheEntry where
  findingsJson : Bytes
  createdAtUnix : Int := 0
  sizeBytes : Int := 0
  deriving DecidableEq, Repr

structure Row where
  cacheKey : Bytes
  inputs : KeyInputs
  entry : CacheEntry

structure CacheStats where
  entryCount : Nat
  totalSizeBytes : Int
  oldestEntryUnix : Int
  newestEntryUnix : Int

abbrev Table := List Row

/-! ## The operations -/

variable (H : GenericHash)

/-- The row that `put` writes. -/
def rowOf (inputs : KeyInputs) (entry : CacheEntry) (unixNow : Int) : Row where
  cacheKey := composeKey H inputs
  inputs := inputs
  entry :=
    { findingsJson := entry.findingsJson
      createdAtUnix := if entry.createdAtUnix > 0 then entry.createdAtUnix else unixNow
      sizeBytes := if entry.sizeBytes > 0 then entry.sizeBytes else entry.findingsJson.length }

def get (table : Table) (cacheKey : Bytes) : Option CacheEntry :=
  (table.find? fun row => row.cacheKey = cacheKey).map Row.entry

/-- `INSERT OR REPLACE`. -/
def put (table : Table) (inputs : KeyInputs) (entry : CacheEntry) (unixNow : Int) : Table :=
  table.filter (fun row => row.cacheKey ≠ composeKey H inputs) ++ [rowOf H inputs entry unixNow]

def purge (table : Table) : Table × Nat := ([], table.length)

/-- The difference is an `int64_t` in the code, and agrees with the one here where it does not
overflow. -/
def purgeOlderThan (table : Table) (ttlSeconds nowUnix : Int) : Table × Nat :=
  let old : Row → Bool := fun row => row.entry.createdAtUnix < nowUnix - ttlSeconds
  (table.filter fun row => !old row, table.countP old)

/-- `COALESCE(MIN(..), 0)` and its like: zero where there are no rows. -/
def stats (table : Table) : CacheStats where
  entryCount := table.length
  totalSizeBytes := (table.map fun row => row.entry.sizeBytes).sum
  oldestEntryUnix := (table.map fun row => row.entry.createdAtUnix).min?.getD 0
  newestEntryUnix := (table.map fun row => row.entry.createdAtUnix).max?.getD 0

/-! ## Histories -/

inductive Op where
  | put (inputs : KeyInputs) (entry : CacheEntry) (unixNow : Int)
  | purge
  | purgeOlderThan (ttlSeconds nowUnix : Int)

def Op.apply (table : Table) : Op → Table
  | .put inputs entry unixNow => Cache.put H table inputs entry unixNow
  | .purge => (Cache.purge table).1
  | .purgeOlderThan ttlSeconds nowUnix => (Cache.purgeOlderThan table ttlSeconds nowUnix).1

def run (ops : List Op) : Table := ops.foldl (Op.apply H) []

/-- The operation writes the row. -/
def Op.Writes (row : Row) : Op → Prop
  | .put inputs entry unixNow => row = rowOf H inputs entry unixNow
  | _ => False

/-- The operation leaves the row, if it is there. -/
def Op.Leaves (row : Row) : Op → Prop
  | .put inputs _ _ => row.cacheKey ≠ composeKey H inputs
  | .purge => False
  | .purgeOlderThan ttlSeconds nowUnix => nowUnix - ttlSeconds ≤ row.entry.createdAtUnix

variable {H}

theorem mem_apply_iff (table : Table) (op : Op) (row : Row) :
    row ∈ op.apply H table ↔ op.Writes H row ∨ (row ∈ table ∧ op.Leaves H row) := by
  cases op with
  | put inputs entry unixNow => simp [Op.apply, Op.Writes, Op.Leaves, put, or_comm]
  | purge => simp [Op.apply, Op.Writes, Op.Leaves, purge]
  | purgeOlderThan ttlSeconds nowUnix => simp [Op.apply, Op.Writes, Op.Leaves, purgeOlderThan]

theorem mem_run_iff (ops : List Op) (row : Row) :
    row ∈ run H ops ↔ Since (Op.Writes H row) (Op.Leaves H row) ops := by
  induction ops using List.reverseRecOn with
  | nil => exact iff_of_false (by simp [run]) not_since_nil
  | append_singleton ops op ih =>
    rw [since_concat, ← ih, ← mem_apply_iff, run, List.foldl_append]
    rfl

theorem nodup_apply (table : Table) (op : Op) (h : (table.map Row.cacheKey).Nodup) :
    ((op.apply H table).map Row.cacheKey).Nodup := by
  cases op with
  | put inputs entry unixNow =>
    rw [Op.apply, put, List.map_append]
    apply List.Nodup.append (h.sublist (List.filter_sublist.map _)) (List.nodup_singleton _)
    intro key hkey hnew
    obtain ⟨row, hrow, rfl⟩ := List.mem_map.mp hkey
    have hne := (List.mem_filter.mp hrow).2
    rw [decide_eq_true_eq] at hne
    exact hne (List.mem_singleton.mp hnew)
  | purge => exact List.nodup_nil
  | purgeOlderThan ttlSeconds nowUnix => exact h.sublist (List.filter_sublist.map _)

theorem nodup_run (ops : List Op) : ((run H ops).map Row.cacheKey).Nodup := by
  induction ops using List.reverseRecOn with
  | nil => exact List.nodup_nil
  | append_singleton ops op ih =>
    rw [run, List.foldl_append]
    exact nodup_apply _ op ih

theorem get_eq_some_iff {table : Table} (h : (table.map Row.cacheKey).Nodup) (key : Bytes)
    (found : CacheEntry) :
    get table key = some found ↔ ∃ row ∈ table, row.cacheKey = key ∧ row.entry = found := by
  rw [get, Option.map_eq_some_iff]
  constructor
  · rintro ⟨row, hrow, hentry⟩
    exact ⟨row, List.mem_of_find?_eq_some hrow, by simpa using List.find?_some hrow, hentry⟩
  · rintro ⟨row, hrow, hkey, hentry⟩
    have hsome : (table.find? fun row => row.cacheKey = key).isSome := by
      rw [List.find?_isSome]
      exact ⟨row, hrow, by simpa using hkey⟩
    obtain ⟨other, hother⟩ := Option.isSome_iff_exists.mp hsome
    have hsame : other.cacheKey = row.cacheKey := by
      rw [hkey]
      simpa using List.find?_some hother
    have heq := List.inj_on_of_nodup_map h (List.mem_of_find?_eq_some hother) hrow hsame
    exact ⟨other, hother, by rw [heq, hentry]⟩

/-! ## What is found under the inputs of a scan -/

/-- The streams of the inputs that were put are told apart from this one. -/
structure ToldApart (H : GenericHash) (ops : List Op) (inputs : KeyInputs) : Prop where
  separated : Separated inputs
  puts : ∀ i entry unixNow, Op.put i entry unixNow ∈ ops → Separated i
  hash : ∀ i entry unixNow, Op.put i entry unixNow ∈ ops →
    H.hash (keyBytes i) = H.hash (keyBytes inputs) → keyBytes i = keyBytes inputs

theorem ToldApart.key_iff {ops : List Op} {inputs : KeyInputs} (h : ToldApart H ops inputs)
    {i : KeyInputs} {entry : CacheEntry} {unixNow : Int} (hput : Op.put i entry unixNow ∈ ops) :
    composeKey H i = composeKey H inputs ↔ i = inputs := by
  constructor
  · intro hkey
    rw [composeKey_eq, composeKey_eq] at hkey
    exact keyBytes_inj (h.puts i entry unixNow hput) h.separated
      (h.hash i entry unixNow hput (toHex_injective hkey))
  · rintro rfl
    rfl

/-- The operation leaves what is stored for the inputs with that time of creation. -/
def Op.Keeps (inputs : KeyInputs) (createdAtUnix : Int) : Op → Prop
  | .put i _ _ => i ≠ inputs
  | .purge => False
  | .purgeOlderThan ttlSeconds nowUnix => nowUnix - ttlSeconds ≤ createdAtUnix

theorem leaves_iff_keeps {ops : List Op} {inputs : KeyInputs} (h : ToldApart H ops inputs)
    (entry : CacheEntry) (unixNow : Int) (op : Op) (hop : op ∈ ops) :
    op.Leaves H (rowOf H inputs entry unixNow) ↔
      op.Keeps inputs (rowOf H inputs entry unixNow).entry.createdAtUnix := by
  cases op with
  | put i e n =>
    rw [Op.Leaves, Op.Keeps, not_iff_not]
    exact eq_comm.trans (h.key_iff hop)
  | purge => exact Iff.rfl
  | purgeOlderThan ttlSeconds nowUnix => exact Iff.rfl

/-- Whatever was put and purged, a lookup under the inputs of a scan finds the result that was
stored last for exactly these inputs, unless it was purged since, or was too old for a purge by
age. -/
theorem get_iff_stored (H : GenericHash) (ops : List Op) (inputs : KeyInputs)
    (h : ToldApart H ops inputs) (found : CacheEntry) :
    get (run H ops) (composeKey H inputs) = some found ↔
      ∃ entry unixNow, found = (rowOf H inputs entry unixNow).entry ∧
        Since (fun op => op = .put inputs entry unixNow) (Op.Keeps inputs found.createdAtUnix)
          ops := by
  rw [get_eq_some_iff (nodup_run ops)]
  constructor
  · rintro ⟨row, hrow, hkey, rfl⟩
    obtain ⟨before, op, later, hops, hwrites, hleaves⟩ := (mem_run_iff ops row).mp hrow
    have hmem : ∀ x ∈ op :: later, x ∈ ops := fun x hx => by
      rw [hops]
      exact List.mem_append_right _ hx
    cases op with
    | put i entry unixNow =>
      obtain rfl := hwrites
      -- The row carries the key only: the hash has to tell the inputs apart.
      obtain rfl := (h.key_iff (hmem _ List.mem_cons_self)).mp hkey
      refine ⟨entry, unixNow, rfl, before, _, later, hops, rfl, ?_⟩
      intro x hx
      exact (leaves_iff_keeps h entry unixNow x (hmem x (List.mem_cons_of_mem _ hx))).mp
        (hleaves x hx)
    | purge => exact absurd hwrites (by simp [Op.Writes])
    | purgeOlderThan ttlSeconds nowUnix => exact absurd hwrites (by simp [Op.Writes])
  · rintro ⟨entry, unixNow, rfl, before, op, later, hops, rfl, hkeeps⟩
    refine ⟨rowOf H inputs entry unixNow, (mem_run_iff ops _).mpr ⟨before, _, later, hops, rfl, ?_⟩,
      rfl, rfl⟩
    intro x hx
    have hmem : x ∈ ops := by
      rw [hops]
      exact List.mem_append_right _ (List.mem_cons_of_mem _ hx)
    exact (leaves_iff_keeps h entry unixNow x hmem).mpr (hkeeps x hx)

def sampleEntry : CacheEntry := { findingsJson := ascii "[]" }

def sampleOps : List Op :=
  [.put shortRuleset sampleEntry 100, .put longRuleset sampleEntry 200, .purgeOlderThan 50 140]

theorem sampleOps_toldApart : ToldApart firstBytes sampleOps shortRuleset := by
  have hshort : Separated shortRuleset := ⟨by decide, by decide, by decide⟩
  have hlong : Separated longRuleset := ⟨by decide, by decide, by decide⟩
  refine ⟨hshort, ?_, ?_⟩
  · intro i entry unixNow hput
    simp only [sampleOps, List.mem_cons, Op.put.injEq, reduceCtorEq, List.not_mem_nil, or_false]
      at hput
    rcases hput with ⟨rfl, -, -⟩ | ⟨rfl, -, -⟩
    · exact hshort
    · exact hlong
  · intro i entry unixNow hput hhash
    simp only [sampleOps, List.mem_cons, Op.put.injEq, reduceCtorEq, List.not_mem_nil, or_false]
      at hput
    rcases hput with ⟨rfl, -, -⟩ | ⟨rfl, -, -⟩
    · rfl
    · exact absurd hhash (by decide)

theorem sampleOps_found : get (run firstBytes sampleOps) (composeKey firstBytes shortRuleset) =
    some { findingsJson := ascii "[]", createdAtUnix := 100, sizeBytes := 2 } := by
  apply (get_iff_stored firstBytes sampleOps shortRuleset sampleOps_toldApart _).mpr
  refine ⟨sampleEntry, 100, rfl, [], _, _, rfl, rfl, ?_⟩
  intro x hx
  simp only [List.mem_cons, List.not_mem_nil, or_false] at hx
  rcases hx with rfl | rfl
  · rw [Op.Keeps, longRuleset, shortRuleset, ne_eq, Scan.KeyInputs.mk.injEq]
    decide
  · simp [Op.Keeps]

/-! ## Counts -/

def Op.key (H : GenericHash) : Op → Option Bytes
  | .put inputs _ _ => some (composeKey H inputs)
  | _ => none

theorem key_of_mem_run {ops : List Op} {row : Row} (h : row ∈ run H ops) :
    row.cacheKey ∈ ops.filterMap (Op.key H) := by
  obtain ⟨before, op, later, hops, hwrites, -⟩ := (mem_run_iff ops row).mp h
  apply List.mem_filterMap.mpr
  refine ⟨op, by rw [hops]; simp, ?_⟩
  cases op with
  | put i entry unixNow =>
    obtain rfl := hwrites
    rfl
  | purge => exact absurd hwrites (by simp [Op.Writes])
  | purgeOlderThan ttlSeconds nowUnix => exact absurd hwrites (by simp [Op.Writes])

theorem entryCount_eq (H : GenericHash) (ops : List Op) :
    (stats (run H ops)).entryCount =
      ((ops.filterMap (Op.key H)).dedup.filter fun key => (get (run H ops) key).isSome).length := by
  have hperm : ((run H ops).map Row.cacheKey).Perm
      ((ops.filterMap (Op.key H)).dedup.filter fun key => (get (run H ops) key).isSome) := by
    rw [List.perm_ext_iff_of_nodup (nodup_run ops) ((List.nodup_dedup _).filter _)]
    intro key
    rw [List.mem_map, List.mem_filter, List.mem_dedup, Option.isSome_iff_exists]
    simp only [get_eq_some_iff (nodup_run ops)]
    constructor
    · rintro ⟨row, hrow, rfl⟩
      exact ⟨key_of_mem_run hrow, row.entry, row, hrow, rfl, rfl⟩
    · rintro ⟨-, -, row, hrow, hkey, -⟩
      exact ⟨row, hrow, hkey⟩
  rw [stats, ← hperm.length_eq, List.length_map]

end Euxis.Cache
