import Euxis.Scan.Cache
import Euxis.Workers

/-!
# Scanning a list of files: `walk_target` of `apps/cli/src/cmd/scan.cpp`

Both loops fill a vector with one result for each file, and the results are merged in the order of
the files. In the parallel one the files are shared out by strides; a worker looks into the cache,
and later stores its entry there.
-/

namespace Euxis.Scan

open Security

/-! ## The loop over the files -/

structure ScanContext where
  findings : List Finding := []
  filesScanned : Nat := 0
  filesSkipped : Nat := 0
  parseFailures : Nat := 0
  ruleFindings : Nat := 0
  taintFindings : Nat := 0
  taintFlows : Nat := 0
  cacheHits : Nat := 0
  cacheMisses : Nat := 0

def mergeFileResult (ctx : ScanContext) (r : FileScanResult) : ScanContext :=
  match r.outcome with
  | .skipped => { ctx with filesSkipped := ctx.filesSkipped + 1 }
  | .parseFailure => { ctx with parseFailures := ctx.parseFailures + 1 }
  | .cacheHit =>
    { ctx with
      findings := ctx.findings ++ r.findings
      cacheHits := ctx.cacheHits + 1
      filesScanned := ctx.filesScanned + 1 }
  | .scanned =>
    { ctx with
      findings := ctx.findings ++ r.findings
      ruleFindings := ctx.ruleFindings + r.ruleFindings
      taintFindings := ctx.taintFindings + r.taintFindings
      taintFlows := ctx.taintFlows + r.taintFlows
      cacheMisses := ctx.cacheMisses + 1
      filesScanned := ctx.filesScanned + 1 }

def mergeResults (ctx : ScanContext) (results : List FileScanResult) : ScanContext :=
  results.foldl mergeFileResult ctx

section Walk

variable (w : World) (args : ScanArgs) (packs : List RulePack) (rulesetHash : Bytes)

def scanFiles (cache : Option Store) :
    List Bytes → Except ScanFault (List FileScanResult × Option Store)
  | [] => .ok ([], cache)
  | file :: rest => do
    let (r, cache) ← scanFileCompute w file args packs rulesetHash cache
    let (rs, cache) ← scanFiles cache rest
    return (r :: rs, cache)

/-- `walk_target` without `--parallel`. -/
def walkSequential (cache : Option Store) (ctx : ScanContext) (files : List Bytes) :
    Except ScanFault ScanContext :=
  (scanFiles w args packs rulesetHash cache files).map fun r => mergeResults ctx r.1

/-! ## The workers -/

/-- `scan_file_compute` from the answer of the cache on. -/
def scanWork (file : Bytes) (entry : Option Bytes) (cache : Option Store) :
    Except ScanFault (FileScanResult × Option Store) :=
  match languageFor args file with
  | none => .ok ({}, cache)
  | some lang =>
    match entry with
    | some text => .ok ({ outcome := .cacheHit, findings := deserializeFindings w text }, cache)
    | none =>
      match parseFile w lang file with
      | none => .ok ({ outcome := .parseFailure }, cache)
      | some ast =>
        match scanAst args packs ast file with
        | none => .error .endless
        | some out => (storeEntry w file args rulesetHash cache out).map fun cache => (out, cache)

def scanTask : Workers.Task Bytes (Option Bytes) FileScanResult (Option Store) ScanFault :=
  { look := fun file cache => cachedEntry w file args rulesetHash cache
    work := scanWork w args packs rulesetHash }

abbrev WalkPool := Workers.Pool (Option Bytes) FileScanResult (Option Store)

/-- The loop of worker `t` of `n`, `for (i = t; i < files.size(); i += n)`, in two steps for each
file. -/
def walkStep (files : List Bytes) (n : Nat) : WalkPool → Workers.Event → Option WalkPool :=
  Workers.step (scanTask w args packs rulesetHash) files n

def walkStart (files : List Bytes) (n : Nat) (cache : Option Store) : WalkPool :=
  Workers.start files n {} cache

variable {w args packs rulesetHash}

theorem scanFileCompute_split (file : Bytes) (cache : Option Store) :
    scanFileCompute w file args packs rulesetHash cache =
      scanWork w args packs rulesetHash file (cachedEntry w file args rulesetHash cache) cache :=
      rfl

theorem scanFiles_sequential (cache : Option Store) (files : List Bytes) :
    scanFiles w args packs rulesetHash cache files =
      Workers.sequential (scanTask w args packs rulesetHash) cache files := by
  induction files generalizing cache with
  | nil => rfl
  | cons file rest ih =>
    unfold scanFiles Workers.sequential
    simp only [ih, scanFileCompute_split, scanTask]

/-! ## Files do not meet in the cache -/

variable (w rulesetHash) in
/-- The entries of a file are keyed by its path. -/
def PathKeyed (files : List Bytes) : Prop :=
  ∀ f ∈ files, ∀ g ∈ files, f ≠ g → ∀ hf hg, hashFile w f = some hf → hashFile w g = some hg →
    keyOf w f hf rulesetHash ≠ keyOf w g hg rulesetHash

theorem pathKeyed_of_injective {files : List Bytes} (hdigest : Function.Injective w.digest)
    (hpaths : ∀ f ∈ files, (0 : UInt8) ∉ f) : PathKeyed w rulesetHash files := by
  have hpath : ∀ f ∈ files, ∀ rest : Bytes, (f ++ ([0] ++ rest)).takeWhile (· ≠ 0) = f := by
    intro f hf rest
    rw [List.takeWhile_append_of_pos]
    · simp
    · intro b hb
      simpa using fun h0 : b = 0 => hpaths f hf (h0 ▸ hb)
  intro f hf g hg hne hashF hashG _ _ heq
  have hbytes := hdigest heq
  simp only [List.append_assoc] at hbytes
  have hcut := congrArg (List.takeWhile (· ≠ 0)) hbytes
  rw [hpath f hf, hpath g hg] at hcut
  exact hne hcut

theorem storeEntry_cache {file : Bytes} {cache cache' : Option Store} {out : FileScanResult}
    (h : storeEntry w file args rulesetHash cache out = .ok cache') :
    cache' = cache ∨ ∃ store text hash, cache = some store ∧ hashFile w file = some hash ∧
      cache' = some fun k => if k = keyOf w file hash rulesetHash then some text else store k := by
  unfold storeEntry at h
  dsimp only at h
  split at h
  · exact Or.inl (Except.ok.inj h).symm
  · rename_i store
    split at h
    · exact Or.inl (Except.ok.inj h).symm
    · rename_i hused
      split at h
      · exact absurd h (by simp)
      · rename_i text _
        cases hhash : hashFile w file with
        | none => exact absurd (Or.inr (by simp [hhash])) hused
        | some hash =>
          rw [hhash] at h
          exact Or.inr ⟨store, text, hash, rfl, rfl, (Except.ok.inj h).symm⟩

theorem scanWork_cache {file : Bytes} {entry : Option Bytes} {cache cache' : Option Store}
    {r : FileScanResult}
    (h : scanWork w args packs rulesetHash file entry cache = .ok (r, cache')) :
    cache' = cache ∨ ∃ store text hash, cache = some store ∧ hashFile w file = some hash ∧
      cache' = some fun k => if k = keyOf w file hash rulesetHash then some text else store k := by
  unfold scanWork at h
  split at h
  · exact Or.inl (Prod.mk.inj (Except.ok.inj h)).2.symm
  split at h
  · exact Or.inl (Prod.mk.inj (Except.ok.inj h)).2.symm
  split at h
  · exact Or.inl (Prod.mk.inj (Except.ok.inj h)).2.symm
  split at h
  · exact absurd h (by simp)
  · rename_i out _
    cases hstore : storeEntry w file args rulesetHash cache out with
    | error e =>
      rw [hstore] at h
      exact absurd h (by simp [Except.map])
    | ok stored =>
      rw [hstore] at h
      obtain ⟨_, rfl⟩ := Prod.mk.inj (Except.ok.inj h)
      exact storeEntry_cache hstore

theorem storeEntry_fault {file : Bytes} {cache cache' : Option Store}
    (hsome : cache.isSome = cache'.isSome) (out : FileScanResult) :
    ((storeEntry w file args rulesetHash cache out).map fun cache => (out, cache)).map Prod.fst =
      ((storeEntry w file args rulesetHash cache' out).map fun cache => (out, cache)).map
        Prod.fst := by
  unfold storeEntry
  dsimp only
  cases cache with
  | none =>
    cases cache' with
    | none => rfl
    | some store' => exact absurd hsome (by simp)
  | some store =>
    cases cache' with
    | none => exact absurd hsome (by simp)
    | some store' =>
      dsimp only
      split
      · rfl
      · split <;> rfl

theorem scanWork_result {file : Bytes} {entry : Option Bytes} {cache cache' : Option Store}
    (hsome : cache.isSome = cache'.isSome) :
    (scanWork w args packs rulesetHash file entry cache).map Prod.fst =
      (scanWork w args packs rulesetHash file entry cache').map Prod.fst := by
  unfold scanWork
  split
  · rfl
  split
  · rfl
  split
  · rfl
  split
  · rfl
  · exact storeEntry_fault hsome _

theorem cachedEntry_other {f g : Bytes} {files : List Bytes} (hkeys : PathKeyed w rulesetHash files)
    (hf : f ∈ files) (hg : g ∈ files) (hne : f ≠ g) {store : Store} {text hash : Bytes}
    (hhash : hashFile w f = some hash) :
    cachedEntry w g args rulesetHash
        (some fun k => if k = keyOf w f hash rulesetHash then some text else store k) =
      cachedEntry w g args rulesetHash (some store) := by
  unfold cachedEntry
  split
  · cases hother : hashFile w g with
    | none => rfl
    | some hash' =>
      have hkey : keyOf w g hash' rulesetHash ≠ keyOf w f hash rulesetHash :=
        (hkeys f hf g hg hne hash hash' hhash hother).symm
      simp [hkey]
  · rfl

theorem scanTask_independent {files : List Bytes} (hkeys : PathKeyed w rulesetHash files)
    (cache0 : Option Store) :
    Workers.Independent (scanTask w args packs rulesetHash) files fun cache => cache.isSome =
      cache0.isSome := by
  constructor
  · intro file entry cache r cache' hok hwork
    rcases scanWork_cache hwork with rfl | ⟨store, text, hash, rfl, _, rfl⟩
    · exact hok
    · exact hok
  · intro file entry cache cache' hok hok'
    exact scanWork_result (hok.trans hok'.symm)
  · intro f hf g hg hne entry cache r cache' _ hwork
    rcases scanWork_cache hwork with rfl | ⟨store, text, hash, rfl, hhash, rfl⟩
    · rfl
    · exact cachedEntry_other hkeys hf hg hne hhash

/-! ## Parallel and sequential -/

/-- Every interleaving of the workers, for every number of them: in the end each index has been
written once, by the worker of its stride, and the merged context is that of the loop. When the loop
runs through, every worker can always go on to the end of its stride. -/
theorem parallel_scan_eq (files : List Bytes) (hnodup : files.Nodup)
    (hkeys : PathKeyed w rulesetHash files) (n : Nat) (hn : 1 ≤ n) (cache : Option Store)
    (p : WalkPool) (hp : Trace.Reaches (walkStep w args packs rulesetHash files n) (fun _ _ => True)
      (walkStart files n cache) p) :
    (Workers.Finished files p →
      (∀ i < files.length, p.writes.filter (fun e => e.2 = i) = [(i % n, i)]) ∧
      ∀ ctx, walkSequential w args packs rulesetHash cache ctx files =
        .ok (mergeResults ctx p.results)) ∧
    ∀ ctx ctx', walkSequential w args packs rulesetHash cache ctx files = .ok ctx' →
      ∀ t worker, p.workers[t]? = some worker → worker.next < files.length →
        (walkStep w args packs rulesetHash files n p (.look t)).isSome ∨
          (walkStep w args packs rulesetHash files n p (.finish t)).isSome := by
  -- A file looks up and stores its own keys only, so the workers are independent.
  have hind : Workers.Independent (scanTask w args packs rulesetHash) files _ :=
    scanTask_independent hkeys cache
  have hshared := Workers.reaches_shared hind hnodup hn rfl hp
  refine ⟨fun hfin => ⟨?_, ?_⟩, ?_⟩
  · exact Workers.finished_writes hshared hn hfin
  · intro ctx
    obtain ⟨cache', hseq⟩ := Workers.finished_sequential hind hnodup hn rfl hshared hfin
    unfold walkSequential
    rw [scanFiles_sequential, hseq]
    rfl
  · intro ctx ctx' hwalk t worker hworker hlt
    unfold walkSequential at hwalk
    rw [scanFiles_sequential] at hwalk
    cases hseq : Workers.sequential (scanTask w args packs rulesetHash) cache files with
    | error e =>
      rw [hseq] at hwalk
      exact absurd hwalk (by simp [Except.map])
    | ok r => exact Workers.step_enabled hind hnodup rfl hshared hseq t worker hworker hlt

end Walk

/-- A file that the rules flag, and one that is not scanned. -/
def twoFiles : List Bytes := [ascii "app.py", ascii "notes.txt"]

theorem twoFiles_keyed : PathKeyed evalWorld (ascii "rules") twoFiles :=
  pathKeyed_of_injective (fun _ _ h => (List.cons.inj h).2) (by decide)

theorem two_workers_agree : ∃ p : WalkPool, Workers.Finished twoFiles p ∧
    (∀ i < twoFiles.length, p.writes.filter (fun e => e.2 = i) = [(i % 2, i)]) ∧
    ∀ ctx, walkSequential evalWorld {} (evalPacks evalRule) (ascii "rules") (some fun _ => none)
      ctx twoFiles = .ok (mergeResults ctx p.results) := by
  have hrun : (Trace.run (walkStep evalWorld {} (evalPacks evalRule) (ascii "rules") twoFiles 2)
      (fun _ _ => True)
      (walkStart twoFiles 2 (some fun _ => none)) [.look 0, .look 1, .finish 1, .finish 0]).map
      (fun p => decide (∀ worker ∈ p.workers, twoFiles.length ≤ worker.next)) = some true := by
    decide +kernel
  obtain ⟨p, hp, hend⟩ := Option.map_eq_some_iff.mp hrun
  have hfin : ∀ worker ∈ p.workers, twoFiles.length ≤ worker.next := of_decide_eq_true hend
  have hreach := Trace.Reaches.of_run _ .start hp
  exact ⟨p, hfin, (parallel_scan_eq twoFiles (by decide) twoFiles_keyed 2 (by decide) _ p hreach).1
    hfin⟩

end Euxis.Scan
