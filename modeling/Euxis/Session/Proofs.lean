import Euxis.Session.Code
import Euxis.Gateway.Proofs
import Euxis.Outcome

/-!
# The two session stores agree

The file store keeps the map of the memory store, as long as the names in the calls lead where they
say.
-/

namespace Euxis.Session

open Files Gateway

/-! ## Names -/

abbrev components (sessionId : Bytes) : List Bytes := sessionId.splitOn (ch '/')

/-- Ids that lead down from the base directory, to a directory that no listing takes for a
branch. -/
structure SessionName (sessionId : Bytes) : Prop where
  text : 0 ∉ sessionId
  plain : ∀ part ∈ components sessionId, Plain part
  inner : ∀ part ∈ (components sessionId).tail, extension part ≠ msgp

structure BranchName (branch : Bytes) : Prop where
  ne_nil : branch ≠ []
  no_slash : ch '/' ∉ branch
  no_nul : 0 ∉ branch

def Call.Named : Call → Prop
  | .save snapshot => SessionName snapshot.sessionId ∧ BranchName snapshot.branchId
  | .load sessionId branch => SessionName sessionId ∧ BranchName branch
  | .listBranches sessionId => SessionName sessionId
  | .compact sessionId _ => SessionName sessionId

theorem components_ne_nil (sessionId : Bytes) : components sessionId ≠ [] := List.splitOn_ne_nil _ _

theorem components_injective (a b : Bytes) (h : components a = components b) : a = b := by
  rw [← Bytes.join_splitOn (ch '/') a, ← Bytes.join_splitOn (ch '/') b]
  exact congrArg _ h

theorem components_append (a b : Bytes) :
    components (a ++ ch '/' :: b) = components a ++ components b :=
  List.splitOn_append_cons_self a b

theorem SessionName.relative {sessionId : Bytes} (h : SessionName sessionId) :
    sessionId.head? ≠ some (ch '/') := by
  intro hhead
  obtain ⟨rest, rfl⟩ : ∃ rest, sessionId = [] ++ ch '/' :: rest := by
    cases sessionId with
    | nil => simp at hhead
    | cons b rest =>
      simp only [List.head?_cons, Option.some.injEq] at hhead
      exact ⟨rest, by rw [hhead, List.nil_append]⟩
  have hplain := h.plain [] (by rw [components_append]; simp)
  exact hplain.1 rfl

theorem SessionName.no_trailing {sessionId : Bytes} (h : SessionName sessionId) :
    sessionId.getLast? ≠ some (ch '/') := by
  intro hlast
  obtain ⟨front, rfl⟩ := List.getLast?_eq_some_iff.mp hlast
  have hplain := h.plain [] (by rw [components_append]; simp)
  exact hplain.1 rfl

theorem SessionName.ne_nil {sessionId : Bytes} (h : SessionName sessionId) : sessionId ≠ [] := by
  rintro rfl
  exact (h.plain [] (by simp [components])).1 rfl

theorem BranchName.plain {branch : Bytes} (h : BranchName branch) : Plain (branch ++ msgp) := by
  have hlen : 2 < (branch ++ msgp).length := by
    have h5 : msgp.length = 5 := by decide
    rw [List.length_append]
    omega
  refine ⟨?_, ?_, ?_⟩
  · simp [h.ne_nil]
  · intro heq
    rw [heq] at hlen
    exact absurd hlen (by decide)
  · intro heq
    rw [heq] at hlen
    exact absurd hlen (by decide)

theorem BranchName.text {branch : Bytes} (h : BranchName branch) : 0 ∉ branch ++ msgp := by
  rw [List.mem_append, not_or]
  exact ⟨h.no_nul, by decide⟩

theorem BranchName.components {branch : Bytes} (h : BranchName branch) :
    components (branch ++ msgp) = [branch ++ msgp] := by
  apply List.splitOn_eq_singleton
  rw [List.mem_append, not_or]
  exact ⟨h.no_slash, by decide⟩

theorem extension_branch (name branch : Bytes) (hne : branch ≠ []) :
    (extension name = msgp ∧ stem name = branch) ↔ name = branch ++ msgp :=
  extension_eq_iff name branch (ascii "msgp") hne (by decide) (by decide)

/-! ## Snapshots -/

theorem roleFromString_toString (r : Role) : roleFromString (roleToString r) = r := by
  cases r <;> decide

theorem messageFromJson_toJson (msg : SessionMessage) :
    messageFromJson (messageToJson msg) = .ok msg := by
  have h : messageFromJson (messageToJson msg) =
      .ok { msg with role := roleFromString (roleToString msg.role) } := rfl
  rw [h, roleFromString_toString]

theorem mapM_messageFromJson (messages : List SessionMessage) :
    (messages.map messageToJson).mapM messageFromJson = .ok messages := by
  have h := Outcome.mapM_map_ok messageFromJson messageToJson id messageFromJson_toJson messages
  rwa [List.map_id] at h

theorem snapshotFromJson_toJson (snap : SessionSnapshot) (sessionId branch : Bytes) :
    snapshotFromJson (snapshotToJson snap) sessionId branch = .ok snap := by
  have h : snapshotFromJson (snapshotToJson snap) sessionId branch =
      ((Json.arr (snap.messages.map messageToJson)).elements.mapM messageFromJson).bind
        fun messages =>
        .ok { snap with messages } := rfl
  rw [h, Json.elements_arr, mapM_messageFromJson]
  rfl

/-! ## The map of the memory store -/

def find (sessions : Sessions) (sessionId branch : Bytes) : Option SessionSnapshot :=
  (sessions.lookup sessionId).bind (·.lookup branch)

theorem find_save (sessions : Sessions) (snapshot : SessionSnapshot) (sessionId branch : Bytes) :
    find (Memory.save sessions snapshot) sessionId branch =
      if sessionId = snapshot.sessionId ∧ branch = snapshot.branchId then some snapshot
      else find sessions sessionId branch := by
  unfold find Memory.save
  by_cases hs : sessionId = snapshot.sessionId
  · rw [hs, AList.lookup_insert, Option.bind_some]
    by_cases hb : branch = snapshot.branchId
    · rw [if_pos ⟨rfl, hb⟩, hb, AList.lookup_insert]
    · rw [if_neg (by simp [hb]), AList.lookup_insert_ne hb]
      cases sessions.lookup snapshot.sessionId <;> simp
  · rw [if_neg (by simp [hs]), AList.lookup_insert_ne hs]

theorem mem_listBranches (sessions : Sessions) (sessionId branch : Bytes) :
    branch ∈ Memory.listBranches sessions sessionId ↔ (find sessions sessionId branch).isSome := by
  unfold Memory.listBranches find
  cases sessions.lookup sessionId with
  | none => simp
  | some branches =>
    rw [Option.bind_some, AList.lookup_isSome, AList.mem_keys]
    exact List.mem_mergeSort

theorem memory_load (sessions : Sessions) (sessionId branch : Bytes) :
    (Memory.load sessions sessionId branch).toOption = find sessions sessionId branch := by
  unfold Memory.load find
  cases (sessions.lookup sessionId).bind (·.lookup branch) <;> rfl

/-! ## Places -/

section

variable {base : Place}

def filePlace (base : Place) (sessionId branch : Bytes) : Place :=
  base ++ (components sessionId ++ [branch ++ msgp])

theorem filePlace_injective (sessionId branch sessionId' branch' : Bytes)
    (h : filePlace base sessionId branch = filePlace base sessionId' branch') :
    sessionId = sessionId' ∧ branch = branch' := by
  have hrel := List.append_cancel_left h
  obtain ⟨hfront, hlast⟩ := List.append_inj' hrel rfl
  simp only [List.cons.injEq, and_true] at hlast
  exact ⟨components_injective _ _ hfront, List.append_cancel_right hlast⟩

theorem mem_tail_of_starts (sessionId : Bytes) (name : Bytes) (names : List Bytes)
    (h : components sessionId ++ [name] <+: names) : name ∈ names.tail := by
  obtain ⟨rest, rfl⟩ := h
  obtain ⟨front, more, hc⟩ := List.exists_cons_of_ne_nil (components_ne_nil sessionId)
  rw [hc]
  simp

theorem filePlace_ne (sessionId branch : Bytes) (hb : BranchName branch) (sessionId' : Bytes)
    (hs : SessionName sessionId') (pre : List Bytes) (hpre : pre <+: components sessionId') :
    base ++ pre ≠ filePlace base sessionId branch := by
  intro h
  have hrel := List.append_cancel_left h
  rw [hrel] at hpre
  apply hs.inner (branch ++ msgp) (mem_tail_of_starts sessionId _ _ hpre)
  exact ((extension_branch (branch ++ msgp) branch hb.ne_nil).mpr rfl).1

theorem appendPath_assoc (p sessionId q : Bytes) (hs : SessionName sessionId)
    (hq : q.head? ≠ some (ch '/')) :
    appendPath (appendPath p sessionId) q = appendPath p (sessionId ++ ch '/' :: q) := by
  have hne := hs.ne_nil
  have hhead : (sessionId ++ ch '/' :: q).head? ≠ some (ch '/') := by
    cases sessionId with
    | nil => exact absurd rfl hne
    | cons b rest => exact hs.relative
  have hlast : ∀ front : Bytes, (front ++ sessionId).getLast? ≠ some (ch '/') := by
    intro front h
    rw [List.getLast?_append] at h
    cases hl : sessionId.getLast? with
    | none => exact hne (List.getLast?_eq_none_iff.mp hl)
    | some b =>
      rw [hl, Option.some_or] at h
      exact hs.no_trailing (hl.trans h)
  unfold appendPath
  rw [if_neg hs.relative, if_neg hq, if_neg hhead]
  split
  · rw [if_neg (by simp [hne, hs.no_trailing])]
    simp
  · have := hlast (p ++ [ch '/'])
    rw [if_neg (by simpa using this)]
    simp

end

/-! ## The invariant -/

section

variable (mp : Msgpack) (cfg : Config) (base : Place)

/-- The tree under the base directory keeps the map. -/
structure Refines (tree : Tree) (sessions : Sessions) : Prop where
  located : locate tree cfg.cwd cfg.baseDir = some base
  dir : nodeAt tree base = some .dir
  keys : ∀ sessionId branch snap, find sessions sessionId branch = some snap →
    SessionName sessionId ∧ BranchName branch ∧ snap.sessionId = sessionId ∧ snap.branchId = branch
  files : ∀ sessionId branch, SessionName sessionId → BranchName branch →
    nodeAt tree (filePlace base sessionId branch) =
      (find sessions sessionId branch).map fun snap => .file (mp.pack (snapshotToJson snap))
  dirs : ∀ sessionId, SessionName sessionId → ∀ pre, pre <+: components sessionId →
    ∀ content, nodeAt tree (base ++ pre) ≠ some (.file content)
  kept : ∀ sessionId branch snap, find sessions sessionId branch = some snap →
    ∀ pre, pre <+: components sessionId → nodeAt tree (base ++ pre) = some .dir
  named : ∀ sessionId, SessionName sessionId → ∀ name node,
    nodeAt tree (base ++ (components sessionId ++ [name])) = some node → extension name = msgp →
    ∃ branch, BranchName branch ∧ name = branch ++ msgp

end

section

variable {mp : Msgpack} {cfg : Config} {base : Place} {tree : Tree} {sessions : Sessions}

theorem locate_session (h : Refines mp cfg base tree sessions) (sessionId : Bytes)
    (hs : SessionName sessionId) :
    locate tree cfg.cwd (File.sessionDir cfg sessionId) =
      (components sessionId).foldlM (enter tree) base :=
  locate_appendPath cfg.baseDir_text h.located hs.relative hs.text

theorem locate_branch (hl : locate tree cfg.cwd cfg.baseDir = some base) (sessionId branch : Bytes)
    (hs : SessionName sessionId) (hb : BranchName branch) :
    locate tree cfg.cwd (File.branchFile cfg sessionId branch) =
      (components sessionId ++ [branch ++ msgp]).foldlM (enter tree) base := by
  have hne := hs.ne_nil
  have hq : (branch ++ msgp).head? ≠ some (ch '/') := by
    obtain ⟨b, rest, rfl⟩ := List.exists_cons_of_ne_nil hb.ne_nil
    intro hhead
    simp only [List.cons_append, List.head?_cons, Option.some.injEq] at hhead
    exact hb.no_slash (by rw [hhead]; exact List.mem_cons_self)
  have hhead : (sessionId ++ ch '/' :: (branch ++ msgp)).head? ≠ some (ch '/') := by
    cases sessionId with
    | nil => exact absurd rfl hne
    | cons b rest => exact hs.relative
  have hparts : components (sessionId ++ ch '/' :: (branch ++ msgp)) = components sessionId ++
      [branch ++ msgp] := by
    rw [components_append, hb.components]
  unfold File.branchFile File.sessionDir
  rw [appendPath_assoc _ _ _ hs hq, ← hparts]
  exact locate_appendPath cfg.baseDir_text hl hhead (Bytes.not_mem_slash _ _ hs.text hb.text)

theorem plain_branch (sessionId branch : Bytes) (hs : SessionName sessionId)
    (hb : BranchName branch) : ∀ part ∈ components sessionId ++ [branch ++ msgp], Plain part := by
  intro part hpart
  rcases List.mem_append.mp hpart with hpart | hpart
  · exact hs.plain part hpart
  · rw [List.mem_singleton.mp hpart]
    exact hb.plain

theorem enter_branch (sessionId branch : Bytes) (hs : SessionName sessionId)
    (hb : BranchName branch)
    (hdirs : ∀ pre, pre <+: components sessionId → nodeAt tree (base ++ pre) = some .dir) :
    (components sessionId ++ [branch ++ msgp]).foldlM (enter tree) base =
      some (filePlace base sessionId branch) := by
  apply foldlM_enter_plain _ tree base (plain_branch sessionId branch hs hb)
  intro pre hpre hne
  rcases List.prefix_concat_iff.mp hpre with heq | hpre
  · exact absurd heq hne
  · exact hdirs pre hpre

theorem node_branch (h : Refines mp cfg base tree sessions) (sessionId branch : Bytes)
    (hs : SessionName sessionId) (hb : BranchName branch) :
    (locate tree cfg.cwd (File.branchFile cfg sessionId branch)).bind (nodeAt tree) =
      (find sessions sessionId branch).map fun snap => .file (mp.pack (snapshotToJson snap)) := by
  rw [locate_branch h.located sessionId branch hs hb]
  by_cases hdirs : ∀ pre, pre <+: components sessionId → nodeAt tree (base ++ pre) = some .dir
  · rw [enter_branch sessionId branch hs hb hdirs, Option.bind_some]
    exact h.files sessionId branch hs hb
  · obtain ⟨pre, hpre, hnot⟩ : ∃ pre, pre <+: components sessionId ∧
      nodeAt tree (base ++ pre) ≠ some .dir := by
      simpa using hdirs
    have hnone : find sessions sessionId branch = none := by
      cases hf : find sessions sessionId branch with
      | none => rfl
      | some snap => exact absurd (h.kept _ _ _ hf pre hpre) hnot
    have hlen : pre ≠ components sessionId ++ [branch ++ msgp] := by
      rintro rfl
      have := hpre.length_le
      simp at this
    rw [foldlM_enter_none _ tree base (plain_branch sessionId branch hs hb) pre
      (hpre.trans (List.prefix_append _ _)) hlen hnot, hnone]
    rfl

theorem file_load (h : Refines mp cfg base tree sessions) (sessionId branch : Bytes)
    (hs : SessionName sessionId) (hb : BranchName branch) :
    File.load mp cfg tree sessionId branch =
      match find sessions sessionId branch with
      | none => .error (.unexpected (ascii "Session not found"))
      | some snap => .ok snap := by
  unfold File.load
  rw [node_branch h sessionId branch hs hb]
  cases find sessions sessionId branch with
  | none => rfl
  | some snap =>
    simp only [Option.map_some]
    rw [mp.unpack_pack]
    simp only [snapshotFromJson_toJson]

theorem mem_listed_iff (h : Refines mp cfg base tree sessions) (sessionId : Bytes)
    (hs : SessionName sessionId) (branch : Bytes) :
    branch ∈ ((list tree (base ++ components sessionId)).filterMap fun entry =>
        if extension entry.1 = msgp then some (stem entry.1) else none) ↔
      (find sessions sessionId branch).isSome := by
  rw [List.mem_filterMap]
  constructor
  · rintro ⟨⟨name, node⟩, hmem, hname⟩
    split at hname
    · rename_i hext
      rw [mem_list, List.append_assoc] at hmem
      -- Only files with the extension of a snapshot count, and those are all branches.
      obtain ⟨b, hb, rfl⟩ := h.named sessionId hs name node hmem hext
      have hstem := ((extension_branch _ b hb.ne_nil).mpr rfl).2
      dsimp only at hname
      rw [hstem, Option.some.injEq] at hname
      have hfile := h.files sessionId b hs hb
      unfold filePlace at hfile
      rw [← hname, ← Option.isSome_map, ← hfile, hmem]
      rfl
    · cases hname
  · intro hsome
    obtain ⟨snap, hf⟩ := Option.isSome_iff_exists.mp hsome
    have hb := (h.keys _ _ _ hf).2.1
    have hfile := h.files sessionId branch hs hb
    rw [hf] at hfile
    unfold filePlace at hfile
    rw [← List.append_assoc] at hfile
    refine ⟨(branch ++ msgp, _), (mem_list _ _ _ _).mpr hfile, ?_⟩
    obtain ⟨hext, hstem⟩ := (extension_branch _ branch hb.ne_nil).mpr rfl
    rw [if_pos hext, hstem]

theorem file_list (h : Refines mp cfg base tree sessions) (sessionId : Bytes)
    (hs : SessionName sessionId) :
    ∃ names, File.listBranches cfg tree sessionId = .ok names ∧
      ∀ branch, branch ∈ names ↔ (find sessions sessionId branch).isSome := by
  -- A session with a branch has all its directories.
  have hnone : ∀ pre, pre <+: components sessionId → nodeAt tree (base ++ pre) ≠ some .dir →
      ∀ branch, branch ∈ ([] : List Bytes) ↔ (find sessions sessionId branch).isSome := by
    intro pre hpre hnot branch
    cases hf : find sessions sessionId branch with
    | none => simp
    | some snap => exact absurd (h.kept _ _ _ hf pre hpre) hnot
  unfold File.listBranches
  rw [locate_session h sessionId hs]
  by_cases hdirs : ∀ pre, pre <+: components sessionId → pre ≠ components sessionId →
      nodeAt tree (base ++ pre) = some .dir
  · rw [foldlM_enter_plain _ tree base hs.plain hdirs]
    dsimp only
    cases hn : nodeAt tree (base ++ components sessionId) with
    | none => exact ⟨[], rfl, hnone _ List.prefix_rfl (by simp [hn])⟩
    | some node =>
      cases node with
      | file content => exact absurd hn (h.dirs sessionId hs _ List.prefix_rfl content)
      | dir => exact ⟨_, rfl, mem_listed_iff h sessionId hs⟩
  · obtain ⟨pre, hpre, hne, hnot⟩ : ∃ pre, pre <+: components sessionId ∧
      pre ≠ components sessionId ∧ nodeAt tree (base ++ pre) ≠ some .dir := by
      simpa using hdirs
    rw [foldlM_enter_none _ tree base hs.plain pre hpre hne hnot]
    exact ⟨[], rfl, hnone pre hpre hnot⟩

/-! ## Saving -/

theorem create_session (h : Refines mp cfg base tree sessions) (sessionId : Bytes)
    (hs : SessionName sessionId) :
    ∃ tree', createDirectories tree cfg.cwd (File.sessionDir cfg sessionId) = some tree' ∧
      Grows tree tree' ∧
      (∀ pre, pre <+: components sessionId → nodeAt tree' (base ++ pre) = some .dir) ∧
      ∀ q, (∀ pre, pre ≠ [] → pre <+: components sessionId → q ≠ base ++ pre) →
        nodeAt tree' q = nodeAt tree q := by
  obtain ⟨tree', hfold, hdirs, hsame⟩ :=
    foldlM_makeDir_plain (components sessionId) tree base h.dir hs.plain (h.dirs sessionId hs)
  refine ⟨tree', ?_, (foldlM_makeDir_spec _ hfold).1, hdirs, hsame⟩
  unfold File.sessionDir
  rw [createDirectories_appendPath cfg.baseDir_text h.located h.dir hs.relative hs.text, hfold]
  rfl

theorem child_same {tree' : Tree} (sessionId : Bytes) (hs : SessionName sessionId)
    (hsame : ∀ q, (∀ pre, pre ≠ [] → pre <+: components sessionId → q ≠ base ++ pre) →
      nodeAt tree' q = nodeAt tree q)
    (sessionId' name : Bytes) (hext : extension name = msgp) :
    nodeAt tree' (base ++ (components sessionId' ++ [name])) =
      nodeAt tree (base ++ (components sessionId' ++ [name])) := by
  apply hsame
  intro pre _ hpre heq
  rw [← List.append_cancel_left heq] at hpre
  exact hs.inner name (mem_tail_of_starts sessionId' name _ hpre) hext

theorem extension_file (branch : Bytes) (hb : BranchName branch) :
    extension (branch ++ msgp) = msgp :=
  ((extension_branch (branch ++ msgp) branch hb.ne_nil).mpr rfl).1

/-- The tree with the session's directories and one file keeps the map with one snapshot more. -/
theorem refines_insert (h : Refines mp cfg base tree sessions) (snapshot : SessionSnapshot)
    (hs : SessionName snapshot.sessionId) (hb : BranchName snapshot.branchId) (tree' : Tree)
    (hgrow : Grows tree tree') (hdirs : ∀ pre, pre <+: components snapshot.sessionId →
      nodeAt tree' (base ++ pre) = some .dir)
    (hsame : ∀ q, (∀ pre, pre ≠ [] → pre <+: components snapshot.sessionId → q ≠ base ++ pre) →
      nodeAt tree' q = nodeAt tree q)
    (hfile : nodeAt tree' (filePlace base snapshot.sessionId snapshot.branchId) ≠ some .dir) :
    Refines mp cfg base
      (tree'.insert (filePlace base snapshot.sessionId snapshot.branchId)
        (.file (mp.pack (snapshotToJson snapshot))))
      (Memory.save sessions snapshot) := by
  have hgrow' := hgrow.trans
    (grows_insert tree' _ (.file (mp.pack (snapshotToJson snapshot))) hfile)
  -- The new file stands at no place that is a directory of a session.
  have hother : ∀ sessionId, SessionName sessionId → ∀ pre, pre <+: components sessionId →
      nodeAt (tree'.insert (filePlace base snapshot.sessionId snapshot.branchId)
        (.file (mp.pack (snapshotToJson snapshot))))
        (base ++ pre) = nodeAt tree' (base ++ pre) := by
    intro sessionId hs' pre hpre
    exact nodeAt_insert_ne _ _ _ _ (filePlace_ne _ _ hb sessionId hs' pre hpre)
  constructor
  · exact locate_grows hgrow' h.located
  · exact hgrow' _ h.dir
  · intro sessionId branch snap hf
    rw [find_save] at hf
    split at hf
    · rename_i heq
      rw [← Option.some.inj hf, heq.1, heq.2]
      exact ⟨hs, hb, rfl, rfl⟩
    · exact h.keys sessionId branch snap hf
  · intro sessionId branch hs' hb'
    rw [find_save]
    split
    · rename_i heq
      rw [heq.1, heq.2]
      exact nodeAt_insert _ _ _ (by simp [filePlace])
    · rename_i hne
      rw [nodeAt_insert_ne, ← h.files sessionId branch hs' hb']
      · exact child_same _ hs hsame sessionId _ (extension_file branch hb')
      · intro heq
        exact hne (filePlace_injective _ _ _ _ heq)
  · intro sessionId hs' pre hpre content
    rw [hother sessionId hs' pre hpre]
    by_cases hin : ∃ made, made ≠ [] ∧ made <+: components snapshot.sessionId ∧
      base ++ pre = base ++ made
    · obtain ⟨made, _, hmade, heq⟩ := hin
      rw [heq, hdirs made hmade]
      simp
    · rw [hsame]
      · exact h.dirs sessionId hs' pre hpre content
      · intro made hne hmade heq
        exact hin ⟨made, hne, hmade, heq⟩
  · intro sessionId branch snap hf pre hpre
    rw [find_save] at hf
    split at hf
    · rename_i heq
      rw [heq.1] at hpre
      rw [hother _ hs pre hpre]
      exact hdirs pre hpre
    · exact hgrow' _ (h.kept sessionId branch snap hf pre hpre)
  · intro sessionId hs' name node hnode hext
    by_cases heq : base ++ (components sessionId ++ [name]) =
      filePlace base snapshot.sessionId snapshot.branchId
    · obtain ⟨-, hlast⟩ := List.append_inj' (List.append_cancel_left heq) rfl
      simp only [List.cons.injEq, and_true] at hlast
      exact ⟨snapshot.branchId, hb, hlast⟩
    · rw [nodeAt_insert_ne _ _ _ _ heq, child_same _ hs hsame sessionId name hext] at hnode
      exact h.named sessionId hs' name node hnode hext

theorem file_save (h : Refines mp cfg base tree sessions) (snapshot : SessionSnapshot)
    (hs : SessionName snapshot.sessionId) (hb : BranchName snapshot.branchId) :
    ∃ tree', File.save mp cfg tree snapshot = (tree', .ok ()) ∧
      Refines mp cfg base tree' (Memory.save sessions snapshot) := by
  obtain ⟨made, hmake, hgrow, hdirs, hsame⟩ := create_session h snapshot.sessionId hs
  have hnode : nodeAt made (filePlace base snapshot.sessionId snapshot.branchId) =
      nodeAt tree (filePlace base snapshot.sessionId snapshot.branchId) :=
    child_same _ hs hsame snapshot.sessionId _ (extension_file _ hb)
  have hfile : nodeAt made (filePlace base snapshot.sessionId snapshot.branchId) ≠ some .dir := by
    rw [hnode, h.files _ _ hs hb]
    cases find sessions snapshot.sessionId snapshot.branchId <;> simp
  have hlocate : locate made cfg.cwd (File.branchFile cfg snapshot.sessionId snapshot.branchId) =
      some (filePlace base snapshot.sessionId snapshot.branchId) := by
    rw [locate_branch (locate_grows hgrow h.located) _ _ hs hb]
    exact enter_branch _ _ hs hb hdirs
  refine ⟨_, ?_, refines_insert h snapshot hs hb made hgrow hdirs hsame hfile⟩
  unfold File.save
  rw [hmake]
  dsimp only
  rw [edit_eq made cfg.cwd _ _ _ hlocate hfile]

/-! ## Calls -/

theorem mainBranch_name : BranchName mainBranch := ⟨by decide, by decide, by decide⟩

theorem keepLast_ids (snap : SessionSnapshot) (keepLastN : Nat) :
    (keepLast snap keepLastN).sessionId = snap.sessionId ∧
      (keepLast snap keepLastN).branchId = snap.branchId := by
  unfold keepLast
  split <;> exact ⟨rfl, rfl⟩

end

/-- The same success or failure, the same snapshot, the same set of branches. -/
def Answer.Agrees : Answer → Answer → Prop
  | .done a, .done b => a.toOption = b.toOption
  | .snapshot a, .snapshot b => a.toOption = b.toOption
  | .branches (.ok a), .branches (.ok b) => ∀ branch, branch ∈ a ↔ branch ∈ b
  | .branches (.error _), .branches (.error _) => True
  | _, _ => False

section

variable {mp : Msgpack} {cfg : Config} {base : Place} {tree : Tree} {sessions : Sessions}

theorem load_agrees (h : Refines mp cfg base tree sessions) (sessionId branch : Bytes)
    (hs : SessionName sessionId) (hb : BranchName branch) :
    (File.load mp cfg tree sessionId branch).toOption =
      (Memory.load sessions sessionId branch).toOption := by
  rw [file_load h sessionId branch hs hb, memory_load]
  cases find sessions sessionId branch <;> rfl

theorem compact_agrees (h : Refines mp cfg base tree sessions) (sessionId : Bytes)
    (hs : SessionName sessionId) (keepLastN : Nat) :
    (File.compact mp cfg tree sessionId keepLastN).2.toOption =
        (Memory.compact sessions sessionId keepLastN).2.toOption ∧
      Refines mp cfg base (File.compact mp cfg tree sessionId keepLastN).1
        (Memory.compact sessions sessionId keepLastN).1 := by
  have hmem := memory_load sessions sessionId mainBranch
  have hfile := file_load h sessionId mainBranch hs mainBranch_name
  unfold File.compact Memory.compact
  cases hf : find sessions sessionId mainBranch with
  | none =>
    rw [hf] at hmem hfile
    rw [hfile]
    cases hl : Memory.load sessions sessionId mainBranch with
    | error e => exact ⟨rfl, h⟩
    | ok snap =>
      rw [hl] at hmem
      cases hmem
  | some snap =>
    rw [hf] at hmem hfile
    rw [hfile]
    obtain ⟨-, -, hsession, hbranch⟩ := h.keys _ _ _ hf
    obtain ⟨hid, hbid⟩ := keepLast_ids snap keepLastN
    cases hl : Memory.load sessions sessionId mainBranch with
    | error e =>
      rw [hl] at hmem
      cases hmem
    | ok snap' =>
      rw [hl] at hmem
      have hsnap : snap' = snap := Option.some.inj hmem
      -- Compaction keeps the ids, so it saves to the place it has loaded from.
      obtain ⟨tree', hsave, href⟩ := file_save h (keepLast snap keepLastN)
        (by rw [hid, hsession]; exact hs) (by rw [hbid, hbranch]; exact mainBranch_name)
      dsimp only
      rw [hsave, hsnap]
      exact ⟨rfl, href⟩

/-- One call: the answers agree, and the file store still keeps the map. -/
theorem call_agrees (h : Refines mp cfg base tree sessions) (c : Call) (hc : c.Named) :
    (File.call mp cfg tree c).2.Agrees (Memory.call sessions c).2 ∧
      Refines mp cfg base (File.call mp cfg tree c).1 (Memory.call sessions c).1 := by
  cases c with
  | save snapshot =>
    obtain ⟨tree', hsave, href⟩ := file_save h snapshot hc.1 hc.2
    simp only [File.call, Memory.call, hsave]
    exact ⟨rfl, href⟩
  | load sessionId branch => exact ⟨load_agrees h sessionId branch hc.1 hc.2, h⟩
  | listBranches sessionId =>
    obtain ⟨names, hlist, hnames⟩ := file_list h sessionId hc
    refine ⟨?_, h⟩
    simp only [File.call, Memory.call, hlist, Answer.Agrees]
    intro branch
    rw [hnames, mem_listBranches]
  | compact sessionId keepLastN => exact compact_agrees h sessionId hc keepLastN

theorem answers_agree (calls : List Call) (hcalls : ∀ c ∈ calls, c.Named) {tree : Tree}
    {sessions : Sessions} (h : Refines mp cfg base tree sessions) :
    List.Forall₂ Answer.Agrees (answers (File.call mp cfg) tree calls).2
      (answers Memory.call sessions calls).2 ∧
      Refines mp cfg base (answers (File.call mp cfg) tree calls).1
        (answers Memory.call sessions calls).1 := by
  induction calls generalizing tree sessions with
  | nil => exact ⟨.nil, h⟩
  | cons c rest ih =>
    obtain ⟨hagree, href⟩ := call_agrees h c (hcalls c List.mem_cons_self)
    obtain ⟨hrest, hlast⟩ := ih (fun d hd => hcalls d (List.mem_cons_of_mem _ hd)) href
    exact ⟨.cons hagree hrest, hlast⟩

end

/-- A store whose directory is there and has nothing in it. -/
def NewStore (cfg : Config) (tree : Tree) : Prop :=
  ∃ base, locate tree cfg.cwd cfg.baseDir = some base ∧ nodeAt tree base = some .dir ∧
    ∀ rel, rel ≠ [] → nodeAt tree (base ++ rel) = none

theorem refines_new (mp : Msgpack) (cfg : Config) (tree : Tree) (h : NewStore cfg tree) :
    ∃ base, Refines mp cfg base tree ∅ := by
  obtain ⟨base, hl, hd, hempty⟩ := h
  have hfind : ∀ sessionId branch, find ∅ sessionId branch = none := fun _ _ => rfl
  refine ⟨base, hl, hd, ?_, ?_, ?_, ?_, ?_⟩
  · intro sessionId branch snap hf
    rw [hfind] at hf
    cases hf
  · intro sessionId branch _ _
    rw [hfind, filePlace, hempty _ (by simp)]
    rfl
  · intro sessionId _ pre _ content
    by_cases hp : pre = []
    · rw [hp, List.append_nil, hd]
      simp
    · rw [hempty pre hp]
      simp
  · intro sessionId branch snap hf
    rw [hfind] at hf
    cases hf
  · intro sessionId _ name node hnode
    rw [hempty _ (by simp)] at hnode
    cases hnode

def Listed (cfg : Config) (tree : Tree) (sessionId branch : Bytes) : Prop :=
  ∃ names, File.listBranches cfg tree sessionId = .ok names ∧ branch ∈ names

section

variable {mp : Msgpack} {cfg : Config} {base : Place} {tree : Tree} {sessions : Sessions}

theorem listed_iff (h : Refines mp cfg base tree sessions) (sessionId branch : Bytes)
    (hs : SessionName sessionId) :
    Listed cfg tree sessionId branch ↔ (find sessions sessionId branch).isSome := by
  obtain ⟨names, hlist, hnames⟩ := file_list h sessionId hs
  rw [← hnames]
  constructor
  · rintro ⟨names', hlist', hmem⟩
    rw [hlist] at hlist'
    cases hlist'
    exact hmem
  · intro hmem
    exact ⟨names, hlist, hmem⟩

theorem save_apart (h : Refines mp cfg base tree sessions) (snapshot : SessionSnapshot)
    (sessionId branch : Bytes) (hs : SessionName snapshot.sessionId)
    (hb : BranchName snapshot.branchId) (hs' : SessionName sessionId) (hb' : BranchName branch)
    (hne : (sessionId, branch) ≠ (snapshot.sessionId, snapshot.branchId)) :
    File.load mp cfg (File.save mp cfg tree snapshot).1 sessionId branch =
      File.load mp cfg tree sessionId branch ∧
      (Listed cfg (File.save mp cfg tree snapshot).1 sessionId branch ↔
        Listed cfg tree sessionId branch) := by
  obtain ⟨tree', hsave, href⟩ := file_save h snapshot hs hb
  have hfind : find (Memory.save sessions snapshot) sessionId branch =
      find sessions sessionId branch := by
    rw [find_save, if_neg]
    rintro ⟨rfl, rfl⟩
    exact hne rfl
  rw [hsave, file_load href _ _ hs' hb', file_load h _ _ hs' hb', listed_iff href _ _ hs',
    listed_iff h _ _ hs', hfind]
  exact ⟨rfl, Iff.rfl⟩

end

/-- The file store answers any calls with such names as the memory store does, and keeps its
snapshots apart. -/
theorem file_store_refines (mp : Msgpack) (cfg : Config) (tree : Tree) (hnew : NewStore cfg tree)
    (calls : List Call) (hcalls : ∀ c ∈ calls, c.Named) :
    List.Forall₂ Answer.Agrees (answers (File.call mp cfg) tree calls).2
      (answers Memory.call ∅ calls).2 ∧
      ∀ snapshot sessionId branch, SessionName snapshot.sessionId → BranchName snapshot.branchId →
        SessionName sessionId → BranchName branch →
        (sessionId, branch) ≠ (snapshot.sessionId, snapshot.branchId) →
        let before := (answers (File.call mp cfg) tree calls).1
        let after := (File.save mp cfg before snapshot).1
        File.load mp cfg after sessionId branch = File.load mp cfg before sessionId branch ∧
          (Listed cfg after sessionId branch ↔ Listed cfg before sessionId branch) := by
  obtain ⟨base, href⟩ := refines_new mp cfg tree hnew
  obtain ⟨hagree, hlast⟩ := answers_agree calls hcalls href
  refine ⟨hagree, ?_⟩
  intro snapshot sessionId branch hs hb hs' hb' hne
  exact save_apart hlast snapshot sessionId branch hs hb hs' hb' hne

/-! ## Two stores -/

def sampleConfig : Config where
  baseDir := ascii "/s"
  cwd := []
  baseDir_text := by decide

def sampleTree : Tree := (∅ : Tree).insert [ascii "s"] .dir

theorem newStore_sample : NewStore sampleConfig sampleTree := by
  refine ⟨[ascii "s"], by decide, by decide, ?_⟩
  intro rel hrel
  rw [sampleTree, nodeAt_insert_ne _ _ _ _ (by simpa using hrel), nodeAt_of_ne _ _ (by simp)]
  rfl

def sampleSnapshot : SessionSnapshot where
  sessionId := ascii "a"
  branchId := mainBranch
  agentId := ascii "x"
  messages := []

/-- What the library packs the snapshot as. -/
def sampleBytes : Bytes :=
  [0x84, 0xa8] ++ ascii "agent_id" ++ [0xa1] ++ ascii "x" ++ [0xa9] ++ ascii "branch_id" ++
    [0xa4] ++ ascii "main" ++
    [0xa8] ++ ascii "messages" ++ [0x90, 0xaa] ++ ascii "session_id" ++ [0xa1] ++ ascii "a"

def sampleMsgpack : Msgpack := .sample (snapshotToJson sampleSnapshot) sampleBytes (by decide)

theorem sessionName_sample : SessionName (ascii "a") := ⟨by decide, by decide, by decide⟩

def sampleCalls : List Call :=
  [.save sampleSnapshot, .load (ascii "a") mainBranch, .listBranches (ascii "a"),
    .compact (ascii "a") 3]

theorem sample_calls_agree :
    List.Forall₂ Answer.Agrees
      (answers (File.call sampleMsgpack sampleConfig) sampleTree sampleCalls).2
      (answers Memory.call ∅ sampleCalls).2 := by
  refine (file_store_refines sampleMsgpack sampleConfig sampleTree newStore_sample sampleCalls ?_).1
  intro c hc
  simp only [sampleCalls, List.mem_cons, List.not_mem_nil, or_false] at hc
  rcases hc with rfl | rfl | rfl | rfl
  · exact ⟨sessionName_sample, mainBranch_name⟩
  · exact ⟨sessionName_sample, mainBranch_name⟩
  · exact sessionName_sample
  · exact sessionName_sample

def Call.NonEmpty : Call → Prop
  | .save snapshot => snapshot.sessionId ≠ [] ∧ snapshot.branchId ≠ []
  | .load sessionId branch => sessionId ≠ [] ∧ branch ≠ []
  | .listBranches sessionId => sessionId ≠ []
  | .compact sessionId _ => sessionId ≠ []

theorem dotted_session_found :
    ¬ ∀ (mp : Msgpack) (cfg : Config) (tree : Tree) (calls : List Call), NewStore cfg tree →
      (∀ c ∈ calls, c.NonEmpty) →
      List.Forall₂ Answer.Agrees (answers (File.call mp cfg) tree calls).2
        (answers Memory.call ∅ calls).2 := by
  -- Two ids of one directory: the snapshot of `a` is loaded under `./a`.
  intro hclaim
  have h := hclaim sampleMsgpack sampleConfig sampleTree [.save sampleSnapshot,
    .load (ascii "./a") mainBranch]
    newStore_sample (by simp [Call.NonEmpty]; decide)
  have hfound : ((File.load sampleMsgpack sampleConfig
      (File.save sampleMsgpack sampleConfig sampleTree
      sampleSnapshot).1 (ascii "./a") mainBranch).toOption).isSome = true := by decide +kernel
  have hmissing : (Memory.load (Memory.save ∅ sampleSnapshot) (ascii "./a") mainBranch).toOption =
      none := by
    decide +kernel
  cases h with
  | cons _ h =>
    cases h with
    | cons h _ =>
      have hload : (File.load sampleMsgpack sampleConfig
          (File.save sampleMsgpack sampleConfig sampleTree
          sampleSnapshot).1 (ascii "./a") mainBranch).toOption =
          (Memory.load (Memory.save ∅ sampleSnapshot) (ascii "./a") mainBranch).toOption := h
      rw [hload, hmissing] at hfound
      cases hfound

end Euxis.Session
