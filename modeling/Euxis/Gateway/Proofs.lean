import Euxis.Audit.Proofs
import Euxis.Files
import Euxis.Gateway.Code
import Euxis.Lines
import Mathlib.Data.List.TakeWhile

/-!
# The session store

Which file a session has, what a run of accepted posts leaves in it, and what the session handler
then serves.
-/

namespace Euxis.Gateway

/-! ## Paths -/

/-- A file name: one step down from any directory. -/
structure Name (q : Bytes) : Prop where
  ne_nil : q ≠ []
  no_slash : ch '/' ∉ q
  no_nul : 0 ∉ q
  ne_dot : q ≠ ascii "."
  ne_dots : q ≠ ascii ".."

instance (q : Bytes) : Decidable (Name q) :=
  decidable_of_iff (q ≠ [] ∧ ch '/' ∉ q ∧ 0 ∉ q ∧ q ≠ ascii "." ∧ q ≠ ascii "..")
    ⟨fun ⟨hne, hslash, hnul, hdot, hdots⟩ => ⟨hne, hslash, hnul, hdot, hdots⟩,
      fun h => ⟨h.ne_nil, h.no_slash, h.no_nul, h.ne_dot, h.ne_dots⟩⟩

theorem walk_name (place : List Bytes) (q : Bytes) (hq : Name q) : walk place q = place ++ [q] := by
  unfold walk
  rw [if_neg (by simp [hq.ne_nil, hq.ne_dot]), if_neg hq.ne_dots]

theorem walk_nil (place : List Bytes) : walk place [] = place := if_pos (Or.inl rfl)

theorem resolve_text (cwd : List Bytes) (p : Bytes) (h : 0 ∉ p) :
    resolve cwd p =
      (p.splitOn (ch '/')).foldl walk (if p.head? = some (ch '/') then [] else cwd) := by
  simp only [resolve, Bytes.takeWhile_text p h]

theorem resolve_slash (cwd : List Bytes) (p q : Bytes) (hp : 0 ∉ p) (hq : Name q) :
    resolve cwd (p ++ ch '/' :: q) = resolve cwd (p ++ [ch '/']) ++ [q] := by
  have hhead : (p ++ ch '/' :: q).head? = (p ++ [ch '/']).head? := by
    cases p <;> simp
  rw [resolve_text cwd _ (Bytes.not_mem_slash p q hp hq.no_nul),
    resolve_text cwd (p ++ [ch '/']) (Bytes.not_mem_slash p [] hp (by simp)), hhead,
    List.splitOn_append_cons_self, List.splitOn_append_cons_self,
    List.splitOn_eq_singleton hq.no_slash,
    List.foldl_append, List.foldl_append, List.splitOn_nil]
  simp only [List.foldl_cons, List.foldl_nil, walk_name _ _ hq, walk_nil]

theorem resolve_trailing (cwd : List Bytes) (p : Bytes) (hp : 0 ∉ p) (hne : p ≠ []) :
    resolve cwd (p ++ [ch '/']) = resolve cwd p := by
  have hhead : (p ++ [ch '/']).head? = p.head? := by
    cases p with
    | nil => exact absurd rfl hne
    | cons b rest => simp
  rw [resolve_text cwd _ (Bytes.not_mem_slash p [] hp (by simp)), resolve_text cwd p hp, hhead,
    List.splitOn_append_cons_self, List.foldl_append, List.splitOn_nil]
  simp only [List.foldl_cons, List.foldl_nil, walk_nil]

theorem head_name (q : Bytes) (hq : Name q) : q.head? ≠ some (ch '/') := by
  intro h
  exact hq.no_slash (List.mem_of_mem_head? (by rw [h]; rfl))

theorem resolve_appendPath (cwd : List Bytes) (p q : Bytes) (hp : 0 ∉ p) (hq : Name q) :
    resolve cwd (appendPath p q) = resolve cwd p ++ [q] := by
  unfold appendPath
  rw [if_neg (head_name q hq)]
  by_cases hnil : p = []
  · subst hnil
    rw [if_pos (Or.inl rfl), List.nil_append, resolve_text cwd q hq.no_nul, if_neg (head_name q hq),
      List.splitOn_eq_singleton hq.no_slash, resolve_text cwd [] hp, List.splitOn_nil,
      if_neg (by simp)]
    simp only [List.foldl_cons, List.foldl_nil, walk_name _ _ hq, walk_nil]
  · by_cases hlast : p.getLast? = some (ch '/')
    · obtain ⟨p', rfl⟩ := List.getLast?_eq_some_iff.mp hlast
      have hp' : 0 ∉ p' := fun h => hp (List.mem_append_left _ h)
      rw [if_pos (Or.inr hlast), List.append_assoc]
      exact resolve_slash cwd p' q hp' hq
    · rw [if_neg (by simp [hnil, hlast]), resolve_slash cwd p q hp hq,
        resolve_trailing cwd p hp hnil]

theorem appendPath_text (p q : Bytes) (hp : 0 ∉ p) (hq : 0 ∉ q) : 0 ∉ appendPath p q := by
  unfold appendPath
  split
  · exact hq
  · split
    · simp [hp, hq]
    · exact Bytes.not_mem_slash p q hp hq

/-! ## The directories -/

theorem euxisHome_text (env : Env) (home : Bytes) (h : euxisHome env = some home) : 0 ∉ home := by
  unfold euxisHome at h
  split at h
  · rename_i home' he
    rw [Option.some.injEq] at h
    subst h
    exact env.euxisHome_text _ (by rw [he]; rfl)
  · obtain ⟨user, hu, rfl⟩ := Option.map_eq_some_iff.mp h
    exact appendPath_text _ _ (env.userHome_text _ (by rw [hu]; rfl)) (by decide)

theorem gatewayDataDir_text (env : Env) (base : Bytes) (h : gatewayDataDir env = some base) :
    0 ∉ base := by
  obtain ⟨home, hh, rfl⟩ := Option.map_eq_some_iff.mp h
  exact appendPath_text _ _ (appendPath_text _ _ (euxisHome_text env home hh) (by decide))
    (by decide)

theorem resolve_dataFile (cwd : List Bytes) (base dir file : Bytes) (hb : 0 ∉ base) (hd : Name dir)
    (hf : Name file) :
    resolve cwd (appendPath (appendPath base dir) file) = resolve cwd base ++ [dir, file] := by
  rw [resolve_appendPath cwd _ _ (appendPath_text _ _ hb hd.no_nul) hf,
    resolve_appendPath cwd _ _ hb hd]
  simp

theorem name_sessions : Name (ascii "sessions") := by decide

theorem name_audit : Name (ascii "audit") := by decide

theorem name_auditFile : Name (ascii "gateway_audit.jsonl") := by decide

theorem name_sessionFile (sessionId : Bytes) (h : ∀ b ∈ sessionId, isWord b = true) :
    Name (sessionId ++ ascii ".jsonl") := by
  have hout : ∀ b, isWord b = false → b ∉ ascii ".jsonl" → b ∉ sessionId ++ ascii ".jsonl" := by
    intro b hb hext hmem
    rcases List.mem_append.mp hmem with hm | hm
    · rw [h b hm] at hb
      exact absurd hb (by simp)
    · exact hext hm
  have hlen : (sessionId ++ ascii ".jsonl").length = sessionId.length + 6 := by
    rw [List.length_append]
    rfl
  refine ⟨?_, hout _ (by decide) (by decide), hout _ (by decide) (by decide), ?_, ?_⟩
  · intro hnil
    rw [hnil] at hlen
    simp at hlen
  · intro hdot
    rw [hdot] at hlen
    have : (ascii ".").length = 1 := rfl
    omega
  · intro hdots
    rw [hdots] at hlen
    have : (ascii "..").length = 2 := rfl
    omega

/-! ## What the store is for -/

/-- Inside `sessions_dir()`. -/
def Inside (env : Env) (place : List Bytes) : Prop :=
  ∃ dir, sessionsDir env = some dir ∧ resolve env.cwd dir <+: place ∧ place ≠ resolve env.cwd dir

def auditPlace (env : Env) : Option (List Bytes) :=
  (auditDir env).map fun dir => resolve env.cwd (appendPath dir (ascii "gateway_audit.jsonl"))

/-- The session of a post, and the entry that it adds. -/
def posted (codec : JsonCodec) (post : Post) : Option (Bytes × Json) :=
  match readMessage codec post.req.body with
  | .ok (sessionId, content) => some (sessionId, messageEntry content post.now)
  | .error _ => none

def history (messages : List (Bytes × Json)) (sessionId : Bytes) : List Json :=
  (messages.filter (·.1 = sessionId)).map (·.2)

/-- Every post of the sequence is answered with success. -/
def AllAccepted (codec : JsonCodec) (env : Env) (authToken : Bytes) : Files → List Post → Prop
  | _, [] => True
  | files, post :: posts =>
    (postSession codec env authToken files post).2.status = 200 ∧
      AllAccepted codec env authToken (postSession codec env authToken files post).1 posts

/-- Sessions stay inside their directory, and each one is served as it was posted. The audit log is
no session. -/
structure KeepsApart (codec : JsonCodec) (env : Env) (authToken : Bytes) (files : Files)
    (posts : List Post) : Prop where
  inside : ∀ place, postAll codec env authToken files posts place ≠ files place →
    Inside env place ∨ auditPlace env = some place
  served : ∀ post ∈ posts, ∀ sessionId entry, posted codec post = some (sessionId, entry) →
    ∀ req, authorizeRequest codec authToken req = none →
      ∃ text, codec.dump (historyBody sessionId
        (history (posts.filterMap (posted codec)) sessionId)) = some text ∧
        getPath codec env authToken (postAll codec env authToken files posts) req
          (sessionsPath ++ sessionId) = some { status := 200, body := text }

/-! ## One post -/

section

variable (codec : JsonCodec) (env : Env) (authToken : Bytes)

theorem respond_status (status : Nat) (j : Json) :
    (respond codec status j).status = status ∨ (respond codec status j).status = 500 := by
  unfold respond
  split
  · exact Or.inl rfl
  · exact Or.inr rfl

theorem verifyBearerToken_status (token expected : Bytes) (e : AuthError)
    (h : verifyBearerToken token expected = .error e) :
    e.statusCode = 401 ∨ e.statusCode = 500 := by
  unfold verifyBearerToken at h
  split at h
  · cases h
    exact Or.inr rfl
  · split at h
    · cases h
      exact Or.inl rfl
    · split at h
      · cases h
        exact Or.inl rfl
      · cases h

theorem authorizeRequest_status (req : Request) (refusal : Response)
    (h : authorizeRequest codec authToken req = some refusal) : refusal.status ≠ 200 := by
  unfold authorizeRequest at h
  split at h
  · cases h
    decide
  · split at h
    · rename_i e he
      cases h
      have he := verifyBearerToken_status _ _ e he
      have hr := respond_status codec e.statusCode (Json.object [(ascii "error", .str e.message)])
      omega
    · cases h

theorem invalidJson_status : invalidJson.status ≠ 200 := by decide

theorem fieldsRequired_status : fieldsRequired.status ≠ 200 := by decide

/-- The file of a session. -/
def sessionPlace (base sessionId : Bytes) : List Bytes :=
  resolve env.cwd (sessionFile (appendPath base (ascii "sessions")) sessionId)

def auditPlaceOf (base : Bytes) : List Bytes :=
  resolve env.cwd (appendPath (appendPath base (ascii "audit")) (ascii "gateway_audit.jsonl"))

theorem persistLine_true (files files' : Files) (place : List Bytes) (entry : Json)
    (h : persistLine codec files place entry = (files', true)) :
    ∃ line, codec.dump entry = some line ∧ files' = appendFile files place (line ++ [ch '\n']) := by
  unfold persistLine at h
  split at h
  · cases h
  · rename_i line hline
    cases h
    exact ⟨line, hline, rfl⟩

theorem persistMessage_true (files files' : Files) (sessionId : Bytes) (entry : Json)
    (h : persistMessage codec env files sessionId entry = (files', true)) :
    ∃ base line, gatewayDataDir env = some base ∧ codec.dump entry = some line ∧
      files' = appendFile files (sessionPlace env base sessionId) (line ++ [ch '\n']) := by
  unfold persistMessage at h
  split at h
  · cases h
  · rename_i dir hdir
    obtain ⟨base, hbase, rfl⟩ := Option.map_eq_some_iff.mp hdir
    obtain ⟨line, hline, hfiles⟩ := persistLine_true codec files files' _ entry h
    exact ⟨base, line, hbase, hline, hfiles⟩

theorem auditLog_true (files files' : Files) (event : Json)
    (h : auditLog codec env files event = (files', true)) :
    ∃ base line, gatewayDataDir env = some base ∧ codec.dump event = some line ∧
      files' = appendFile files (auditPlaceOf env base) (line ++ [ch '\n']) := by
  unfold auditLog at h
  split at h
  · cases h
  · rename_i dir hdir
    obtain ⟨base, hbase, rfl⟩ := Option.map_eq_some_iff.mp hdir
    obtain ⟨line, hline, hfiles⟩ := persistLine_true codec files files' _ event h
    exact ⟨base, line, hbase, hline, hfiles⟩

theorem postSession_cases (files : Files) (post : Post)
    (h : (postSession codec env authToken files post).2.status = 200) :
    authorizeRequest codec authToken post.req = none ∧
      ∃ base sessionId entry line later event,
        gatewayDataDir env = some base ∧ sessionId ≠ [] ∧
        posted codec post = some (sessionId, entry) ∧
        codec.dump entry = some line ∧ codec.dump (messageEvent sessionId later) = some event ∧
        (postSession codec env authToken files post).1 =
          appendFile (appendFile files (sessionPlace env base sessionId) (line ++ [ch '\n']))
            (auditPlaceOf env base) (event ++ [ch '\n']) := by
  generalize hpost : postSession codec env authToken files post = result at h ⊢
  unfold postSession at hpost
  split at hpost
  · rename_i refusal hauth
    subst hpost
    exact absurd h (authorizeRequest_status codec authToken post.req refusal hauth)
  · rename_i hauth
    refine ⟨hauth, ?_⟩
    split at hpost
    · subst hpost
      exact absurd h invalidJson_status
    · rename_i sessionId content hread
      split at hpost
      · subst hpost
        exact absurd h fieldsRequired_status
      · rename_i hempty
        dsimp only at hpost
        split at hpost
        · subst hpost
          exact absurd h invalidJson_status
        · rename_i files1 hmessage
          split at hpost
          · subst hpost
            exact absurd h invalidJson_status
          · rename_i files2 hevent
            -- Only here has no early return been taken: both lines are in their files.
            obtain ⟨base, line, hbase, hline, rfl⟩ :=
              persistMessage_true codec env files files1 sessionId _ hmessage
            obtain ⟨base', event, hbase', hdump, rfl⟩ := auditLog_true codec env _ files2 _ hevent
            obtain rfl : base = base' := Option.some.inj (hbase.symm.trans hbase')
            rw [hline] at hpost
            subst hpost
            exact ⟨base, sessionId, _, line, post.later, event, hbase, fun hn => hempty (Or.inl hn),
              by simp only [posted, hread], hline, hdump, rfl⟩

/-! ## Places -/

section Base

variable (base : Bytes)

theorem sessionPlace_word (hb : 0 ∉ base) (sessionId : Bytes)
    (h : ∀ b ∈ sessionId, isWord b = true) :
    sessionPlace env base sessionId = resolve env.cwd base ++
      [ascii "sessions", sessionId ++ ascii ".jsonl"] :=
  resolve_dataFile env.cwd base _ _ hb name_sessions (name_sessionFile sessionId h)

theorem auditPlaceOf_eq (hb : 0 ∉ base) :
    auditPlaceOf env base = resolve env.cwd base ++ [ascii "audit", ascii "gateway_audit.jsonl"] :=
  resolve_dataFile env.cwd base _ _ hb name_audit name_auditFile

theorem sessionPlace_injective (hb : 0 ∉ base) (x y : Bytes) (hx : ∀ b ∈ x, isWord b = true)
    (hy : ∀ b ∈ y, isWord b = true) (h : sessionPlace env base x = sessionPlace env base y) :
    x = y := by
  rw [sessionPlace_word env base hb x hx, sessionPlace_word env base hb y hy] at h
  have hlast := List.append_cancel_left h
  simp only [List.cons.injEq, and_true, true_and] at hlast
  exact List.append_cancel_right hlast

theorem sessionPlace_ne_audit (hb : 0 ∉ base) (sessionId : Bytes)
    (h : ∀ b ∈ sessionId, isWord b = true) :
    sessionPlace env base sessionId ≠ auditPlaceOf env base := by
  rw [sessionPlace_word env base hb sessionId h, auditPlaceOf_eq env base hb]
  intro heq
  have hdir := (List.cons.inj (List.append_cancel_left heq)).1
  exact absurd hdir (by decide)

theorem sessionPlace_inside (hbase : gatewayDataDir env = some base) (sessionId : Bytes)
    (h : ∀ b ∈ sessionId, isWord b = true) : Inside env (sessionPlace env base sessionId) := by
  have hb := gatewayDataDir_text env base hbase
  have hdir : resolve env.cwd (appendPath base (ascii "sessions")) = resolve env.cwd base ++
      [ascii "sessions"] :=
    resolve_appendPath env.cwd base _ hb name_sessions
  refine ⟨appendPath base (ascii "sessions"), by simp [sessionsDir, hbase], ?_, ?_⟩
  · rw [hdir, sessionPlace_word env base hb sessionId h]
    exact ⟨[sessionId ++ ascii ".jsonl"], by simp⟩
  · rw [hdir, sessionPlace_word env base hb sessionId h]
    intro heq
    have hlen := congrArg List.length heq
    simp at hlen

/-! ## A run of posts -/

theorem appendFile_self (files : Files) (place : List Bytes) (bytes : Bytes) :
    appendFile files place bytes place = some ((files place).getD [] ++ bytes) :=
  Function.update_self ..

theorem appendFile_ne (files : Files) (place other : List Bytes) (bytes : Bytes)
    (h : other ≠ place) :
    appendFile files place bytes other = files other := Function.update_of_ne h ..

theorem history_append (messages : List (Bytes × Json)) (m : Bytes × Json) (sessionId : Bytes) :
    history (messages ++ [m]) sessionId =
      history messages sessionId ++ (if m.1 = sessionId then [m.2] else []) := by
  simp only [history, List.filter_append, List.map_append]
  split <;> simp_all

/-- The files after the messages. -/
structure Stored (start files : Files) (messages : List (Bytes × Json)) : Prop where
  kept : ∀ sessionId : Bytes, (∀ b ∈ sessionId, isWord b = true) →
    Lines.Reads codec.parse ((files (sessionPlace env base sessionId)).getD [])
      (history messages sessionId)
  dumps : ∀ m ∈ messages, (codec.dump (.str m.1)).isSome ∧ (codec.dump m.2).isSome
  changed : ∀ place, files place ≠ start place → Inside env place ∨ auditPlace env = some place

variable {base}

theorem kept_append (hb : 0 ∉ base) {start files : Files} {messages : List (Bytes × Json)}
    (h : Stored codec env base start files messages) (m : Bytes × Json)
    (hword : ∀ b ∈ m.1, isWord b = true) (line : Bytes) (hline : codec.dump m.2 = some line)
    (sessionId : Bytes) (hs : ∀ b ∈ sessionId, isWord b = true) :
    Lines.Reads codec.parse
      ((appendFile files (sessionPlace env base m.1) (line ++ [ch '\n'])
        (sessionPlace env base sessionId)).getD [])
      (history (messages ++ [m]) sessionId) := by
  have hkept := h.kept sessionId hs
  rw [history_append]
  by_cases heq : m.1 = sessionId
  · subst heq
    rw [appendFile_self, Option.getD_some, if_pos rfl]
    exact hkept.append line m.2 ⟨codec.dump_ne_nil _ _ hline, codec.dump_one_line _ _ hline⟩
      (codec.parse_dump _ _ hline)
  · rw [if_neg heq, List.append_nil, appendFile_ne]
    · exact hkept
    · exact fun hp => heq (sessionPlace_injective env base hb sessionId m.1 hs hword hp).symm

theorem stored_append (hbase : gatewayDataDir env = some base) {start files : Files}
    {messages : List (Bytes × Json)} (h : Stored codec env base start files messages)
    (m : Bytes × Json) (hword : ∀ b ∈ m.1, isWord b = true) (line event : Bytes)
    (hline : codec.dump m.2 = some line) (hid : (codec.dump (.str m.1)).isSome) :
    Stored codec env base start
      (appendFile (appendFile files (sessionPlace env base m.1) (line ++ [ch '\n']))
        (auditPlaceOf env base) (event ++ [ch '\n']))
      (messages ++ [m]) := by
  have hb := gatewayDataDir_text env base hbase
  refine ⟨?_, ?_, ?_⟩
  · intro sessionId hs
    rw [appendFile_ne _ _ _ _ (sessionPlace_ne_audit env base hb sessionId hs)]
    exact kept_append codec env hb h m hword line hline sessionId hs
  · intro m' hm'
    rcases List.mem_append.mp hm' with hm' | hm'
    · exact h.dumps m' hm'
    · rw [List.mem_singleton.mp hm', hline]
      exact ⟨hid, rfl⟩
  -- A post writes two files, that of its session and the audit log, and no other.
  · intro place hne
    by_cases haudit : place = auditPlaceOf env base
    · right
      simp [auditPlace, auditDir, hbase, haudit, auditPlaceOf]
    · rw [appendFile_ne _ _ _ _ haudit] at hne
      by_cases hsession : place = sessionPlace env base m.1
      · left
        rw [hsession]
        exact sessionPlace_inside env base hbase m.1 hword
      · rw [appendFile_ne _ _ _ _ hsession] at hne
        exact h.changed place hne

theorem messageEvent_members (sessionId later : Bytes) :
    messageEvent sessionId later =
      .obj [(ascii "event", .str (ascii "session.message")), (ascii "session_id", .str sessionId),
        (ascii "timestamp", .str later)] := rfl

theorem historyBody_members (sessionId : Bytes) (messages : List Json) :
    historyBody sessionId messages =
      .obj [(ascii "messages", .arr messages), (ascii "session_id", .str sessionId)] := rfl

variable (hdumps : codec.ThrowsOnText)

include hdumps in
theorem sessionId_dumps (sessionId later event : Bytes)
    (h : codec.dump (messageEvent sessionId later) = some event) :
    (codec.dump (.str sessionId)).isSome := by
  have hobj : (codec.dump (messageEvent sessionId later)).isSome := by rw [h]; rfl
  rw [messageEvent_members] at hobj
  exact (hdumps.members_dump _ hobj (ascii "session_id", .str sessionId) (by simp)).2

include hdumps in
theorem historyBody_dumps {start files : Files} {messages : List (Bytes × Json)}
    (h : Stored codec env base start files messages) (m : Bytes × Json) (hm : m ∈ messages) :
    ∃ text, codec.dump (historyBody m.1 (history messages m.1)) = some text := by
  rw [← Option.isSome_iff_exists, historyBody_members]
  refine hdumps.obj_dumps _ rfl fun member hmember => ?_
  simp only [List.mem_cons, List.not_mem_nil, or_false] at hmember
  rcases hmember with rfl | rfl
  · refine ⟨hdumps.ascii_dumps (ascii "messages") (by decide), (hdumps.arr_dumps _).mpr ?_⟩
    intro j hj
    simp only [history, List.mem_map, List.mem_filter] at hj
    obtain ⟨m', ⟨hm', -⟩, rfl⟩ := hj
    exact (h.dumps m' hm').2
  · exact ⟨hdumps.ascii_dumps (ascii "session_id") (by decide), (h.dumps m hm).1⟩

include hdumps in
/-- A run of accepted posts to ids of word characters. -/
theorem stored_postAll (hbase : gatewayDataDir env = some base) (posts : List Post)
    {start files : Files} {messages : List (Bytes × Json)}
    (h : Stored codec env base start files messages)
    (hok : AllAccepted codec env authToken files posts)
    (hword : ∀ post ∈ posts, ∀ m, posted codec post = some m → ∀ b ∈ m.1, isWord b = true) :
    Stored codec env base start (postAll codec env authToken files posts)
      (messages ++ posts.filterMap (posted codec)) := by
  induction posts generalizing files messages with
  | nil => simpa [postAll] using h
  | cons post posts ih =>
    obtain ⟨hnow, hrest⟩ := hok
    obtain ⟨-, base', sessionId, entry, line, later, event, hbase', -, hposted, hline,
      hevent, hfiles⟩ :=
      postSession_cases codec env authToken files post hnow
    obtain rfl : base = base' := Option.some.inj (hbase.symm.trans hbase')
    have hw := hword post List.mem_cons_self _ hposted
    have hstep := stored_append codec env hbase h (sessionId, entry) hw line event hline
      (sessionId_dumps codec hdumps sessionId later event hevent)
    rw [← hfiles] at hstep
    have := ih hstep hrest fun p hp => hword p (List.mem_cons_of_mem _ hp)
    rw [List.filterMap_cons_some hposted]
    simpa [postAll] using this

/-! ## What is served -/

theorem parseLines_eq (content : Bytes) :
    parseLines codec content = (Lines.nonEmpty content).filterMap codec.parse := by
  unfold parseLines Lines.nonEmpty
  rw [← Audit.getLines_filter, List.filterMap_filter]
  apply List.filterMap_congr
  intro line _
  by_cases h : line = [] <;> simp [h]

theorem loadSession_stored (hbase : gatewayDataDir env = some base) {start files : Files}
    {messages : List (Bytes × Json)} (h : Stored codec env base start files messages)
    (sessionId : Bytes) (hword : ∀ b ∈ sessionId, isWord b = true) :
    loadSessionFromDisk codec env files sessionId = some (history messages sessionId) := by
  have hlines := (h.kept sessionId hword).filterMap_eq
  unfold sessionPlace at hlines
  simp only [loadSessionFromDisk, sessionsDir, hbase, Option.map_some, Option.some.injEq]
  split
  · rename_i hfile
    rw [hfile, Option.getD_none] at hlines
    exact hlines
  · rename_i content hfile
    rw [hfile, Option.getD_some] at hlines
    rw [parseLines_eq, hlines]

end Base

end

/-! ## Routes -/

theorem matchSession_append (sessionId : Bytes) :
    matchSession (sessionsPath ++ sessionId) =
      if sessionId ≠ [] ∧ sessionId.all isWord then some sessionId else none := by
  unfold matchSession
  rw [if_pos (by simp), List.drop_left]

theorem routeGet_session (sessionId : Bytes) :
    routeGet (sessionsPath ++ sessionId) = (matchSession (sessionsPath ++ sessionId)).map
      .session := by
  have hlen : 14 ≤ (sessionsPath ++ sessionId).length := by
    rw [List.length_append]
    have : sessionsPath.length = 14 := rfl
    omega
  have hhealth : sessionsPath ++ sessionId ≠ ascii "/health" := by
    intro h
    rw [h] at hlen
    exact absurd hlen (by decide)
  have hready : sessionsPath ++ sessionId ≠ ascii "/ready" := by
    intro h
    rw [h] at hlen
    exact absurd hlen (by decide)
  have hadmin : sessionsPath ++ sessionId ≠ ascii "/api/admin/config" := by
    intro h
    have htake := congrArg (List.take 14) h
    rw [show 14 = sessionsPath.length from rfl, List.take_left] at htake
    exact absurd htake (by decide)
  unfold routeGet
  rw [if_neg hhealth, if_neg hready]
  cases matchSession (sessionsPath ++ sessionId) with
  | none => exact if_neg hadmin
  | some id => rfl

theorem getPath_word (codec : JsonCodec) (env : Env) (authToken : Bytes) (files : Files)
    (req : Request) (sessionId : Bytes) (hne : sessionId ≠ [])
    (hword : ∀ b ∈ sessionId, isWord b = true) :
    getPath codec env authToken files req (sessionsPath ++ sessionId) =
      some (getSession codec env authToken files req sessionId) := by
  have hmatch : matchSession (sessionsPath ++ sessionId) = some sessionId := by
    rw [matchSession_append, if_pos ⟨hne, List.all_eq_true.mpr hword⟩]
  rw [getPath, routeGet_session, hmatch]
  rfl

theorem getPath_not_word (codec : JsonCodec) (env : Env) (authToken : Bytes) (files : Files)
    (req : Request) (sessionId : Bytes) (hword : ¬ ∀ b ∈ sessionId, isWord b = true) :
    getPath codec env authToken files req (sessionsPath ++ sessionId) = none := by
  have hmatch : matchSession (sessionsPath ++ sessionId) = none := by
    rw [matchSession_append, if_neg]
    rintro ⟨-, hall⟩
    exact hword (List.all_eq_true.mp hall)
  rw [getPath, routeGet_session, hmatch]
  rfl

/-! ## The store -/

theorem allAccepted_mem (codec : JsonCodec) (env : Env) (authToken : Bytes) (files : Files)
    (posts : List Post) (hok : AllAccepted codec env authToken files posts) (post : Post)
    (hp : post ∈ posts) :
    ∃ files', (postSession codec env authToken files' post).2.status = 200 := by
  induction posts generalizing files with
  | nil => exact absurd hp (by simp)
  | cons first posts ih =>
    rcases List.mem_cons.mp hp with rfl | hp
    · exact ⟨files, hok.1⟩
    · exact ih _ hok.2 hp

theorem stored_start (codec : JsonCodec) (env : Env) (base : Bytes)
    (hbase : gatewayDataDir env = some base) (files : Files)
    (hfresh : ∀ place, Inside env place → files place = none) :
    Stored codec env base files files [] where
  kept sessionId hword := by
    rw [hfresh _ (sessionPlace_inside env base hbase sessionId hword)]
    exact Lines.Reads.empty
  dumps := by simp
  changed _ hne := absurd rfl hne

theorem keepsApart_of_words (codec : JsonCodec) (hdumps : codec.ThrowsOnText) (env : Env)
    (authToken : Bytes) (files : Files) (posts : List Post)
    (hfresh : ∀ place, Inside env place → files place = none)
    (hok : AllAccepted codec env authToken files posts)
    (hword : ∀ post ∈ posts, ∀ m, posted codec post = some m → ∀ b ∈ m.1, isWord b = true) :
    KeepsApart codec env authToken files posts := by
  rcases posts with - | ⟨post, posts⟩
  · exact ⟨fun place hne => absurd rfl hne, by simp⟩
  · obtain ⟨-, base, -, -, -, -, -, hbase, -⟩ :=
      postSession_cases codec env authToken files post hok.1
    have hstored := stored_postAll codec env authToken hdumps hbase (post :: posts)
      (stored_start codec env base hbase files hfresh) hok hword
    rw [List.nil_append] at hstored
    refine ⟨hstored.changed, ?_⟩
    intro p hp sessionId entry hposted req hauth
    have hw := hword p hp _ hposted
    -- That the id is not empty was checked when this post was accepted.
    obtain ⟨files', hnow⟩ := allAccepted_mem codec env authToken files _ hok p hp
    obtain ⟨-, -, sessionId', entry', -, -, -, -, hne, hposted', -⟩ :=
      postSession_cases codec env authToken files' p hnow
    obtain ⟨rfl, rfl⟩ : sessionId = sessionId' ∧ entry = entry' := by
      rw [hposted] at hposted'
      simpa using hposted'
    obtain ⟨text, htext⟩ := historyBody_dumps codec env hdumps hstored (sessionId, entry)
      (List.mem_filterMap.mpr ⟨p, hp, hposted⟩)
    refine ⟨text, htext, ?_⟩
    rw [getPath_word codec env authToken _ req sessionId hne hw]
    simp only [getSession, hauth, loadSession_stored codec env hbase hstored sessionId hw,
      respond, htext]

/-- The store keeps its promise for the sequences whose ids are words. -/
theorem sessions_kept_apart_iff (codec : JsonCodec) (hdumps : codec.ThrowsOnText) (env : Env)
    (authToken : Bytes) (files : Files) (posts : List Post)
    (hfresh : ∀ place, Inside env place → files place = none)
    (hok : AllAccepted codec env authToken files posts) :
    KeepsApart codec env authToken files posts ↔
      ∀ post ∈ posts, ∀ m, posted codec post = some m → ∀ b ∈ m.1, isWord b = true := by
  constructor
  · intro hkeeps post hp m hposted
    obtain ⟨files', hnow⟩ := allAccepted_mem codec env authToken files _ hok post hp
    obtain ⟨hauth, -⟩ := postSession_cases codec env authToken files' post hnow
    obtain ⟨text, -, hserved⟩ := hkeeps.served post hp m.1 m.2 hposted post.req hauth
    by_contra hword
    rw [getPath_not_word codec env authToken _ post.req m.1 hword] at hserved
    cases hserved
  · exact keepsApart_of_words codec hdumps env authToken files posts hfresh hok

/-! ## Samples -/

def sampleEnv : Env where
  euxisHome := some (ascii "/h")
  userHome := none
  cwd := []
  euxisHome_text := by decide
  userHome_text := by decide

def sampleBody (sessionId content : Bytes) : Json :=
  Json.object [(ascii "session_id", .str sessionId), (ascii "content", .str content)]

def samplePost (sessionId content : Bytes) : Post where
  req := { authorization := some (ascii "Bearer t"),
           body := Json.write (sampleBody sessionId content) }
  now := ascii "2026-01-01T00:00:00+0000"
  later := ascii "2026-01-01T00:00:01+0000"

theorem readMessage_sample (sessionId content : Bytes) :
    readMessage Json.textCodec (Json.write (sampleBody sessionId content)) =
      .ok (sessionId, content) := by
  have hparse : Json.textCodec.parse (Json.write (sampleBody sessionId content)) =
      some (sampleBody sessionId content) := Json.textCodec.parse_dump _ _ rfl
  unfold readMessage
  rw [hparse]
  rfl

theorem posted_sample (sessionId content : Bytes) :
    posted Json.textCodec (samplePost sessionId content) =
      some (sessionId, messageEntry content (ascii "2026-01-01T00:00:00+0000")) := by
  simp only [posted, samplePost, readMessage_sample]

theorem postSession_sample (files : Files) (sessionId content : Bytes) (hs : sessionId ≠ [])
    (hc : content ≠ [])
    (hsize : (Json.write (sampleBody sessionId content)).length ≤ kMaxRequestBodySize) :
    (postSession Json.textCodec sampleEnv (ascii "t") files
      (samplePost sessionId content)).2.status = 200 := by
  have hauth : authorizeRequest Json.textCodec (ascii "t") (samplePost sessionId content).req =
      none := by
    unfold authorizeRequest
    rw [if_neg (by simpa [samplePost] using hsize)]
    rfl
  have hread : readMessage Json.textCodec (samplePost sessionId content).req.body =
      .ok (sessionId, content) :=
    readMessage_sample sessionId content
  unfold postSession
  rw [hauth, hread]
  simp only [hs, hc, or_self, if_false]
  rfl

def twoSessions : List Post :=
  [samplePost (ascii "s1") (ascii "a"), samplePost (ascii "s_2") (ascii "b"),
    samplePost (ascii "s1") (ascii "c")]

theorem two_sessions_kept_apart :
    AllAccepted Json.textCodec sampleEnv (ascii "t") (fun _ => none) twoSessions ∧
      KeepsApart Json.textCodec sampleEnv (ascii "t") (fun _ => none) twoSessions := by
  have hok : AllAccepted Json.textCodec sampleEnv (ascii "t") (fun _ => none) twoSessions :=
    ⟨postSession_sample _ _ _ (by decide) (by decide) (by decide),
      postSession_sample _ _ _ (by decide) (by decide) (by decide),
      postSession_sample _ _ _ (by decide) (by decide) (by decide), trivial⟩
  refine ⟨hok, (sessions_kept_apart_iff _ Json.textCodec_throwsOnText _ _ _ _ (fun _ _ => rfl)
    hok).mpr ?_⟩
  intro post hp m hposted
  simp only [twoSessions, List.mem_cons, List.not_mem_nil, or_false] at hp
  rcases hp with rfl | rfl | rfl
  all_goals
    rw [posted_sample, Option.some.injEq] at hposted
    subst hposted
    exact List.all_eq_true.mp (by decide)

def dottedSession : List Post := [samplePost (ascii "../../x") (ascii "hi")]

theorem dotted_session_escapes :
    AllAccepted Json.textCodec sampleEnv (ascii "t") (fun _ => none) dottedSession ∧
      (∃ place, postAll Json.textCodec sampleEnv (ascii "t") (fun _ => none) dottedSession place ≠
        none ∧ ¬ Inside sampleEnv place ∧ auditPlace sampleEnv ≠ some place) ∧
      ¬ KeepsApart Json.textCodec sampleEnv (ascii "t") (fun _ => none) dottedSession := by
  -- The id `../../x` is accepted. Its file is outside the directory, and it is never served.
  have hnow := postSession_sample (fun _ => none) (ascii "../../x") (ascii "hi") (by decide)
    (by decide) (by decide)
  obtain ⟨hauth, base, sessionId, entry, line, later, event, hbase, -, hposted, -, -, hfiles⟩ :=
    postSession_cases _ _ _ _ _ hnow
  obtain rfl : ascii "/h/data/gateway" = base := Option.some.inj hbase
  rw [posted_sample, Option.some.injEq, Prod.mk.injEq] at hposted
  obtain ⟨rfl, -⟩ := hposted
  have hplace : sessionPlace sampleEnv (ascii "/h/data/gateway") (ascii "../../x") =
      [ascii "h", ascii "data", ascii "x.jsonl"] := by decide
  refine ⟨⟨hnow, trivial⟩, ⟨[ascii "h", ascii "data", ascii "x.jsonl"], ?_, ?_, by decide⟩, ?_⟩
  · simp only [postAll, dottedSession, List.foldl_cons, List.foldl_nil]
    rw [hfiles, hplace, appendFile_ne _ _ _ _ (by decide), appendFile_self]
    exact Option.some_ne_none _
  · rintro ⟨dir, hdir, hprefix, -⟩
    obtain rfl : ascii "/h/data/gateway/sessions" = dir := Option.some.inj hdir
    exact absurd hprefix (by decide)
  · intro hkeeps
    obtain ⟨text, -, hserved⟩ := hkeeps.served _ List.mem_cons_self _ _ (posted_sample _ _) _ hauth
    rw [getPath_not_word _ _ _ _ _ _ fun hword => absurd (hword (ch '.') (by decide)) (by decide)]
      at hserved
    cases hserved

end Euxis.Gateway

namespace Euxis.Files

/-! ## Where `dir / name` leads, from where `dir` does -/

open Gateway

variable {tree : Tree} {cwd place : Place} {p q : Bytes}

theorem appendPath_slash (hp : 0 ∉ p) (hl : locate tree cwd p = some place)
    (hq : q.head? ≠ some (ch '/')) :
    ∃ front, appendPath p q = front ++ ch '/' :: q ∧ 0 ∉ front ∧
      LeadsTo tree cwd front q place := by
  have hne := (locate_text hp hl).1
  unfold appendPath
  rw [if_neg hq]
  by_cases hlast : p.getLast? = some (ch '/')
  · obtain ⟨front, rfl⟩ := List.getLast?_eq_some_iff.mp hlast
    have hfront : 0 ∉ front := fun h => hp (List.mem_append_left _ h)
    rw [if_pos (Or.inr hlast)]
    exact ⟨front, by simp, hfront, leadsTo_of_trailing hfront hl q⟩
  · rw [if_neg (by simp [hne, hlast])]
    exact ⟨p, rfl, hp, leadsTo_of_locate hp hl q⟩

theorem locate_appendPath (hp : 0 ∉ p) (hl : locate tree cwd p = some place)
    (hq : q.head? ≠ some (ch '/')) (hq0 : 0 ∉ q) :
    locate tree cwd (appendPath p q) = (q.splitOn (ch '/')).foldlM (enter tree) place := by
  obtain ⟨front, heq, hfront, hlead⟩ := appendPath_slash hp hl hq
  rw [heq]
  exact locate_slash hfront hq0 hlead

theorem createDirectories_appendPath (hp : 0 ∉ p) (hl : locate tree cwd p = some place)
    (hd : nodeAt tree place = some .dir) (hq : q.head? ≠ some (ch '/')) (hq0 : 0 ∉ q) :
    createDirectories tree cwd (appendPath p q) =
      ((q.splitOn (ch '/')).foldlM makeDir (tree, place)).map (·.1) := by
  obtain ⟨front, heq, hfront, hlead⟩ := appendPath_slash hp hl hq
  rw [heq]
  exact createDirectories_slash hfront hq0 hlead hd

theorem Plain.of_name (h : Name q) : Plain q := ⟨h.ne_nil, h.ne_dot, h.ne_dots⟩

theorem locate_name (hp : 0 ∉ p) (hl : locate tree cwd p = some place)
    (hd : nodeAt tree place = some .dir) (hq : Name q) :
    locate tree cwd (appendPath p q) = some (place ++ [q]) := by
  rw [locate_appendPath hp hl (head_name q hq) hq.no_nul, List.splitOn_eq_singleton hq.no_slash]
  simp only [List.foldlM_cons, List.foldlM_nil, enter_plain tree place q hd (Plain.of_name hq)]
  rfl

end Euxis.Files
