import Euxis.Router.Sessions
import Euxis.Trace

/-!
# The recency list of the sessions

The list and the index stay in step whatever the limits are. The usage map follows them as long as
the limit is not 0, and the limit holds as long as it is not set below the number of sessions that
are there.
-/

namespace Euxis.Router.Sessions

open Recency Trace

/-- A state with the ids that were used so far, the last one at the end. -/
structure Traced where
  state : State
  history : List Bytes

def Op.uses : Op → List Bytes
  | .trackSessionUsage id _ _ _ _ => [id]
  | .setSessionLimit _ => []

def Traced.step (providers : List (Bytes × Rat)) (t : Traced) (op : Op) : Traced :=
  { state := Sessions.step providers t.state op, history := t.history ++ op.uses }

def ids (order : List Node) : List Bytes := order.map (·.id)

/-- What holds whatever the limits are: handles and ids are unique, the index holds the handles, and
the list is in the order of the last use. -/
structure Linked (order : List Node) (index : AList fun _ : Bytes => Nat) (history : List Bytes)
    (fresh : Nat) : Prop where
  handles : (order.map (·.handle)).Nodup
  below : ∀ n ∈ order, n.handle < fresh
  index : ∀ id handle, index.lookup id = some handle ↔ { handle, id } ∈ order
  recent : Recent (ids order) history

/-! ## Eviction -/

section Evict

variable {order : List Node} {index : AList fun _ : Bytes => Nat} {history : List Bytes}
  {fresh : Nat}

theorem Linked.mem_index_iff (h : Linked order index history fresh) (id : Bytes) :
    id ∈ index ↔ id ∈ ids order := by
  rw [← AList.lookup_isSome, Option.isSome_iff_exists, ids, List.mem_map]
  constructor
  · rintro ⟨handle, hlookup⟩
    exact ⟨_, (h.index id handle).mp hlookup, rfl⟩
  · rintro ⟨n, hn, rfl⟩
    exact ⟨n.handle, (h.index n.id n.handle).mpr hn⟩

theorem Linked.pop {victim : Node} {rest : List Node}
    (h : Linked (victim :: rest) index history fresh) :
    Linked rest (index.erase victim.id) history fresh := by
  have hids : (ids (victim :: rest)).Nodup := h.recent.nodup
  have hnot : victim.id ∉ ids rest := (List.nodup_cons.mp hids).1
  refine ⟨(List.nodup_cons.mp h.handles).2, fun n hn => h.below n (List.mem_cons_of_mem _ hn), ?_,
    h.recent.drop 1⟩
  intro id handle
  by_cases hid : id = victim.id
  · subst hid
    rw [AList.lookup_erase]
    simp only [reduceCtorEq, false_iff]
    intro hmem
    exact hnot (List.mem_map.mpr ⟨_, hmem, rfl⟩)
  · rw [AList.lookup_erase_ne hid, h.index, List.mem_cons]
    constructor
    · rintro (heq | hmem)
      · exact absurd (congrArg Node.id heq) hid
      · exact hmem
    · exact Or.inr

theorem enforceLimits_spec (limit : Nat) (usage : AList fun _ : Bytes => List SessionUsageRecord)
    (h : Linked order index history fresh) :
    (enforceLimits limit order index usage).1 = order.drop (order.length - limit) ∧
      Linked (enforceLimits limit order index usage).1 (enforceLimits limit order index usage).2.1
        history fresh ∧
      ∀ id, id ∈ (enforceLimits limit order index usage).2.2 ↔
        id ∈ usage ∧ id ∉ ids (order.take (order.length - limit)) := by
  induction order generalizing index usage with
  | nil =>
    rw [enforceLimits]
    refine ⟨by simp, h, ?_⟩
    simp [ids]
  | cons victim rest ih =>
    rw [enforceLimits]
    split
    -- The loop takes from the front, where the oldest session is.
    · rename_i hover
      obtain ⟨hdrop, hlinked, husage⟩ := ih (usage.erase victim.id) h.pop
      have hlength : (victim :: rest).length - limit = rest.length - limit + 1 := by
        rw [List.length_cons] at hover ⊢
        omega
      rw [hlength, List.drop_succ_cons, List.take_succ_cons]
      refine ⟨hdrop, hlinked, ?_⟩
      intro id
      rw [husage, AList.mem_erase]
      simp only [ids, List.map_cons, List.mem_cons]
      tauto
    · rename_i hunder
      have hzero : (victim :: rest).length - limit = 0 := by omega
      rw [hzero]
      refine ⟨rfl, h, ?_⟩
      simp [ids]

end Evict

/-! ## Use -/

section Use

variable {order : List Node} {index : AList fun _ : Bytes => Nat} {history : List Bytes}
  {fresh : Nat}

theorem Linked.push (h : Linked order index history fresh) (id : Bytes)
    (hnew : index.lookup id = none) :
    Linked (order ++ [{ handle := fresh, id }]) (index.insert id fresh) (history ++ [id])
      (fresh + 1) := by
  have hid : id ∉ ids order := by
    rw [← h.mem_index_iff, ← AList.lookup_isSome, hnew]
    exact Bool.false_ne_true
  refine ⟨?_, ?_, ?_, ?_⟩
  · rw [List.map_append, List.nodup_append]
    refine ⟨h.handles, by simp, ?_⟩
    intro handle hmem other hother heq
    obtain ⟨n, hn, rfl⟩ := List.mem_map.mp hmem
    have hlt := h.below n hn
    simp at hother
    omega
  · intro n hn
    rcases List.mem_append.mp hn with hn | hn
    · exact Nat.lt_succ_of_lt (h.below n hn)
    · rw [List.mem_singleton.mp hn]
      exact Nat.lt_succ_self _
  · intro other handle
    rw [List.mem_append, List.mem_singleton, Node.mk.injEq]
    by_cases hother : other = id
    · subst hother
      have hnot : { handle, id := other } ∉ order :=
        fun hmem => hid (List.mem_map.mpr ⟨_, hmem, rfl⟩)
      rw [AList.lookup_insert]
      simp [hnot, eq_comm]
    · rw [AList.lookup_insert_ne hother, h.index]
      simp [hother]
  · have htouch := h.recent.touch id
    -- A new id is not in the order, so there is nothing to move.
    have hsame : (ids order).filter (· ≠ id) = ids order := by
      rw [List.filter_eq_self]
      intro other hother
      rw [decide_eq_true_eq]
      rintro rfl
      exact hid hother
    rw [hsame] at htouch
    simpa [ids] using htouch

theorem Linked.handle_eq_iff (h : Linked order index history fresh) {n m : Node} (hn : n ∈ order)
    (hm : m ∈ order) : n.handle = m.handle ↔ n.id = m.id := by
  constructor
  · intro heq
    rw [List.inj_on_of_nodup_map h.handles hn hm heq]
  · intro heq
    rw [List.inj_on_of_nodup_map h.recent.nodup hn hm heq]

theorem Linked.moveToBack_eq (h : Linked order index history fresh) {node : Node}
    (hnode : node ∈ order) :
    moveToBack order node.handle = order.filter (·.id ≠ node.id) ++ [node] := by
  have hrest : order.filter (·.handle ≠ node.handle) = order.filter (·.id ≠ node.id) := by
    apply List.filter_congr
    intro n hn
    rw [decide_eq_decide, ne_eq, ne_eq, h.handle_eq_iff hn hnode]
  have hone : order.filter (·.handle = node.handle) = [node] := by
    have hnodup : (order.filter (·.handle = node.handle)).Nodup := h.handles.of_map.filter _
    have hall : ∀ n ∈ order.filter (·.handle = node.handle), n = node := by
      intro n hn
      rw [List.mem_filter, decide_eq_true_eq] at hn
      exact List.inj_on_of_nodup_map h.handles hn.1 hnode hn.2
    have hmem : node ∈ order.filter (·.handle = node.handle) := by simp [hnode]
    exact List.perm_singleton.mp
      ((List.perm_ext_iff_of_nodup hnodup (List.nodup_singleton node)).mpr fun n =>
      ⟨fun hn => List.mem_singleton.mpr (hall n hn), fun hn => List.mem_singleton.mp hn ▸ hmem⟩)
  rw [moveToBack, hrest, hone]

theorem moveToBack_perm (order : List Node) (handle : Nat) :
    (moveToBack order handle).Perm order := by
  unfold moveToBack
  have hsplit := List.filter_append_perm (fun n : Node => decide (n.handle = handle)) order
  refine List.Perm.trans List.perm_append_comm ?_
  simpa using hsplit

theorem Linked.toBack (h : Linked order index history fresh) {node : Node} (hnode : node ∈ order) :
    Linked (moveToBack order node.handle) index (history ++ [node.id]) fresh := by
  have hperm := moveToBack_perm order node.handle
  refine ⟨(hperm.map _).nodup_iff.mpr h.handles, fun n hn => h.below n (hperm.mem_iff.mp hn), ?_,
    ?_⟩
  · intro id handle
    rw [h.index, hperm.mem_iff]
  · have htouch := h.recent.touch node.id
    have hids : ids (moveToBack order node.handle) = (ids order).filter (· ≠ node.id) ++
        [node.id] := by
      rw [h.moveToBack_eq hnode, ids, ids, List.map_append, List.filter_map]
      rfl
    rw [hids]
    exact htouch

end Use

/-! ## Steps -/

def Traced.Linked (t : Traced) : Prop :=
  Sessions.Linked t.state.order t.state.index t.history t.state.fresh

/-- The recency list, the index and the usage map are about the same sessions, no more than the
limit, and those used last. -/
structure Consistent (t : Traced) : Prop where
  nodup : (ids t.state.order).Nodup
  index : ∀ id, id ∈ t.state.index ↔ id ∈ ids t.state.order
  usage : ∀ id, id ∈ t.state.usage ↔ id ∈ ids t.state.order
  bounded : (ids t.state.order).length ≤ t.state.limit
  recent : Recent (ids t.state.order) t.history

/-- A session is tracked under a limit that leaves room for it, or the limit leaves room for the
sessions that are there. -/
def Allowed (t : Traced) : Op → Prop
  | .trackSessionUsage _ _ _ _ _ => t.state.limit ≠ 0
  | .setSessionLimit limit => t.state.order.length ≤ limit

theorem consistent_iff {t : Traced} (h : t.Linked) :
    Consistent t ↔ (∀ id, id ∈ t.state.usage ↔ id ∈ ids t.state.order) ∧
      t.state.order.length ≤ t.state.limit := by
  constructor
  · intro hc
    exact ⟨hc.usage, by simpa [ids] using hc.bounded⟩
  · rintro ⟨husage, hbounded⟩
    exact ⟨h.recent.nodup, h.mem_index_iff, husage, by simpa [ids] using hbounded, h.recent⟩

theorem mem_usage_track (providers : List (Bytes × Rat)) (s : State) (id agentId model : Bytes)
    (inputTokens outputTokens : Int) (other : Bytes) :
    other ∈ (trackSessionUsage providers s id agentId model inputTokens outputTokens).usage ↔
      other = id ∨ other ∈ (touch s id).usage := AList.mem_insert _

theorem touch_linked (s : State) (history : List Bytes) (id : Bytes)
    (h : Linked s.order s.index history s.fresh) :
    Linked (touch s id).order (touch s id).index (history ++ [id]) (touch s id).fresh := by
  unfold touch
  cases hlookup : s.index.lookup id with
  | none => exact (enforceLimits_spec s.limit s.usage (h.push id hlookup)).2.1
  | some handle => exact h.toBack ((h.index id handle).mp hlookup)

theorem step_linked (providers : List (Bytes × Rat)) (t : Traced) (op : Op) (h : t.Linked) :
    (t.step providers op).Linked := by
  cases op with
  | trackSessionUsage id agentId model inputTokens outputTokens =>
    exact touch_linked t.state t.history id h
  | setSessionLimit limit =>
    change Linked t.state.order t.state.index (t.history ++ []) t.state.fresh
    rw [List.append_nil]
    exact h

theorem track_new_iff (s : State) (history : List Bytes) (id : Bytes)
    (h : Linked s.order s.index history s.fresh) (husage : ∀ other, other ∈ s.usage ↔
      other ∈ ids s.order) (hbounded : s.order.length ≤ s.limit)
    (hnew : s.index.lookup id = none) :
    ((∀ other, other = id ∨ other ∈ (touch s id).usage ↔ other ∈ ids (touch s id).order) ∧
      (touch s id).order.length ≤ s.limit) ↔ s.limit ≠ 0 := by
  obtain ⟨horder, -, hevicted⟩ := enforceLimits_spec s.limit s.usage (h.push id hnew)
  have htouch : touch s id = { s with
      order := (enforceLimits s.limit (s.order ++ [{ handle := s.fresh, id }])
        (s.index.insert id s.fresh) s.usage).1
      index := (enforceLimits s.limit (s.order ++ [{ handle := s.fresh, id }])
        (s.index.insert id s.fresh) s.usage).2.1
      usage := (enforceLimits s.limit (s.order ++ [{ handle := s.fresh, id }])
        (s.index.insert id s.fresh) s.usage).2.2
      fresh := s.fresh + 1 } := by rw [touch, hnew]
  rw [htouch]
  simp only [horder, hevicted, husage]
  obtain ⟨n, hn⟩ : ∃ n, n = s.order.length + 1 - s.limit := ⟨_, rfl⟩
  rw [List.length_append, List.length_singleton, ← hn]
  constructor
  -- With a limit of 0 the new session is evicted at once, but its record is written behind that.
  · rintro ⟨hsame, -⟩ hzero
    have hmem := (hsame id).mp (Or.inl rfl)
    rw [List.drop_eq_nil_of_le (by simp; omega)] at hmem
    exact absurd hmem List.not_mem_nil
  · intro hlimit
    have hle : n ≤ s.order.length := by omega
    rw [List.drop_append_of_le_length hle, List.take_append_of_le_length hle]
    refine ⟨?_, by simp; omega⟩
    intro other
    have hsplit : ids s.order = ids (s.order.take n) ++ ids (s.order.drop n) := by
      rw [ids, ids, ids, ← List.map_append, List.take_append_drop]
    have hdisjoint : other ∈ ids (s.order.drop n) → other ∉ ids (s.order.take n) := by
      intro hdrop htake
      have hids : (ids s.order).Nodup := h.recent.nodup
      rw [hsplit, List.nodup_append] at hids
      exact hids.2.2 other htake other hdrop rfl
    rw [hsplit]
    simp only [ids, List.map_append, List.map_cons, List.map_nil, List.mem_append,
      List.mem_singleton] at hdisjoint ⊢
    tauto

theorem track_known_iff (s : State) (history : List Bytes) (id : Bytes)
    (h : Linked s.order s.index history s.fresh) (husage : ∀ other, other ∈ s.usage ↔
      other ∈ ids s.order) (hbounded : s.order.length ≤ s.limit) (handle : Nat)
    (hknown : s.index.lookup id = some handle) :
    ((∀ other, other = id ∨ other ∈ (touch s id).usage ↔ other ∈ ids (touch s id).order) ∧
      (touch s id).order.length ≤ s.limit) ↔ s.limit ≠ 0 := by
  have hnode := (h.index id handle).mp hknown
  have htouch : touch s id = { s with order := moveToBack s.order handle } := by rw [touch, hknown]
  have hperm := moveToBack_perm s.order handle
  have hpos := List.length_pos_of_mem hnode
  rw [htouch]
  constructor
  · intro _
    omega
  · intro _
    refine ⟨?_, hperm.length_eq.trans_le hbounded⟩
    intro other
    have hmem : other ∈ ids (moveToBack s.order handle) ↔ other ∈ ids s.order :=
      (hperm.map _).mem_iff
    have hid : id ∈ ids s.order := List.mem_map.mpr ⟨_, hnode, rfl⟩
    simp only [husage, hmem]
    constructor
    · rintro (rfl | hother)
      · exact hid
      · exact hother
    · exact Or.inr

theorem touch_limit (s : State) (id : Bytes) : (touch s id).limit = s.limit := by
  unfold touch
  split <;> rfl

theorem step_consistent_iff (providers : List (Bytes × Rat)) (t : Traced) (op : Op) (h : t.Linked)
    (hc : Consistent t) : Consistent (t.step providers op) ↔ Allowed t op := by
  obtain ⟨husage, hbounded⟩ := (consistent_iff h).mp hc
  rw [consistent_iff (step_linked providers t op h)]
  cases op with
  | trackSessionUsage id agentId model inputTokens outputTokens =>
    have hkeys := mem_usage_track providers t.state id agentId model inputTokens outputTokens
    have hgoal : ((∀ other, other = id ∨ other ∈ (touch t.state id).usage ↔
        other ∈ ids (touch t.state id).order) ∧
        (touch t.state id).order.length ≤ t.state.limit) ↔ t.state.limit ≠ 0 := by
      cases hlookup : t.state.index.lookup id with
      | none => exact track_new_iff t.state t.history id h husage hbounded hlookup
      | some handle => exact track_known_iff t.state t.history id h husage hbounded handle hlookup
    change ((∀ other, other ∈
      (trackSessionUsage providers t.state id agentId model inputTokens outputTokens).usage ↔
      other ∈ ids (touch t.state id).order) ∧
      (touch t.state id).order.length ≤ (touch t.state id).limit) ↔ t.state.limit ≠ 0
    rw [touch_limit]
    simp only [hkeys]
    exact hgoal
  | setSessionLimit limit =>
    constructor
    · exact fun hnext => hnext.2
    · exact fun hallowed => ⟨husage, hallowed⟩

def begin : Traced := { state := start, history := [] }

/-- **The recency list.** It is consistent in every state of a run exactly when nothing is tracked
under a limit of 0, and the limit is never set below the number of sessions that are there. -/
theorem sessions_consistent_iff (providers : List (Bytes × Rat)) (ops : List Op) :
    Always (Traced.step providers) Consistent begin ops ↔
      Each (Traced.step providers) Allowed begin ops := by
  have hlinked : begin.Linked :=
    ⟨List.nodup_nil, by simp [begin, start], by simp [begin, start], List.nil_suffix⟩
  apply always_iff_each (fun t op (h : t.Linked) => step_linked providers t op h)
    (step_consistent_iff providers) ops begin hlinked
  rw [consistent_iff hlinked]
  exact ⟨fun id => by simp [begin, start, ids], Nat.zero_le _⟩

theorem lowered_limit_exceeded :
    ∃ t, t = [Op.trackSessionUsage (ascii "a") [] [] 1 1, .trackSessionUsage (ascii "b") [] [] 1 1,
        .setSessionLimit 1].foldl (Traced.step []) begin ∧
      ids t.state.order = [ascii "a", ascii "b"] ∧ t.state.limit = 1 ∧ ¬ Consistent t := by
  refine ⟨_, rfl, by decide +kernel, rfl, ?_⟩
  intro hc
  exact absurd hc.bounded (by decide +kernel)

end Euxis.Router.Sessions
