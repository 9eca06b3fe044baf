import Euxis.Json.Access
import Mathlib.Data.List.Forall2

/-!
# Prompt cache markers

Where `apply_anthropic_cache_control` puts its markers: on the last block of the last system message
and of the last user message. The messages are changed in place, so what a call leaves of them is
returned beside its outcome.
-/

namespace Euxis.Inference

open Json (isObject isString hasType)

def hasCacheControl (block : Json) : Bool :=
  block.isObject && (block.find (ascii "cache_control")).isSome

/-- The block that a string body stands for. -/
def textBlock (text : Bytes) : Json :=
  .object [(ascii "type", .str (ascii "text")), (ascii "text", .str text)]

def normaliseContentToArray (message : Json) : Json :=
  match message.find (ascii "content") with
  | none => message.set (ascii "content") (.arr [])
  | some (.arr _) => message
  | some (.str text) => message.set (ascii "content") (.arr [textBlock text])
  | some (.obj members) => message.set (ascii "content") (.arr [.obj members])
  | some _ => message.set (ascii "content") (.arr [])

def cacheMarker (ttl : Bytes) : Json :=
  .object [(ascii "type", .str (ascii "ephemeral")), (ascii "ttl", .str ttl)]

/-- The blocks with the last one marked, if it is an object without a marker. -/
def markedBlocks (ttl : Bytes) (blocks : List Json) : Option (List Json) :=
  match blocks.getLast? with
  | none => none
  | some last =>
    if !last.isObject then none
    else if hasCacheControl last then none
    else some (blocks.dropLast ++ [last.set (ascii "cache_control") (cacheMarker ttl)])

/-- The message, and whether a marker was added. -/
def markLastBlock (message : Json) (ttl : Bytes) : Json × Bool :=
  let message := normaliseContentToArray message
  match message.find (ascii "content") with
  | some (.arr blocks) =>
    match markedBlocks ttl blocks with
    | some marked => (message.set (ascii "content") (.arr marked), true)
    | none => (message, false)
  | _ => (message, false)

/-- The scan from the back, below an index. -/
def lastIndexBelow (items : List Json) (role : Bytes) : Nat → Except JsonError (Option Nat)
  | 0 => .ok none
  | i + 1 =>
    match items[i]? with
    | none => lastIndexBelow items role i
    | some m =>
      if m.isObject then
        m.valueStr (ascii "role") [] >>= fun r => if r = role then .ok (some i)
          else lastIndexBelow items role i
      else lastIndexBelow items role i

def lastIndexWithRole (messages : Json) (role : Bytes) : Except JsonError (Option Nat) :=
  match messages with
  | .arr items => lastIndexBelow items role items.length
  | _ => .ok none

/-- One of the two steps: the messages and how many markers were added. -/
def markLastWithRole (items : List Json) (role ttl : Bytes) : List Json × Except JsonError Nat :=
  match lastIndexWithRole (.arr items) role with
  | .error e => (items, .error e)
  | .ok none => (items, .ok 0)
  | .ok (some i) =>
    (items.modify i fun m => (markLastBlock m ttl).1,
      .ok (if items[i]?.any fun m => (markLastBlock m ttl).2 then 1 else 0))

def applyAnthropicCacheControl (messages : Json) (ttl : Bytes) : Json × Except JsonError Nat :=
  match messages with
  | .arr [] => (messages, .ok 0)
  | .arr items =>
    let (items, system) := markLastWithRole items (ascii "system") ttl
    match system with
    | .error e => (.arr items, .error e)
    | .ok added =>
      let (items, user) := markLastWithRole items (ascii "user") ttl
      (.arr items, user.map (added + ·))
  | _ => (messages, .ok 0)

/-! ## What a message says -/

/-- The content blocks of a message: a string body is one block of text, an object is one block, and
any other body holds none. -/
def contentBlocks (message : Json) : List Json :=
  match message.find (ascii "content") with
  | some (.arr blocks) => blocks
  | some (.str text) => [textBlock text]
  | some (.obj members) => [.obj members]
  | _ => []

def roleOf (message : Json) : Option Bytes := message.findStr (ascii "role")

/-- The block is the same, or an object that differs in its marker only. -/
def SameBut (block marked : Json) : Prop :=
  marked = block ∨ block.IsObject ∧ marked.IsObject ∧
    ∀ key, key ≠ ascii "cache_control" → marked.find key = block.find key

/-- The blocks that gained a marker, among blocks compared place by place. -/
def gained (before after : List Json) : Nat :=
  (before.zip after).countP fun p => !hasCacheControl p.1 && hasCacheControl p.2

/-- The same over all messages. -/
def gainedOverall (before after : List Json) : Nat :=
  (before.zipWith (fun m m' => gained (contentBlocks m) (contentBlocks m')) after).sum

/-- The place is that of the last message of the role. -/
def LastOfRole (items : List Json) (role : Bytes) (i : Nat) : Prop :=
  items[i]?.bind roleOf = some role ∧ ∀ j, i < j → items[j]?.bind roleOf ≠ some role

/-- Every message that is an object has a string as its role, or none. -/
def RolesTyped (items : List Json) : Prop :=
  ∀ m ∈ items, m.IsObject → hasType isString m (ascii "role") = true

/-! ## One message -/

section Message

variable {message : Json}

theorem normalise_isObject (h : message.IsObject) : (normaliseContentToArray message).IsObject := by
  unfold normaliseContentToArray
  split <;> first | exact h | exact Json.isObject_set _ _ _ h.settable

theorem normalise_content (h : message.IsObject) :
    (normaliseContentToArray message).find (ascii "content") =
      some (.arr (contentBlocks message)) := by
  unfold normaliseContentToArray contentBlocks
  split
  · rename_i hfind
    rw [Json.find_set _ _ _ h.settable, hfind]
  · rename_i hfind
    rw [hfind]
  · rename_i hfind
    rw [Json.find_set _ _ _ h.settable, hfind]
  · rename_i hfind
    rw [Json.find_set _ _ _ h.settable, hfind]
  · rename_i v harr hstr hobj hfind
    rw [Json.find_set _ _ _ h.settable, hfind]
    cases v with
    | arr items => exact absurd rfl (harr items)
    | str text => exact absurd rfl (hstr text)
    | obj members => exact absurd rfl (hobj members)
    | _ => rfl

theorem normalise_find (h : message.IsObject) {key : Bytes} (hne : key ≠ ascii "content") :
    (normaliseContentToArray message).find key = message.find key := by
  unfold normaliseContentToArray
  split <;> first | rfl | exact Json.find_set_ne _ _ _ _ h.settable hne

theorem sameBut_refl (block : Json) : SameBut block block := Or.inl rfl

theorem gained_refl (blocks : List Json) : gained blocks blocks = 0 := by
  rw [gained, List.countP_eq_zero]
  intro p hp
  obtain ⟨block, hblock⟩ := p
  have heq : block = hblock := by
    obtain ⟨i, h1, h2⟩ := List.mem_iff_getElem.mp hp
    rw [List.getElem_zip] at h2
    exact (Prod.mk.inj h2).1.symm.trans (Prod.mk.inj h2).2
  simp [heq]

theorem hasCacheControl_marked (ttl : Bytes) {block : Json} (h : block.IsObject) :
    hasCacheControl (block.set (ascii "cache_control") (cacheMarker ttl)) = true := by
  rw [hasCacheControl, (Json.isObject_iff _).mpr (Json.isObject_set _ _ _ h.settable),
    Json.find_set _ _ _ h.settable]
  rfl

theorem sameBut_marked (ttl : Bytes) {block : Json} (h : block.IsObject) :
    SameBut block (block.set (ascii "cache_control") (cacheMarker ttl)) :=
  Or.inr ⟨h, Json.isObject_set _ _ _ h.settable,
    fun _ hne => Json.find_set_ne _ _ _ _ h.settable hne⟩

/-- The last block is no object, or it has its marker. -/
def Closed (blocks : List Json) : Prop :=
  ∀ last, blocks.getLast? = some last → last.IsObject → hasCacheControl last = true

theorem markedBlocks_eq_none_iff (ttl : Bytes) (blocks : List Json) :
    markedBlocks ttl blocks = none ↔ Closed blocks := by
  unfold markedBlocks Closed
  cases blocks.getLast? with
  | none => simp
  | some last =>
    have hobj := Json.isObject_iff last
    by_cases h : last.IsObject
    · simp [hobj.mpr h, h]
    · simp [h, Bool.eq_false_iff.mpr (mt hobj.mp h)]

theorem markedBlocks_some {ttl : Bytes} {blocks marked : List Json}
    (h : markedBlocks ttl blocks = some marked) :
    List.Forall₂ SameBut blocks marked ∧ gained blocks marked = 1 ∧ Closed marked := by
  unfold markedBlocks at h
  split at h
  · cases h
  · rename_i last hlast
    split at h
    · cases h
    · rename_i hobj
      split at h
      · cases h
      · rename_i hfree
        have hobj' : last.IsObject := (Json.isObject_iff last).mp (by simpa using hobj)
        obtain ⟨front, rfl⟩ : ∃ front, blocks = front ++ [last] := by
          obtain ⟨front, hfront⟩ := List.getLast?_eq_some_iff.mp hlast
          exact ⟨front, hfront⟩
        rw [List.dropLast_concat] at h
        obtain rfl := Option.some.inj h
        -- Only the last block changes, and it had no marker before.
        refine ⟨?_, ?_, ?_⟩
        · exact List.rel_append (List.forall₂_same.mpr fun b _ => sameBut_refl b)
            (List.Forall₂.cons (sameBut_marked ttl hobj') List.Forall₂.nil)
        · have hfront := gained_refl front
          rw [gained] at hfront ⊢
          rw [List.zip_append rfl, List.countP_append, hfront]
          simp [hfree, hasCacheControl_marked ttl hobj']
        · intro b hb _
          rw [List.getLast?_concat] at hb
          rw [← Option.some.inj hb]
          exact hasCacheControl_marked ttl hobj'

/-- What a call leaves of a message: only its content differs, and that in markers only. -/
structure Marking (message marked : Json) : Prop where
  isObject : marked.IsObject
  find : ∀ key, key ≠ ascii "content" → marked.find key = message.find key
  blocks : List.Forall₂ SameBut (contentBlocks message) (contentBlocks marked)
  content : marked.find (ascii "content") = some (.arr (contentBlocks marked))
  closed : Closed (contentBlocks marked)

theorem contentBlocks_of_find {blocks : List Json}
    (h : message.find (ascii "content") = some (.arr blocks)) : contentBlocks message = blocks := by
  rw [contentBlocks, h]

theorem markLastBlock_eq (ttl : Bytes) (h : message.IsObject) :
    markLastBlock message ttl =
      match markedBlocks ttl (contentBlocks message) with
      | some marked => ((normaliseContentToArray message).set (ascii "content") (.arr marked), true)
      | none => (normaliseContentToArray message, false) := by
  rw [markLastBlock, normalise_content h]

theorem markLastBlock_marking (ttl : Bytes) (h : message.IsObject) :
    Marking message (markLastBlock message ttl).1 ∧
      gained (contentBlocks message) (contentBlocks (markLastBlock message ttl).1) =
        if (markLastBlock message ttl).2 then 1 else 0 := by
  have hobj := normalise_isObject h
  rw [markLastBlock_eq ttl h]
  cases hmarked : markedBlocks ttl (contentBlocks message) with
  | some marked =>
    obtain ⟨hsame, hgained, hclosed⟩ := markedBlocks_some hmarked
    have hfind := Json.find_set (normaliseContentToArray message) (ascii "content") (.arr marked)
      hobj.settable
    have hblocks := contentBlocks_of_find hfind
    refine ⟨⟨Json.isObject_set _ _ _ hobj.settable, ?_, ?_, ?_, ?_⟩, ?_⟩
    · intro key hne
      rw [Json.find_set_ne _ _ _ _ hobj.settable hne, normalise_find h hne]
    · rw [hblocks]
      exact hsame
    · rw [hblocks]
      exact hfind
    · rw [hblocks]
      exact hclosed
    · rw [hblocks]
      exact hgained
  -- A message that takes no marker is still normalised: a string body becomes a list.
  | none =>
    have hfind := normalise_content h
    have hblocks := contentBlocks_of_find hfind
    refine ⟨⟨hobj, fun key hne => normalise_find h hne, ?_, ?_, ?_⟩, ?_⟩
    · rw [hblocks]
      exact List.forall₂_same.mpr fun b _ => sameBut_refl b
    · rw [hblocks]
      exact hfind
    · rw [hblocks]
      exact (markedBlocks_eq_none_iff ttl _).mp hmarked
    · rw [hblocks]
      exact gained_refl _

theorem markLastBlock_marked (ttl : Bytes) {before : Json} (h : Marking before message) :
    markLastBlock message ttl = (message, false) := by
  have hnormal : normaliseContentToArray message = message := by
    rw [normaliseContentToArray, h.content]
  rw [markLastBlock_eq ttl h.isObject, (markedBlocks_eq_none_iff ttl _).mpr h.closed, hnormal]

end Message

/-! ## The last message of a role -/

section Search

variable {items : List Json} {role : Bytes}

theorem roleOf_isObject {m : Json} {r : Bytes} (h : roleOf m = some r) : m.IsObject := by
  cases m with
  | obj members => trivial
  | _ => cases h

theorem roleOf_getD_iff (hrole : role ≠ []) (m : Json) :
    (roleOf m).getD [] = role ↔ roleOf m = some role := by
  cases roleOf m with
  | none => simp [hrole.symm]
  | some r => simp

theorem lastIndexBelow_succ (htyped : RolesTyped items) (hrole : role ≠ []) (n : Nat) :
    lastIndexBelow items role (n + 1) =
      if items[n]?.bind roleOf = some role then .ok (some n) else lastIndexBelow items role n := by
  rw [lastIndexBelow]
  cases hitem : items[n]? with
  | none => simp
  | some m =>
    by_cases hobj : m.IsObject
    · have hvalue := Json.valueStr_findStr hobj (htyped m (List.mem_of_getElem? hitem) hobj) []
      simp only [(Json.isObject_iff m).mpr hobj, if_true, hvalue, Outcome.ok_bind, Option.bind_some]
      exact if_congr (roleOf_getD_iff hrole m) rfl rfl
    · have hnot : m.isObject = false := Bool.eq_false_iff.mpr (mt (Json.isObject_iff m).mp hobj)
      have hother : roleOf m ≠ some role := fun h => hobj (roleOf_isObject h)
      simp [hnot, hother]

theorem lastIndexBelow_spec (htyped : RolesTyped items) (hrole : role ≠ []) (n : Nat) :
    ∃ found, lastIndexBelow items role n = .ok found ∧
      (∀ i, found = some i → items[i]?.bind roleOf = some role) ∧
      ∀ j, j < n → (∀ i, found = some i → i < j) → items[j]?.bind roleOf ≠ some role := by
  induction n with
  | zero => exact ⟨none, rfl, nofun, fun j hj => absurd hj (Nat.not_lt_zero j)⟩
  | succ n ih =>
    obtain ⟨found, hfound, hat, habove⟩ := ih
    rw [lastIndexBelow_succ htyped hrole]
    by_cases hn : items[n]?.bind roleOf = some role
    · rw [if_pos hn]
      refine ⟨some n, rfl, ?_, ?_⟩
      · intro i hi
        obtain rfl := Option.some.inj hi
        exact hn
      · intro j hj hall
        have := hall n rfl
        omega
    · rw [if_neg hn]
      refine ⟨found, hfound, hat, ?_⟩
      intro j hj hall
      rcases Nat.lt_succ_iff_lt_or_eq.mp hj with hlt | rfl
      · exact habove j hlt hall
      · exact hn

theorem lastIndexWithRole_spec (htyped : RolesTyped items) (hrole : role ≠ []) :
    ∃ found, lastIndexWithRole (.arr items) role = .ok found ∧ ∀ i, found = some i ↔
      LastOfRole items role i := by
  obtain ⟨found, hfound, hat, habove⟩ := lastIndexBelow_spec htyped hrole items.length
  refine ⟨found, hfound, ?_⟩
  have hbeyond : ∀ j, (∀ i, found = some i → i < j) → items[j]?.bind roleOf ≠ some role := by
    intro j hall
    by_cases hj : j < items.length
    · exact habove j hj hall
    · rw [List.getElem?_eq_none (Nat.le_of_not_lt hj)]
      simp
  intro i
  constructor
  · intro hi
    refine ⟨hat i hi, fun j hj => hbeyond j ?_⟩
    intro k hk
    rw [hi] at hk
    rw [← Option.some.inj hk]
    exact hj
  · rintro ⟨hi, hlast⟩
    cases found with
    | none => exact absurd hi (hbeyond i nofun)
    | some k =>
      -- Two last places of one role are the same place.
      rcases Nat.lt_trichotomy k i with hlt | heq | hgt
      · refine absurd hi (hbeyond i ?_)
        intro k' hk'
        rw [← Option.some.inj hk']
        exact hlt
      · rw [heq]
      · exact absurd (hat k rfl) (hlast k hgt)

theorem lastOfRole_congr {items' : List Json}
    (h : ∀ i : Nat, items'[i]?.bind roleOf = items[i]?.bind roleOf) (i : Nat) :
    LastOfRole items' role i ↔ LastOfRole items role i := by
  simp only [LastOfRole, h]

end Search

/-! ## All messages -/

section Messages

variable {items : List Json} {role ttl : Bytes}

/-- One step: the last message of the role is marked, if there is one, and nothing else is
changed. -/
structure Step (role : Bytes) (items after : List Json) (added : Nat) : Prop where
  length : after.length = items.length
  others : ∀ i, ¬ LastOfRole items role i → after[i]? = items[i]?
  marks : ∀ i, LastOfRole items role i → ∃ m m', items[i]? = some m ∧ after[i]? = some m' ∧
    Marking m m'
  added_eq : added = gainedOverall items after

theorem gainedOverall_refl (items : List Json) : gainedOverall items items = 0 := by
  induction items with
  | nil => rfl
  | cons m rest ih =>
    rw [gainedOverall, List.zipWith_cons_cons, List.sum_cons, gained_refl, Nat.zero_add]
    exact ih

theorem gainedOverall_modify (f : Json → Json) (i : Nat) (m : Json) (h : items[i]? = some m) :
    gainedOverall items (items.modify i f) = gained (contentBlocks m) (contentBlocks (f m)) := by
  induction items generalizing i with
  | nil => cases h
  | cons m' rest ih =>
    cases i with
    | zero =>
      obtain rfl := Option.some.inj h
      rw [List.modify_zero_cons, gainedOverall, List.zipWith_cons_cons, List.sum_cons]
      have hrest := gainedOverall_refl rest
      rw [gainedOverall] at hrest
      rw [hrest, Nat.add_zero]
    | succ i =>
      rw [List.modify_succ_cons, gainedOverall, List.zipWith_cons_cons, List.sum_cons, gained_refl,
        Nat.zero_add]
      exact ih i h

theorem gainedOverall_trans (first second third : List Json) (h1 : second.length = first.length)
    (h2 : third.length = second.length)
    (h : ∀ i : Nat, second[i]? = first[i]? ∨ third[i]? = second[i]?) :
    gainedOverall first third = gainedOverall first second + gainedOverall second third := by
  induction first generalizing second third with
  | nil =>
    obtain rfl := List.length_eq_zero_iff.mp h1
    obtain rfl := List.length_eq_zero_iff.mp h2
    rfl
  | cons a first ih =>
    obtain ⟨b, second, rfl⟩ := List.exists_cons_of_length_eq_add_one h1
    obtain ⟨c, third, rfl⟩ := List.exists_cons_of_length_eq_add_one h2
    have hrest := ih second third (by simpa using h1) (by simpa using h2)
      fun i => by simpa using h (i + 1)
    simp only [gainedOverall, List.zipWith_cons_cons, List.sum_cons] at hrest ⊢
    rw [hrest]
    rcases h 0 with h0 | h0
    · obtain rfl := Option.some.inj h0
      rw [gained_refl]
      omega
    · obtain rfl := Option.some.inj h0
      rw [gained_refl]
      omega

theorem markLastWithRole_step (role ttl : Bytes) (htyped : RolesTyped items) (hrole : role ≠ []) :
    ∃ after added, markLastWithRole items role ttl = (after, .ok added) ∧
      Step role items after added := by
  obtain ⟨found, hfound, hiff⟩ := lastIndexWithRole_spec htyped hrole
  rw [markLastWithRole, hfound]
  cases found with
  | none =>
    refine ⟨items, 0, rfl, rfl, fun _ _ => rfl, ?_, (gainedOverall_refl items).symm⟩
    intro i hi
    exact absurd ((hiff i).mpr hi) nofun
  | some i =>
    -- Only the message at `i` is written, and it is the last one of its role.
    have hlast := (hiff i).mp rfl
    obtain ⟨m, hm, hrm⟩ := Option.bind_eq_some_iff.mp hlast.1
    obtain ⟨hmarking, hgained⟩ := markLastBlock_marking ttl (roleOf_isObject hrm)
    refine ⟨_, _, rfl, ?_, ?_, ?_, ?_⟩
    · exact List.length_modify ..
    · intro j hj
      have hne : i ≠ j := fun h => hj (h ▸ hlast)
      exact List.getElem?_modify_ne _ _ hne
    · intro j hj
      obtain rfl : i = j := Option.some.inj ((hiff j).mpr hj)
      refine ⟨m, _, hm, ?_, hmarking⟩
      rw [List.getElem?_modify_eq, hm]
      rfl
    · rw [gainedOverall_modify _ i m hm, hgained, hm]
      rfl

theorem Step.marking_or_eq {after : List Json} {added : Nat} (h : Step role items after added)
    (i : Nat) :
    after[i]? = items[i]? ∨ ∃ m m', items[i]? = some m ∧ after[i]? = some m' ∧ Marking m m' := by
  by_cases hi : LastOfRole items role i
  · exact Or.inr (h.marks i hi)
  · exact Or.inl (h.others i hi)

theorem Step.marking_of_some {after : List Json} {added : Nat} (h : Step role items after added)
    {i : Nat} {m m' : Json} (hm : items[i]? = some m) (hm' : after[i]? = some m') :
    m' = m ∨ Marking m m' := by
  rcases h.marking_or_eq i with heq | ⟨a, b, ha, hb, hmarking⟩
  · exact Or.inl (Option.some.inj (by rw [← hm', heq, hm]))
  · obtain rfl := Option.some.inj (ha.symm.trans hm)
    obtain rfl := Option.some.inj (hb.symm.trans hm')
    exact Or.inr hmarking

theorem Marking.roleOf_eq {m m' : Json} (h : Marking m m') : roleOf m' = roleOf m := by
  unfold roleOf Json.findStr
  rw [h.find (ascii "role") (by decide)]

theorem Step.roles {after : List Json} {added : Nat} (h : Step role items after added) (i : Nat) :
    after[i]?.bind roleOf = items[i]?.bind roleOf := by
  rcases h.marking_or_eq i with heq | ⟨m, m', hm, hm', hmarking⟩
  · rw [heq]
  · rw [hm, hm']
    exact hmarking.roleOf_eq

theorem Step.typed {after : List Json} {added : Nat} (h : Step role items after added)
    (htyped : RolesTyped items) : RolesTyped after := by
  intro m' hm' hobj
  obtain ⟨i, hi⟩ := List.mem_iff_getElem?.mp hm'
  rcases h.marking_or_eq i with heq | ⟨m, m'', hm, hmarked, hmarking⟩
  · exact htyped m' (List.mem_of_getElem? (heq ▸ hi)) hobj
  · obtain rfl := Option.some.inj (hmarked.symm.trans hi)
    rw [hasType, hmarking.find (ascii "role") (by decide)]
    by_cases hm' : m.IsObject
    · exact htyped m (List.mem_of_getElem? hm) hm'
    · cases m with
      | obj members => exact absurd trivial hm'
      | _ => rfl

theorem markLastWithRole_again (ttl : Bytes) (htyped : RolesTyped items) (hrole : role ≠ [])
    (h : ∀ i, LastOfRole items role i → ∃ m m', items[i]? = some m' ∧ Marking m m') :
    markLastWithRole items role ttl = (items, .ok 0) := by
  obtain ⟨found, hfound, hiff⟩ := lastIndexWithRole_spec htyped hrole
  rw [markLastWithRole, hfound]
  cases found with
  | none => rfl
  | some i =>
    obtain ⟨m, m', hm', hmarking⟩ := h i ((hiff i).mp rfl)
    have hsame := markLastBlock_marked ttl hmarking
    have hmodify : items.modify i (fun m => (markLastBlock m ttl).1) = items := by
      apply List.ext_getElem?
      intro j
      by_cases hj : i = j
      · subst hj
        rw [List.getElem?_modify_eq, hm', Option.map_eq_map, Option.map_some, hsame]
      · exact List.getElem?_modify_ne _ _ hj
    simp only [hmodify, hm', Option.any_some, hsame]
    rfl

theorem applyAnthropicCacheControl_eq (ttl : Bytes) (items : List Json) (after final : List Json)
    (system user : Nat) (h1 : markLastWithRole items (ascii "system") ttl = (after, .ok system))
    (h2 : markLastWithRole after (ascii "user") ttl = (final, .ok user)) :
    applyAnthropicCacheControl (.arr items) ttl = (.arr final, .ok (system + user)) := by
  cases items with
  | nil =>
    -- an empty array is returned at once, which is what the two steps do
    obtain ⟨rfl, hs⟩ := Prod.mk.inj h1
    obtain ⟨rfl, hu⟩ := Prod.mk.inj h2
    obtain rfl := Except.ok.inj hs
    obtain rfl := Except.ok.inj hu
    rfl
  | cons m rest =>
    rw [applyAnthropicCacheControl]
    · simp only [h1, h2, Except.map]
    · exact nofun

/-- Marking a second time changes nothing, and the first time changes the last system and the last
user message only, and in them markers only. -/
theorem cache_control_idempotent_and_local (items : List Json) (ttl ttl' : Bytes)
    (h : RolesTyped items) :
    ∃ marked added, applyAnthropicCacheControl (.arr items) ttl = (.arr marked, .ok added) ∧
      applyAnthropicCacheControl (.arr marked) ttl' = (.arr marked, .ok 0) ∧
      marked.length = items.length ∧
      (∀ i, ¬ LastOfRole items (ascii "system") i → ¬ LastOfRole items (ascii "user") i →
        marked[i]? = items[i]?) ∧
      (∀ (i : Nat) m m', items[i]? = some m → marked[i]? = some m' →
        (∀ key, key ≠ ascii "content" → m'.find key = m.find key) ∧
          List.Forall₂ SameBut (contentBlocks m) (contentBlocks m')) ∧
      added = gainedOverall items marked := by
  obtain ⟨after, system, hsystem, step1⟩ := markLastWithRole_step (ascii "system") ttl h (by decide)
  obtain ⟨marked, user, huser, step2⟩ :=
    markLastWithRole_step (ascii "user") ttl (step1.typed h) (by decide)
  -- the last system message and the last user message are different ones
  have hdiffer : ∀ i, LastOfRole items (ascii "system") i →
      ¬ LastOfRole after (ascii "user") i := by
    intro i hi hu
    have hroles := (step1.roles i).symm.trans hu.1
    rw [hi.1] at hroles
    exact absurd (Option.some.inj hroles) (by decide)
  have huser_iff : ∀ i, LastOfRole after (ascii "user") i ↔ LastOfRole items (ascii "user") i :=
    lastOfRole_congr step1.roles
  have hone : ∀ i : Nat, after[i]? = items[i]? ∨ marked[i]? = after[i]? := by
    intro i
    by_cases hi : LastOfRole items (ascii "system") i
    · exact Or.inr (step2.others i (hdiffer i hi))
    · exact Or.inl (step1.others i hi)
  refine ⟨marked, system + user,
    applyAnthropicCacheControl_eq ttl items after marked system user hsystem huser, ?_,
    step2.length.trans step1.length, ?_, ?_, ?_⟩
  · have htyped := step2.typed (step1.typed h)
    refine applyAnthropicCacheControl_eq ttl' marked marked marked 0 0 ?_ ?_
    · refine markLastWithRole_again ttl' htyped (by decide) fun i hi => ?_
      have hi' := (lastOfRole_congr step1.roles i).mp ((lastOfRole_congr step2.roles i).mp hi)
      obtain ⟨m, m', _, hm', hmarking⟩ := step1.marks i hi'
      exact ⟨m, m', (step2.others i (hdiffer i hi')).trans hm', hmarking⟩
    · refine markLastWithRole_again ttl' htyped (by decide) fun i hi => ?_
      obtain ⟨m, m', _, hm', hmarking⟩ := step2.marks i ((lastOfRole_congr step2.roles i).mp hi)
      exact ⟨m, m', hm', hmarking⟩
  · intro i hs hu
    rw [step2.others i (mt (huser_iff i).mp hu), step1.others i hs]
  · intro i m m' hm hm'
    have hpair : m' = m ∨ Marking m m' := by
      rcases hone i with heq | heq
      · exact step2.marking_of_some (heq.trans hm) hm'
      · exact step1.marking_of_some hm (heq.symm.trans hm')
    rcases hpair with rfl | hmarking
    · exact ⟨fun _ _ => rfl, List.forall₂_same.mpr fun b _ => sameBut_refl b⟩
    · exact ⟨hmarking.find, hmarking.blocks⟩
  · rw [gainedOverall_trans items after marked step1.length step2.length hone, step1.added_eq,
      step2.added_eq]

theorem cache_control_system_and_user :
    ∃ marked added, applyAnthropicCacheControl (.arr
        [.object [(ascii "role", .str (ascii "system")), (ascii "content", .str (ascii "S"))],
          .object [(ascii "role", .str (ascii "user")),
            (ascii "content", .arr [textBlock (ascii "U")])]])
        (ascii "5m") = (.arr marked, .ok added) ∧ added = 2 := by
  have htyped : RolesTyped
      [.object [(ascii "role", .str (ascii "system")), (ascii "content", .str (ascii "S"))],
        .object [(ascii "role", .str (ascii "user")),
          (ascii "content", .arr [textBlock (ascii "U")])]] := by
    intro m hm _
    simp only [List.mem_cons, List.not_mem_nil, or_false] at hm
    rcases hm with rfl | rfl <;> rfl
  obtain ⟨marked, added, happly, _, _, _, _, hadded⟩ :=
    cache_control_idempotent_and_local _ (ascii "5m") (ascii "1h") htyped
  refine ⟨marked, added, happly, ?_⟩
  obtain rfl := Json.arr.inj (Prod.mk.inj happly).1
  rw [hadded]
  rfl

end Messages

end Euxis.Inference
