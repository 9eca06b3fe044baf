import Euxis.Inference.Dispatch
import Euxis.Merge

/-!
# Calls whose fragments are interleaved

The consumer joins the partial deltas of one `tool_call_id` in their order. A provider that names a
call by its index gives the id once, when the call begins.
-/

namespace Euxis.Inference

/-! ## Deltas by id -/

/-- Id and text of the partial tool calls. -/
def partials (deltas : List ProviderDelta) : List (Bytes × Bytes) :=
  (deltas.filter (·.kind = .toolCallPartial)).map fun d => (d.toolCallId, d.text)

def groups (deltas : List ProviderDelta) : List (Bytes × Bytes) := Merge.groups (partials deltas)

theorem partials_append (ds ds' : List ProviderDelta) :
    partials (ds ++ ds') = partials ds ++ partials ds' := by
  rw [partials, List.filter_append, List.map_append]
  rfl

/-! ## Calls by index -/

/-- What an event tells of the calls. -/
inductive Move where
  | opens (index : Nat) (id : Bytes)
  | argument (index : Nat) (fragment : Bytes)
  deriving DecidableEq, Repr

def Move.fragmentOf (index : Nat) : Move → Option Bytes
  | .opens _ _ => none
  | .argument i fragment => if i = index then some fragment else none

structure IndexedCall where
  index : Nat
  id : Bytes
  arguments : Bytes
  deriving DecidableEq, Repr

/-- No argument comes before its call is opened. -/
def startedIn : List Nat → List Move → Bool
  | _, [] => true
  | known, .opens index _ :: rest => startedIn (index :: known) rest
  | known, .argument index _ :: rest => known.contains index && startedIn known rest

/-- The moves of a stream that carries the calls, in any interleaving of their fragments. -/
structure Carries (moves : List Move) (calls : List IndexedCall) : Prop where
  own_index : (calls.map (·.index)).Nodup
  own_id : (calls.map (·.id)).Nodup
  opened : ∀ index id, .opens index id ∈ moves → ∃ c ∈ calls, c.index = index ∧ c.id = id
  started : startedIn [] moves = true
  fragments : ∀ c ∈ calls, moves.filterMap (Move.fragmentOf c.index) ≠ [] ∧
    (moves.filterMap (Move.fragmentOf c.index)).flatten = c.arguments

/-- What the consumer gets, with the ids that the moves have told so far. -/
def play : (Nat → Bytes) → List Move → List (Bytes × Bytes)
  | _, [] => []
  | ids, .opens index id :: rest => play (Function.update ids index id) rest
  | ids, .argument index fragment :: rest => (ids index, fragment) :: play ids rest

def Move.labelled (label : Nat → Bytes) : Move → Option (Bytes × Bytes)
  | .opens _ _ => none
  | .argument index fragment => some (label index, fragment)

theorem play_eq (label : Nat → Bytes) (moves : List Move) (known : List Nat) (ids : Nat → Bytes)
    (hids : ∀ i ∈ known, ids i = label i) (hopened : ∀ i id, .opens i id ∈ moves → label i = id)
    (hstarted : startedIn known moves = true) :
    play ids moves = moves.filterMap (Move.labelled label) := by
  induction moves generalizing known ids with
  | nil => rfl
  | cons m rest ih =>
    have hrest : ∀ i id, .opens i id ∈ rest → label i = id :=
      fun i id h => hopened i id (List.mem_cons_of_mem _ h)
    cases m with
    | opens index id =>
      have hids' : ∀ i ∈ index :: known, Function.update ids index id i = label i := by
        intro i hi
        by_cases heq : i = index
        · subst heq
          rw [Function.update_self]
          exact (hopened i id List.mem_cons_self).symm
        · rw [Function.update_of_ne heq]
          exact hids i (List.mem_of_ne_of_mem heq hi)
      rw [play, ih (index :: known) _ hids' hrest hstarted]
      rfl
    | argument index fragment =>
      obtain ⟨hknown, hmore⟩ := (Bool.and_eq_true _ _).mp hstarted
      rw [play, ih known ids hids hrest hmore, hids index (List.contains_iff_mem.mp hknown)]
      rfl

theorem startedIn_argument (moves : List Move) (known : List Nat)
    (hstarted : startedIn known moves = true) :
    ∀ i fragment, .argument i fragment ∈ moves → i ∈ known ∨ ∃ id, .opens i id ∈ moves := by
  induction moves generalizing known with
  | nil => simp
  | cons m rest ih =>
    intro i fragment hmem
    cases m with
    | opens index id =>
      have hin := List.mem_of_ne_of_mem (by simp) hmem
      rcases ih (index :: known) hstarted i fragment hin with hknown | ⟨id', hid⟩
      · rcases List.mem_cons.mp hknown with rfl | hold
        · exact Or.inr ⟨id, List.mem_cons_self⟩
        · exact Or.inl hold
      · exact Or.inr ⟨id', List.mem_cons_of_mem _ hid⟩
    | argument index fragment' =>
      obtain ⟨hknown, hmore⟩ := (Bool.and_eq_true _ _).mp hstarted
      rcases List.mem_cons.mp hmem with heq | hin
      · cases heq
        exact Or.inl (List.contains_iff_mem.mp hknown)
      · rcases ih known hmore i fragment hin with hold | ⟨id', hid⟩
        · exact Or.inl hold
        · exact Or.inr ⟨id', List.mem_cons_of_mem _ hid⟩

section Carried

variable {moves : List Move} {calls : List IndexedCall}

/-- The id of the call of an index. -/
def labelOf (calls : List IndexedCall) (index : Nat) : Bytes :=
  ((calls.find? (·.index = index)).map (·.id)).getD []

theorem Carries.labelOf_call (h : Carries moves calls) (c : IndexedCall) (hc : c ∈ calls) :
    labelOf calls c.index = c.id := by
  have hsome : (calls.find? (·.index = c.index)).isSome = true := by
    rw [List.find?_isSome]
    exact ⟨c, hc, decide_eq_true rfl⟩
  obtain ⟨c', hc'⟩ := Option.isSome_iff_exists.mp hsome
  have hindex : c'.index = c.index := by simpa using List.find?_some hc'
  have heq : c' = c :=
    List.inj_on_of_nodup_map h.own_index (List.mem_of_find?_eq_some hc') hc hindex
  rw [labelOf, hc', heq]
  rfl

theorem Carries.exists_call (h : Carries moves calls) {index : Nat} {fragment : Bytes}
    (hmem : .argument index fragment ∈ moves) : ∃ c ∈ calls, c.index = index := by
  rcases startedIn_argument moves [] h.started index fragment hmem with hnil | ⟨id, hid⟩
  · exact absurd hnil List.not_mem_nil
  · obtain ⟨c, hc, hindex, _⟩ := h.opened index id hid
    exact ⟨c, hc, hindex⟩

theorem Carries.pieces_of_call (h : Carries moves calls) (c : IndexedCall) (hc : c ∈ calls) :
    ((moves.filterMap (Move.labelled (labelOf calls))).filter (·.1 = c.id)).flatMap (·.2) =
      (moves.filterMap (Move.fragmentOf c.index)).flatten := by
  rw [List.flatMap_def, List.filter_filterMap, List.map_filterMap]
  congr 1
  apply List.filterMap_congr
  intro m hm
  cases m with
  | opens index id => rfl
  | argument index fragment =>
    obtain ⟨c', hc', rfl⟩ := h.exists_call hm
    have hsame : c'.id = c.id ↔ c'.index = c.index := by
      constructor
      · intro hid
        rw [List.inj_on_of_nodup_map h.own_id hc' hc hid]
      · intro hindex
        rw [List.inj_on_of_nodup_map h.own_index hc' hc hindex]
    simp only [Move.labelled, Move.fragmentOf, h.labelOf_call c' hc', Option.filter_some,
      decide_eq_true_eq, hsame]
    split <;> rfl

/-- **Calls by index.** The groups are the calls, each with its id and its arguments. -/
theorem Carries.groups_perm (h : Carries moves calls) (ids : Nat → Bytes) :
    (Merge.groups (play ids moves)).Perm (calls.map fun c => (c.id, c.arguments)) := by
  have hopened : ∀ i id, .opens i id ∈ moves → labelOf calls i = id := by
    intro i id hmem
    obtain ⟨c, hc, rfl, rfl⟩ := h.opened i id hmem
    exact h.labelOf_call c hc
  rw [play_eq (labelOf calls) moves [] ids (by simp) hopened h.started]
  apply Merge.groups_perm _ calls (·.id) (·.arguments) h.own_id
  · intro k
    simp only [List.mem_map, List.mem_filterMap]
    constructor
    · rintro ⟨piece, ⟨m, hm, hpiece⟩, rfl⟩
      cases m with
      | opens index id => cases hpiece
      | argument index fragment =>
        obtain ⟨c, hc, rfl⟩ := h.exists_call hm
        obtain rfl := Option.some.inj hpiece
        exact ⟨c, hc, (h.labelOf_call c hc).symm⟩
    · rintro ⟨c, hc, rfl⟩
      -- A call without a fragment would have no group, so each has one at least.
      obtain ⟨fragment, hfragment⟩ := List.exists_mem_of_ne_nil _ (h.fragments c hc).1
      obtain ⟨m, hm, hof⟩ := List.mem_filterMap.mp hfragment
      cases m with
      | opens index id => cases hof
      | argument index text =>
        simp only [Move.fragmentOf, Option.ite_none_right_eq_some] at hof
        obtain ⟨rfl, _⟩ := hof
        exact ⟨_, ⟨_, hm, rfl⟩, h.labelOf_call c hc⟩
  · intro c hc
    rw [h.pieces_of_call c hc, (h.fragments c hc).2]

end Carried

/-! ## A run -/

/-- The deltas are those of the moves, and lead from the one table of ids to the other. -/
def Follows (ids ids' : Nat → Bytes) (ds : List ProviderDelta) (moves : List Move) : Prop :=
  ∀ rest, play ids (moves ++ rest) = partials ds ++ play ids' rest

theorem Follows.silent (ids : Nat → Bytes) (ds : List ProviderDelta) (h : partials ds = []) :
    Follows ids ids ds [] := by
  intro rest
  rw [h]
  rfl

theorem Follows.trans {ids ids' ids'' : Nat → Bytes} {ds ds' : List ProviderDelta}
    {moves moves' : List Move} (h : Follows ids ids' ds moves)
    (h' : Follows ids' ids'' ds' moves') : Follows ids ids'' (ds ++ ds') (moves ++ moves') := by
  intro rest
  rw [List.append_assoc, h, h', partials_append, List.append_assoc]

theorem Follows.argument (ids : Nat → Bytes) (index : Nat) (d : ProviderDelta)
    (hkind : d.kind = .toolCallPartial) (hid : d.toolCallId = ids index) :
    Follows ids ids [d] [.argument index d.text] := by
  have hpartials : partials [d] = [(ids index, d.text)] := by simp [partials, hkind, hid]
  intro rest
  rw [hpartials]
  rfl

theorem runEvents_follows {σ : Type} {dispatch : Bytes → σ → Except Fault (List ProviderDelta × σ)}
    (ids : σ → Nat → Bytes) (tells : Bytes → List Move → Prop)
    (hstep : ∀ payload moves ctx, tells payload moves →
      ∃ ds ctx', dispatch payload ctx = .ok (ds, ctx') ∧ Follows (ids ctx) (ids ctx') ds moves)
    {payloads : List Bytes} {movess : List (List Move)} (h : List.Forall₂ tells payloads movess)
    (ctx : σ) :
    ∃ ds, runEvents dispatch ctx payloads = .ok ds ∧
      partials ds = play (ids ctx) movess.flatten := by
  induction h generalizing ctx with
  | nil => exact ⟨[], rfl, rfl⟩
  | cons htells _ ih =>
    obtain ⟨ds, ctx', hrun, hfollows⟩ := hstep _ _ ctx htells
    obtain ⟨more, hmore, hplay⟩ := ih ctx'
    refine ⟨ds ++ more, ?_, ?_⟩
    · rw [runEvents, hrun]
      simp [hmore, pure, Except.pure]
    · rw [partials_append, hplay, List.flatten_cons, hfollows]

end Euxis.Inference
