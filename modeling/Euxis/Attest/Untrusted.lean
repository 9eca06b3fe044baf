import Euxis.Attest.Bundle
import Euxis.Json.Access

/-!
# Bundles from elsewhere

Which JSON values the reader of bundles answers with a bundle or an error of its own. It tests the
type of some members before it reads them; the others it reads with a default, and the library
throws on any other type.
-/

namespace Euxis.Attest

open Json (hasType isString isNumber isObject)
open Outcome (Returns)

/-! ## Answers -/

/-- Nothing is thrown: there is a value, or an error that the reader returns. -/
def Answers {α : Type} (x : Except Failure α) : Prop := ∀ e, x ≠ .error (.thrown e)

section

variable {α β : Type}

@[simp]
theorem answers_ok (a : α) : Answers (.ok a) := nofun

@[simp]
theorem answers_bundleError (message : Bytes) : Answers (bundleError message : Except Failure α) :=
  nofun

theorem answers_throwing_iff (x : Except JsonError α) : Answers (throwing x) ↔ Returns x := by
  cases x with
  | ok a => simp [throwing]
  | error e => simp [throwing, Answers]

theorem answers_bind_iff (x : Except Failure α) (f : α → Except Failure β) :
    Answers (x >>= f) ↔ Answers x ∧ ∀ a, x = .ok a → Answers (f a) := by
  cases x with
  | ok a => simp
  | error e => simp [Answers]

theorem throwing_bind (x : Except JsonError α) (f : α → Except JsonError β) :
    throwing (x >>= f) = throwing x >>= fun a => throwing (f a) := by
  cases x <;> rfl

end

/-! ## Types -/

def kindTyped (j : Json) : Bool :=
  match j.find (ascii "kindVersion") with
  | some (.obj members) =>
    hasType isString (.obj members) (ascii "kind") &&
      hasType isString (.obj members) (ascii "version")
  | _ => true

def entryTyped (j : Json) : Bool :=
  hasType isNumber j (ascii "logIndex") && hasType isNumber j (ascii "integratedTime") &&
    hasType isString j (ascii "logID") && kindTyped j

/-- The reader returns an error at the first entry that is no object, and does not look at the
others. -/
def entriesTyped (vm : Json) : Bool :=
  match vm.find (ascii "tlogEntries") with
  | some (.arr items) => (items.takeWhile isObject).all entryTyped
  | _ => true

def publicKeyTyped (vm : Json) : Bool :=
  match vm.find (ascii "publicKey") with
  | some (.obj members) =>
    hasType isString (.obj members) (ascii "hint") &&
      hasType isString (.obj members) (ascii "rawBytes")
  | _ => true

def bundleTyped (j : Json) : Bool :=
  match j.find (ascii "verificationMaterial") with
  | some (.obj members) => publicKeyTyped (.obj members) && entriesTyped (.obj members)
  | _ => true

/-! ## Readers -/

variable (truncate : Bytes → Int64)

theorem valueInt64_returns_iff (members : List (Bytes × Json)) (key : Bytes) (fallback : Int64) :
    Returns (valueInt64 truncate (.obj members) key fallback) ↔
      hasType isNumber (.obj members) key = true := by
  rw [Json.hasType_obj, valueInt64]
  cases members.lookup key with
  | none => simp
  | some v => cases v <;> simp [isNumber]

theorem valueStr_pair_returns_iff {α : Type} (members : List (Bytes × Json)) (key key' : Bytes)
    (f : Bytes → Bytes → α) :
    Returns (do
      let a ← Json.valueStr (.obj members) key []
      let b ← Json.valueStr (.obj members) key' []
      return f a b) ↔ (hasType isString (.obj members) key &&
        hasType isString (.obj members) key') = true := by
  rw [Bool.and_eq_true, ← Json.valueStr_returns_of_object (.obj members) key [] trivial,
    ← Json.valueStr_returns_of_object (.obj members) key' [] trivial]
  apply Outcome.returns_bind_const
  intro a
  exact Outcome.returns_bind_pure _

theorem kindVersionFromJson_returns_iff (j : Json) :
    Returns (kindVersionFromJson j) ↔ kindTyped j = true := by
  unfold kindVersionFromJson kindTyped
  cases j.find (ascii "kindVersion") with
  | none => simp
  | some v =>
    cases v with
    | obj members => exact valueStr_pair_returns_iff members _ _ Prod.mk
    | _ => simp

theorem publicKeyFromJson_returns_iff (vm : Json) :
    Returns (publicKeyFromJson vm) ↔ publicKeyTyped vm = true := by
  unfold publicKeyFromJson publicKeyTyped
  cases vm.find (ascii "publicKey") with
  | none => simp
  | some v =>
    cases v with
    | obj members => exact valueStr_pair_returns_iff members _ _ PublicKeyMaterial.mk
    | _ => simp

theorem tlogFromJson_obj_eq (members : List (Bytes × Json)) :
    ∃ entry : Except JsonError TlogEntry, tlogFromJson truncate (.obj members) = throwing entry ∧
      (Returns entry ↔ entryTyped (.obj members) = true) := by
  refine ⟨do
    let logIndex ← valueInt64 truncate (.obj members) (ascii "logIndex") 0
    let integratedTimeUnix ← valueInt64 truncate (.obj members) (ascii "integratedTime") 0
    let logId ← Json.valueStr (.obj members) (ascii "logID") []
    let kindVersion ← kindVersionFromJson (.obj members)
    return {
      logIndex, integratedTimeUnix, logId
      kindVersionKind := kindVersion.1
      kindVersionVersion := kindVersion.2
      inclusionProof := inclusionProofFromJson (.obj members) }, ?_, ?_⟩
  · simp only [throwing_bind]
    rfl
  -- Which values are read does not depend on those before them, so each is judged by its own type.
  · unfold entryTyped
    simp only [Bool.and_eq_true, and_assoc]
    rw [← valueInt64_returns_iff truncate members (ascii "logIndex") 0,
      ← valueInt64_returns_iff truncate members (ascii "integratedTime") 0,
      ← Json.valueStr_returns_of_object (.obj members) (ascii "logID") [] trivial,
      ← kindVersionFromJson_returns_iff]
    apply Outcome.returns_bind_const
    intro logIndex
    apply Outcome.returns_bind_const
    intro time
    apply Outcome.returns_bind_const
    intro logId
    exact Outcome.returns_bind_pure _

theorem mapM_tlogFromJson_answers_iff (items : List Json) :
    Answers (items.mapM (tlogFromJson truncate)) ↔
      (items.takeWhile isObject).all entryTyped = true := by
  induction items with
  | nil => simp [pure, Except.pure]
  | cons j rest ih =>
    rw [List.mapM_cons, answers_bind_iff]
    cases j with
    | obj members =>
      obtain ⟨entry, heq, hentry⟩ := tlogFromJson_obj_eq truncate members
      rw [List.takeWhile_cons_of_pos rfl, List.all_cons, Bool.and_eq_true, ← ih, ← hentry, heq,
        answers_throwing_iff]
      apply and_congr_right
      rintro ⟨t, rfl⟩
      simp only [throwing, Except.ok.injEq, forall_eq']
      rw [answers_bind_iff]
      apply and_iff_left
      intro entries _
      exact answers_ok _
    | _ => simp [tlogFromJson, isObject, bundleError, Answers]

theorem tlogEntriesFromJson_answers_iff (vm : Json) :
    Answers (tlogEntriesFromJson truncate vm) ↔ entriesTyped vm = true := by
  unfold tlogEntriesFromJson entriesTyped
  cases vm.find (ascii "tlogEntries") with
  | none => simp
  | some v =>
    cases v with
    | arr items => exact mapM_tlogFromJson_answers_iff truncate items
    | _ => simp

theorem dsseEnvelopeFromJson_answers (j : Json) : Answers (dsseEnvelopeFromJson j) := by
  unfold dsseEnvelopeFromJson
  split
  · exact answers_bundleError _
  · split
    · exact answers_bundleError _
    · exact answers_ok _

/-- **Bundles from elsewhere.** The reader returns a bundle or an error of its own, if and only if
the members it reads with a default have the type of the default. -/
theorem bundle_answers_iff (truncate : Bytes → Int64) (j : Json) :
    (∀ e, bundleFromJson truncate j ≠ .error (.thrown e)) ↔ bundleTyped j = true := by
  change Answers (bundleFromJson truncate j) ↔ _
  unfold bundleFromJson bundleTyped
  cases j with
  | obj fields =>
    dsimp only
    cases (Json.obj fields).find (ascii "verificationMaterial") with
    | none => simp
    | some v =>
      cases v with
      | obj members =>
        dsimp only
        rw [Bool.and_eq_true, ← publicKeyFromJson_returns_iff,
          ← tlogEntriesFromJson_answers_iff truncate, answers_bind_iff,
          answers_throwing_iff]
        apply and_congr_right
        rintro ⟨key, hkey⟩
        simp only [hkey, throwing, Except.ok.injEq, forall_eq']
        rw [answers_bind_iff]
        -- Behind the log entries only the envelope is read, and its reader throws nothing.
        apply and_iff_left
        intro entries _
        rw [answers_bind_iff]
        exact ⟨dsseEnvelopeFromJson_answers _, fun env _ => answers_ok _⟩
      | _ => simp
  | _ => simp [Json.find]

/-- A log index as text, which is how the protobuf mapping of JSON writes a 64-bit number. -/
def textIndexBundle : Json :=
  .obj [
    (ascii "dsseEnvelope", .obj [
      (ascii "payload", .str []), (ascii "payloadType", .str kDsseInTotoPayloadType),
        (ascii "signatures", .arr [])]),
    (ascii "mediaType", .str kSigstoreBundleMediaType),
    (ascii "verificationMaterial", .obj [
      (ascii "publicKey", .obj [(ascii "hint", .str (ascii "k1"))]),
      (ascii "tlogEntries", .arr [.obj [(ascii "logIndex", .str (ascii "25579"))]])])]

theorem text_index_throws :
    ¬ ∀ e, bundleFromJson (fun _ => 0) textIndexBundle ≠ .error (.thrown e) := by
  intro h
  exact h .typeError rfl

end Euxis.Attest
