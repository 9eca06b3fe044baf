import Euxis.Outcome
import Euxis.Scan.Cache

/-!
# Damaged cache entries

What `scan_file_compute` answers when it finds a text under the key of the file, whatever the text
is.
-/

namespace Euxis.Scan

open Security

section Entries

variable (w : World)

def RestoresTo (item : Json) (f : Finding) : Prop :=
  ∃ members, item = .obj members ∧ restoreFinding w item = .ok f

/-- The text is an entry that reads as the findings, every item of it. -/
def Restores (text : Bytes) (findings : List Finding) : Prop :=
  ∃ doc items, w.codec.parse text = some doc ∧ doc.find (ascii "findings") = some (.arr items) ∧
    List.Forall₂ (RestoresTo w) items findings

def Complete (text : Bytes) : Prop := ∃ findings, Restores w text findings

/-- The first object of the entry is a finding. -/
def Legible (text : Bytes) : Prop :=
  ∃ doc skipped item rest f, w.codec.parse text = some doc ∧
    doc.find (ascii "findings") = some (.arr (skipped ++ item :: rest)) ∧
    (∀ j ∈ skipped, ¬ j.IsObject) ∧ RestoresTo w item f

variable {w}

theorem restoreFindings_of_restores {items : List Json} {findings : List Finding}
    (h : List.Forall₂ (RestoresTo w) items findings) : restoreFindings w items = findings := by
  induction h with
  | nil => rfl
  | cons hitem _ ih =>
    obtain ⟨members, rfl, hread⟩ := hitem
    rw [restoreFindings, hread, ih]

theorem deserializeFindings_of_restores {text : Bytes} {findings : List Finding}
    (h : Restores w text findings) : deserializeFindings w text = findings := by
  obtain ⟨doc, items, hparse, hfind, hitems⟩ := h
  unfold deserializeFindings
  simp only [hparse, hfind]
  exact restoreFindings_of_restores hitems

theorem restoreFindings_eq_nil_iff (items : List Json) : restoreFindings w items = [] ↔
    ¬ ∃ skipped item rest f, items = skipped ++ item :: rest ∧ (∀ j ∈ skipped, ¬ j.IsObject) ∧
    RestoresTo w item f := by
  induction items with
  | nil => simp [restoreFindings]
  | cons head tail ih =>
    by_cases hobj : head.IsObject
    · obtain ⟨members, rfl⟩ := hobj.exists_members
      rw [restoreFindings]
      cases hread : restoreFinding w (.obj members) with
      | ok f =>
        simp only [reduceCtorEq, false_iff, not_not]
        exact ⟨[], .obj members, tail, f, rfl, by simp, members, rfl, hread⟩
      -- A finding that cannot be read ends the loop; what stands behind it is lost.
      | error e =>
        simp only [true_iff]
        rintro ⟨skipped, item, rest, f, heq, hskipped, -, -, hf⟩
        rcases List.cons_eq_append_iff.mp heq with ⟨-, h⟩ | ⟨more, rfl, -⟩
        · cases h
          rw [hread] at hf
          cases hf
        · exact hskipped _ List.mem_cons_self trivial
    · have hskip : restoreFindings w (head :: tail) = restoreFindings w tail := by
        cases head with
        | obj members => exact absurd trivial hobj
        | _ => rfl
      rw [hskip, ih]
      refine not_congr ?_
      constructor
      · rintro ⟨skipped, item, rest, f, rfl, hskipped, hf⟩
        exact ⟨head :: skipped, item, rest, f, rfl, List.forall_mem_cons.mpr ⟨hobj, hskipped⟩, hf⟩
      · rintro ⟨skipped, item, rest, f, heq, hskipped, hf⟩
        rcases List.cons_eq_append_iff.mp heq with ⟨-, h⟩ | ⟨more, rfl, rfl⟩
        · cases h
          obtain ⟨members, rfl, -⟩ := hf
          exact absurd trivial hobj
        · exact ⟨more, item, rest, f, rfl, fun j hj => hskipped j (List.mem_cons_of_mem _ hj), hf⟩

theorem deserializeFindings_eq_nil_iff (text : Bytes) :
    deserializeFindings w text = [] ↔ ¬ Legible w text := by
  unfold deserializeFindings Legible
  cases hparse : w.codec.parse text with
  | none => simp
  | some doc =>
    dsimp only
    split
    · rename_i items hfind
      rw [restoreFindings_eq_nil_iff]
      refine not_congr ?_
      constructor
      · rintro ⟨skipped, item, rest, f, rfl, h⟩
        exact ⟨doc, skipped, item, rest, f, rfl, hfind, h⟩
      · rintro ⟨_, skipped, item, rest, f, ⟨⟩, hdoc, h⟩
        rw [hfind] at hdoc
        cases hdoc
        exact ⟨skipped, item, rest, f, rfl, h⟩
    · rename_i hother
      simp only [true_iff]
      rintro ⟨_, skipped, item, rest, f, ⟨⟩, hdoc, -⟩
      exact hother _ hdoc

theorem restoreFinding_source {item : Json} {f : Finding} (h : restoreFinding w item = .ok f) :
    f.source = .euxisCore := by
  unfold restoreFinding at h
  obtain ⟨ruleId, -, h⟩ := Euxis.Outcome.ok_of_bind h
  obtain ⟨message, -, h⟩ := Euxis.Outcome.ok_of_bind h
  obtain ⟨severity, -, h⟩ := Euxis.Outcome.ok_of_bind h
  obtain ⟨confidence, -, h⟩ := Euxis.Outcome.ok_of_bind h
  obtain ⟨fingerprint, -, h⟩ := Euxis.Outcome.ok_of_bind h
  obtain ⟨owasp, -, h⟩ := Euxis.Outcome.ok_of_bind h
  dsimp only at h
  split at h
  all_goals
    obtain ⟨location, -, h⟩ := Euxis.Outcome.ok_of_bind h
    cases h
    rfl

theorem restoreFindings_source (items : List Json) (f : Finding) (h : f ∈ restoreFindings w items) :
    f.source = .euxisCore := by
  induction items with
  | nil => exact absurd h List.not_mem_nil
  | cons item rest ih =>
    cases item with
    | obj members =>
      rw [restoreFindings] at h
      cases hread : restoreFinding w (.obj members) with
      | error e =>
        rw [hread] at h
        exact absurd h List.not_mem_nil
      | ok restored =>
        rw [hread] at h
        rcases List.mem_cons.mp h with rfl | h
        · exact restoreFinding_source hread
        · exact ih h
    | _ => exact ih h

theorem deserializeFindings_source (text : Bytes) (f : Finding)
    (h : f ∈ deserializeFindings w text) : f.source = .euxisCore := by
  unfold deserializeFindings at h
  split at h
  · exact absurd h List.not_mem_nil
  · split at h
    · exact restoreFindings_source _ f h
    · exact absurd h List.not_mem_nil

end Entries

/-! ## A text under the key -/

section Found

variable (w : World) (file : Bytes) (args : ScanArgs) (packs : List RulePack) (hash : Bytes)
  (cache : Option Store)

/-- The findings come from the whole entry, or they are those of a scan without the cache. -/
def NothingHidden (text : Bytes) (out : FileScanResult) : Prop :=
  Restores w text out.findings ∨
    ∃ fresh cache', scanFileCompute w file args packs hash none = .ok (fresh, cache') ∧
      out.findings = fresh.findings

/-- There is nothing to find in the file. -/
def NothingToFind : Prop :=
  ∀ lang ast, languageFor args file = some lang → parseFile w lang file = some ast →
    Quiet args packs ast

theorem scan_uncached : ∃ fresh, scanFileCompute w file args packs hash none = .ok (fresh, none) ∧
    (fresh.findings = [] ↔ NothingToFind w file args packs) ∧ ∀ f ∈ fresh.findings,
    f.source ≠ .euxisCore := by
  have hmiss : cachedEntry w file args hash none = none := by
    unfold cachedEntry
    split <;> rfl
  cases hlang : languageFor args file with
  | none =>
    refine ⟨_, scan_skipped w file args packs hash none hlang, ?_, by simp⟩
    simp [NothingToFind, hlang]
  | some lang =>
    cases hast : parseFile w lang file with
    | none =>
      refine ⟨_, scan_unparsed w file args packs hash none lang hlang hmiss hast, ?_, by simp⟩
      -- A file that does not parse has nothing to find.
      have hnothing : NothingToFind w file args packs := by
        intro other ast hother hparsed
        obtain rfl : lang = other := Option.some.inj (hlang.symm.trans hother)
        rw [hast] at hparsed
        cases hparsed
      simp [hnothing]
    | some ast =>
      obtain ⟨out, hout, hquiet, hsource⟩ := scanAst_findings args packs ast file
      refine ⟨out, ?_, ?_, hsource⟩
      · rw [scan_fresh w file args packs hash none lang ast out hlang hmiss hast hout]
        rfl
      · rw [hquiet]
        constructor
        · intro h other tree hother hparsed
          obtain rfl : lang = other := Option.some.inj (hlang.symm.trans hother)
          obtain rfl : ast = tree := Option.some.inj (hast.symm.trans hparsed)
          exact h
        · exact fun h => h lang ast hlang hast

/-- **A text under the key of the file.** The scan returns, and hides no finding, exactly when the
file is not scanned at all, the text is a whole entry, or there is nothing to find and the text does
not begin with a finding. -/
theorem found_entry_hides_nothing_iff (text : Bytes)
    (hentry : cachedEntry w file args hash cache = some text) :
    ∃ out, scanFileCompute w file args packs hash cache = .ok (out, cache) ∧
      (NothingHidden w file args packs hash text out ↔ languageFor args file = none ∨
        Complete w text ∨ NothingToFind w file args packs ∧ ¬ Legible w text) := by
  obtain ⟨fresh, hfresh, hquiet, hsource⟩ := scan_uncached w file args packs hash
  have hhidden : ∀ out, NothingHidden w file args packs hash text out ↔
      Restores w text out.findings ∨ out.findings = fresh.findings := by
    intro out
    unfold NothingHidden
    rw [hfresh]
    simp
  cases hlang : languageFor args file with
  | none =>
    refine ⟨_, scan_skipped w file args packs hash cache hlang, ?_⟩
    have hnil : fresh.findings = [] := hquiet.mpr (by simp [NothingToFind, hlang])
    simp [hhidden, hnil]
  | some lang =>
    refine ⟨_, scan_hit w file args packs hash cache lang text hlang hentry, ?_⟩
    rw [hhidden]
    simp only [reduceCtorEq, false_or]
    refine or_congr ?_ ?_
    · constructor
      · exact fun h => ⟨_, h⟩
      · rintro ⟨findings, h⟩
        rwa [deserializeFindings_of_restores h]
    · -- What is restored and what is found have no source in common.
      constructor
      · intro heq
        have hnil : fresh.findings = [] := by
          rw [List.eq_nil_iff_forall_not_mem]
          intro f hf
          exact hsource f hf (deserializeFindings_source text f (heq ▸ hf))
        exact ⟨hquiet.mp hnil, (deserializeFindings_eq_nil_iff text).mp (heq.trans hnil)⟩
      · rintro ⟨hnothing, hillegible⟩
        exact ((deserializeFindings_eq_nil_iff text).mpr hillegible).trans
          (hquiet.mpr hnothing).symm

end Found

/-! `app.py` with one call of `eval`, and a store that answers every key with the same text. -/

theorem found_entry_hides_nothing_eval :
    ∃ out, scanFileCompute evalWorld (ascii "app.py") {} (evalPacks evalRule) []
      (some fun _ => some (ascii "[1,")) = .ok (out, some fun _ => some (ascii "[1,")) ∧
      (NothingHidden evalWorld (ascii "app.py") {} (evalPacks evalRule) [] (ascii "[1,") out ↔
        languageFor {} (ascii "app.py") = none ∨ Complete evalWorld (ascii "[1,") ∨
          NothingToFind evalWorld (ascii "app.py") {} (evalPacks evalRule) ∧
          ¬ Legible evalWorld (ascii "[1,")) :=
  found_entry_hides_nothing_iff evalWorld (ascii "app.py") {} (evalPacks evalRule) []
    (some fun _ => some (ascii "[1,")) (ascii "[1,") rfl

theorem torn_entry_hides :
    ∃ out fresh, scanFileCompute evalWorld (ascii "app.py") {} (evalPacks evalRule) []
      (some fun _ => some (ascii "[1,")) = .ok (out, some fun _ => some (ascii "[1,")) ∧
      out.outcome = .cacheHit ∧ out.findings = [] ∧
      scanFileCompute evalWorld (ascii "app.py") {} (evalPacks evalRule) [] none =
        .ok (fresh, none) ∧
      fresh.findings ≠ [] ∧ ¬ Complete evalWorld (ascii "[1,") := by
  have hlang : languageFor {} (ascii "app.py") = some .python := by decide +kernel
  have hast : parseFile evalWorld .python (ascii "app.py") = some evalAst := rfl
  have hparse : evalWorld.codec.parse (ascii "[1,") = none := by decide +kernel
  have hempty : deserializeFindings evalWorld (ascii "[1,") = [] := by
    unfold deserializeFindings
    rw [hparse]
  obtain ⟨fresh, hfresh, hquiet, -⟩ :=
    scan_uncached evalWorld (ascii "app.py") {} (evalPacks evalRule) []
  refine ⟨_, fresh, scan_hit evalWorld _ _ _ _ _ .python (ascii "[1,") hlang rfl, rfl, hempty,
    hfresh, ?_, ?_⟩
  · intro hnil
    exact evalRule_fires (hquiet.mp hnil .python evalAst hlang hast)
  · rintro ⟨findings, doc, items, hdoc, -⟩
    rw [hparse] at hdoc
    cases hdoc

end Euxis.Scan
