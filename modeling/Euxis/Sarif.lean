import Euxis.Json.Value
import Euxis.Security.Finding

/-!
# SARIF results: `apps/cli/src/sarif.cpp`

The result objects that `findings_to_sarif` writes, one for each finding.
-/

namespace Euxis.Sarif

open Security

/-- `j[outer][inner] = v`. -/
def setIn (j : Json) (outer inner : Bytes) (v : Json) : Json :=
  j.set outer (((j.find outer).getD .null).set inner v)

def setIf (p : Prop) [Decidable p] (j : Json) (key : Bytes) (v : Json) : Json :=
  if p then j.set key v else j

/-- `j[key].push_back(v)`, where `j[key]` starts as an empty array. -/
def pushIn (j : Json) (key : Bytes) (v : Json) : Json :=
  match j.find key with
  | some (.arr items) => j.set key (.arr (items ++ [v]))
  | _ => j.set key (.arr [v])

/-- The positions of a region. -/
def regionOf (loc : SourceLocation) : Json :=
  let region := Json.null.set (ascii "startLine") (.int loc.startLine)
  let region := setIf (loc.startColumn > 0) region (ascii "startColumn") (.int loc.startColumn)
  let region := setIf (loc.endLine > 0) region (ascii "endLine") (.int loc.endLine)
  setIf (loc.endColumn > 0) region (ascii "endColumn") (.int loc.endColumn)

def artifactLocation (path : Bytes) : Json := Json.null.set (ascii "uri") (.str path)

def appendLocation (result : Json) (loc : SourceLocation) : Json :=
  if loc.path = [] then result
  else
    let physical := Json.null.set (ascii "artifactLocation") (artifactLocation loc.path)
    let region := setIf (loc.snippet ≠ []) (regionOf loc) (ascii "snippet")
      (Json.null.set (ascii "text") (.str loc.snippet))
    let physical := setIf (loc.startLine > 0) physical (ascii "region") region
    pushIn result (ascii "locations") (Json.null.set (ascii "physicalLocation") physical)

def appendFix (result : Json) (fix : FixSuggestion) : Json :=
  let replacement := setIf (fix.replacementRange.startLine > 0) .null (ascii "deletedRegion")
    (regionOf fix.replacementRange)
  let replacement := setIn replacement (ascii "insertedContent") (ascii "text")
    (.str fix.replacementText)
  let change := Json.null.set (ascii "artifactLocation")
    (artifactLocation fix.replacementRange.path)
  let change := change.set (ascii "replacements") (.arr [replacement])
  let sarifFix := setIn .null (ascii "description") (ascii "text") (.str fix.description)
  let sarifFix := sarifFix.set (ascii "artifactChanges") (.arr [change])
  let sarifFix := setIn sarifFix (ascii "properties") (ascii "deterministic")
    (.bool fix.deterministic)
  pushIn result (ascii "fixes") sarifFix

def voteOf (v : EnsembleVote) : Json :=
  ((Json.null.set (ascii "provider") (.str v.provider)).set (ascii "true_positive")
    (.bool v.truePositive)).set (ascii "confidence") (.float v.confidence)

def propertiesOf (f : Finding) : Json :=
  let props := Json.null.set (ascii "severity") (.str (severityLabel f.severity))
  let props := props.set (ascii "confidence") (.int f.confidence.code)
  let props := props.set (ascii "source") (.int f.source.code)
  let props := setIf (f.quantum ≠ .none) props (ascii "quantum_deprecation")
    (.str (quantumLabel f.quantum))
  let props := setIf (f.complianceTaxa ≠ []) props (ascii "compliance_taxa")
    (.arr (f.complianceTaxa.map .str))
  setIf (f.ensembleVotes ≠ []) props (ascii "ensemble_votes") (.arr (f.ensembleVotes.map voteOf))

def fingerprintKey : Bytes := ascii "euxis.stable.v1"

/-- All of a result but its properties. -/
def resultBody (f : Finding) : Json :=
  let result := Json.null.set (ascii "ruleId") (.str f.ruleId)
  let result := setIn result (ascii "message") (ascii "text") (.str f.message)
  let result := result.set (ascii "level") (.str (sarifLevel f.severity))
  let result :=
    if f.stableFingerprint = [] then result
    else
      setIn (setIn result (ascii "fingerprints") fingerprintKey (.str f.stableFingerprint))
        (ascii "partialFingerprints") fingerprintKey (.str f.stableFingerprint)
  let result := f.relatedLocations.foldl appendLocation (appendLocation result f.primaryLocation)
  f.fixes.foldl appendFix result

def resultOf (f : Finding) : Json := (resultBody f).set (ascii "properties") (propertiesOf f)

def results (findings : List Finding) : List Json := findings.map resultOf

/-! ## The source of a finding shows in its result -/

open Json

theorem settable_setIf (p : Prop) [Decidable p] (j : Json) (key : Bytes) (v : Json)
    (h : j.Settable) : (setIf p j key v).Settable := by
  unfold setIf
  split
  · exact settable_set j key v h
  · exact h

theorem settable_setIn (j : Json) (outer inner : Bytes) (v : Json) (h : j.Settable) :
    (setIn j outer inner v).Settable := settable_set j outer _ h

theorem settable_pushIn (j : Json) (key : Bytes) (v : Json) (h : j.Settable) :
    (pushIn j key v).Settable := by
  unfold pushIn
  split <;> exact settable_set j key _ h

theorem settable_appendLocation (j : Json) (loc : SourceLocation) (h : j.Settable) :
    (appendLocation j loc).Settable := by
  unfold appendLocation
  split
  · exact h
  · exact settable_pushIn j _ _ h

theorem settable_foldl {α : Type} (step : Json → α → Json)
    (hstep : ∀ j a, j.Settable → (step j a).Settable) (l : List α) (j : Json) (h : j.Settable) :
    (l.foldl step j).Settable := by
  induction l generalizing j with
  | nil => exact h
  | cons a l ih => exact ih (step j a) (hstep j a h)

theorem settable_resultBody (f : Finding) : (resultBody f).Settable := by
  unfold resultBody
  apply settable_foldl appendFix fun j fix h => settable_pushIn j _ _ h
  apply settable_foldl appendLocation settable_appendLocation
  apply settable_appendLocation
  have hhead := settable_set _ (ascii "level") (.str (sarifLevel f.severity))
    (settable_setIn _ (ascii "message") (ascii "text") (.str f.message)
      (settable_set .null (ascii "ruleId") (.str f.ruleId) trivial))
  split
  · exact hhead
  · exact settable_setIn _ _ _ _ (settable_setIn _ _ _ _ hhead)

theorem find_setIf_ne (p : Prop) [Decidable p] (j : Json) (key other : Bytes) (v : Json)
    (h : j.Settable) (hne : other ≠ key) : (setIf p j key v).find other = j.find other := by
  unfold setIf
  split
  · exact find_set_ne j key other v h hne
  · rfl

theorem propertiesOf_source (f : Finding) :
    (propertiesOf f).find (ascii "source") = some (.int f.source.code) := by
  have hbase : ((Json.null.set (ascii "severity") (.str (severityLabel f.severity))).set
      (ascii "confidence")
      (.int f.confidence.code)).Settable := settable_set _ _ _ (settable_set _ _ _ trivial)
  have hsource := settable_set _ (ascii "source") (.int f.source.code) hbase
  unfold propertiesOf
  simp only
  rw [find_setIf_ne, find_setIf_ne, find_setIf_ne, find_set]
  · exact hbase
  · exact hsource
  · decide
  · exact settable_setIf _ _ _ _ hsource
  · decide
  · exact settable_setIf _ _ _ _ (settable_setIf _ _ _ _ hsource)
  · decide

theorem source_of_resultOf (f f' : Finding) (h : resultOf f = resultOf f') :
    f.source.code = f'.source.code := by
  have hprops : ∀ f : Finding, (resultOf f).find (ascii "properties") = some (propertiesOf f) :=
    fun f =>
    find_set _ _ _ (settable_resultBody f)
  have hp : propertiesOf f = propertiesOf f' := by
    have := congrArg (fun j => Json.find j (ascii "properties")) h
    simp only [hprops] at this
    exact Option.some.inj this
  have hs := propertiesOf_source f
  rw [hp, propertiesOf_source] at hs
  injection hs with hs
  injection hs with hs
  exact hs.symm

end Euxis.Sarif
