import Euxis.Json.Access
import Euxis.Json.RoundTrip
import Euxis.Vulndb.Osv

/-!
# Responses of osv.dev: `libs/vulndb/src/osv_client.cpp`

A query by purl, and which response bodies the parser answers. The body comes from the network; the
parser tests the type of some members and reads the others with a default.
-/

namespace Euxis.Vulndb

open Json (hasType isString isObject)
open Outcome (Returns)

/-! ## The query -/

/-- The reply of the HTTP client to one request. -/
inductive Reply where
  | failed (error : Bytes)
  | response (status : Int) (body : Bytes)

/-- The requests from `attempt` on, of which `left` are left. The code waits between two of them. -/
def postFrom (post : Nat → Reply) : Nat → Nat → Except Error Bytes
  | 0, _ => .error { kind := .networkFailure, message := ascii "exhausted retries" }
  | left + 1, attempt =>
    match post attempt with
    | .failed err =>
      if left = 0 then .error { kind := .networkFailure, message := err }
      else postFrom post left (attempt + 1)
    | .response status body =>
      if 200 ≤ status ∧ status < 300 then .ok body
      else if (500 ≤ status ∨ status = 429) ∧ left ≠ 0 then postFrom post left (attempt + 1)
      else .error { kind := .upstreamStatus,
                    message := ascii "OSV.dev returned HTTP " ++ Bytes.decimalInt status }

def postWithRetry (maxRetries : Int) (post : Nat → Reply) : Except Error Bytes :=
  postFrom post (maxRetries + 1).toNat 0

def purlQuery (purl : Bytes) : Json := .obj [(ascii "package", .obj [(ascii "purl", .str purl)])]

variable (codec : JsonCodec) (d : Doubles)

/-- `post` replies to a request body. -/
def queryByPurl (maxRetries : Int) (post : Bytes → Nat → Reply) (purl : Bytes) :
    Except JsonError (Except Error (List OsvVuln)) :=
  if purl = [] then .ok (.error { kind := .invalidPackage, message := ascii "empty purl" })
  else
    match codec.dump (purlQuery purl) with
    | none => .error .typeError
    | some text =>
      match postWithRetry maxRetries (post text) with
      | .error e => .ok (.error e)
      | .ok body => parseResponse codec d body

/-! ## Types -/

def isCvss (sev : Json) : Bool := sev.findStr (ascii "type") = some (ascii "CVSS_V3")

/-- The loop over the scores ends at the first one that is a `CVSS_V3`. -/
def severityTyped (scores : List Json) : Bool :=
  (scores.takeWhile fun sev => !isCvss sev).all fun sev => sev.isObject &&
    hasType isString sev (ascii "type")

def vulnTyped (v : Json) : Bool :=
  v.isObject && hasType isString v (ascii "id") && hasType isString v (ascii "summary") &&
    hasType isString v (ascii "details") && severityTyped (elementsAt v (ascii "severity"))

def responseTyped (body : Bytes) : Bool :=
  match codec.parse body with
  | some j => (elementsAt j (ascii "vulns")).all vulnTyped
  | none => true

/-! ## When the parser returns -/

theorem valueStr_isCvss (sev : Json) (h : isCvss sev = true) :
    sev.valueStr (ascii "type") [] = .ok (ascii "CVSS_V3") := by
  have hfound : sev.findStr (ascii "type") = some (ascii "CVSS_V3") := of_decide_eq_true h
  apply Json.valueStr_of_some
  unfold Json.findStr at hfound
  split at hfound
  · rename_i s hs
    rw [hs, Option.some.inj hfound]
  · cases hfound

theorem valueStr_not_isCvss (sev : Json) (sys : Bytes) (h : isCvss sev = false)
    (hsys : sev.valueStr (ascii "type") [] = .ok sys) : sys ≠ ascii "CVSS_V3" := by
  rintro rfl
  rcases Json.valueStr_ok sev _ _ _ hsys with hfound | hempty
  · exact of_decide_eq_false h hfound
  · exact absurd hempty (by decide)

theorem cvssOf_returns_iff (scores : List Json) :
    Returns (cvssOf scores) ↔ severityTyped scores = true := by
  unfold severityTyped
  induction scores with
  | nil => simp [cvssOf]
  | cons sev rest ih =>
    unfold cvssOf
    rw [Outcome.returns_bind_iff]
    cases hcvss : isCvss sev with
    | true =>
      rw [List.takeWhile_cons_of_neg (by simp [hcvss]), valueStr_isCvss sev hcvss]
      simp only [Except.ok.injEq, exists_eq_left', if_true, List.all_nil, iff_true]
      split <;> exact Outcome.returns_ok _
    | false =>
      rw [List.takeWhile_cons_of_pos (by simp [hcvss]), List.all_cons, Bool.and_eq_true, ← ih,
        Bool.and_eq_true, Json.isObject_iff, ← Json.valueStr_returns_iff sev (ascii "type") []]
      constructor
      · rintro ⟨sys, hsys, hrest⟩
        rw [if_neg (valueStr_not_isCvss sev sys hcvss hsys)] at hrest
        exact ⟨⟨sys, hsys⟩, hrest⟩
      · rintro ⟨⟨sys, hsys⟩, hrest⟩
        refine ⟨sys, hsys, ?_⟩
        rw [if_neg (valueStr_not_isCvss sev sys hcvss hsys)]
        exact hrest

theorem parseVuln_returns_iff (v : Json) : Returns (parseVuln d v) ↔ vulnTyped v = true := by
  unfold vulnTyped parseVuln
  have hstr := fun key => Json.valueStr_returns_iff v key []
  have hscore : ∀ id summary details, Returns (do
      let cvssScore ← cvssOf (elementsAt v (ascii "severity"))
      return ({
        id, summary, details, cvssScore
        aliases := (elementsAt v (ascii "aliases")).filterMap fun a => a.getStr.toOption
        fixedIn := (affectedOf v).fixedIn
        vulnerableRange := (affectedOf v).vulnerableRange
        severity := severityFromCvss d cvssScore
        references := (elementsAt v (ascii "references")).filterMap (·.findStr (ascii "url"))
        raw := v } : OsvVuln)) ↔ severityTyped (elementsAt v (ascii "severity")) = true := by
    intro id summary details
    rw [Outcome.returns_bind_pure, cvssOf_returns_iff]
  rw [Outcome.returns_bind_const fun id => Outcome.returns_bind_const fun summary =>
    Outcome.returns_bind_const fun details => hscore id summary details]
  simp only [hstr, Bool.and_eq_true, Json.isObject_iff]
  constructor
  · rintro ⟨⟨hobj, hid⟩, ⟨-, hsummary⟩, ⟨-, hdetails⟩, hseverity⟩
    exact ⟨⟨⟨⟨hobj, hid⟩, hsummary⟩, hdetails⟩, hseverity⟩
  · rintro ⟨⟨⟨⟨hobj, hid⟩, hsummary⟩, hdetails⟩, hseverity⟩
    exact ⟨⟨hobj, hid⟩, ⟨hobj, hsummary⟩, ⟨hobj, hdetails⟩, hseverity⟩

/-- A list of records, or the error that stands for a response that is none. -/
def Answered (x : Except JsonError (Except Error (List OsvVuln))) : Prop :=
  (∃ vulns, x = .ok (.ok vulns)) ∨ ∃ e, x = .ok (.error e) ∧ e.kind = .invalidResponse

theorem parseResponse_answered_iff (body : Bytes) :
    Answered (parseResponse codec d body) ↔ responseTyped codec body = true := by
  unfold parseResponse responseTyped
  split
  · rename_i hnone
    simp only [hnone, iff_true]
    exact Or.inr ⟨_, rfl, rfl⟩
  · rename_i members hobj
    have hall := Outcome.returns_mapM_iff (parseVuln d) (elementsAt (.obj members) (ascii "vulns"))
    simp only [hobj, List.all_eq_true, ← parseVuln_returns_iff d]
    rw [← hall]
    cases List.mapM (parseVuln d) (elementsAt (.obj members) (ascii "vulns")) with
    | error e =>
      simp only [Outcome.error_bind, Outcome.not_returns_error, iff_false]
      rintro (⟨vulns, h⟩ | ⟨e, h, -⟩) <;> cases h
    | ok vulns => exact iff_of_true (Or.inl ⟨vulns, rfl⟩) (Outcome.returns_ok vulns)
  · rename_i j hnot hj
    have hnone : elementsAt j (ascii "vulns") = [] := by
      cases j with
      | obj members => exact absurd rfl (hnot members)
      | _ => rfl
    simp only [hj, hnone, List.all_nil, iff_true]
    exact Or.inr ⟨_, rfl, rfl⟩

/-- **Responses.** A response body is answered with records or with the error for it, if and only if
the records in it are objects whose texts are strings, and so are the scores up to the first
`CVSS_V3`. The same holds of a query that gets this body. -/
theorem response_answered_iff (codec : JsonCodec) (d : Doubles) (body : Bytes) :
    (Answered (parseResponse codec d body) ↔ responseTyped codec body = true) ∧
    ∀ (maxRetries : Int) (post : Bytes → Nat → Reply) (purl text : Bytes), purl ≠ [] →
      codec.dump (purlQuery purl) = some text → postWithRetry maxRetries (post text) = .ok body →
        (Answered (queryByPurl codec d maxRetries post purl) ↔
          responseTyped codec body = true) := by
  refine ⟨parseResponse_answered_iff codec d body, ?_⟩
  intro maxRetries post purl text hpurl htext hpost
  have hquery : queryByPurl codec d maxRetries post purl = parseResponse codec d body := by
    simp only [queryByPurl, if_neg hpurl, htext, hpost]
  rw [hquery]
  exact parseResponse_answered_iff codec d body

/-- A record with two scores, of which the second is the `CVSS_V3`. -/
def lodashRecords : Json :=
  .obj [(ascii "vulns", .arr [.obj
    [(ascii "id", .str (ascii "GHSA-1")),
      (ascii "severity", .arr
        [.obj [(ascii "score", .str (ascii "5.1")), (ascii "type", .str (ascii "CVSS_V2"))],
          .obj [(ascii "score", .str (ascii "7.5")), (ascii "type", .str (ascii "CVSS_V3"))]]),
      (ascii "summary", .str (ascii "prototype pollution"))]])]

/-- The first request fails, the second one gets the record. -/
def secondTry (_ : Bytes) : Nat → Reply
  | 0 => .response 503 []
  | _ => .response 200 (Json.write lodashRecords)

theorem retried_response_answered :
    postWithRetry 3 (secondTry (Json.write (purlQuery (ascii "pkg:npm/a")))) =
      .ok (Json.write lodashRecords) ∧
      Answered (queryByPurl Json.textCodec noDoubles 3 secondTry (ascii "pkg:npm/a")) := by
  refine ⟨by rfl, ?_⟩
  apply ((response_answered_iff Json.textCodec noDoubles (Json.write lodashRecords)).2 3 secondTry
    (ascii "pkg:npm/a")
    (Json.write (purlQuery (ascii "pkg:npm/a"))) (by decide) (by rfl) (by rfl)).mpr
  have hparse : Json.textCodec.parse (Json.write lodashRecords) = some lodashRecords :=
    Json.textCodec.parse_dump lodashRecords _ rfl
  rw [responseTyped, hparse]
  decide

/-- A record whose id is a number. -/
def numberIdResponse : Bytes :=
  Json.write (.obj [(ascii "vulns", .arr [.obj [(ascii "id", .int 7)]])])

theorem number_id_throws :
    parseResponse Json.textCodec noDoubles numberIdResponse = .error .typeError ∧
      ¬ Answered (parseResponse Json.textCodec noDoubles numberIdResponse) := by
  have hthrows : parseResponse Json.textCodec noDoubles numberIdResponse =
      .error .typeError := by rfl
  refine ⟨hthrows, ?_⟩
  rw [hthrows]
  rintro (⟨vulns, h⟩ | ⟨e, h, -⟩) <;> cases h

end Euxis.Vulndb
