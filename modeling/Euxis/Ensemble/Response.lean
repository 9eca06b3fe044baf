import Euxis.Ensemble.Runner
import Euxis.Json.Access
import Euxis.Json.Compact
import Euxis.Lines
import Euxis.Records

/-!
# The answer of a model: `libs/ensemble/src/response.cpp`

The text of an answer may stand in a code fence, with prose around it. The first object in it is the
vote.
-/

namespace Euxis.Ensemble

open Security (EnsembleVote)

def fence : Bytes := ascii "```"

/-- The text between the line that opens a fence and the next fence, or the whole text. -/
def stripCodeFence (body : Bytes) : Bytes :=
  match Records.cutAt fence body with
  | none => body
  | some (_, behind) =>
    match Bytes.cut (ch '\n') behind with
    | none => body
    | some (_, inner) =>
      match Records.cutAt fence inner with
      | none => body
      | some (payload, _) => payload

/-- The loop of `first_json_object`: how many bytes it passes up to the brace that closes the
object. -/
def scanObject (depth : Nat) (inString escapeNext : Bool) : Bytes → Option Nat
  | [] => none
  | c :: rest =>
    if escapeNext then (scanObject depth inString false rest).map (1 + ·)
    else if inString then
      if c = ch '\\' then (scanObject depth inString true rest).map (1 + ·)
      else if c = ch '"' then (scanObject depth false escapeNext rest).map (1 + ·)
      else (scanObject depth inString escapeNext rest).map (1 + ·)
    else if c = ch '"' then (scanObject depth true escapeNext rest).map (1 + ·)
    else if c = ch '{' then (scanObject (depth + 1) inString escapeNext rest).map (1 + ·)
    else if c = ch '}' then
      if depth = 0 then none
      else if depth - 1 = 0 then some 1
      else (scanObject (depth - 1) inString escapeNext rest).map (1 + ·)
    else (scanObject depth inString escapeNext rest).map (1 + ·)

/-- The first object that the text holds, or nothing. -/
def firstJsonObject (body : Bytes) : Bytes :=
  let found := body.dropWhile (· ≠ ch '{')
  match scanObject 0 false false found with
  | none => []
  | some n => found.take n

/-- What the code does with doubles and with the exceptions of the parser. The numbers are those of
a JSON value: `truth` is `!= 0.0`, and `clamped` the `float` between zero and one. -/
structure Numerics where
  truth : Number → Bool
  clamped : Number → Bytes
  zero : Bytes
  stodClamped : Bytes → Option Bytes
  failure : Bytes → JsonError
  what : Bytes → Bytes

variable (codec : JsonCodec) (numerics : Numerics)

def coerceBool : Json → Bool
  | .bool b => b
  | .str s =>
    Bytes.lower s = ascii "true" ∨ Bytes.lower s = ascii "yes" ∨ Bytes.lower s = ascii "1"
  | .int i => numerics.truth (.int i)
  | .float text => numerics.truth (.float text)
  | _ => false

def coerceConfidence : Json → Bytes
  | .int i => numerics.clamped (.int i)
  | .float text => numerics.clamped (.float text)
  | .str s => (numerics.stodClamped s).getD numerics.zero
  | _ => numerics.zero

def coerceRationale : Json → Bytes
  | .str s => s.take 200
  | _ => []

structure ParseError where
  message : Bytes
  deriving DecidableEq, Repr

def readVote (providerId : Bytes) (parsed : Json) : Except ParseError VoteOutcome :=
  if !parsed.isObject then .error ⟨ascii "response is not a JSON object"⟩
  else
    match parsed.find (ascii "true_positive") with
    | none => .error ⟨ascii "missing `true_positive` field"⟩
    | some tp =>
      .ok
        { vote :=
            { provider := providerId
              truePositive := coerceBool numerics tp
              confidence := ((parsed.find (ascii "confidence")).map
                (coerceConfidence numerics)).getD numerics.zero }
          rationale := ((parsed.find (ascii "rationale")).map coerceRationale).getD [] }

/-- A parse error is caught, and no other exception is. -/
def parseResponse (body providerId : Bytes) : Except JsonError (Except ParseError VoteOutcome) :=
  let jsonStr := firstJsonObject (stripCodeFence body)
  if jsonStr = [] then .ok (.error ⟨ascii "no JSON object in response body"⟩)
  else
    match codec.read numerics.failure jsonStr with
    | .error .parseError => .ok (.error ⟨ascii "JSON parse: " ++ numerics.what jsonStr⟩)
    | .error e => .error e
    | .ok parsed => .ok (readVote numerics providerId parsed)

/-- A text in a fence, whatever follows it. -/
def fenced (text tail : Bytes) : Bytes := ascii "```json\n" ++ (text ++ (ascii "\n```" ++ tail))

/-! ## The scan -/

section Scan

variable {w w' : Bytes}

section Step

variable (depth : Nat) (inString : Bool) (c : UInt8) (rest : Bytes)

theorem scan_escaped :
    scanObject depth inString true (c :: rest) = (scanObject depth inString false rest).map
      (1 + ·) := rfl

theorem scan_backslash :
    scanObject depth true false (ch '\\' :: rest) = (scanObject depth true true rest).map (1 + ·) :=
  rfl

theorem scan_quote :
    scanObject depth inString false (ch '"' :: rest) = (scanObject depth (!inString) false rest).map
      (1 + ·) := by
  cases inString <;> rfl

theorem scan_open :
    scanObject depth false false (ch '{' :: rest) = (scanObject (depth + 1) false false rest).map
      (1 + ·) := rfl

theorem scan_close :
    scanObject (depth + 2) false false (ch '}' :: rest) =
      (scanObject (depth + 1) false false rest).map (1 + ·) := rfl

theorem scan_last : scanObject 1 false false (ch '}' :: rest) = some 1 := rfl

end Step

/-- Outside of a string, the text leaves the scan where it is. -/
def Passes (w : Bytes) : Prop :=
  ∀ depth rest, scanObject (depth + 1) false false (w ++ rest) =
    (scanObject (depth + 1) false false rest).map (w.length + ·)

/-- The text closes one brace more than it opens, with its last byte. -/
structure Closes (w : Bytes) : Prop where
  inner : ∀ depth rest, scanObject (depth + 2) false false (w ++ rest) =
    (scanObject (depth + 1) false false rest).map (w.length + ·)
  outer : ∀ rest, scanObject 1 false false (w ++ rest) = some w.length

theorem map_add_map (a b : Nat) (o : Option Nat) :
    (o.map (a + ·)).map (b + ·) = o.map (b + a + ·) := by
  cases o with
  | none => rfl
  | some n => simp [Nat.add_assoc]

theorem passes_nil : Passes [] := by
  intro depth rest
  simp

theorem Passes.append (h : Passes w) (h' : Passes w') : Passes (w ++ w') := by
  intro depth rest
  rw [List.append_assoc, h, h', map_add_map, List.length_append]

theorem Passes.closes (h : Passes w) (h' : Closes w') : Closes (w ++ w') := by
  constructor
  · intro depth rest
    rw [List.append_assoc, h, h'.inner, map_add_map, List.length_append]
  · intro rest
    rw [List.append_assoc, h, h'.outer, Option.map_some, List.length_append]

/-- A byte that is neither a quote nor a brace. -/
def Quiet (b : UInt8) : Prop := b ≠ ch '"' ∧ b ≠ ch '{' ∧ b ≠ ch '}'

instance (b : UInt8) : Decidable (Quiet b) := inferInstanceAs (Decidable (_ ∧ _ ∧ _))

theorem passes_of_quiet (h : ∀ b ∈ w, Quiet b) : Passes w := by
  induction w with
  | nil => exact passes_nil
  | cons b w ih =>
    obtain ⟨hquote, hopen, hclose⟩ := h b List.mem_cons_self
    intro depth rest
    have hrest := ih (fun c hc => h c (List.mem_cons_of_mem b hc)) depth rest
    rw [List.cons_append, scanObject]
    simp only [Bool.false_eq_true, if_false, hquote, hopen, hclose, hrest, map_add_map,
      List.length_cons]
    rw [Nat.add_comm]

theorem passes_word (h : (w.all fun b => decide (Quiet b)) = true) : Passes w := by
  apply passes_of_quiet
  intro b hb
  exact of_decide_eq_true (List.all_eq_true.mp h b hb)

theorem closes_brace : Closes [ch '}'] := by
  constructor
  · intro depth rest
    exact scan_close depth rest
  · intro rest
    exact scan_last rest

theorem scan_inside (depth : Nat) (w rest : Bytes) (h : ∀ b ∈ w, b ≠ ch '"' ∧ b ≠ ch '\\') :
    scanObject depth true false (w ++ rest) =
      (scanObject depth true false rest).map (w.length + ·) := by
  induction w with
  | nil => simp
  | cons b w ih =>
    obtain ⟨hquote, hback⟩ := h b List.mem_cons_self
    rw [List.cons_append, scanObject]
    simp only [Bool.false_eq_true, if_false, if_true, hquote, hback,
      ih fun c hc => h c (List.mem_cons_of_mem b hc), map_add_map, List.length_cons]
    rw [Nat.add_comm]

theorem scan_escape (depth : Nat) (b : UInt8) (rest : Bytes) :
    scanObject depth true false (Json.escapeByte b ++ rest) =
      (scanObject depth true false rest).map ((Json.escapeByte b).length + ·) := by
  rcases Json.escapeByte_cases b with ⟨heq, hquote, hback⟩ | ⟨c, more, heq, hmore⟩
  · rw [heq]
    apply scan_inside
    simp [hquote, hback]
  · rw [heq, List.cons_append, List.cons_append, scan_backslash, scan_escaped,
      scan_inside depth more rest hmore,
      map_add_map, map_add_map, List.length_cons, List.length_cons]
    congr 1
    funext n
    omega

theorem passes_writeString (s : Bytes) : Passes (Json.writeString s) := by
  intro depth rest
  have hbody : scanObject (depth + 1) true false (s.flatMap Json.escapeByte ++ (ch '"' :: rest)) =
      (scanObject (depth + 1) false false rest).map ((s.flatMap Json.escapeByte).length +
        1 + ·) := by
    induction s with
    | nil => exact scan_quote ..
    | cons b s ih =>
      rw [List.flatMap_cons, List.append_assoc, scan_escape, ih, map_add_map, List.length_append,
        Nat.add_assoc]
  have hstring : Json.writeString s ++ rest = ch '"' ::
      (s.flatMap Json.escapeByte ++ (ch '"' :: rest)) := by
    simp [Json.writeString, ch]
  have hlength : (Json.writeString s).length = 1 + ((s.flatMap Json.escapeByte).length + 1) := by
    simp [Json.writeString]
    omega
  rw [hstring, scan_quote, hlength]
  simp only [Bool.not_false, hbody, map_add_map]

theorem quiet_numberByte {b : UInt8} (h : Json.numberByte b = true) : Quiet b := by
  refine ⟨?_, ?_, ?_⟩ <;> (rintro rfl; exact absurd h (by decide))

theorem passes_byte {b : UInt8} (h : Quiet b) (hw : Passes w) : Passes (b :: w) :=
  (passes_of_quiet (w := [b]) (by simpa using h)).append hw

theorem closes_byte {b : UInt8} (h : Quiet b) (hw : Closes w) : Closes (b :: w) :=
  (passes_of_quiet (w := [b]) (by simpa using h)).closes hw

theorem Closes.passes (h : Closes w) : Passes (ch '{' :: w) := by
  intro depth rest
  rw [List.cons_append, scan_open, h.inner, map_add_map, List.length_cons, Nat.add_comm 1]

mutual

theorem passes_write (j : Json) (h : Json.numeric j = true) : Passes (Json.write j) := by
  match j with
  | .null => exact passes_word (by decide)
  | .bool true => exact passes_word (by decide)
  | .bool false => exact passes_word (by decide)
  | .int i => exact passes_of_quiet fun b hb => quiet_numberByte (Json.numberByte_decimalInt i b hb)
  | .float text =>
    apply passes_of_quiet
    intro b hb
    rw [Json.numeric, List.all_eq_true] at h
    exact quiet_numberByte (h b (by simpa [Json.write] using hb))
  | .str s => exact passes_writeString s
  | .arr items =>
    rw [Json.write]
    exact passes_byte (by decide) (passes_writeItems items (by simpa [Json.numeric] using h))
  | .obj members =>
    rw [Json.write]
    exact (closes_writeMembers members (by simpa [Json.numeric] using h)).passes

theorem passes_writeItems (items : List Json) (h : Json.numericItems items = true) :
    Passes (Json.writeItems items) := by
  match items with
  | [] => exact passes_byte (by decide) passes_nil
  | j :: js =>
    simp only [Json.numericItems, Bool.and_eq_true] at h
    rw [Json.writeItems]
    exact (passes_write j h.1).append (passes_writeMoreItems js h.2)

theorem passes_writeMoreItems (js : List Json) (h : Json.numericItems js = true) :
    Passes (Json.writeMoreItems js) := by
  match js with
  | [] => exact passes_byte (by decide) passes_nil
  | j :: js =>
    simp only [Json.numericItems, Bool.and_eq_true] at h
    rw [Json.writeMoreItems]
    exact passes_byte (by decide) ((passes_write j h.1).append (passes_writeMoreItems js h.2))

theorem closes_writeMembers (ms : List (Bytes × Json)) (h : Json.numericMembers ms = true) :
    Closes (Json.writeMembers ms) := by
  match ms with
  | [] => exact closes_brace
  | m :: ms =>
    simp only [Json.numericMembers, Bool.and_eq_true] at h
    rw [Json.writeMembers]
    exact (passes_writeMember m h.1).closes (closes_writeMoreMembers ms h.2)

theorem closes_writeMoreMembers (ms : List (Bytes × Json)) (h : Json.numericMembers ms = true) :
    Closes (Json.writeMoreMembers ms) := by
  match ms with
  | [] => exact closes_brace
  | m :: ms =>
    simp only [Json.numericMembers, Bool.and_eq_true] at h
    rw [Json.writeMoreMembers]
    exact closes_byte (by decide)
      ((passes_writeMember m h.1).closes (closes_writeMoreMembers ms h.2))

theorem passes_writeMember (m : Bytes × Json) (h : Json.numericMember m = true) :
    Passes (Json.writeMember m) := by
  match m with
  | (key, j) =>
    rw [Json.writeMember]
    exact (passes_writeString key).append
      (passes_byte (by decide) (passes_write j (by simpa [Json.numericMember] using h)))

end

theorem scanObject_write (members : List (Bytes × Json)) (rest : Bytes)
    (h : Json.numeric (.obj members) = true) :
    scanObject 0 false false (Json.write (.obj members) ++ rest) =
      some (Json.write (.obj members)).length := by
  have hcloses := closes_writeMembers members (by simpa [Json.numeric] using h)
  rw [Json.write, List.cons_append, scan_open, hcloses.outer, Option.map_some, List.length_cons,
    Nat.add_comm]

/-- What a byte does to the scan does not depend on the text behind it: the scan goes on, ends there
or fails. -/
theorem scanObject_cons_cases (depth : Nat) (inString escapeNext : Bool) (c : UInt8) :
    (∃ depth' inString' escapeNext', ∀ rest, scanObject depth inString escapeNext (c :: rest) =
        (scanObject depth' inString' escapeNext' rest).map (1 + ·)) ∨
      (∀ rest, scanObject depth inString escapeNext (c :: rest) = some 1) ∨
      ∀ rest, scanObject depth inString escapeNext (c :: rest) = none := by
  simp only [scanObject]
  -- The tests of the loop, one after the other; none of them looks further than this byte.
  by_cases hescape : escapeNext = true
  · simp only [if_pos hescape]
    exact Or.inl ⟨_, _, _, fun _ => rfl⟩
  simp only [if_neg hescape]
  by_cases hstring : inString = true
  · simp only [if_pos hstring]
    by_cases hback : c = ch '\\'
    · simp only [if_pos hback]
      exact Or.inl ⟨_, _, _, fun _ => rfl⟩
    simp only [if_neg hback]
    by_cases hquote : c = ch '"'
    · simp only [if_pos hquote]
      exact Or.inl ⟨_, _, _, fun _ => rfl⟩
    · simp only [if_neg hquote]
      exact Or.inl ⟨_, _, _, fun _ => rfl⟩
  simp only [if_neg hstring]
  by_cases hquote : c = ch '"'
  · simp only [if_pos hquote]
    exact Or.inl ⟨_, _, _, fun _ => rfl⟩
  simp only [if_neg hquote]
  by_cases hopen : c = ch '{'
  · simp only [if_pos hopen]
    exact Or.inl ⟨_, _, _, fun _ => rfl⟩
  simp only [if_neg hopen]
  by_cases hclose : c = ch '}'
  · simp only [if_pos hclose]
    by_cases hzero : depth = 0
    · simp only [if_pos hzero]
      exact Or.inr (Or.inr fun _ => trivial)
    simp only [if_neg hzero]
    by_cases hone : depth - 1 = 0
    · simp only [if_pos hone]
      exact Or.inr (Or.inl fun _ => trivial)
    · simp only [if_neg hone]
      exact Or.inl ⟨_, _, _, fun _ => rfl⟩
  · simp only [if_neg hclose]
    exact Or.inl ⟨_, _, _, fun _ => rfl⟩

theorem scanObject_append (depth : Nat) (inString escapeNext : Bool) (w rest : Bytes) (n : Nat)
    (h : scanObject depth inString escapeNext w = some n) :
    n ≤ w.length ∧ scanObject depth inString escapeNext (w ++ rest) = some n := by
  induction w generalizing depth inString escapeNext n with
  | nil => cases h
  | cons c w ih =>
    rw [List.cons_append]
    rcases scanObject_cons_cases depth inString escapeNext c
      with ⟨depth', inString', escapeNext', hnext⟩ | hend | hfail
    · rw [hnext] at h ⊢
      obtain ⟨k, hk, rfl⟩ := Option.map_eq_some_iff.mp h
      obtain ⟨hle, heq⟩ := ih depth' inString' escapeNext' k hk
      rw [heq, List.length_cons]
      exact ⟨by omega, rfl⟩
    · rw [hend] at h ⊢
      obtain rfl := Option.some.inj h
      exact ⟨by simp, rfl⟩
    · rw [hfail] at h
      cases h

theorem firstJsonObject_brace (rest : Bytes) :
    firstJsonObject (ch '{' :: rest) =
      ((scanObject 0 false false (ch '{' :: rest)).map fun n => (ch '{' :: rest).take n).getD
        [] := by
  have hhead : (ch '{' :: rest).dropWhile (· ≠ ch '{') = ch '{' :: rest :=
    List.dropWhile_cons_of_neg (by simp)
  simp only [firstJsonObject, hhead]
  cases scanObject 0 false false (ch '{' :: rest) <;> rfl

theorem firstJsonObject_skip (before rest : Bytes) (h : ch '{' ∉ before) :
    firstJsonObject (before ++ rest) = firstJsonObject rest := by
  have hdrop : (before ++ rest).dropWhile (· ≠ ch '{') = rest.dropWhile (· ≠ ch '{') := by
    apply List.dropWhile_append_of_pos
    intro b hb
    have hne : b ≠ ch '{' := fun heq => h (heq ▸ hb)
    simp [hne]
  simp only [firstJsonObject, hdrop]

theorem firstJsonObject_write (members : List (Bytes × Json)) (rest : Bytes)
    (h : Json.numeric (.obj members) = true) :
    firstJsonObject (Json.write (.obj members) ++ rest) = Json.write (.obj members) := by
  have hscan := scanObject_write members rest h
  rw [Json.write] at hscan ⊢
  rw [List.cons_append, firstJsonObject_brace, ← List.cons_append, hscan]
  exact List.take_left

theorem firstJsonObject_cut (members : List (Bytes × Json)) (w rest : Bytes)
    (h : Json.numeric (.obj members) = true) (hw : Json.write (.obj members) = w ++ rest)
    (hrest : rest ≠ []) : firstJsonObject w = [] := by
  cases w with
  | nil => rfl
  | cons c w =>
    obtain rfl : ch '{' = c := by
      rw [Json.write] at hw
      exact (List.cons.inj hw).1
    rw [firstJsonObject_brace]
    cases hscan : scanObject 0 false false (ch '{' :: w) with
    | none => rfl
    | some n =>
      -- the scan would end there in the whole text too, and it ends with that text
      obtain ⟨hle, hlong⟩ := scanObject_append 0 false false (ch '{' :: w) rest n hscan
      have hwhole := scanObject_write members [] h
      rw [List.append_nil, hw, hlong] at hwhole
      have hn := Option.some.inj hwhole
      have hpos := List.length_pos_iff.mpr hrest
      rw [List.length_append] at hn
      omega

end Scan

/-! ## The fence -/

section Fence

theorem stripCodeFence_one_line (text : Bytes) (h : ch '\n' ∉ text) :
    stripCodeFence text = text := by
  unfold stripCodeFence
  cases hcut : Records.cutAt fence text with
  | none => rfl
  | some r =>
    have hbehind : ch '\n' ∉ r.2 := by
      intro hin
      apply h
      rw [Records.cutAt_some (x := r.1) (y := r.2) hcut]
      exact List.mem_append_right _ (List.mem_append_right _ hin)
    simp only [Bytes.cut_of_not_mem _ _ hbehind]

theorem stripCodeFence_fenced (text tail payload behind : Bytes)
    (h : Records.cutAt fence (text ++ (ascii "\n```" ++ tail)) = some (payload, behind)) :
    stripCodeFence (fenced text tail) = payload := by
  have hopen : Records.cutAt fence (fenced text tail) =
      some ([], ascii "json\n" ++ (text ++ (ascii "\n```" ++ tail))) := rfl
  have hline : Bytes.cut (ch '\n') (ascii "json\n" ++ (text ++ (ascii "\n```" ++ tail))) =
      some (ascii "json", text ++ (ascii "\n```" ++ tail)) := rfl
  unfold stripCodeFence
  rw [hopen]
  simp only [hline, h]

theorem stripCodeFence_free (text tail : Bytes) (h : ¬ fence <:+: text) :
    stripCodeFence (fenced text tail) = text ++ [ch '\n'] := by
  have hfree : ¬ fence <:+: (text ++ [ch '\n']) ++ fence.dropLast := by
    have hparts : (text ++ ch '\n' :: fence.dropLast).contains fence = text.contains fence := by
      rw [Lines.contains_append_cons (by decide), show Bytes.contains fence.dropLast fence =
        false from rfl, Bool.or_false]
    rw [List.append_assoc, List.singleton_append, ← decide_eq_false_iff_not]
    exact hparts.trans (decide_eq_false h)
  have htext : text ++ (ascii "\n```" ++ tail) = (text ++ [ch '\n']) ++ (fence ++ tail) := by
    simp [ascii, fence]
  apply stripCodeFence_fenced text tail _ tail
  rw [htext]
  exact Records.cutAt_of_free hfree

theorem stripCodeFence_cut (text tail : Bytes) (h : fence <:+: text) :
    ∃ rest, text = stripCodeFence (fenced text tail) ++ rest ∧ rest ≠ [] := by
  cases hcut : Records.cutAt fence text with
  | none => exact absurd h (Records.not_infix_of_cutAt (by decide) hcut)
  | some r =>
    rw [stripCodeFence_fenced text tail r.1 _ (Records.cutAt_append _ hcut)]
    exact ⟨fence ++ r.2, Records.cutAt_some hcut, by simp [fence, ascii]⟩

end Fence

section Vote

variable {codec} (hcodec : codec.Compact) {members : List (Bytes × Json)} {text : Bytes}
  (hdump : codec.dump (.obj members) = some text) (tail providerId : Bytes)

include hcodec hdump

theorem firstJsonObject_dump (rest : Bytes) : firstJsonObject (text ++ rest) = text := by
  rw [hcodec.dump_eq _ _ hdump]
  exact firstJsonObject_write members rest (hcodec.dump_numeric _ _ hdump)

theorem parseResponse_free (h : ¬ fence <:+: text) :
    parseResponse codec numerics (fenced text tail) providerId =
      parseResponse codec numerics text providerId := by
  have hbare := firstJsonObject_dump hcodec hdump []
  rw [List.append_nil] at hbare
  simp only [parseResponse, stripCodeFence_free _ tail h,
    stripCodeFence_one_line _ (codec.dump_one_line _ _ hdump),
    firstJsonObject_dump hcodec hdump [ch '\n'], hbare]

theorem parseResponse_cut (h : fence <:+: text) :
    parseResponse codec numerics (fenced text tail) providerId =
      .ok (.error ⟨ascii "no JSON object in response body"⟩) := by
  obtain ⟨rest, hcut, hrest⟩ := stripCodeFence_cut text tail h
  have hnone := firstJsonObject_cut members _ rest (hcodec.dump_numeric _ _ hdump)
    ((hcodec.dump_eq _ _ hdump).symm.trans hcut) hrest
  simp only [parseResponse, hnone, if_true]

theorem parseResponse_dump {b : Bool}
    (hvote : Json.find (.obj members) (ascii "true_positive") = some (.bool b)) :
    ∃ outcome, parseResponse codec numerics text providerId = .ok (.ok outcome) := by
  have hbare := firstJsonObject_dump hcodec hdump []
  rw [List.append_nil] at hbare
  simp only [parseResponse, stripCodeFence_one_line _ (codec.dump_one_line _ _ hdump), hbare,
    codec.dump_ne_nil _ _ hdump, JsonCodec.read_of_dump numerics.failure hdump, readVote, hvote,
    if_false, Json.isObject]
  exact ⟨_, rfl⟩

end Vote

/-- **Code fences.** A vote in a fence is read as the bare one is exactly when its text holds no
fence. -/
theorem fenced_response_iff (codec : JsonCodec) (hcodec : codec.Compact) (numerics : Numerics)
    (members : List (Bytes × Json)) (text tail providerId : Bytes) (b : Bool)
    (hdump : codec.dump (.obj members) = some text)
    (hvote : Json.find (.obj members) (ascii "true_positive") = some (.bool b)) :
    parseResponse codec numerics (fenced text tail) providerId =
      parseResponse codec numerics text providerId ↔ ¬ fence <:+: text := by
  constructor
  · intro heq hfence
    obtain ⟨outcome, hok⟩ := parseResponse_dump numerics hcodec hdump providerId hvote
    rw [parseResponse_cut numerics hcodec hdump tail providerId hfence, hok] at heq
    cases heq
  · exact parseResponse_free numerics hcodec hdump tail providerId

/-- **The first object.** Behind a text without a brace, exactly the text of the object is found,
whatever follows it. -/
theorem first_object_exact (codec : JsonCodec) (hcodec : codec.Compact) (before text rest : Bytes)
    (members : List (Bytes × Json)) (hbefore : ch '{' ∉ before)
    (hdump : codec.dump (.obj members) = some text) :
    firstJsonObject (before ++ (text ++ rest)) = text := by
  rw [firstJsonObject_skip before _ hbefore]
  exact firstJsonObject_dump hcodec hdump rest

/-- Braces, a quote and a backslash in a string of an inner object. -/
def bracedAnswer : List (Bytes × Json) :=
  [(ascii "a", .obj [(ascii "\x7b\"", .arr [.str (ascii "\x7d\\\"\x7b"), .obj []])]),
    (ascii "b", .int (-1))]

theorem first_object_of_braced_answer :
    firstJsonObject (ascii "Sure: " ++ (Json.write (.obj bracedAnswer) ++ ascii " \x7b\x7d")) =
      Json.write (.obj bracedAnswer) :=
  first_object_exact Json.plainCodec Json.plainCodec_compact _ _ _ bracedAnswer (by decide)
    (Json.plainCodec_dump (by decide))

/-- Doubles for whole numbers between zero and one. -/
def wholeNumerics : Numerics where
  truth n := n ≠ .int 0
  clamped n := if n = .int 1 then ascii "1" else ascii "0"
  zero := ascii "0"
  stodClamped s := if s = ascii "0" ∨ s = ascii "1" then some s else none
  failure _ := .parseError
  what _ := ascii "parse error"

def plainVote : List (Bytes × Json) := [(ascii "true_positive", .bool true)]

theorem fenced_response_plain :
    parseResponse Json.plainCodec wholeNumerics (fenced (Json.write (.obj plainVote)) (ascii "\n"))
      (ascii "m") =
      parseResponse Json.plainCodec wholeNumerics (Json.write (.obj plainVote)) (ascii "m") :=
  (fenced_response_iff Json.plainCodec Json.plainCodec_compact wholeNumerics plainVote _
    (ascii "\n") (ascii "m") true
    (Json.plainCodec_dump (by decide)) rfl).mpr (by decide)

/-- A vote whose rationale quotes a fence. -/
def quotingVote : List (Bytes × Json) :=
  [(ascii "rationale", .str (ascii "the ```sql block")), (ascii "true_positive", .bool true)]

theorem quoted_fence_loses_vote :
    Json.plainCodec.dump (.obj quotingVote) = some (Json.write (.obj quotingVote)) ∧
      Json.find (.obj quotingVote) (ascii "true_positive") = some (.bool true) ∧
      parseResponse Json.plainCodec wholeNumerics
        (fenced (Json.write (.obj quotingVote)) (ascii "\n")) (ascii "m") ≠
        parseResponse Json.plainCodec wholeNumerics (Json.write (.obj quotingVote))
          (ascii "m") := by
  -- In a fence, the text of this vote ends inside of its rationale.
  have hdump : Json.plainCodec.dump (.obj quotingVote) = some (Json.write (.obj quotingVote)) :=
    Json.plainCodec_dump (by decide)
  have hvote : Json.find (.obj quotingVote) (ascii "true_positive") = some (.bool true) := rfl
  have hfence : fence <:+: Json.write (.obj quotingVote) :=
    ⟨ascii "\x7b\"rationale\":\"the ", ascii "sql block\",\"true_positive\":true\x7d", rfl⟩
  obtain ⟨outcome, hok⟩ :=
    parseResponse_dump wholeNumerics Json.plainCodec_compact hdump (ascii "m") hvote
  have hcut := parseResponse_cut wholeNumerics Json.plainCodec_compact hdump (ascii "\n")
    (ascii "m") hfence
  refine ⟨hdump, hvote, fun heq => ?_⟩
  rw [hcut, hok] at heq
  cases heq

end Euxis.Ensemble
