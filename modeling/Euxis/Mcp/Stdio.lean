import Euxis.Json.RoundTrip
import Euxis.Policy.Code

/-!
# Frames on standard input and output: `apps/gateway/src/mcp_stdio.cpp`

A message is a header with its length, an empty line and its text. The stream is the bytes that are
still to be read.
-/

namespace Euxis.Mcp

/-- The JSON library and the process: the text format, the message of the exception that `dump`
throws, and the length of the longest string. -/
structure Library where
  codec : JsonCodec
  what : Json → Bytes
  maxSize : Nat

/-! ## Reading -/

/-- `std::getline`: the line, what follows it, and whether the stream ended before a line feed. -/
def getline (input : Bytes) : Option (Bytes × Bytes × Bool) :=
  if input = [] then none
  else
    match Bytes.cut (ch '\n') input with
    | some (line, rest) => some (line, rest, false)
    | none => some (input, [], true)

theorem getline_shorter {input line rest : Bytes} {eof : Bool}
    (h : getline input = some (line, rest, eof)) : rest.length < input.length := by
  unfold getline at h
  split at h
  · cases h
  · rename_i hne
    split at h
    · rename_i x y hcut
      rw [Option.some.injEq, Prod.mk.injEq, Prod.mk.injEq] at h
      rw [Bytes.cut_some _ _ _ _ hcut, ← h.2.1]
      simp
      omega
    · rw [Option.some.injEq, Prod.mk.injEq, Prod.mk.injEq] at h
      rw [← h.2.1]
      exact List.length_pos_iff.mpr hne

def dropCr (line : Bytes) : Bytes := if line.getLast? = some (ch '\r') then line.dropLast else line

/-- `std::stoull` in base ten. A minus sign wraps, and what follows the digits is not looked at. -/
def stoull (s : Bytes) : Option Nat :=
  let s := s.dropWhile Policy.isSpace
  let negative := s.head? = some (ch '-')
  let s := if s.head? = some (ch '-') ∨ s.head? = some (ch '+') then s.tail else s
  match Json.readNat s with
  | none => none
  | some (n, _) => if n < 2 ^ 64 then some (if negative then (2 ^ 64 - n) % 2 ^ 64 else n) else none

theorem stoull_lt {s : Bytes} {n : Nat} (h : stoull s = some n) : n < 2 ^ 64 := by
  simp only [stoull] at h
  split at h
  · cases h
  · split at h
    · rename_i hlt
      rw [← Option.some.inj h]
      split
      · exact Nat.mod_lt _ (by omega)
      · exact hlt
    · cases h

def lengthHeader : Bytes := ascii "Content-Length: "

inductive Headers where
  | malformed (rest : Bytes)
  | done (contentLength : Nat) (rest : Bytes) (eof : Bool)
  deriving DecidableEq, Repr

/-- The lines up to an empty one, or to the end of the stream. -/
def readHeaders (input : Bytes) (contentLength : Nat) : Headers :=
  match h : getline input with
  | none => .done contentLength [] true
  | some (line, rest, eof) =>
    have := getline_shorter h
    if dropCr line = [] then .done contentLength rest eof
    else if lengthHeader <+: dropCr line then
      match stoull ((dropCr line).drop 16) with
      | none => .malformed rest
      | some n => readHeaders rest n
    else readHeaders rest contentLength
termination_by input.length

/-- What `read_frame` returns. It throws when there is no room for the text. -/
inductive Frame where
  | nothing
  | threw
  | message (j : Json)

def readFrame (lib : Library) (input : Bytes) : Bytes × Frame :=
  match readHeaders input 0 with
  | .malformed rest => (rest, .nothing)
  | .done contentLength rest eof =>
    if eof = true ∨ contentLength = 0 then (rest, .nothing)
    else if lib.maxSize < contentLength then (rest, .threw)
    else if rest.length < contentLength then ([], .nothing)
    else
      match lib.codec.parse (rest.take contentLength) with
      | none => (rest.drop contentLength, .nothing)
      | some j => (rest.drop contentLength, .message j)

/-! ## Writing -/

def headerLine (line : Bytes) : Bytes := line ++ ascii "\r\n"

def lengthLine (body : Bytes) : Bytes := lengthHeader ++ Bytes.decimal body.length

def frameText (body : Bytes) : Bytes := headerLine (lengthLine body) ++ headerLine [] ++ body

/-- `dump` throws before anything is written. -/
def writeFrame (lib : Library) (message : Json) : Option Bytes :=
  (lib.codec.dump message).map frameText

/-! ## A frame is read back -/

theorem decimal_unsigned (n : Nat) (rest : Bytes) :
    (Bytes.decimal n ++ rest).dropWhile Policy.isSpace = Bytes.decimal n ++ rest ∧
      (Bytes.decimal n ++ rest).head? ≠ some (ch '-') ∧
      (Bytes.decimal n ++ rest).head? ≠ some (ch '+') := by
  obtain ⟨d, ds, hd⟩ := List.exists_cons_of_ne_nil (Bytes.decimal_ne_nil n)
  have hrange : 48 ≤ d.toNat ∧ d.toNat ≤ 57 := Bytes.decimal_range n d (by simp [hd])
  have hne : ∀ c : UInt8, c.toNat < 48 → d ≠ c := by
    rintro c hc rfl
    omega
  have hspace : Policy.isSpace d = false := by
    simp only [Policy.isSpace, Bool.or_eq_false_iff, beq_eq_false_iff_ne, Bool.and_eq_false_iff,
      decide_eq_false_iff_not, UInt8.le_iff_toNat_le]
    refine ⟨hne 32 (by decide), Or.inr ?_⟩
    change ¬ d.toNat ≤ 13
    omega
  rw [hd, List.cons_append]
  refine ⟨List.dropWhile_cons_of_neg (by simp [hspace]), ?_, ?_⟩
  · rw [List.head?_cons, ne_eq, Option.some.injEq]
    exact hne _ (by decide)
  · rw [List.head?_cons, ne_eq, Option.some.injEq]
    exact hne _ (by decide)

theorem stoull_decimal_append (n : Nat) (rest : Bytes) (hrest : Json.NoDigitHead rest)
    (h : n < 2 ^ 64) : stoull (Bytes.decimal n ++ rest) = some n := by
  obtain ⟨hspace, hminus, hplus⟩ := decimal_unsigned n rest
  simp only [stoull, hspace, hminus, hplus, or_self, if_false, Json.readNat_decimal n rest hrest, h,
    if_true]

theorem stoull_decimal (n : Nat) (h : n < 2 ^ 64) : stoull (Bytes.decimal n) = some n := by
  have hnone := stoull_decimal_append n [] (fun b t hbt => by cases hbt) h
  rwa [List.append_nil] at hnone

theorem getline_line (line rest : Bytes) (h : ch '\n' ∉ line) :
    getline (headerLine line ++ rest) = some (line ++ [ch '\r'], rest, false) := by
  have htext : headerLine line ++ rest = (line ++ [ch '\r']) ++ ch '\n' :: rest := by
    simp [headerLine, ascii]
  have hline : ch '\n' ∉ line ++ [ch '\r'] := by
    rw [List.mem_append, not_or]
    exact ⟨h, by decide⟩
  unfold getline
  rw [htext, if_neg (by simp), Bytes.cut_append _ _ _ hline]

theorem dropCr_append (line : Bytes) : dropCr (line ++ [ch '\r']) = line := by
  simp [dropCr]

theorem readHeaders_line (line rest : Bytes) (contentLength : Nat) (h : ch '\n' ∉ line) :
    readHeaders (headerLine line ++ rest) contentLength =
      if line = [] then .done contentLength rest false
      else if lengthHeader <+: line then
        match stoull (line.drop 16) with
        | none => .malformed rest
        | some n => readHeaders rest n
      else readHeaders rest contentLength := by
  rw [readHeaders]
  split
  · rename_i hnone
    rw [getline_line line rest h] at hnone
    cases hnone
  · rename_i line' rest' eof hsome
    rw [getline_line line rest h, Option.some.injEq, Prod.mk.injEq, Prod.mk.injEq] at hsome
    obtain ⟨rfl, rfl, rfl⟩ := hsome
    rw [dropCr_append]

/-- A line of the header that does not give the length. -/
structure OtherHeader (line : Bytes) : Prop where
  ne_nil : line ≠ []
  one_line : ch '\n' ∉ line
  other : ¬ lengthHeader <+: line

theorem readHeaders_others (lines : List Bytes) (rest : Bytes) (contentLength : Nat)
    (h : ∀ line ∈ lines, OtherHeader line) :
    readHeaders (lines.flatMap headerLine ++ rest) contentLength =
      readHeaders rest contentLength := by
  induction lines with
  | nil => rfl
  | cons line lines ih =>
    have hline := h line List.mem_cons_self
    rw [List.flatMap_cons, List.append_assoc, readHeaders_line _ _ _ hline.one_line,
      if_neg hline.ne_nil, if_neg hline.other]
    exact ih fun l hl => h l (List.mem_cons_of_mem _ hl)

theorem readHeaders_length (body rest : Bytes) (contentLength : Nat) (h : body.length < 2 ^ 64) :
    readHeaders (headerLine (lengthLine body) ++ rest) contentLength =
      readHeaders rest body.length := by
  have hline : ch '\n' ∉ lengthLine body := by
    unfold lengthLine
    rw [List.mem_append, not_or]
    exact ⟨by decide, Bytes.decimal_not_mem _ _ (by decide)⟩
  have hdrop : (lengthLine body).drop 16 = Bytes.decimal body.length := List.drop_left' (by decide)
  have hheader : lengthHeader <+: lengthLine body := List.prefix_append _ _
  have hne : lengthLine body ≠ [] := by
    intro hnil
    rw [hnil] at hheader
    exact absurd (List.prefix_nil.mp hheader) (by decide)
  rw [readHeaders_line _ _ _ hline, if_neg hne, if_pos hheader, hdrop, stoull_decimal _ h]

/-- A JSON value on the input: its text, and the header lines around the length. -/
structure Framed (lib : Library) where
  message : Json
  body : Bytes
  before : List Bytes := []
  after : List Bytes := []
  parses : lib.codec.parse body = some message
  body_ne_nil : body ≠ []
  fits : body.length ≤ lib.maxSize
  before_other : ∀ line ∈ before, OtherHeader line
  after_other : ∀ line ∈ after, OtherHeader line

def Framed.text {lib : Library} (f : Framed lib) : Bytes :=
  f.before.flatMap headerLine ++ (headerLine (lengthLine f.body) ++ (f.after.flatMap headerLine ++
    (headerLine [] ++ f.body)))

theorem readFrame_text (lib : Library) (hsize : lib.maxSize < 2 ^ 64) (f : Framed lib)
    (rest : Bytes) : readFrame lib (f.text ++ rest) = (rest, .message f.message) := by
  have hfits := f.fits
  have hpos : f.body.length ≠ 0 := by simpa using f.body_ne_nil
  have hheaders : readHeaders (f.text ++ rest) 0 = .done f.body.length (f.body ++ rest) false := by
    simp only [Framed.text, List.append_assoc]
    rw [readHeaders_others _ _ _ f.before_other, readHeaders_length _ _ _ (by omega),
      readHeaders_others _ _ _ f.after_other, readHeaders_line _ _ _ (by simp), if_pos rfl]
  unfold readFrame
  rw [hheaders]
  simp only [Bool.false_eq_true, false_or, List.take_left, List.drop_left, f.parses]
  rw [if_neg hpos, if_neg (by omega), if_neg (by simp)]

/-! ## A stream of frames -/

/-- So many calls of `read_frame` in a row, on one stream. -/
def readFrames (lib : Library) : Nat → Bytes → List Frame
  | 0, _ => []
  | n + 1, input => (readFrame lib input).2 :: readFrames lib n (readFrame lib input).1

theorem readFrame_nil (lib : Library) : readFrame lib [] = ([], .nothing) := by
  have hheaders : readHeaders [] 0 = .done 0 [] true := by
    rw [readHeaders]
    rfl
  unfold readFrame
  rw [hheaders]
  rfl

theorem readFrames_nil (lib : Library) (n : Nat) :
    readFrames lib n [] = List.replicate n .nothing := by
  induction n with
  | zero => rfl
  | succ n ih => rw [readFrames, readFrame_nil, ih, List.replicate_succ]

theorem readFrame_writeFrame (lib : Library) (hsize : lib.maxSize < 2 ^ 64) (message : Json)
    (output rest : Bytes) (hfits : ∀ text, lib.codec.dump message = some text →
      text.length ≤ lib.maxSize)
    (h : writeFrame lib message = some output) :
    readFrame lib (output ++ rest) = (rest, .message message) := by
  obtain ⟨body, hbody, rfl⟩ := Option.map_eq_some_iff.mp h
  have hframed := readFrame_text lib hsize
    { message, body
      parses := lib.codec.parse_dump _ _ hbody
      body_ne_nil := lib.codec.dump_ne_nil _ _ hbody
      fits := hfits body hbody
      before_other := by simp
      after_other := by simp } rest
  simpa [Framed.text, frameText] using hframed

/-- **Frames.** The messages that were written are read back in order, and nothing after them. -/
theorem frames_round_trip (lib : Library) (hsize : lib.maxSize < 2 ^ 64) (messages : List Json)
    (outputs : List Bytes) (hfits : ∀ m ∈ messages, ∀ text, lib.codec.dump m = some text →
      text.length ≤ lib.maxSize)
    (h : messages.mapM (writeFrame lib) = some outputs) (n : Nat) :
    readFrames lib (messages.length + n) outputs.flatten = messages.map .message ++
      List.replicate n .nothing := by
  induction messages generalizing outputs with
  | nil =>
    obtain rfl : [] = outputs := Option.some.inj h
    rw [List.length_nil, Nat.zero_add, List.flatten_nil, readFrames_nil]
    rfl
  | cons message messages ih =>
    rw [List.mapM_cons] at h
    obtain ⟨output, houtput, h⟩ := Option.bind_eq_some_iff.mp h
    obtain ⟨outputs', houtputs, h⟩ := Option.bind_eq_some_iff.mp h
    obtain rfl := Option.some.inj h
    have hread := readFrame_writeFrame lib hsize message output outputs'.flatten
      (hfits message List.mem_cons_self) houtput
    rw [List.length_cons, Nat.add_right_comm, readFrames, List.flatten_cons, hread,
      ih outputs' (fun m hm => hfits m (List.mem_cons_of_mem _ hm)) houtputs]
    rfl

/-- A message that quotes a header, and an empty array. -/
def quotingMessages : List Json := [.str (ascii "Content-Length: 9\r\n\r\n"), .arr []]

def plainLibrary : Library := { codec := Json.plainCodec, what := fun _ => [], maxSize := 2 ^ 62 }

theorem frames_round_trip_quoting :
    readFrames plainLibrary 3 (quotingMessages.map fun m => frameText (Json.write m)).flatten =
      quotingMessages.map .message ++ [.nothing] := by
  refine frames_round_trip plainLibrary (by decide) quotingMessages _ ?_ rfl 1
  intro m hm text htext
  simp only [quotingMessages, List.mem_cons, List.not_mem_nil, or_false] at hm
  rcases hm with rfl | rfl
  · obtain rfl := Option.some.inj htext
    decide
  · obtain rfl := Option.some.inj htext
    decide

end Euxis.Mcp
