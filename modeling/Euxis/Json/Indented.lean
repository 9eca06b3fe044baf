import Mathlib.Data.List.Chain
import Euxis.Json.Compact

/-!
# The indented text

What `dump(step)` writes: each item and each member on a line of its own. The reader leaves out the
white space that is not part of a string, and reads the rest as a compact text.
-/

namespace Euxis

namespace Json

/-! ## The writer -/

def newLine (indent : Nat) : Bytes := ch '\n' :: List.replicate indent (ch ' ')

section

variable (step : Nat)

mutual

def writeIndented (indent : Nat) : Json → Bytes
  | null => ascii "null"
  | bool true => ascii "true"
  | bool false => ascii "false"
  | int i => Bytes.decimalInt i
  | float text => text
  | str s => writeString s
  | arr items => ch '[' :: indentItems indent items
  | obj members => ch '{' :: indentMembers indent members

/-- An empty array is closed on the same line. -/
def indentItems (indent : Nat) : List Json → Bytes
  | [] => [ch ']']
  | j :: js =>
    newLine (indent + step) ++ (writeIndented (indent + step) j ++ indentMoreItems indent js)

def indentMoreItems (indent : Nat) : List Json → Bytes
  | [] => newLine indent ++ [ch ']']
  | j :: js =>
    ch ',' :: (newLine (indent + step) ++
      (writeIndented (indent + step) j ++ indentMoreItems indent js))

def indentMembers (indent : Nat) : List (Bytes × Json) → Bytes
  | [] => [ch '}']
  | m :: ms =>
    newLine (indent + step) ++ (indentMember (indent + step) m ++ indentMoreMembers indent ms)

def indentMoreMembers (indent : Nat) : List (Bytes × Json) → Bytes
  | [] => newLine indent ++ [ch '}']
  | m :: ms =>
    ch ',' :: (newLine (indent + step) ++
      (indentMember (indent + step) m ++ indentMoreMembers indent ms))

def indentMember (indent : Nat) : Bytes × Json → Bytes
  | (key, j) => writeString key ++ ch ':' :: ch ' ' :: writeIndented indent j

end

end

/-! ## Lines that start with a brace -/

/-- Two bytes of a text, one behind the other. -/
def Follows (c d : UInt8) : Prop := c = ch '\n' → d ≠ ch '{'

/-- No line but the first starts with a brace, and the last line is not empty. -/
structure NoBraceLine (w : Bytes) : Prop where
  follows : w.IsChain Follows
  last : ∀ c, w.getLast? = some c → c ≠ ch '\n'

theorem NoBraceLine.append {v w : Bytes} (hv : NoBraceLine v) (hw : NoBraceLine w) :
    NoBraceLine (v ++ w) := by
  refine ⟨hv.follows.append hw.follows ?_, ?_⟩
  · intro c hc d _ hnewline
    exact absurd hnewline (hv.last c hc)
  · intro c hc
    rw [List.getLast?_append, Option.or_eq_some_iff] at hc
    rcases hc with hc | ⟨-, hc⟩
    · exact hw.last c hc
    · exact hv.last c hc

theorem noBraceLine_of_not_mem {w : Bytes} (h : ch '\n' ∉ w) : NoBraceLine w := by
  have hne : ∀ c ∈ w, c ≠ ch '\n' := fun c hc heq => h (heq ▸ hc)
  refine ⟨?_, fun c hc => hne c (List.mem_of_getLast? hc)⟩
  rw [List.isChain_iff_forall_rel_of_append_cons_cons]
  rintro c d front rest rfl hnewline
  exact absurd hnewline (hne c (by simp))

theorem NoBraceLine.not_infix {w : Bytes} (h : NoBraceLine w) :
    ¬ [ch '\n', ch '{'] <:+: w ++ [ch '\n'] := by
  rintro ⟨front, rest, heq⟩
  have hchain : (w ++ [ch '\n']).IsChain Follows := by
    apply h.follows.append (List.isChain_singleton _)
    intro c hc d _ hfeed
    exact absurd hfeed (h.last c hc)
  rw [← heq, List.append_assoc, List.cons_append, List.cons_append] at hchain
  exact List.isChain_iff_forall_rel_of_append_cons_cons.mp hchain rfl rfl rfl

theorem noBraceLine_byte {c : UInt8} {w : Bytes} (hc : c ≠ ch '\n') (h : NoBraceLine w) :
    NoBraceLine (c :: w) :=
  (noBraceLine_of_not_mem (w := [c]) (by simpa using hc.symm)).append h

theorem noBraceLine_close (indent : Nat) {c : UInt8} (hbrace : c ≠ ch '{') (hfeed : c ≠ ch '\n') :
    NoBraceLine (newLine indent ++ [c]) := by
  have hline : NoBraceLine (List.replicate indent (ch ' ') ++ [c]) := by
    apply noBraceLine_of_not_mem
    simpa [ch, Ne.symm] using hfeed.symm
  unfold newLine
  refine ⟨?_, ?_⟩
  · cases indent with
    | zero => exact List.isChain_cons_cons.mpr ⟨fun _ => hbrace, hline.follows⟩
    | succ n => exact List.isChain_cons_cons.mpr ⟨fun _ => by simp [ch], hline.follows⟩
  · intro d hd
    rw [List.cons_append, List.getLast?_cons_of_ne_nil (by simp)] at hd
    exact hline.last d hd

theorem noBraceLine_newLine {indent : Nat} (h : 0 < indent) : NoBraceLine (newLine indent) := by
  obtain ⟨n, rfl⟩ : ∃ n, indent = n + 1 := ⟨indent - 1, by omega⟩
  have hlast : newLine (n + 1) = newLine n ++ [ch ' '] := by simp [newLine, List.replicate_succ']
  rw [hlast]
  apply noBraceLine_close
  · simp [ch]
  · simp [ch]

theorem newline_number {w : Bytes} (h : ∀ b ∈ w, numberByte b = true) : ch '\n' ∉ w := by
  intro hin
  have := h _ hin
  simp [numberByte, isDigit, ascii, ch] at this

section

variable {step : Nat}

mutual

theorem noBraceLine_write (hstep : 0 < step) (j : Json) (h : numeric j = true) (indent : Nat) :
    NoBraceLine (writeIndented step indent j) := by
  match j with
  | null => exact noBraceLine_of_not_mem (by simp [writeIndented, ascii, ch])
  | bool true => exact noBraceLine_of_not_mem (by simp [writeIndented, ascii, ch])
  | bool false => exact noBraceLine_of_not_mem (by simp [writeIndented, ascii, ch])
  | int i => exact noBraceLine_of_not_mem (newline_number (numberByte_decimalInt i))
  | float text =>
    rw [numeric, List.all_eq_true] at h
    exact noBraceLine_of_not_mem (newline_number h)
  | str s => exact noBraceLine_of_not_mem (newline_writeString s)
  | arr items =>
    rw [writeIndented]
    exact noBraceLine_byte (by simp [ch])
      (noBraceLine_items hstep items (by simpa [numeric] using h) indent)
  | obj members =>
    rw [writeIndented]
    exact noBraceLine_byte (by simp [ch])
      (noBraceLine_members hstep members (by simpa [numeric] using h) indent)

theorem noBraceLine_items (hstep : 0 < step) (items : List Json) (h : numericItems items = true)
    (indent : Nat) : NoBraceLine (indentItems step indent items) := by
  match items with
  | [] => exact noBraceLine_of_not_mem (by simp [indentItems, ch])
  | j :: js =>
    rw [numericItems, Bool.and_eq_true] at h
    rw [indentItems]
    exact (noBraceLine_newLine (by omega)).append
      ((noBraceLine_write hstep j h.1 _).append (noBraceLine_moreItems hstep js h.2 indent))

theorem noBraceLine_moreItems (hstep : 0 < step) (js : List Json) (h : numericItems js = true)
    (indent : Nat) : NoBraceLine (indentMoreItems step indent js) := by
  match js with
  | [] => exact noBraceLine_close indent (by simp [ch]) (by simp [ch])
  | j :: js =>
    rw [numericItems, Bool.and_eq_true] at h
    rw [indentMoreItems]
    refine noBraceLine_byte (by simp [ch]) ((noBraceLine_newLine (by omega)).append ?_)
    exact (noBraceLine_write hstep j h.1 _).append (noBraceLine_moreItems hstep js h.2 indent)

theorem noBraceLine_members (hstep : 0 < step) (ms : List (Bytes × Json))
    (h : numericMembers ms = true) (indent : Nat) : NoBraceLine (indentMembers step indent ms) := by
  match ms with
  | [] => exact noBraceLine_of_not_mem (by simp [indentMembers, ch])
  | m :: ms =>
    rw [numericMembers, Bool.and_eq_true] at h
    rw [indentMembers]
    exact (noBraceLine_newLine (by omega)).append
      ((noBraceLine_member hstep m h.1 _).append (noBraceLine_moreMembers hstep ms h.2 indent))

theorem noBraceLine_moreMembers (hstep : 0 < step) (ms : List (Bytes × Json))
    (h : numericMembers ms = true) (indent : Nat) :
    NoBraceLine (indentMoreMembers step indent ms) := by
  match ms with
  | [] => exact noBraceLine_close indent (by simp [ch]) (by simp [ch])
  | m :: ms =>
    rw [numericMembers, Bool.and_eq_true] at h
    rw [indentMoreMembers]
    refine noBraceLine_byte (by simp [ch]) ((noBraceLine_newLine (by omega)).append ?_)
    exact (noBraceLine_member hstep m h.1 _).append (noBraceLine_moreMembers hstep ms h.2 indent)

theorem noBraceLine_member (hstep : 0 < step) (m : Bytes × Json) (h : numericMember m = true)
    (indent : Nat) : NoBraceLine (indentMember step indent m) := by
  match m with
  | (key, j) =>
    rw [indentMember]
    refine (noBraceLine_of_not_mem (newline_writeString key)).append
      (noBraceLine_byte (by simp [ch]) ?_)
    exact noBraceLine_byte (by simp [ch])
      (noBraceLine_write hstep j (by simpa [numericMember] using h) indent)

end

end

/-! ## The reader -/

def isWhite (c : UInt8) : Bool := c = ch ' ' ∨ c = ch '\t' ∨ c = ch '\n' ∨ c = ch '\r'

/-- The text without the white space between its tokens. -/
def unindent (inString escaped : Bool) : Bytes → Bytes
  | [] => []
  | c :: rest =>
    if inString then
      if escaped then c :: unindent true false rest
      else if c = ch '\\' then c :: unindent true true rest
      else if c = ch '"' then c :: unindent false false rest
      else c :: unindent true false rest
    else if isWhite c then unindent false false rest
    else c :: unindent (c = ch '"') false rest

def readIndented (text : Bytes) : Option Json := read (unindent false false text)

variable {rest : Bytes}

theorem unindent_inside (w : Bytes) (h : ∀ c ∈ w, c ≠ ch '"' ∧ c ≠ ch '\\') :
    unindent true false (w ++ rest) = w ++ unindent true false rest := by
  induction w with
  | nil => rfl
  | cons c w ih =>
    obtain ⟨hquote, hback⟩ := h c List.mem_cons_self
    rw [List.cons_append, unindent, ih fun d hd => h d (List.mem_cons_of_mem c hd)]
    simp [hquote, hback]

theorem unindent_escape (b : UInt8) :
    unindent true false (escapeByte b ++ rest) = escapeByte b ++ unindent true false rest := by
  rcases escapeByte_cases b with ⟨heq, hquote, hback⟩ | ⟨c, more, heq, hmore⟩
  · rw [heq]
    apply unindent_inside
    simp [hquote, hback]
  · have hescaped : unindent true true (c :: (more ++ rest)) = c ::
        unindent true false (more ++ rest) := rfl
    rw [heq, List.cons_append, List.cons_append, unindent, hescaped, unindent_inside more hmore]
    simp

theorem unindent_writeString (s : Bytes) :
    unindent false false (writeString s ++ rest) = writeString s ++ unindent false false rest := by
  have hbody : unindent true false (s.flatMap escapeByte ++ ch '"' :: rest) =
      s.flatMap escapeByte ++ ch '"' :: unindent false false rest := by
    induction s with
    | nil => rfl
    | cons b s ih =>
      rw [List.flatMap_cons, List.append_assoc, unindent_escape, ih, List.append_assoc]
  have hstring : ∀ t, writeString s ++ t = ch '"' :: (s.flatMap escapeByte ++ ch '"' :: t) := by
    intro t
    simp [writeString, ch]
  rw [hstring, hstring, ← hbody]
  rfl

/-- What stands between strings and white space. -/
def Inked (c : UInt8) : Prop := isWhite c = false ∧ c ≠ ch '"'

theorem unindent_byte {c : UInt8} (h : Inked c) :
    unindent false false (c :: rest) = c :: unindent false false rest := by
  rw [unindent]
  simp [h.1, h.2]

theorem unindent_inked (w : Bytes) (h : ∀ c ∈ w, Inked c) :
    unindent false false (w ++ rest) = w ++ unindent false false rest := by
  induction w with
  | nil => rfl
  | cons c w ih =>
    rw [List.cons_append, unindent_byte (h c List.mem_cons_self),
      ih fun d hd => h d (List.mem_cons_of_mem c hd)]
    rfl

theorem unindent_white {c : UInt8} (h : isWhite c = true) :
    unindent false false (c :: rest) = unindent false false rest := by
  rw [unindent]
  simp [h]

theorem unindent_newLine (indent : Nat) :
    unindent false false (newLine indent ++ rest) = unindent false false rest := by
  rw [newLine, List.cons_append, unindent_white rfl]
  induction indent with
  | zero => rfl
  | succ n ih => rw [List.replicate_succ, List.cons_append, unindent_white rfl, ih]

theorem inked_numberByte {c : UInt8} (h : numberByte c = true) : Inked c := by
  refine ⟨?_, ?_⟩
  · by_contra hwhite
    simp only [isWhite, Bool.not_eq_false, decide_eq_true_eq] at hwhite
    rcases hwhite with rfl | rfl | rfl | rfl <;> simp [numberByte, isDigit, ascii, ch] at h
  · rintro rfl
    simp [numberByte, isDigit, ascii, ch] at h

-- By induction on the value, as for the lines. The white space behind a comma or a colon is that of
-- the indented text.
mutual

theorem unindent_write (step : Nat) (j : Json) (h : numeric j = true) (indent : Nat)
    (rest : Bytes) :
    unindent false false (writeIndented step indent j ++ rest) = write j ++
      unindent false false rest := by
  match j with
  | null => rfl
  | bool true => rfl
  | bool false => rfl
  | int i => exact unindent_inked _ fun b hb => inked_numberByte (numberByte_decimalInt i b hb)
  | float text =>
    rw [numeric, List.all_eq_true] at h
    exact unindent_inked _ fun b hb => inked_numberByte (h b hb)
  | str s => exact unindent_writeString s
  | arr items =>
    rw [writeIndented, write, List.cons_append, unindent_byte (by simp [Inked, isWhite, ch]),
      unindent_items step items (by simpa [numeric] using h) indent rest]
    rfl
  | obj members =>
    rw [writeIndented, write, List.cons_append, unindent_byte (by simp [Inked, isWhite, ch]),
      unindent_members step members (by simpa [numeric] using h) indent rest]
    rfl

theorem unindent_items (step : Nat) (items : List Json) (h : numericItems items = true)
    (indent : Nat) (rest : Bytes) :
    unindent false false (indentItems step indent items ++ rest) = writeItems items ++
      unindent false false rest := by
  match items with
  | [] => rfl
  | j :: js =>
    rw [numericItems, Bool.and_eq_true] at h
    rw [indentItems, writeItems, List.append_assoc, unindent_newLine, List.append_assoc,
      unindent_write step j h.1, unindent_moreItems step js h.2, List.append_assoc]

theorem unindent_moreItems (step : Nat) (js : List Json) (h : numericItems js = true) (indent : Nat)
    (rest : Bytes) :
    unindent false false (indentMoreItems step indent js ++ rest) = writeMoreItems js ++
      unindent false false rest := by
  match js with
  | [] =>
    rw [indentMoreItems, List.append_assoc, unindent_newLine]
    rfl
  | j :: js =>
    rw [numericItems, Bool.and_eq_true] at h
    rw [indentMoreItems, writeMoreItems, List.cons_append,
      unindent_byte (by simp [Inked, isWhite, ch]), List.append_assoc,
      unindent_newLine, List.append_assoc, unindent_write step j h.1,
      unindent_moreItems step js h.2, List.cons_append,
      List.append_assoc]

theorem unindent_members (step : Nat) (ms : List (Bytes × Json)) (h : numericMembers ms = true)
    (indent : Nat) (rest : Bytes) :
    unindent false false (indentMembers step indent ms ++ rest) = writeMembers ms ++
      unindent false false rest := by
  match ms with
  | [] => rfl
  | m :: ms =>
    rw [numericMembers, Bool.and_eq_true] at h
    rw [indentMembers, writeMembers, List.append_assoc, unindent_newLine, List.append_assoc,
      unindent_member step m h.1, unindent_moreMembers step ms h.2, List.append_assoc]

theorem unindent_moreMembers (step : Nat) (ms : List (Bytes × Json)) (h : numericMembers ms = true)
    (indent : Nat) (rest : Bytes) :
    unindent false false (indentMoreMembers step indent ms ++ rest) = writeMoreMembers ms ++
      unindent false false rest := by
  match ms with
  | [] =>
    rw [indentMoreMembers, List.append_assoc, unindent_newLine]
    rfl
  | m :: ms =>
    rw [numericMembers, Bool.and_eq_true] at h
    rw [indentMoreMembers, writeMoreMembers, List.cons_append,
      unindent_byte (by simp [Inked, isWhite, ch]),
      List.append_assoc, unindent_newLine, List.append_assoc, unindent_member step m h.1,
      unindent_moreMembers step ms h.2,
      List.cons_append, List.append_assoc]

theorem unindent_member (step : Nat) (m : Bytes × Json) (h : numericMember m = true) (indent : Nat)
    (rest : Bytes) :
    unindent false false (indentMember step indent m ++ rest) = writeMember m ++
      unindent false false rest := by
  match m with
  | (key, j) =>
    rw [indentMember, writeMember, List.append_assoc, unindent_writeString, List.cons_append,
      List.cons_append,
      unindent_byte (by simp [Inked, isWhite, ch]), unindent_white (by simp [isWhite]),
      unindent_write step j (by simpa [numericMember] using h), List.append_assoc, List.cons_append]

end

theorem readIndented_write (step : Nat) (j : Json) (h : plain j = true) :
    readIndented (writeIndented step 0 j ++ [ch '\n']) = some j := by
  rw [readIndented, unindent_write step j (numeric_of_plain j h),
    unindent_white (by simp [isWhite]), unindent, List.append_nil]
  exact read_write j h

end Json

/-- The text format with an indent. A value that is read back has a text, and the text may end with
a line feed. -/
structure IndentedCodec (step : Nat) where
  dump : Json → Option Bytes
  parse : Bytes → Option Json
  dump_eq : ∀ j text, dump j = some text → text = Json.writeIndented step 0 j
  dump_numeric : ∀ j text, dump j = some text → Json.numeric j = true
  parse_dump : ∀ j text, dump j = some text → parse (text ++ [ch '\n']) = some j

/-- The codec of the writer and the reader, on values without floats. -/
def Json.indentedCodec (step : Nat) : IndentedCodec step where
  dump j := if plain j then some (writeIndented step 0 j) else none
  parse := readIndented
  dump_eq := by
    intro j text h
    exact (Option.ite_some_none_eq_some.mp h).2.symm
  dump_numeric := by
    intro j text h
    exact numeric_of_plain j (Option.ite_some_none_eq_some.mp h).1
  parse_dump := by
    intro j text h
    obtain ⟨hplain, rfl⟩ := Option.ite_some_none_eq_some.mp h
    exact readIndented_write step j hplain

end Euxis
