import Euxis.Json.Text
import Euxis.Loop
import Euxis.Policy.Code

/-!
# Syntax highlighting: `apps/cli/src/tui/syntax.cpp`

A cursor goes through a line. In each round it takes one token, whose kind depends on the byte at
the cursor and on what follows it.
-/

namespace Euxis.Cli.Syntax

inductive TokenType where
  | plain
  | keyword
  | string
  | number
  | comment
  | operator
  | function
  | type
  | preprocessor
  deriving DecidableEq, Repr

structure Token where
  start : Nat
  length : Nat
  type : TokenType
  deriving DecidableEq, Repr

inductive Language where
  | unknown
  | cpp
  | python
  | json
  | yaml
  | bash
  | markdown
  | rust
  | typeScript
  deriving DecidableEq, Repr

/-! ## Keyword sets -/

def cppKeywords : List Bytes :=
  (["auto", "break", "case", "catch", "class", "const", "constexpr", "continue", "default",
    "delete", "do", "else",
    "enum", "explicit", "export", "extern", "false", "for", "friend", "goto", "if", "inline",
    "namespace", "new",
    "noexcept", "nullptr", "operator", "override", "private", "protected", "public", "return",
    "sizeof", "static",
    "static_cast", "struct", "switch", "template", "this", "throw", "true", "try", "typedef",
    "typename", "using",
    "virtual", "void", "volatile", "while", "concept", "requires", "co_await", "co_return",
    "co_yield"] :
      List String).map ascii

def cppTypes : List Bytes :=
  (["int", "char", "bool", "float", "double", "long", "short", "unsigned", "signed", "size_t",
    "uint8_t", "uint16_t",
    "uint32_t", "uint64_t", "int8_t", "int16_t", "int32_t", "int64_t", "string", "vector",
    "map", "set",
    "unordered_map", "unordered_set", "shared_ptr", "unique_ptr", "optional", "variant", "span",
    "string_view"] :
      List String).map ascii

def pythonKeywords : List Bytes :=
  (["and", "as", "assert", "async", "await", "break", "class", "continue", "def", "del", "elif",
    "else", "except",
    "False", "finally", "for", "from", "global", "if", "import", "in", "is", "lambda", "None",
    "nonlocal", "not",
    "or", "pass", "raise", "return", "True", "try", "while", "with", "yield", "match",
    "case", "type"] :
      List String).map ascii

def rustKeywords : List Bytes :=
  (["as", "async", "await", "break", "const", "continue", "crate", "dyn", "else", "enum", "extern",
    "false", "fn",
    "for", "if", "impl", "in", "let", "loop", "match", "mod", "move", "mut", "pub", "ref", "return",
    "self", "Self",
    "static", "struct", "super", "trait", "true", "type", "unsafe", "use", "where", "while"] :
    List String).map ascii

def tsKeywords : List Bytes :=
  (["abstract", "any", "as", "async", "await", "boolean", "break", "case", "catch", "class",
    "const", "continue",
    "debugger", "default", "delete", "do", "else", "enum", "export", "extends", "false", "finally",
    "for", "from",
    "function", "if", "implements", "import", "in", "instanceof", "interface", "let", "new", "null",
    "number", "of",
    "package", "private", "protected", "public", "return", "static", "string", "super", "switch",
    "this", "throw",
    "true", "try", "type", "typeof", "undefined", "var", "void", "while", "with", "yield"] :
    List String).map ascii

def bashKeywords : List Bytes :=
  (["if", "then", "else", "elif", "fi", "for", "while", "do", "done", "case", "esac", "function",
    "return", "local",
    "export", "source", "in", "select", "until", "break", "continue", "shift", "set", "unset"] :
    List String).map ascii

/-- What the tokenizer knows of a language. -/
structure Rules where
  keywords : List Bytes := []
  types : List Bytes := []
  lineComment : Bytes := ascii "//"
  hasPreprocessor : Bool := false

/-- The rules of a language. Markdown and texts of no known language have none. -/
def rules : Language → Option Rules
  | .cpp => some { keywords := cppKeywords, types := cppTypes, hasPreprocessor := true }
  | .python => some { keywords := pythonKeywords, lineComment := ascii "#" }
  | .rust => some { keywords := rustKeywords }
  | .typeScript => some { keywords := tsKeywords }
  | .bash => some { keywords := bashKeywords, lineComment := ascii "#" }
  | .json => some { lineComment := [] }
  | .yaml => some { lineComment := ascii "#" }
  | .markdown | .unknown => none

/-! ## One token -/

def isAlpha (b : UInt8) : Bool := (ch 'A' ≤ b ∧ b ≤ ch 'Z') ∨ (ch 'a' ≤ b ∧ b ≤ ch 'z')

/-- `ispunct` in the C locale. -/
def isPunct (b : UInt8) : Bool := (33 ≤ b ∧ b ≤ 126) ∧ ¬ Bytes.isAlnum b

def isWordChar (c : UInt8) : Bool := Bytes.isAlnum c || c = ch '_'

def extractWord (rest : Bytes) : Bytes := rest.takeWhile isWordChar

/-- How many bytes of a string stand behind its opening quote. A backslash takes the next byte with
it. -/
def stringLength (quote : UInt8) : Bytes → Nat
  | [] => 0
  | [_] => 1
  | c :: d :: rest =>
    if c = quote then 1
    else if c = ch '\\' then 2 + stringLength quote rest
    else 1 + stringLength quote (d :: rest)

def startsNumber (c : UInt8) (more : Bytes) : Bool :=
  Json.isDigit c || (c = ch '.' && more.head?.any Json.isDigit)

/-- The digits of a number, in hex behind `0x`. -/
def digitsLength (c : UInt8) (more : Bytes) : Nat :=
  if c = ch '0' ∧ (more.head? = some (ch 'x') ∨ more.head? = some (ch 'X')) then
    2 + (more.tail.takeWhile Bytes.isXdigit).length
  else ((c :: more).takeWhile fun b => Json.isDigit b || b = ch '.' || b = ch 'e' || b =
    ch 'E').length

/-- The digits and the suffix behind them. -/
def numberLength (c : UInt8) (more : Bytes) : Nat :=
  let n := digitsLength c more
  n + (((c :: more).drop n).takeWhile isAlpha).length

def wordType (r : Rules) (word behind : Bytes) : TokenType :=
  if word ∈ r.keywords then .keyword
  else if word ∈ r.types then .type
  else if behind.head? = some (ch '(') then .function
  else .plain

/-- The token at the cursor: its type and its length. A comment and a preprocessor line go to the
end. -/
def nextToken (r : Rules) (c : UInt8) (more : Bytes) : TokenType × Nat :=
  let rest := c :: more
  if Policy.isSpace c then (.plain, (rest.takeWhile Policy.isSpace).length)
  else if r.lineComment ≠ [] ∧ r.lineComment.isPrefixOf rest then (.comment, rest.length)
  else if r.hasPreprocessor ∧ c = ch '#' then (.preprocessor, rest.length)
  else if c = ch '"' ∨ c = ch '\'' then (.string, 1 + stringLength c more)
  else if startsNumber c more then (.number, numberLength c more)
  else if isWordChar c then
    let word := extractWord rest
    (wordType r word (rest.drop word.length), word.length)
  else if isPunct c then (.operator, 1)
  else (.plain, 1)

/-! ## The line -/

structure Cursor where
  i : Nat := 0
  tokens : List Token := []
  deriving DecidableEq, Repr

/-- One round of the loop. -/
def step (r : Rules) (line : Bytes) (s : Cursor) : Option Cursor :=
  match line.drop s.i with
  | [] => none
  | c :: more =>
    let token := nextToken r c more
    some { i := s.i + token.2,
           tokens := s.tokens ++ [{ start := s.i, length := token.2, type := token.1 }] }

def tokenize (fuel : Nat) (line : Bytes) (lang : Language) : Option (List Token) :=
  if line = [] then some []
  else
    match rules lang with
    | none => some [{ start := 0, length := line.length, type := .plain }]
    | some r => (Loop.run (step r line) fuel {}).map (·.tokens)

/-! ## Lengths -/

theorem takeWhile_length_pos {p : UInt8 → Bool} {c : UInt8} (more : Bytes) (h : p c = true) :
    0 < ((c :: more).takeWhile p).length := by
  simp [h]

theorem takeWhile_length_le (p : UInt8 → Bool) (s : Bytes) : (s.takeWhile p).length ≤ s.length :=
  (List.takeWhile_prefix p).length_le

theorem stringLength_le (quote : UInt8) (s : Bytes) : stringLength quote s ≤ s.length := by
  fun_induction stringLength quote s with
  | case1 => exact le_refl _
  | case2 c => exact le_refl _
  | case3 d rest => simp
  | case4 d rest h ih =>
    simp only [List.length_cons]
    omega
  | case5 c d rest h h' ih =>
    simp only [List.length_cons] at ih ⊢
    omega

theorem digitsLength_pos {c : UInt8} {more : Bytes} (h : startsNumber c more = true) :
    0 < digitsLength c more := by
  unfold digitsLength
  split
  · omega
  · apply takeWhile_length_pos
    rcases Bool.or_eq_true_iff.mp h with hdigit | hpoint
    · simp [hdigit]
    · simp only [Bool.and_eq_true, decide_eq_true_eq] at hpoint
      simp [hpoint.1]

theorem digitsLength_le (c : UInt8) (more : Bytes) : digitsLength c more ≤ (c :: more).length := by
  unfold digitsLength
  split
  · rename_i hx
    cases more with
    | nil => simp at hx
    | cons x more =>
      have := takeWhile_length_le Bytes.isXdigit more
      simp only [List.tail_cons, List.length_cons]
      omega
  · exact takeWhile_length_le _ _

theorem numberLength_le (c : UInt8) (more : Bytes) : numberLength c more ≤ (c :: more).length := by
  have hdigits := digitsLength_le c more
  have hsuffix := takeWhile_length_le isAlpha ((c :: more).drop (digitsLength c more))
  rw [List.length_drop] at hsuffix
  unfold numberLength
  dsimp only
  omega

theorem nextToken_length (r : Rules) (c : UInt8) (more : Bytes) :
    0 < (nextToken r c more).2 ∧ (nextToken r c more).2 ≤ (c :: more).length := by
  have hpos : 0 < (c :: more).length := by simp
  unfold nextToken
  dsimp only
  split
  · rename_i hspace
    exact ⟨takeWhile_length_pos more hspace, takeWhile_length_le _ _⟩
  split
  · exact ⟨hpos, le_refl _⟩
  split
  · exact ⟨hpos, le_refl _⟩
  split
  · have := stringLength_le c more
    simp only [List.length_cons]
    omega
  split
  · rename_i hnumber
    have hdigits := digitsLength_pos hnumber
    refine ⟨?_, numberLength_le c more⟩
    unfold numberLength
    dsimp only
    omega
  split
  · rename_i hword
    exact ⟨takeWhile_length_pos more hword, takeWhile_length_le _ _⟩
  split
  · exact ⟨Nat.one_pos, hpos⟩
  · exact ⟨Nat.one_pos, hpos⟩

/-! ## Tiles -/

/-- Tokens of positive length, each starting where the one before it ends. -/
def Tiles (start stop : Nat) : List Token → Prop
  | [] => start = stop
  | t :: tokens => t.start = start ∧ 0 < t.length ∧ Tiles (start + t.length) stop tokens

theorem Tiles.append {start stop : Nat} {tokens : List Token} (h : Tiles start stop tokens)
    (t : Token) (hstart : t.start = stop) (hpos : 0 < t.length) :
    Tiles start (stop + t.length) (tokens ++ [t]) := by
  induction tokens generalizing start with
  | nil =>
    obtain rfl : start = stop := h
    exact ⟨hstart, hpos, rfl⟩
  | cons u tokens ih =>
    obtain ⟨hu, hupos, hrest⟩ := h
    exact ⟨hu, hupos, ih hrest⟩

/-- What holds between two rounds: the tokens go from the start of the line to the cursor. -/
structure Inv (line : Bytes) (s : Cursor) : Prop where
  tiles : Tiles 0 s.i s.tokens
  inside : s.i ≤ line.length

theorem step_none {r : Rules} {line : Bytes} {s : Cursor} (h : step r line s = none) :
    line.length ≤ s.i := by
  unfold step at h
  split at h
  · rename_i hdrop
    exact List.drop_eq_nil_iff.mp hdrop
  · cases h

theorem step_some {r : Rules} {line : Bytes} {s t : Cursor} (h : step r line s = some t)
    (hs : Inv line s) : s.i < t.i ∧ Inv line t := by
  unfold step at h
  split at h
  · cases h
  · rename_i c more hdrop
    obtain ⟨hpos, hle⟩ := nextToken_length r c more
    rw [← hdrop, List.length_drop] at hle
    have hinside := hs.inside
    obtain rfl := Option.some.inj h
    have htiles := hs.tiles.append
      { start := s.i, length := (nextToken r c more).2, type := (nextToken r c more).1 } rfl hpos
    refine ⟨?_, htiles, ?_⟩
    · dsimp only
      omega
    · dsimp only
      omega

theorem run_tiles (r : Rules) (line : Bytes) :
    ∃ fuel s, Loop.run (step r line) fuel {} = some s ∧ Tiles 0 line.length s.tokens := by
  have hstart : Inv line {} := ⟨rfl, Nat.zero_le _⟩
  have hround : ∀ s t : Cursor, Inv line s → step r line s = some t → Inv line t ∧
      line.length - t.i < line.length - s.i := by
    intro s t hs hstep
    obtain ⟨hlt, ht⟩ := step_some hstep hs
    have := ht.inside
    exact ⟨ht, by omega⟩
  obtain ⟨fuel, s, hrun, hs, hleft⟩ :=
    Loop.exists_run (Inv line) (fun s => line.length - s.i) hround hstart
  have hend : s.i = line.length := le_antisymm hs.inside (step_none hleft)
  exact ⟨fuel, s, hrun, hend ▸ hs.tiles⟩

/-- **Tokens.** The tokenizer returns for every line and every language, and its tokens tile the
line. -/
theorem tokens_tile_line (line : Bytes) (lang : Language) :
    ∃ fuel tokens, tokenize fuel line lang = some tokens ∧ Tiles 0 line.length tokens := by
  unfold tokenize
  by_cases hline : line = []
  · refine ⟨0, [], if_pos hline, ?_⟩
    rw [hline]
    rfl
  · simp only [if_neg hline]
    cases rules lang with
    | none => exact ⟨0, _, rfl, rfl, List.length_pos_iff.mpr hline, by simp [Tiles]⟩
    | some r =>
      obtain ⟨fuel, s, hrun, htiles⟩ := run_tiles r line
      exact ⟨fuel, s.tokens, by simp [hrun], htiles⟩

-- A string that is not closed, with a backslash at its end.
example : tokenize 4 (ascii "f(\"a\\") .cpp =
    some [⟨0, 1, .function⟩, ⟨1, 1, .operator⟩, ⟨2, 3, .string⟩] := by
  decide +kernel

end Euxis.Cli.Syntax
