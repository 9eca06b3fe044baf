import Euxis.Cli.Screen

/-!
# Styled text

The helpers of `apps/cli/src/terminal.cpp` put texts between escape sequences, and `write_text`
reads them back: where each character of such a text goes on the screen, and in which colour.
-/

namespace Euxis.Cli.Screen

open Terminal (Rgb)

/-- The helpers that put a text between a style and a reset. -/
inductive Style where
  | bold
  | dim
  | red
  | green
  | yellow
  | blue
  | cyan
  | magenta
  deriving DecidableEq

def Style.code : Style → Nat
  | .bold => 1
  | .dim => 2
  | .red => 31
  | .green => 32
  | .yellow => 33
  | .blue => 34
  | .cyan => 36
  | .magenta => 35

def Style.apply (style : Style) (text : Bytes) : Bytes :=
  ascii "\x1b[" ++ Bytes.decimal style.code ++ ascii "m" ++ text ++ ascii "\x1b[0m"

def rgbFg (c : Rgb) (text : Bytes) : Bytes :=
  ascii "\x1b[38;2;" ++ rgbText c ++ ascii "m" ++ text ++ ascii "\x1b[0m"

def utf8 (text : List Char) : Bytes := text.flatMap String.utf8EncodeChar

/-- Text as the commands put it together. -/
inductive Span where
  | plain (text : List Char)
  | styled (style : Style) (text : List Char)
  | coloured (c : Rgb) (text : List Char)

def Span.text : Span → List Char
  | .plain text => text
  | .styled _ text => text
  | .coloured _ text => text

def Span.bytes : Span → Bytes
  | .plain text => utf8 text
  | .styled style text => style.apply (utf8 text)
  | .coloured c text => rgbFg c (utf8 text)

/-- Only `rgb_fg` changes the colour; `fg` is the one that `write_text` is called with. -/
def Span.colour (fg : Rgb) : Span → Rgb
  | .coloured c _ => c
  | _ => fg

/-- The characters of a span, each with the colour it is drawn in. -/
def Span.inked (fg : Rgb) (span : Span) : List (Char × Rgb) :=
  span.text.map fun c => (c, span.colour fg)

section

variable (x : Int) (fg bg : Rgb) (bold : Bool)

/-- Characters that have their colours, put where `write_text` puts them. -/
def flow : TerminalScreen → Int → Int → List (Char × Rgb) → TerminalScreen
  | s, _, _, [] => s
  | s, cx, cy, (c, colour) :: more =>
    let pos := wrap x s.width cx cy
    if pos.2 < s.height ∧
      pos.2 ≥ 0 then flow (s.setCell pos.1 pos.2 ⟨c.toNat, colour, bg, bold⟩) (pos.1 + 1) pos.2 more
    else if pos.2 ≥ s.height then s
    else flow s pos.1 pos.2 more

/-- The loop draws the characters of the text, whatever has been drawn before. -/
def Reads (current : Rgb) (text : Bytes) (ink : List (Char × Rgb)) : Prop :=
  ∀ fuel s cx cy, text.length ≤ fuel → writeLoop x fg bg bold fuel s cx cy current text =
    flow x bg bold s cx cy ink

variable {x fg bg bold}

theorem reads_nil (current : Rgb) : Reads x fg bg bold current [] [] := by
  intro fuel s cx cy _
  cases fuel with
  | zero => rfl
  | succ fuel => rfl

theorem reads_char {current : Rgb} {rest : Bytes} {ink : List (Char × Rgb)}
    (h : Reads x fg bg bold current rest ink) {c : Char} (hline : c ≠ '\n') (hesc : c ≠ '\x1b') :
    Reads x fg bg bold current (String.utf8EncodeChar c ++ rest) ((c, current) :: ink) := by
  intro fuel s cx cy hfuel
  obtain ⟨b, more, heq, hdecode, hb⟩ := decode_char c rest
  have htoken : nextToken b more = (.char c.toNat, rest) := by
    unfold nextToken
    rw [if_neg, hdecode]
    rintro ⟨hb', -⟩
    exact hesc (Char.toNat_inj.mp (hb hb'))
  have hcp : c.toNat ≠ 0x0a := fun hcp => hline (Char.toNat_inj.mp hcp)
  have hlength : 1 ≤ (String.utf8EncodeChar c).length := by
    rw [String.length_utf8EncodeChar]
    exact Char.utf8Size_pos c
  rw [List.length_append] at hfuel
  obtain ⟨fuel, rfl⟩ : ∃ n, fuel = n + 1 := ⟨fuel - 1, by omega⟩
  have hfuel' : rest.length ≤ fuel := by omega
  simp only [heq, writeLoop, htoken, if_neg hcp, flow, h fuel _ _ _ hfuel']

theorem reads_chars {current : Rgb} {rest : Bytes} {ink : List (Char × Rgb)}
    (h : Reads x fg bg bold current rest ink) (text : List Char)
    (htext : ∀ c ∈ text, c ≠ '\n' ∧ c ≠ '\x1b') :
    Reads x fg bg bold current (utf8 text ++ rest) ((text.map fun c => (c, current)) ++ ink) := by
  induction text with
  | nil => exact h
  | cons c text ih =>
    have hc := htext c List.mem_cons_self
    have := reads_char (ih fun d hd => htext d (List.mem_cons_of_mem c hd)) hc.1 hc.2
    rwa [← List.append_assoc] at this

theorem reads_sgr (current : Rgb) {sgr rest : Bytes} {ink : List (Char × Rgb)} (hsgr : ch 'm' ∉ sgr)
    (h : Reads x fg bg bold (applySgr fg current sgr) rest ink) :
    Reads x fg bg bold current (0x1b :: ch '[' :: (sgr ++ ch 'm' :: rest)) ink := by
  intro fuel s cx cy hfuel
  have htake : (sgr ++ ch 'm' :: rest).takeWhile (· ≠ ch 'm') = sgr := by
    rw [List.takeWhile_append_of_pos]
    · simp
    · intro b hb
      exact decide_eq_true fun hbm => hsgr (hbm ▸ hb)
  have hdrop : (sgr ++ ch 'm' :: rest).dropWhile (· ≠ ch 'm') = ch 'm' :: rest := by
    rw [List.dropWhile_append_of_pos]
    · simp
    · intro b hb
      exact decide_eq_true fun hbm => hsgr (hbm ▸ hb)
  -- The reader looks ahead to the `m`, so the sequence has to be whole.
  have htoken : nextToken 0x1b (ch '[' :: (sgr ++ ch 'm' :: rest)) = (.sgr sgr, rest) := by
    unfold nextToken
    rw [if_pos]
    · simp only [List.drop_succ_cons, List.drop_zero, htake, hdrop]
    · refine ⟨rfl, ?_, rfl, ?_⟩
      · simp only [List.length_cons, List.length_append]
        omega
      · simp
  simp only [List.length_cons, List.length_append] at hfuel
  obtain ⟨fuel, rfl⟩ : ∃ n, fuel = n + 1 := ⟨fuel - 1, by omega⟩
  have hfuel' : rest.length ≤ fuel := by omega
  simp only [writeLoop, htoken, h fuel s cx cy hfuel']

theorem applySgr_reset (current : Rgb) : applySgr fg current (ascii "0") = fg := by
  unfold applySgr
  rw [if_pos rfl]

theorem applySgr_style (style : Style) : applySgr fg fg (Bytes.decimal style.code) = fg := by
  unfold applySgr
  split
  · rfl
  · rw [if_neg]
    cases style <;> decide

theorem scanInt_decimal (n : Nat) (rest : Bytes) (hrest : Json.NoDigitHead rest) (hn : n < 256) :
    scanInt (Bytes.decimal n ++ rest) = some ((n : Int), rest) := by
  obtain ⟨hspace, hminus, hplus⟩ := Mcp.decimal_unsigned n rest
  have hclamp : max (-2 ^ 63) (min (2 ^ 63 - 1) (n : Int)) = n := by omega
  simp only [scanInt, hspace, hminus, hplus, or_self, if_false, Json.readNat_decimal n rest hrest,
    hclamp]

theorem scanColour_rgb (c : Rgb) : scanColour (ascii "38;2;" ++ rgbText c) = some c := by
  have hsemi : ∀ t, Json.NoDigitHead (ch ';' :: t) := fun t => Json.noDigitHead_cons _ _ (by decide)
  have hr := scanInt_decimal c.r.toNat
    (ch ';' :: (Bytes.decimal c.g.toNat ++ ch ';' :: Bytes.decimal c.b.toNat)) (hsemi _)
    c.r.toNat_lt
  have hg := scanInt_decimal c.g.toNat (ch ';' :: Bytes.decimal c.b.toNat) (hsemi _) c.g.toNat_lt
  have hb := scanInt_decimal c.b.toNat [] (by intro b t h; cases h) c.b.toNat_lt
  rw [List.append_nil] at hb
  have htext : (ascii "38;2;" ++ rgbText c).drop 5 =
      Bytes.decimal c.r.toNat ++ ch ';' ::
        (Bytes.decimal c.g.toNat ++ ch ';' :: Bytes.decimal c.b.toNat) := by
    simp only [rgbText, List.append_assoc]
    rfl
  have hbyte : ∀ b : UInt8, UInt8.ofInt (b.toNat : Int) = b := fun b => by
    have : ((b.toNat : Int) % 2 ^ 8).toNat = b.toNat := by
      have := b.toNat_lt
      omega
    rw [UInt8.ofInt, this, UInt8.ofNat_toNat]
  unfold scanColour
  simp only [htext, hr, Option.bind_eq_bind, Option.bind_some, scanSemicolon, if_true,
    hg, hb, hbyte]
  rfl

theorem applySgr_rgb (c current : Rgb) : applySgr fg current (ascii "38;2;" ++ rgbText c) = c := by
  have hne : ascii "38;2;" ++ rgbText c ≠ ascii "0" := by
    intro h
    exact absurd (congrArg List.head? h) (by simp [ascii, ch])
  unfold applySgr
  rw [if_neg hne, if_pos, scanColour_rgb]
  · rfl
  · rw [List.isPrefixOf_iff_prefix]
    exact List.prefix_append _ _

theorem not_mem_rgbText (c : Rgb) : ch 'm' ∉ ascii "38;2;" ++ rgbText c := by
  have hdecimal : ∀ n, ch 'm' ∉ Bytes.decimal n :=
    fun n => Bytes.decimal_not_mem n _ (Or.inr (by decide))
  simp only [rgbText, List.mem_append, not_or]
  exact ⟨by decide, ⟨⟨⟨hdecimal _, by decide⟩, hdecimal _⟩, by decide⟩, hdecimal _⟩

theorem reads_span {rest : Bytes} {ink : List (Char × Rgb)} (h : Reads x fg bg bold fg rest ink)
    (span : Span) (hspan : ∀ c ∈ span.text, c ≠ '\n' ∧ c ≠ '\x1b') :
    Reads x fg bg bold fg (span.bytes ++ rest) (span.inked fg ++ ink) := by
  -- Each span ends with a reset, which goes back to the colour of the call.
  have hreset : ∀ current, Reads x fg bg bold current (ascii "\x1b[0m" ++ rest) ink := by
    intro current
    have hmem : ch 'm' ∉ ascii "0" := by decide
    exact reads_sgr current hmem (by rwa [applySgr_reset])
  cases span with
  | plain text => exact reads_chars h text hspan
  | styled style text =>
    have hbody := reads_sgr fg (Bytes.decimal_not_mem style.code (ch 'm') (Or.inr (by decide)))
      (by rw [applySgr_style]; exact reads_chars (hreset fg) text hspan)
    have hbytes : (Span.styled style text).bytes ++ rest =
        0x1b :: ch '[' :: (Bytes.decimal style.code ++ ch 'm' ::
          (utf8 text ++ (ascii "\x1b[0m" ++ rest))) := by
      simp only [Span.bytes, Style.apply, List.append_assoc]
      rfl
    rw [hbytes]
    exact hbody
  | coloured c text =>
    have hbody := reads_sgr fg (not_mem_rgbText c)
      (by rw [applySgr_rgb]; exact reads_chars (hreset c) text hspan)
    have hbytes : (Span.coloured c text).bytes ++ rest =
        0x1b :: ch '[' :: ((ascii "38;2;" ++ rgbText c) ++ ch 'm' ::
          (utf8 text ++ (ascii "\x1b[0m" ++ rest))) := by
      simp only [Span.bytes, rgbFg, List.append_assoc]
      rfl
    rw [hbytes]
    exact hbody

theorem reads_spans (spans : List Span)
    (h : ∀ span ∈ spans, ∀ c ∈ span.text, c ≠ '\n' ∧ c ≠ '\x1b') :
    Reads x fg bg bold fg (spans.flatMap Span.bytes) (spans.flatMap (Span.inked fg)) := by
  induction spans with
  | nil => exact reads_nil fg
  | cons span spans ih =>
    rw [List.flatMap_cons, List.flatMap_cons]
    exact reads_span (ih fun sp hsp => h sp (List.mem_cons_of_mem span hsp)) span
      (h span List.mem_cons_self)

/-! ## Where the characters go -/

theorem setCell_at (s : TerminalScreen) {row col : Nat} (hrow : row < s.height)
    (hcol : col < s.width) (c : Cell) {row' col' : Nat} (hcol' : col' < s.width) :
    (s.setCell col row c).drawn row' col' = if row' = row ∧ col' = col then c
      else s.drawn row' col' := by
  have hlt : row * s.width + col < s.back.length := by
    rw [s.back_length]
    exact place_lt hrow hcol
  have hin : ¬((col : Int) < 0 ∨ (col : Int) ≥ s.width ∨ (row : Int) < 0 ∨
      (row : Int) ≥ s.height) := by omega
  simp only [TerminalScreen.setCell, if_neg hin, TerminalScreen.drawn, Int.toNat_natCast]
  rw [getD_set hlt]
  by_cases heq : row' = row ∧ col' = col
  · rw [if_pos heq, if_pos (by rw [heq.1, heq.2])]
  · rw [if_neg heq, if_neg]
    intro h
    obtain ⟨h1, h2⟩ := place_inj hcol hcol' h
    exact heq ⟨h1.symm, h2.symm⟩

/-- A place right of `x` and from row `y` on has a number in the text's own rectangle. -/
def slot (w x y row col : Nat) : Nat := (row - y) * (w - x) + (col - x)

/-- The cell of a character with its colour. -/
def inkCell (bg : Rgb) (bold : Bool) (ink : Char × Rgb) : Cell := ⟨ink.1.toNat, ink.2, bg, bold⟩

theorem flow_drawn (bg : Rgb) (bold : Bool) {x y : Nat} (ink : List (Char × Rgb)) :
    ∀ (s : TerminalScreen) (q r : Nat),
    x < s.width → r ≤ s.width - x → ∀ row < s.height, ∀ col < s.width,
    (flow x bg bold s ((x + r : Nat) : Int) ((y + q : Nat) : Int) ink).drawn row col =
      if y ≤ row ∧ x ≤ col ∧ q * (s.width - x) + r ≤ slot s.width x y row col then
        ((ink[slot s.width x y row col - (q * (s.width - x) + r)]?).map (inkCell bg bold)).getD
          (s.drawn row col)
      else s.drawn row col := by
  induction ink with
  | nil =>
    intro s q r _ _ row _ col _
    simp only [flow, List.getElem?_nil, Option.map_none, Option.getD_none, ite_self]
  | cons c ink ih =>
    intro s q r hx hr row hrow col hcol
    -- the place where the character goes, with the same number
    obtain ⟨q', r', hr', hk, hwrap⟩ : ∃ q' r', r' < s.width - x ∧
      q' * (s.width - x) + r' = q * (s.width - x) + r ∧
        wrap x s.width ((x + r : Nat) : Int) ((y + q : Nat) : Int) =
          (((x + r' : Nat) : Int), ((y + q' : Nat) : Int)) := by
      by_cases hedge : r < s.width - x
      · refine ⟨q, r, hedge, rfl, ?_⟩
        unfold wrap
        rw [if_neg (by omega)]
      · refine ⟨q + 1, 0, by omega, ?_, ?_⟩
        · rw [Nat.add_mul, Nat.one_mul]
          omega
        · unfold wrap
          rw [if_pos (by omega)]
          congr 1
    rw [← hk]
    simp only [flow, hwrap]
    split
    · rename_i hin
      have hrow' : y + q' < s.height := by omega
      have hcol' : x + r' < s.width := by omega
      have hd := setCell_drawn s ((x + r' : Nat) : Int) ((y + q' : Nat) : Int) ⟨c.1.toNat,
        c.2, bg, bold⟩
      have hnext : ((x + r' : Nat) : Int) + 1 = ((x + (r' + 1) : Nat) : Int) := by omega
      rw [hnext, ih _ q' (r' + 1) (by rw [hd.width]; exact hx) (by rw [hd.width]; omega) row
        (by rw [hd.height]; exact hrow) col
        (by rw [hd.width]; exact hcol), hd.width, setCell_at s hrow' hcol' _ hcol]
      by_cases hplace : row = y + q' ∧ col = x + r'
      · have hslot : slot s.width x y row col = q' * (s.width - x) + r' := by
          rw [slot, hplace.1, hplace.2, Nat.add_sub_cancel_left, Nat.add_sub_cancel_left]
        rw [if_pos hplace, hslot, if_neg (by omega), if_pos (by omega), Nat.sub_self]
        rfl
      · rw [if_neg hplace]
        by_cases hafter : y ≤ row ∧ x ≤ col ∧ q' * (s.width - x) + r' ≤ slot s.width x y row col
        · have hne : slot s.width x y row col ≠ q' * (s.width - x) + r' := by
            intro heq
            obtain ⟨h1, h2⟩ := place_inj (by omega) hr' heq
            exact hplace ⟨by omega, by omega⟩
          obtain ⟨n, hn⟩ : ∃ n, slot s.width x y row col = q' * (s.width - x) + (r' + 1) + n :=
            ⟨slot s.width x y row col - (q' * (s.width - x) + (r' + 1)), by omega⟩
          rw [if_pos hafter, if_pos ⟨hafter.1, hafter.2.1, by omega⟩, hn, Nat.add_sub_cancel_left,
            show q' * (s.width - x) + (r' + 1) + n - (q' * (s.width - x) + r') = n +
              1 by omega, List.getElem?_cons_succ]
        · rw [if_neg hafter, if_neg (by omega)]
    · rename_i hout
      rw [if_pos (by omega)]
      -- the text has left the screen: every place of it comes before this character
      rw [if_neg]
      rintro ⟨hy, hxc, hle⟩
      have hlt : slot s.width x y row col < q' * (s.width - x) := place_lt (by omega) (by omega)
      omega

/-- Text made of plain, styled and coloured spans fills the rectangle right of `x` from row `y` on,
row by row: each character in its place with its colour, what does not fit above the bottom nowhere,
and nothing else changes. -/
theorem writeText_flows (s : TerminalScreen) {x y : Nat} (hx : x < s.width) (fg bg : Rgb)
    (bold : Bool) (spans : List Span) (hspans : ∀ span ∈ spans, ∀ c ∈ span.text, c ≠ '\n' ∧
      c ≠ '\x1b') : ∀ row < s.height, ∀ col < s.width,
    (s.writeText x y (spans.flatMap Span.bytes) fg bg bold).drawn row col =
      if y ≤ row ∧ x ≤ col then
        (((spans.flatMap (Span.inked fg))[slot s.width x y row col]?).map (inkCell bg bold)).getD
          (s.drawn row col)
      else s.drawn row col := by
  intro row hrow col hcol
  have hflow := flow_drawn bg bold (x := x) (y := y) (spans.flatMap (Span.inked fg)) s 0 0 hx
    (Nat.zero_le _)
    row hrow col hcol
  simp only [Nat.add_zero, Nat.zero_mul, Nat.zero_le, and_true, Nat.sub_zero] at hflow
  rw [TerminalScreen.writeText, reads_spans spans hspans _ s x y le_rfl, hflow]

end

theorem sampleText_flows :
    ((TerminalScreen.new 4 2).writeText (1 : Nat) (0 : Nat)
      ([.plain ['h', 'i'], .coloured ⟨200, 10, 0⟩ ['é', '!']].flatMap Span.bytes) ⟨1, 2, 3⟩ ⟨0, 0,
        0⟩ true).drawn 1 1 =
      ⟨33, ⟨200, 10, 0⟩, ⟨0, 0, 0⟩, true⟩ :=
  (writeText_flows (.new 4 2) (x := 1) (y := 0) (by decide) ⟨1, 2, 3⟩ ⟨0, 0, 0⟩ true
    [.plain ['h', 'i'], .coloured ⟨200, 10, 0⟩ ['é', '!']]
    (by simp [Span.text]) 1 (by decide) 1 (by decide)).trans (by decide)

end Euxis.Cli.Screen
