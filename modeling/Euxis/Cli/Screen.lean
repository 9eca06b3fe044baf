import Euxis.Mcp.Stdio
import Euxis.Terminal
import Euxis.Trace

/-!
# The screen

`TerminalScreen` of `apps/cli/src/terminal.cpp`: drawing changes the back buffer, and `render` sends
the cells in which the back buffer differs from the front buffer, each behind its position, with its
colours where they are not the ones sent last. Whether a cell is bold is compared but never sent.
-/

namespace Euxis.Cli.Screen

open Terminal (Rgb Glyph Display)

structure Cell where
  ch : Nat := 0x20
  fg : Rgb := ⟨255, 255, 255⟩
  bg : Rgb := ⟨0, 0, 0⟩
  bold : Bool := false
  deriving DecidableEq

/-- No cell that is drawn looks like this one. -/
def unseen : Cell := { ch := 0xFFFFFFFF }

/-- Both buffers have one cell for each place. -/
structure TerminalScreen where
  width : Nat
  height : Nat
  front : List Cell
  back : List Cell
  front_length : front.length = height * width
  back_length : back.length = height * width

theorem length_cells (n : Nat) (c : Cell) : (List.replicate n c).length = n := List.length_replicate

def TerminalScreen.new (w h : Nat) : TerminalScreen where
  width := w
  height := h
  front := List.replicate (h * w) unseen
  back := List.replicate (h * w) {}
  front_length := length_cells (h * w) unseen
  back_length := length_cells (h * w) {}

def TerminalScreen.resize (s : TerminalScreen) (w h : Nat) : TerminalScreen :=
  if w = s.width ∧ h = s.height then s else .new w h

theorem TerminalScreen.length_cleared (s : TerminalScreen) :
    (s.back.map fun _ => ({} : Cell)).length = s.height * s.width := by
  rw [List.length_map, s.back_length]

def TerminalScreen.clear (s : TerminalScreen) : TerminalScreen :=
  { s with back := s.back.map fun _ => {}, back_length := s.length_cleared }

theorem TerminalScreen.length_set (s : TerminalScreen) (i : Nat) (c : Cell) :
    (s.back.set i c).length = s.height * s.width := by
  rw [List.length_set, s.back_length]

def TerminalScreen.setCell (s : TerminalScreen) (x y : Int) (c : Cell) : TerminalScreen :=
  if x < 0 ∨ x ≥ s.width ∨ y < 0 ∨ y ≥ s.height then s
  else { s with back := s.back.set (y.toNat * s.width + x.toNat) c,
                back_length := s.length_set (y.toNat * s.width + x.toNat) c }

/-- The cell that is drawn at a place. -/
def TerminalScreen.drawn (s : TerminalScreen) (y x : Nat) : Cell := s.back.getD (y * s.width + x) {}

/-! ## Text -/

/-- What the loop of `write_text` reads next: a colour sequence, or a character. -/
inductive Token where
  | sgr (text : Bytes)
  | char (cp : Nat)

/-- The UTF-8 decoder of `write_text`. The bytes that follow the first one are not checked. -/
def decode (b : UInt8) (more : Bytes) : Nat × Bytes :=
  let c1 := b.toNat
  if c1 < 0x80 then (c1, more)
  else if c1 &&& 0xE0 = 0xC0 ∧ 1 ≤ more.length then
    ((c1 &&& 0x1F) <<< 6 ||| ((more.getD 0 0).toNat &&& 0x3F), more.drop 1)
  else if c1 &&& 0xF0 = 0xE0 ∧ 2 ≤ more.length then
    ((c1 &&& 0x0F) <<< 12 ||| ((more.getD 0 0).toNat &&& 0x3F) <<< 6 |||
      ((more.getD 1 0).toNat &&& 0x3F), more.drop 2)
  else if c1 &&& 0xF8 = 0xF0 ∧ 3 ≤ more.length then
    ((c1 &&& 0x07) <<< 18 ||| ((more.getD 0 0).toNat &&& 0x3F) <<< 12 |||
      ((more.getD 1 0).toNat &&& 0x3F) <<< 6 |||
      ((more.getD 2 0).toNat &&& 0x3F), more.drop 3)
  else (0x20, more)

/-- A sequence reaches up to the next `m`, whatever stands between; without one, the escape is a
character. -/
def nextToken (b : UInt8) (more : Bytes) : Token × Bytes :=
  if b = 0x1b ∧ 2 ≤ more.length ∧ more.getD 0 0 = ch '[' ∧ ch 'm' ∈ more.drop 1 then
    (.sgr ((more.drop 1).takeWhile (· ≠ ch 'm')), ((more.drop 1).dropWhile (· ≠ ch 'm')).drop 1)
  else (.char (decode b more).1, (decode b more).2)

/-- `%d` of `sscanf`. -/
def scanInt (s : Bytes) : Option (Int × Bytes) :=
  let s := s.dropWhile Policy.isSpace
  let negative := s.head? = some (ch '-')
  let s := if s.head? = some (ch '-') ∨ s.head? = some (ch '+') then s.tail else s
  match Json.readNat s with
  | none => none
  | some (n, rest) =>
    some (max (-2 ^ 63) (min (2 ^ 63 - 1) (if negative then -(n : Int) else n)), rest)

def scanSemicolon : Bytes → Option Bytes
  | b :: rest => if b = ch ';' then some rest else none
  | [] => none

/-- `sscanf(sgr, "38;2;%d;%d;%d", …) == 3`, with each number cut to a byte. -/
def scanColour (sgr : Bytes) : Option Rgb := do
  let (r, rest) ← scanInt (sgr.drop 5)
  let (g, rest) ← scanInt (← scanSemicolon rest)
  let (b, _) ← scanInt (← scanSemicolon rest)
  pure ⟨.ofInt r, .ofInt g, .ofInt b⟩

/-- The colour that a sequence leaves in force. -/
def applySgr (fg current : Rgb) (sgr : Bytes) : Rgb :=
  if sgr = ascii "0" then fg
  else if (ascii "38;2;").isPrefixOf sgr then (scanColour sgr).getD current
  else current

/-- Text that reaches the right edge goes on in the next row, below its first column. -/
def wrap (x width cx cy : Int) : Int × Int := if cx ≥ width then (x, cy + 1) else (cx, cy)

section

variable (x : Int) (fg bg : Rgb) (bold : Bool)

/-- The loop of `write_text`; each round takes at least one byte. -/
def writeLoop : Nat → TerminalScreen → Int → Int → Rgb → Bytes → TerminalScreen
  | 0, s, _, _, _, _ => s
  | _ + 1, s, _, _, _, [] => s
  | fuel + 1, s, cx, cy, current, b :: more =>
    match nextToken b more with
    | (.sgr sgr, rest) => writeLoop fuel s cx cy (applySgr fg current sgr) rest
    | (.char cp, rest) =>
      if cp = 0x0a then writeLoop fuel s x (cy + 1) current rest
      else
        let pos := wrap x s.width cx cy
        if pos.2 < s.height ∧ pos.2 ≥ 0 then
          writeLoop fuel (s.setCell pos.1 pos.2 ⟨cp, current, bg, bold⟩) (pos.1 + 1) pos.2
            current rest
        else if pos.2 ≥ s.height then s
        else writeLoop fuel s pos.1 pos.2 current rest

end

def TerminalScreen.writeText (s : TerminalScreen) (x y : Int) (text : Bytes) (fg bg : Rgb)
    (bold : Bool) : TerminalScreen :=
  writeLoop x fg bg bold text.length s x y fg text

def TerminalScreen.drawBox (s : TerminalScreen) (x y w h : Int) (title : Bytes) : TerminalScreen :=
  if w < 2 ∨ h < 2 then s
  else
    let s := s.setCell x y { ch := 0x256D }
    let s := s.setCell (x + w - 1) y { ch := 0x256E }
    let s := s.setCell x (y + h - 1) { ch := 0x2570 }
    let s := s.setCell (x + w - 1) (y + h - 1) { ch := 0x256F }
    let s := (List.range (w - 2).toNat).foldl
      (fun s i => (s.setCell (x + (i + 1)) y { ch := 0x2500 }).setCell (x + (i + 1)) (y + h - 1)
        { ch := 0x2500 }) s
    let s := (List.range (h - 2).toNat).foldl
      (fun s i => (s.setCell x (y + (i + 1)) { ch := 0x2502 }).setCell (x + w - 1) (y + (i + 1))
        { ch := 0x2502 }) s
    if title = [] then s
    else s.writeText (x + 2) y (ascii " " ++ title ++ ascii " ") ⟨139, 233, 253⟩ ⟨0, 0, 0⟩ true

/-! ## Rendering -/

/-- The encoder of `render`. -/
def encode (c : Nat) : Bytes :=
  if c < 0x80 then [.ofNat c]
  else if c < 0x800 then [.ofNat (0xC0 ||| c >>> 6), .ofNat (0x80 ||| (c &&& 0x3F))]
  else if c < 0x10000 then
    [.ofNat (0xE0 ||| c >>> 12), .ofNat (0x80 ||| (c >>> 6 &&& 0x3F)),
      .ofNat (0x80 ||| (c &&& 0x3F))]
  else [.ofNat (0xF0 ||| c >>> 18), .ofNat (0x80 ||| (c >>> 12 &&& 0x3F)),
    .ofNat (0x80 ||| (c >>> 6 &&& 0x3F)), .ofNat (0x80 ||| (c &&& 0x3F))]

def position (row col : Nat) : Bytes :=
  ascii "\x1b[" ++ Bytes.decimal row ++ ascii ";" ++ Bytes.decimal col ++ ascii "H"

def rgbText (c : Rgb) : Bytes :=
  Bytes.decimal c.r.toNat ++ ascii ";" ++ Bytes.decimal c.g.toNat ++ ascii ";" ++
    Bytes.decimal c.b.toNat

def colours (fg bg : Rgb) : Bytes :=
  ascii "\x1b[38;2;" ++ rgbText fg ++ ascii "m" ++ (ascii "\x1b[48;2;" ++ rgbText bg ++ ascii "m")

/-- What has been sent in one call, and the colours that were sent last. -/
structure Pass where
  out : Bytes := []
  front : List Cell
  fg : Rgb := ⟨255, 255, 255⟩
  bg : Rgb := ⟨0, 0, 0⟩
  inC : Bool := false

/-- The colours are sent where they are the first ones or new. -/
def sendColours (p : Pass) (c : Cell) : Pass :=
  if !p.inC || c.fg ≠ p.fg || c.bg ≠ p.bg then
    { p with out := p.out ++ colours c.fg c.bg, fg := c.fg, bg := c.bg, inC := true }
  else p

def renderCell (s : TerminalScreen) (p : Pass) (place : Nat × Nat) : Pass :=
  let idx := place.1 * s.width + place.2
  let c := s.drawn place.1 place.2
  if p.front.getD idx {} = c then p
  else
    let p := sendColours { p with out := p.out ++ position (place.1 + 1) (place.2 + 1) } c
    { p with out := p.out ++ encode c.ch, front := p.front.set idx c }

/-- Row by row, from left to right. -/
def TerminalScreen.places (s : TerminalScreen) : List (Nat × Nat) :=
  (List.range s.height).flatMap fun y => (List.range s.width).map fun x => (y, x)

def TerminalScreen.pass (s : TerminalScreen) : Pass :=
  s.places.foldl (renderCell s) { front := s.front }

theorem sendColours_front (p : Pass) (c : Cell) : (sendColours p c).front = p.front := by
  unfold sendColours
  split <;> rfl

theorem renderCell_length (s : TerminalScreen) (p : Pass) (place : Nat × Nat) :
    (renderCell s p place).front.length = p.front.length := by
  simp only [renderCell]
  split
  · rfl
  · rw [List.length_set, sendColours_front]

theorem TerminalScreen.length_pass (s : TerminalScreen) :
    s.pass.front.length = s.height * s.width := by
  have hfold : ∀ (l : List (Nat × Nat)) (p : Pass), (l.foldl (renderCell s) p).front.length =
      p.front.length := by
    intro l
    induction l with
    | nil => intro p; rfl
    | cons place l ih => intro p; rw [List.foldl_cons, ih, renderCell_length]
  rw [TerminalScreen.pass, hfold]
  exact s.front_length

/-- `render`: the screen behind it, and the bytes that it writes. -/
def TerminalScreen.render (s : TerminalScreen) : TerminalScreen × Bytes :=
  ({ s with front := s.pass.front, front_length := s.length_pass }, s.pass.out)

/-! ## Characters -/

theorem or_low (i n low : Nat) (hn : 2 ^ i ∣ n) (hlow : low < 2 ^ i) : n ||| low = n + low := by
  obtain ⟨k, rfl⟩ := hn
  exact (Nat.two_pow_add_eq_or_of_lt hlow k).symm

theorem low_six (n : Nat) : n &&& 0x3F = n % 64 := Nat.and_two_pow_sub_one_eq_mod n 6

theorem mark_low (n : Nat) : 0x80 ||| n % 64 = n % 64 + 0x80 := by
  rw [or_low 6 0x80 (n % 64) (by decide) (Nat.mod_lt n (by decide)), Nat.add_comm]

theorem toNat_lt (c : Char) : c.toNat < 0x110000 := by
  have := c.valid
  rw [UInt32.isValidChar, Nat.isValidChar] at this
  change c.val.toNat < 0x110000
  omega

theorem encode_char (c : Char) : encode c.toNat = String.utf8EncodeChar c := by
  have hmax := toNat_lt c
  have hval : c.val.toNat = c.toNat := rfl
  unfold encode String.utf8EncodeChar
  simp only [low_six, mark_low, Nat.shiftRight_eq_div_pow, hval]
  have hle : ∀ n, c.toNat ≤ n ↔ c.toNat < n + 1 := fun n => Nat.lt_succ_iff.symm
  simp only [hle]
  split_ifs with h1 h2 h3
  · rfl
  · rw [or_low 5 0xC0 (c.toNat / 2 ^ 6) (by decide) (by omega)]
    congr 2
    omega
  · rw [or_low 4 0xE0 (c.toNat / 2 ^ 12) (by decide) (by omega)]
    congr 2
    omega
  · rw [or_low 3 0xF0 (c.toNat / 2 ^ 18) (by decide) (by omega)]
    congr 2
    omega

theorem lead_two : ∀ k < 32, (k + 0xC0) &&& 0xE0 = 0xC0 ∧ (k + 0xC0) &&& 0x1F = k := by decide

theorem lead_three : ∀ k < 16, (k + 0xE0) &&& 0xE0 ≠ 0xC0 ∧ (k + 0xE0) &&& 0xF0 = 0xE0 ∧
    (k + 0xE0) &&& 0x0F = k := by decide

theorem lead_four : ∀ k < 8, (k + 0xF0) &&& 0xE0 ≠ 0xC0 ∧ (k + 0xF0) &&& 0xF0 ≠ 0xE0 ∧
    (k + 0xF0) &&& 0xF8 = 0xF0 ∧ (k + 0xF0) &&& 0x07 = k := by decide

theorem toNat_byte {n : Nat} (h : n < 256) : (UInt8.ofNat n).toNat = n := by
  rw [UInt8.toNat_ofNat']
  omega

theorem toNat_follow {low : Nat} (h : low < 64) :
    (UInt8.ofNat (low + 0x80)).toNat &&& 0x3F = low := by
  rw [toNat_byte (by omega), low_six]
  omega

theorem decode_two {a b : Nat} (ha : a < 32) (hb : b < 64) (rest : Bytes) :
    decode (.ofNat (a + 0xC0)) (.ofNat (b + 0x80) :: rest) = (64 * a + b, rest) := by
  obtain ⟨hlead, hbits⟩ := lead_two a ha
  simp only [decode, toNat_byte (n := a + 0xC0) (by omega), List.getD_cons_zero, toNat_follow hb,
    hlead, hbits, List.length_cons, List.drop_succ_cons, List.drop_zero]
  rw [if_neg (by omega), if_pos ⟨trivial, by omega⟩, Nat.shiftLeft_eq,
    or_low 6 _ _ (Nat.dvd_mul_left _ _) hb]
  congr 1
  omega

theorem decode_three {a b c : Nat} (ha : a < 16) (hb : b < 64) (hc : c < 64) (rest : Bytes) :
    decode (.ofNat (a + 0xE0)) (.ofNat (b + 0x80) :: .ofNat (c + 0x80) :: rest) =
      (64 * (64 * a + b) + c, rest) := by
  obtain ⟨hnot, hlead, hbits⟩ := lead_three a ha
  simp only [decode, toNat_byte (n := a + 0xE0) (by omega), List.getD_cons_zero,
    List.getD_cons_succ, toNat_follow hb,
    toNat_follow hc, hlead, hbits, List.length_cons, List.drop_succ_cons, List.drop_zero, hnot,
    false_and, if_false]
  rw [if_neg (by omega), if_pos ⟨trivial, by omega⟩, Nat.shiftLeft_eq, Nat.shiftLeft_eq,
    or_low 12 (a * 2 ^ 12) _ (Nat.dvd_mul_left _ _) (by omega), or_low 6 _ _ (by omega) hc]
  congr 1
  omega

theorem decode_four {a b c d : Nat} (ha : a < 8) (hb : b < 64) (hc : c < 64) (hd : d < 64)
    (rest : Bytes) :
    decode (.ofNat (a + 0xF0)) (.ofNat (b + 0x80) :: .ofNat (c + 0x80) :: .ofNat (d + 0x80) ::
      rest) = (64 * (64 * (64 * a + b) + c) + d, rest) := by
  obtain ⟨hnot, hnot', hlead, hbits⟩ := lead_four a ha
  simp only [decode, toNat_byte (n := a + 0xF0) (by omega), List.getD_cons_zero,
    List.getD_cons_succ, toNat_follow hb,
    toNat_follow hc, toNat_follow hd, hlead, hbits, List.length_cons, List.drop_succ_cons,
    List.drop_zero, hnot, hnot',
    false_and, if_false]
  rw [if_neg (by omega), if_pos ⟨trivial, by omega⟩, Nat.shiftLeft_eq, Nat.shiftLeft_eq,
    Nat.shiftLeft_eq,
    or_low 18 (a * 2 ^ 18) _ (Nat.dvd_mul_left _ _) (by omega),
    or_low 12 (a * 2 ^ 18 + b * 2 ^ 12) _ (by omega) (by omega),
    or_low 6 _ _ (by omega) hd]
  congr 1
  omega

theorem ofNat_esc {n : Nat} (h : n < 256) (hesc : UInt8.ofNat n = 0x1b) : n = 0x1b := by
  rw [← toNat_byte h, hesc]
  rfl

theorem decode_char (c : Char) (rest : Bytes) :
    ∃ b more, String.utf8EncodeChar c ++ rest = b :: more ∧
    decode b more = (c.toNat, rest) ∧ (b = 0x1b → c.toNat = 0x1b) := by
  have hmax := toNat_lt c
  have hval : c.val.toNat = c.toNat := rfl
  unfold String.utf8EncodeChar
  simp only [hval]
  split_ifs with h1 h2 h3 <;> simp only [List.cons_append, List.nil_append, List.cons.injEq]
  · refine ⟨_, _, ⟨rfl, rfl⟩, ?_, ofNat_esc (by omega)⟩
    simp only [decode, toNat_byte (n := c.toNat) (by omega)]
    exact if_pos (by omega)
  · refine ⟨_, _, ⟨rfl, rfl⟩, ?_, fun h => absurd (ofNat_esc (by omega) h) (by omega)⟩
    rw [decode_two (Nat.mod_lt _ (by omega)) (Nat.mod_lt _ (by omega))]
    congr 1
    omega
  · refine ⟨_, _, ⟨rfl, rfl⟩, ?_, fun h => absurd (ofNat_esc (by omega) h) (by omega)⟩
    rw [decode_three (Nat.mod_lt _ (by omega)) (Nat.mod_lt _ (by omega)) (Nat.mod_lt _ (by omega))]
    congr 1
    omega
  · refine ⟨_, _, ⟨rfl, rfl⟩, ?_, fun h => absurd (ofNat_esc (by omega) h) (by omega)⟩
    rw [decode_four (Nat.mod_lt _ (by omega)) (Nat.mod_lt _ (by omega)) (Nat.mod_lt _ (by omega))
      (Nat.mod_lt _ (by omega))]
    congr 1
    omega

/-! ## What the terminal shows -/

def look (c : Cell) : Glyph := ⟨Char.ofNat c.ch, c.fg, c.bg⟩

/-- The cell has a character that fills one place. -/
def Shows (narrow : Char → Bool) (c : Cell) : Prop :=
  c.ch.isValidChar ∧ Terminal.printable narrow (Char.ofNat c.ch) = true

instance (narrow : Char → Bool) (c : Cell) : Decidable (Shows narrow c) :=
  inferInstanceAs (Decidable (_ ∧ _))

section

variable {narrow : Char → Bool}

theorem Shows.encode_eq {c : Cell} (h : Shows narrow c) :
    encode c.ch = String.utf8EncodeChar (Char.ofNat c.ch) := by
  have : (Char.ofNat c.ch).toNat = c.ch := by
    unfold Char.ofNat
    rw [dif_pos h.1]
    rfl
  rw [← encode_char, this]

theorem Shows.ne_unseen {c : Cell} (h : Shows narrow c) : c ≠ unseen := by
  rintro rfl
  exact absurd h.1 (by decide)

theorem run_position (t : Display) (ht : t.mode = .ground) (row col : Nat) :
    t.run narrow (position row col) = some (t.moveTo row col) := by
  have htext : position row col = Terminal.sequence row [col] (ch 'H') := by
    simp only [position, Terminal.sequence, ascii, List.flatMap_cons, List.flatMap_nil,
      List.append_nil, List.append_assoc]
    rfl
  rw [htext, Terminal.run_sequence t ht _ _ _ (by decide) (by decide)]
  rfl

theorem rgb_toNat (c : Rgb) : Terminal.rgb c.r.toNat c.g.toNat c.b.toNat = some c := by
  unfold Terminal.rgb
  rw [if_pos ⟨c.r.toNat_lt, c.g.toNat_lt, c.b.toNat_lt⟩]
  simp only [UInt8.ofNat_toNat]

theorem run_colours (t : Display) (ht : t.mode = .ground) (fg bg : Rgb) :
    t.run narrow (colours fg bg) = some { t with fg, bg } := by
  have htext : ∀ (n : Nat) (text : Bytes) (c : Rgb), Bytes.decimal n = text →
      ascii "\x1b[" ++ text ++ ascii ";2;" ++ rgbText c ++ ascii "m" =
        Terminal.sequence n [2, c.r.toNat, c.g.toNat, c.b.toNat] (ch 'm') := by
    rintro n text c rfl
    simp only [rgbText, Terminal.sequence, ascii, List.flatMap_cons, List.flatMap_nil,
      List.append_nil, List.append_assoc]
    rfl
  have hfg := htext 38 (ascii "38") fg rfl
  have hbg := htext 48 (ascii "48") bg rfl
  have hcolours : colours fg bg = Terminal.sequence 38 [2, fg.r.toNat, fg.g.toNat,
      fg.b.toNat] (ch 'm') ++
      Terminal.sequence 48 [2, bg.r.toNat, bg.g.toNat, bg.b.toNat] (ch 'm') := by
    rw [← hfg, ← hbg]
    rfl
  rw [hcolours, Terminal.run_append, Terminal.run_sequence t ht _ _ _ (by decide) (by decide)]
  simp only [Display.control, if_true, rgb_toNat, Option.map_some, Option.bind_some]
  rw [Terminal.run_sequence _ rfl _ _ _ (by decide) (by decide)]
  simp only [Display.control, if_true, rgb_toNat, Option.map_some, ht]

/-! ## One pass -/

theorem place_inj {w y x y' x' : Nat} (hx : x < w) (hx' : x' < w) (h : y * w + x = y' * w + x') :
    y = y' ∧ x = x' := by
  have hw : 0 < w := Nat.zero_lt_of_lt hx
  have hy : y = y' := by
    have h1 : (y * w + x) / w =
        y := by rw [Nat.mul_comm, Nat.mul_add_div hw, Nat.div_eq_of_lt hx, Nat.add_zero]
    have h2 : (y' * w + x') / w =
        y' := by rw [Nat.mul_comm, Nat.mul_add_div hw, Nat.div_eq_of_lt hx', Nat.add_zero]
    rw [← h1, h, h2]
  subst hy
  exact ⟨rfl, Nat.add_left_cancel h⟩

theorem place_lt {w h y x : Nat} (hy : y < h) (hx : x < w) : y * w + x < h * w := by
  calc y * w + x < y * w + w := by omega
    _ = (y + 1) * w := by rw [Nat.add_mul, Nat.one_mul]
    _ ≤ h * w := Nat.mul_le_mul_right w hy

theorem getD_set {l : List Cell} {i : Nat} (h : i < l.length) (c d : Cell) (j : Nat) :
    (l.set i c).getD j d = if i = j then c else l.getD j d := by
  rw [List.getD_eq_getElem?_getD, List.getElem?_set, List.getD_eq_getElem?_getD]
  split <;> rfl

/-- The terminal has read what the pass has sent. -/
structure Follows (narrow : Char → Bool) (s : TerminalScreen) (t₀ : Display) (p : Pass)
    (t : Display) : Prop where
  run : t₀.run narrow p.out = some t
  width : t.width = s.width
  height : t.height = s.height
  ground : t.mode = .ground
  pen : p.inC = true → t.fg = p.fg ∧ t.bg = p.bg
  length : p.front.length = s.height * s.width
  front : ∀ y < s.height, ∀ x < s.width, p.front.getD (y * s.width + x) {} = unseen ∨
    t.shown y x = look (p.front.getD (y * s.width + x) {})

theorem sendColours_follows {t₀ t : Display} {p : Pass} (hrun : t₀.run narrow p.out = some t)
    (hground : t.mode = .ground) (hpen : p.inC = true → t.fg = p.fg ∧ t.bg = p.bg) (c : Cell) :
    t₀.run narrow (sendColours p c).out = some { t with fg := c.fg, bg := c.bg } ∧
      ((sendColours p c).inC = true → c.fg = (sendColours p c).fg ∧
        c.bg = (sendColours p c).bg) := by
  unfold sendColours
  split
  · refine ⟨?_, fun _ => ⟨rfl, rfl⟩⟩
    rw [Terminal.run_append, hrun, Option.bind_some, run_colours t hground]
  · rename_i h
    simp only [ne_eq, Bool.or_eq_true, Bool.not_eq_eq_eq_not, Bool.not_true, decide_not, not_or,
      Bool.not_eq_false, decide_eq_true_eq] at h
    obtain ⟨⟨hin, hfg⟩, hbg⟩ := h
    obtain ⟨htfg, htbg⟩ := hpen hin
    refine ⟨?_, fun _ => ⟨hfg, hbg⟩⟩
    rw [hrun, hfg, hbg, ← htfg, ← htbg]

theorem renderCell_follows {s : TerminalScreen} {t₀ t : Display} {p : Pass}
    (h : Follows narrow s t₀ p t) {y x : Nat} (hy : y < s.height) (hx : x < s.width)
    (hc : Shows narrow (s.drawn y x)) : ∃ t', Follows narrow s t₀ (renderCell s p (y, x)) t' := by
  simp only [renderCell]
  split
  · exact ⟨t, h⟩
  · have hmove : t₀.run narrow (p.out ++ position (y + 1) (x + 1)) =
        some (t.moveTo (y + 1) (x + 1)) := by
      rw [Terminal.run_append, h.run, Option.bind_some, run_position t h.ground]
    obtain ⟨hrun, hpen⟩ :=
      sendColours_follows (p := { p with out := p.out ++ position (y + 1) (x + 1) }) hmove rfl h.pen
        (s.drawn y x)
    set p' := sendColours { p with out := p.out ++ position (y + 1) (x + 1) } (s.drawn y x) with hp'
    have hfront : p'.front = p.front := sendColours_front _ _
    have hwidth := h.width
    have hheight := h.height
    have hrow : (t.moveTo (y + 1) (x + 1)).row = y := by
      simp only [Display.moveTo]
      omega
    have hcol : (t.moveTo (y + 1) (x + 1)).col = x := by
      simp only [Display.moveTo]
      omega
    refine ⟨({ t.moveTo (y + 1) (x + 1) with fg := (s.drawn y x).fg, bg := (s.drawn y x).bg } :
      Display).place
      (Char.ofNat (s.drawn y x).ch), ?_, hwidth, hheight, rfl, hpen, ?_, ?_⟩
    · rw [Terminal.run_append, hrun, Option.bind_some, hc.encode_eq]
      exact Terminal.run_char _ rfl hc.2 (by rw [hrow]; exact hheight ▸ hy)
        (by rw [hcol]; exact hwidth ▸ hx)
    · rw [List.length_set, hfront, h.length]
    -- The two grids change at one place each, and it is the same place.
    · intro y' hy' x' hx'
      have hlt : y * s.width + x < p'.front.length := by
        rw [hfront, h.length]
        exact place_lt hy hx
      rw [getD_set hlt]
      simp only [Display.place, hrow, hcol]
      split
      · rename_i heq
        obtain ⟨rfl, rfl⟩ := place_inj hx hx' heq
        rw [if_pos ⟨rfl, rfl⟩]
        exact Or.inr rfl
      · rename_i hne
        rw [if_neg, hfront]
        · exact h.front y' hy' x' hx'
        · rintro ⟨rfl, rfl⟩
          exact hne rfl

theorem mem_places {s : TerminalScreen} {place : Nat × Nat} :
    place ∈ s.places ↔ place.1 < s.height ∧ place.2 < s.width := by
  obtain ⟨y, x⟩ := place
  simp only [TerminalScreen.places, List.mem_flatMap, List.mem_range, List.mem_map, Prod.mk.injEq]
  constructor
  · rintro ⟨y', hy', x', hx', rfl, rfl⟩
    exact ⟨hy', hx'⟩
  · rintro ⟨hy, hx⟩
    exact ⟨y, hy, x, hx, rfl, rfl⟩

theorem pass_follows {s : TerminalScreen} (t₀ : Display)
    (hdrawn : ∀ place ∈ s.places, Shows narrow (s.drawn place.1 place.2)) (l : List (Nat × Nat))
    (hl : ∀ place ∈ l, place ∈ s.places) : ∀ (p : Pass) (t : Display), Follows narrow s t₀ p t →
    ∃ t', Follows narrow s t₀ (l.foldl (renderCell s) p) t' := by
  induction l with
  | nil => exact fun p t h => ⟨t, h⟩
  | cons place l ih =>
    intro p t h
    have hplace := hl place List.mem_cons_self
    obtain ⟨hy, hx⟩ := mem_places.mp hplace
    obtain ⟨t₁, h₁⟩ := renderCell_follows h hy hx (hdrawn place hplace)
    exact ih (fun q hq => hl q (List.mem_cons_of_mem place hq)) _ t₁ h₁

/-- The front buffer has what is drawn at a place. -/
def Sent (s : TerminalScreen) (p : Pass) (place : Nat × Nat) : Prop :=
  p.front.getD (place.1 * s.width + place.2) {} = s.drawn place.1 place.2

theorem renderCell_sent {s : TerminalScreen} {p : Pass}
    (hlength : p.front.length = s.height * s.width) {place place' : Nat × Nat}
    (h : place ∈ s.places) (h' : place' ∈ s.places) (hsent : place' = place ∨ Sent s p place') :
    Sent s (renderCell s p place) place' := by
  obtain ⟨hy, hx⟩ := mem_places.mp h
  obtain ⟨-, hx'⟩ := mem_places.mp h'
  unfold Sent at hsent ⊢
  simp only [renderCell]
  split
  · rename_i heq
    rcases hsent with rfl | hsent
    · exact heq
    · exact hsent
  · have hlt : place.1 * s.width + place.2 < p.front.length := by
      rw [hlength]
      exact place_lt hy hx
    simp only [sendColours_front]
    -- A cell that is written is sent, and no other cell is touched by it.
    rw [getD_set hlt]
    split
    · rename_i heq
      obtain ⟨h1, h2⟩ := place_inj hx hx' heq
      rw [h1, h2]
    · rename_i hne
      rcases hsent with rfl | hsent
      · exact absurd rfl hne
      · exact hsent

theorem pass_sent {s : TerminalScreen} (l : List (Nat × Nat)) (hl : ∀ place ∈ l, place ∈ s.places)
    {place : Nat × Nat} (hplace : place ∈ s.places) : ∀ p :
    Pass, p.front.length = s.height * s.width → place ∈ l ∨ Sent s p place →
    Sent s (l.foldl (renderCell s) p) place := by
  induction l with
  | nil =>
    intro p _ h
    exact h.resolve_left List.not_mem_nil
  | cons q l ih =>
    intro p hlength h
    have hq := hl q List.mem_cons_self
    refine ih (fun r hr => hl r (List.mem_cons_of_mem q hr)) _
      ((renderCell_length s p q).trans hlength) ?_
    rcases h with h | h
    · rcases List.mem_cons.mp h with rfl | h
      · exact Or.inr (renderCell_sent hlength hq hplace (Or.inl rfl))
      · exact Or.inl h
    · exact Or.inr (renderCell_sent hlength hq hplace (Or.inr h))

theorem pass_idle {s : TerminalScreen} {p : Pass} (l : List (Nat × Nat))
    (h : ∀ place ∈ l, Sent s p place) : l.foldl (renderCell s) p = p := by
  induction l with
  | nil => rfl
  | cons place l ih =>
    have hcell : renderCell s p place = p := by
      have := h place List.mem_cons_self
      unfold Sent at this
      simp only [renderCell, if_pos this]
    rw [List.foldl_cons, hcell, ih fun q hq => h q (List.mem_cons_of_mem place hq)]

theorem render_again (s : TerminalScreen) : s.render.1.render.2 = [] := by
  have hsent : ∀ place ∈ s.places, Sent s s.pass place := by
    intro place hplace
    exact pass_sent s.places (fun _ h => h) hplace _ s.front_length (Or.inl hplace)
  have hidle := pass_idle (s := s.render.1) (p := { front := s.render.1.front })
    s.render.1.places hsent
  change (s.render.1.places.foldl (renderCell s.render.1) { front := s.render.1.front }).out = []
  rw [hidle]

/-! ## Runs -/

/-- The front buffer is what the terminal shows, apart from cells that no drawing can give. -/
structure Synced (s : TerminalScreen) (t : Display) : Prop where
  width : t.width = s.width
  height : t.height = s.height
  ground : t.mode = .ground
  front : ∀ y < s.height, ∀ x < s.width, s.front.getD (y * s.width + x) {} = unseen ∨
    t.shown y x = look (s.front.getD (y * s.width + x) {})

theorem synced_new {w h : Nat} {t : Display} (hw : t.width = w) (hh : t.height = h)
    (hground : t.mode = .ground) : Synced (.new w h) t := by
  refine ⟨hw, hh, hground, ?_⟩
  intro y hy x hx
  left
  have hlt : y * w + x < h * w := place_lt hy hx
  simp only [TerminalScreen.new]
  rw [List.getD_eq_getElem?_getD, List.getElem?_replicate, if_pos hlt]
  rfl

theorem drawn_mem (s : TerminalScreen) {place : Nat × Nat} (h : place ∈ s.places) :
    s.drawn place.1 place.2 ∈ s.back := by
  obtain ⟨hy, hx⟩ := mem_places.mp h
  have hlt : place.1 * s.width + place.2 < s.back.length := by
    rw [s.back_length]
    exact place_lt hy hx
  rw [TerminalScreen.drawn, List.getD_eq_getElem?_getD, List.getElem?_eq_getElem hlt]
  exact List.getElem_mem hlt

theorem render_synced {s : TerminalScreen} {t : Display} (h : Synced s t)
    (hback : ∀ c ∈ s.back, Shows narrow c) :
    ∃ t', t.run narrow s.render.2 = some t' ∧ Synced s.render.1 t' ∧
      ∀ y < s.height, ∀ x < s.width, t'.shown y x = look (s.drawn y x) := by
  have hdrawn : ∀ place ∈ s.places, Shows narrow (s.drawn place.1 place.2) :=
    fun place hp => hback _ (drawn_mem s hp)
  obtain ⟨t', h'⟩ := pass_follows t hdrawn s.places (fun _ hp => hp) { front := s.front } t
    ⟨rfl, h.width, h.height, h.ground, fun hin => absurd hin Bool.false_ne_true,
      s.front_length, h.front⟩
  refine ⟨t', h'.run, ⟨h'.width, h'.height, h'.ground, h'.front⟩, ?_⟩
  intro y hy x hx
  have hplace : (y, x) ∈ s.places := mem_places.mpr ⟨hy, hx⟩
  have hsent : Sent s s.pass (y, x) :=
    pass_sent s.places (fun _ hp => hp) hplace _ s.front_length (Or.inl hplace)
  rcases h'.front y hy x hx with hunseen | hshown
  · exact absurd (hsent.symm.trans hunseen) (hdrawn (y, x) hplace).ne_unseen
  · rw [hshown]
    exact congrArg look hsent

/-- Drawing leaves the size and the front buffer alone. -/
structure Drawn (s s' : TerminalScreen) : Prop where
  width : s'.width = s.width
  height : s'.height = s.height
  front : s'.front = s.front

theorem Drawn.refl (s : TerminalScreen) : Drawn s s := ⟨rfl, rfl, rfl⟩

theorem Drawn.trans {s s' s'' : TerminalScreen} (h : Drawn s s') (h' : Drawn s' s'') :
    Drawn s s'' :=
  ⟨h'.width.trans h.width, h'.height.trans h.height, h'.front.trans h.front⟩

theorem setCell_drawn (s : TerminalScreen) (x y : Int) (c : Cell) : Drawn s (s.setCell x y c) := by
  unfold TerminalScreen.setCell
  split
  · exact Drawn.refl s
  · exact ⟨rfl, rfl, rfl⟩

theorem writeLoop_drawn (x : Int) (fg bg : Rgb) (bold : Bool) (fuel : Nat) :
    ∀ (s : TerminalScreen) (cx cy : Int) (current : Rgb)
    (text : Bytes), Drawn s (writeLoop x fg bg bold fuel s cx cy current text) := by
  induction fuel with
  | zero => intro s cx cy current text; exact Drawn.refl s
  | succ fuel ih =>
    intro s cx cy current text
    cases text with
    | nil => exact Drawn.refl s
    | cons b more =>
      simp only [writeLoop]
      split
      · exact ih _ _ _ _ _
      · split
        · exact ih _ _ _ _ _
        · split
          · exact (setCell_drawn _ _ _ _).trans (ih _ _ _ _ _)
          · split
            · exact Drawn.refl s
            · exact ih _ _ _ _ _

theorem foldl_drawn {f : TerminalScreen → Nat → TerminalScreen} (hf : ∀ s i, Drawn s (f s i))
    (l : List Nat) : ∀ s, Drawn s (l.foldl f s) := by
  induction l with
  | nil => exact fun s => Drawn.refl s
  | cons i l ih => exact fun s => (hf s i).trans (ih (f s i))

theorem drawBox_drawn (s : TerminalScreen) (x y w h : Int) (title : Bytes) :
    Drawn s (s.drawBox x y w h title) := by
  have htwo : ∀ (s : TerminalScreen) (x y x' y' : Int) (c : Cell),
      Drawn s ((s.setCell x y c).setCell x' y' c) :=
    fun s x y x' y' c => (setCell_drawn s x y c).trans (setCell_drawn _ x' y' c)
  unfold TerminalScreen.drawBox
  split
  · exact Drawn.refl s
  · have hcorners := ((setCell_drawn s x y { ch := 0x256D }).trans
      (setCell_drawn _ (x + w - 1) y { ch := 0x256E })).trans
      ((setCell_drawn _ x (y + h - 1) { ch := 0x2570 }).trans
        (setCell_drawn _ (x + w - 1) (y + h - 1) { ch := 0x256F }))
    have hrows := hcorners.trans
      (foldl_drawn (fun s i => htwo s (x + (i + 1)) y (x + (i + 1)) (y + h - 1) { ch := 0x2500 })
      (List.range (w - 2).toNat) _)
    have hedges := hrows.trans
      (foldl_drawn (fun s i => htwo s x (y + (i + 1)) (x + w - 1) (y + (i + 1)) { ch := 0x2502 })
      (List.range (h - 2).toNat) _)
    split
    · exact hedges
    · exact hedges.trans (writeLoop_drawn _ _ _ _ _ _ _ _ _ _)

theorem Synced.drawn {s s' : TerminalScreen} {t : Display} (h : Synced s t) (hd : Drawn s s') :
    Synced s' t := by
  refine ⟨h.width.trans hd.width.symm, h.height.trans hd.height.symm, h.ground, ?_⟩
  rw [hd.width, hd.height, hd.front]
  exact h.front

end

/-- A screen and the terminal that it writes to. -/
structure State where
  screen : TerminalScreen
  terminal : Display

/-- What a program does with a screen; `window` is the terminal behind a change of its size, with
anything on it. -/
inductive Action where
  | setCell (x y : Int) (c : Cell)
  | clear
  | writeText (x y : Int) (text : Bytes) (fg bg : Rgb) (bold : Bool)
  | drawBox (x y w h : Int) (title : Bytes)
  | render
  | window (terminal : Display)

section

variable (narrow : Char → Bool)

def step (st : State) : Action → Option State
  | .setCell x y c => some { st with screen := st.screen.setCell x y c }
  | .clear => some { st with screen := st.screen.clear }
  | .writeText x y text fg bg bold =>
    some { st with screen := st.screen.writeText x y text fg bg bold }
  | .drawBox x y w h title => some { st with screen := st.screen.drawBox x y w h title }
  | .render => (st.terminal.run narrow st.screen.render.2).map fun t => ⟨st.screen.render.1, t⟩
  | .window t => some ⟨st.screen.resize t.width t.height, t⟩

/-- A pass meets characters that fill one place; a window has a new size. -/
def Ok (st : State) : Action → Prop
  | .render => ∀ c ∈ st.screen.back, Shows narrow c
  | .window t => t.mode = .ground ∧ ¬(t.width = st.screen.width ∧ t.height = st.screen.height)
  | _ => True

variable {narrow}

theorem step_synced {st st' : State} {a : Action} (h : Synced st.screen st.terminal)
    (hok : Ok narrow st a) (hstep : step narrow st a = some st') :
    Synced st'.screen st'.terminal := by
  cases a with
  | setCell x y c =>
    cases hstep
    exact h.drawn (setCell_drawn _ _ _ _)
  | clear =>
    cases hstep
    exact h.drawn ⟨rfl, rfl, rfl⟩
  | writeText x y text fg bg bold =>
    cases hstep
    exact h.drawn (writeLoop_drawn _ _ _ _ _ _ _ _ _ _)
  | drawBox x y boxWidth boxHeight title =>
    cases hstep
    exact h.drawn (drawBox_drawn _ _ _ _ _ _)
  | render =>
    obtain ⟨t', hrun, hsynced, -⟩ := render_synced h hok
    simp only [step, hrun, Option.map_some, Option.some.injEq] at hstep
    rw [← hstep]
    exact hsynced
  | window t =>
    cases hstep
    simp only [TerminalScreen.resize, if_neg hok.2]
    exact synced_new rfl rfl hok.1

/-- After any run on any terminal, a render puts exactly what is drawn on the terminal, and the next
one would send nothing. -/
theorem reaches_shown {w h : Nat} {t : Display} {st : State} (hsize : t.width = w ∧ t.height = h)
    (hground : t.mode = .ground) (hreach : Trace.Reaches (step narrow) (Ok narrow) ⟨.new w h, t⟩ st)
    (hback : ∀ c ∈ st.screen.back, Shows narrow c) :
    ∃ t', st.terminal.run narrow st.screen.render.2 = some t' ∧
      (∀ y < st.screen.height, ∀ x < st.screen.width, t'.shown y x = look (st.screen.drawn y x)) ∧
      st.screen.render.1.render.2 = [] := by
  have hsynced : Synced st.screen st.terminal :=
    hreach.keeps (fun st => Synced st.screen st.terminal) (synced_new hsize.1 hsize.2 hground)
      fun _ _ _ hs hok hstep => step_synced hs hok hstep
  obtain ⟨t', hrun, -, hshown⟩ := render_synced hsynced hback
  exact ⟨t', hrun, hshown, render_again st.screen⟩

end

/-- A terminal of two places that shows something else. -/
def sampleTerminal : Display where
  width := 2
  height := 1
  shown := fun _ _ => ⟨'?', ⟨9, 9, 9⟩, ⟨9, 9, 9⟩⟩
  row := 0
  col := 1
  fg := ⟨9, 9, 9⟩
  bg := ⟨9, 9, 9⟩
  mode := .ground

/-- One character is drawn and sent, another one is drawn. -/
def sampleScreen : TerminalScreen :=
  ((TerminalScreen.new 2 1).setCell 0 0 { ch := 65 }).render.1.setCell 1 0
    { ch := 233, fg := ⟨1, 2, 3⟩ }

theorem sampleScreen_sent :
    (sampleTerminal.run (fun _ => true)
      ((TerminalScreen.new 2 1).setCell 0 0 { ch := 65 }).render.2).isSome = true := by
  decide

theorem sampleScreen_shown : ∃ t t' :
    Display, t.run (fun _ => true) sampleScreen.render.2 = some t' ∧
    t'.shown 0 0 = ⟨'A', ⟨255, 255, 255⟩, ⟨0, 0, 0⟩⟩ ∧
    t'.shown 0 1 = ⟨'é', ⟨1, 2, 3⟩, ⟨0, 0, 0⟩⟩ := by
  obtain ⟨t, ht⟩ := Option.isSome_iff_exists.mp sampleScreen_sent
  have hdrawn : ∀ c ∈ ((TerminalScreen.new 2 1).setCell 0 0 { ch := 65 }).back,
    Shows (fun _ => true) c := by decide
  have hsend : step (fun _ => true) ⟨(TerminalScreen.new 2 1).setCell 0 0 { ch := 65 },
    sampleTerminal⟩ .render =
      some ⟨((TerminalScreen.new 2 1).setCell 0 0 { ch := 65 }).render.1, t⟩ := by
    simp only [step, ht, Option.map_some]
  have hreach : Trace.Reaches (step fun _ => true) (Ok fun _ => true) ⟨.new 2 1, sampleTerminal⟩
      ⟨sampleScreen, t⟩ :=
    ((Trace.Reaches.start.next (.setCell 0 0 { ch := 65 }) trivial rfl).next .render
      hdrawn hsend).next
      (.setCell 1 0 { ch := 233, fg := ⟨1, 2, 3⟩ }) trivial rfl
  have hback : ∀ c ∈ sampleScreen.back, Shows (fun _ => true) c := by decide
  obtain ⟨t', hrun, hshown, -⟩ := reaches_shown (w := 2) (h := 1) ⟨rfl, rfl⟩ rfl hreach hback
  have hheight : 0 < sampleScreen.height := by decide
  have hwidth : 1 < sampleScreen.width := by decide
  exact ⟨t, t', hrun, hshown 0 hheight 0 (Nat.zero_lt_of_lt hwidth), hshown 0 hheight 1 hwidth⟩

end Euxis.Cli.Screen
