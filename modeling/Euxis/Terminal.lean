import Euxis.Bytes

/-!
# Terminals

A terminal reads bytes: cursor positions, 24-bit colours, and characters in UTF-8. It shows a
character where the cursor is and moves on to the right. Whatever else a terminal may understand is
left out, and so is a character past the right edge: bytes outside of this subset have no result.
-/

namespace Euxis.Terminal

structure Rgb where
  r : UInt8
  g : UInt8
  b : UInt8
  deriving DecidableEq

/-- What one place shows. -/
structure Glyph where
  ch : Char
  fg : Rgb
  bg : Rgb
  deriving DecidableEq

/-- What has been read of an escape sequence or of a character. -/
inductive Mode where
  | ground
  | escape
  | params (before : List Nat) (last : Nat)
  | rest (more least value : Nat)

structure Display where
  width : Nat
  height : Nat
  shown : Nat → Nat → Glyph
  row : Nat
  col : Nat
  fg : Rgb
  bg : Rgb
  mode : Mode

/-! ## Reading -/

/-- A character that fills one place; `narrow` tells which ones do. -/
def printable (narrow : Char → Bool) (c : Char) : Bool :=
  (decide (0x20 ≤ c.toNat ∧ c.toNat < 0x7f) || decide (0xa0 ≤ c.toNat)) && narrow c

def Display.place (t : Display) (c : Char) : Display :=
  { t with
    shown := fun row col => if row = t.row ∧ col = t.col then ⟨c, t.fg, t.bg⟩ else t.shown row col
    col := t.col + 1
    mode := .ground }

/-- Rows and columns are counted from 1 on, and the cursor stays on the screen. -/
def Display.moveTo (t : Display) (row col : Nat) : Display :=
  { t with row := min (row - 1) (t.height - 1), col := min (col - 1) (t.width - 1),
           mode := .ground }

def rgb (r g b : Nat) : Option Rgb :=
  if r < 256 ∧ g < 256 ∧ b < 256 then some ⟨.ofNat r, .ofNat g, .ofNat b⟩ else none

def Display.control (t : Display) (params : List Nat) (final : UInt8) : Option Display :=
  match params with
  | [row, col] => if final = ch 'H' then some (t.moveTo row col) else none
  | [38, 2, r, g, b] =>
    if final = ch 'm' then (rgb r g b).map fun c => { t with fg := c, mode := .ground } else none
  | [48, 2, r, g, b] =>
    if final = ch 'm' then (rgb r g b).map fun c => { t with bg := c, mode := .ground } else none
  | _ => none

section

variable (narrow : Char → Bool)

def Display.print (t : Display) (c : Char) : Option Display :=
  if printable narrow c ∧ t.row < t.height ∧ t.col < t.width then some (t.place c) else none

/-- A first byte says how many follow and how small the character may be. -/
def Display.lead (t : Display) (b : Nat) : Option Display :=
  if 0xc0 ≤ b ∧ b < 0xe0 then some { t with mode := .rest 0 0x80 (b - 0xc0) }
  else if 0xe0 ≤ b ∧ b < 0xf0 then some { t with mode := .rest 1 0x800 (b - 0xe0) }
  else if 0xf0 ≤ b ∧ b < 0xf8 then some { t with mode := .rest 2 0x10000 (b - 0xf0) }
  else none

/-- `more` bytes are to come behind this one. -/
def Display.next (t : Display) (more least value : Nat) (b : Nat) : Option Display :=
  if 0x80 ≤ b ∧ b < 0xc0 then
    match more with
    | 0 => if least ≤ 64 * value + (b - 0x80) ∧ (64 * value + (b - 0x80)).isValidChar then
        t.print narrow (Char.ofNat (64 * value + (b - 0x80))) else none
    | more + 1 => some { t with mode := .rest more least (64 * value + (b - 0x80)) }
  else none

def Display.feed (t : Display) (b : UInt8) : Option Display :=
  match t.mode with
  | .ground =>
    if b = 0x1b then some { t with mode := .escape }
    else if b < 0x80 then t.print narrow (Char.ofNat b.toNat)
    else t.lead b.toNat
  | .escape => if b = ch '[' then some { t with mode := .params [] 0 } else none
  | .params before last =>
    if ch '0' ≤ b ∧ b ≤ ch '9' then
      some { t with mode := .params before (10 * last + (b.toNat - 48)) }
    else if b = ch ';' then some { t with mode := .params (before ++ [last]) 0 }
    else t.control (before ++ [last]) b
  | .rest more least value => t.next narrow more least value b.toNat

def Display.run (t : Display) (text : Bytes) : Option Display := text.foldlM (Display.feed narrow) t

variable {narrow}

@[simp] theorem run_nil (t : Display) : t.run narrow [] = some t := rfl

theorem run_cons (t : Display) (b : UInt8) (text : Bytes) :
    t.run narrow (b :: text) = (t.feed narrow b).bind fun t' => t'.run narrow text := by
  simp only [Display.run, List.foldlM_cons, Option.bind_eq_bind]

theorem run_append (t : Display) (text more : Bytes) :
    t.run narrow (text ++ more) = (t.run narrow text).bind fun t' => t'.run narrow more := by
  simp only [Display.run, List.foldlM_append, Option.bind_eq_bind]

/-! ## Escape sequences -/

theorem digit_range {c : Char} (h : c.isDigit = true) : 48 ≤ c.toNat ∧ c.toNat ≤ 57 := by
  simp only [Char.isDigit, Bool.and_eq_true, decide_eq_true_eq, UInt32.le_iff_toNat_le] at h
  exact h

theorem feed_digit (t : Display) (before : List Nat) (last : Nat) {c : Char}
    (h : c.isDigit = true) :
    ({ t with mode := .params before last } : Display).feed narrow (ch c) =
      some { t with mode := .params before (10 * last + (c.toNat - 48)) } := by
  obtain ⟨hlow, hhigh⟩ := digit_range h
  have hch : (ch c).toNat = c.toNat := by
    simp only [ch, UInt8.toNat_ofNat']
    omega
  have hdigit : ch '0' ≤ ch c ∧ ch c ≤ ch '9' := by
    simp only [UInt8.le_iff_toNat_le, hch]
    exact ⟨hlow, hhigh⟩
  simp only [Display.feed, if_pos hdigit, hch]

theorem run_digits (t : Display) (before : List Nat) (cs : List Char)
    (h : ∀ c ∈ cs, c.isDigit = true) :
    ∀ last, ({ t with mode := .params before last } : Display).run narrow (cs.map ch) =
      some { t with mode := .params before (Nat.ofDigitChars 10 cs last) } := by
  induction cs with
  | nil => intro last; rfl
  | cons c cs ih =>
    intro last
    rw [List.map_cons, run_cons, feed_digit t before last (h c List.mem_cons_self),
      Option.bind_some, ih fun d hd => h d (List.mem_cons_of_mem c hd)]
    rfl

theorem run_decimal (t : Display) (before : List Nat) (n : Nat) (rest : Bytes) :
    ({ t with mode := .params before 0 } : Display).run narrow (Bytes.decimal n ++ rest) =
      ({ t with mode := .params before n } : Display).run narrow rest := by
  rw [run_append, Bytes.decimal, run_digits t before _ (Bytes.toDigits_isDigit n), Option.bind_some,
    Nat.ofDigitChars_ten_toDigits]

/-- A control sequence with its parameters. -/
def sequence (p : Nat) (ps : List Nat) (final : UInt8) : Bytes :=
  0x1b :: ch '[' :: (Bytes.decimal p ++
    ((ps.flatMap fun q => ch ';' :: Bytes.decimal q) ++ [final]))

theorem control_mode (t : Display) (m : Mode) (params : List Nat) (final : UInt8) :
    ({ t with mode := m } : Display).control params final = t.control params final := by
  unfold Display.control
  split <;> rfl

theorem run_params (t : Display) (final : UInt8) (hdigit : ¬(ch '0' ≤ final ∧ final ≤ ch '9'))
    (hsemi : final ≠ ch ';') (ps : List Nat) : ∀ before last,
    ({ t with mode := .params before last } : Display).run narrow
      ((ps.flatMap fun q => ch ';' :: Bytes.decimal q) ++ [final]) =
      t.control (before ++ last :: ps) final := by
  induction ps with
  | nil =>
    intro before last
    rw [List.flatMap_nil, List.nil_append, run_cons]
    simp only [Display.feed, if_neg hdigit, if_neg hsemi, control_mode, run_nil]
    exact Option.bind_fun_some _
  | cons q ps ih =>
    intro before last
    have hnot : ¬(ch '0' ≤ ch ';' ∧ ch ';' ≤ ch '9') := by decide
    rw [List.flatMap_cons, List.append_assoc, List.cons_append, run_cons]
    simp only [Display.feed, if_neg hnot, if_true, Option.bind_some]
    rw [run_decimal, ih, List.append_assoc, List.singleton_append]

theorem run_sequence (t : Display) (ht : t.mode = .ground) (p : Nat) (ps : List Nat) (final : UInt8)
    (hdigit : ¬(ch '0' ≤ final ∧ final ≤ ch '9')) (hsemi : final ≠ ch ';') :
    t.run narrow (sequence p ps final) = t.control (p :: ps) final := by
  have hesc : t.feed narrow 0x1b = some { t with mode := .escape } := by
    simp only [Display.feed, ht, if_true]
  have hcsi : ({ t with mode := .escape } : Display).feed narrow (ch '[') =
    some { t with mode := .params [] 0 } := by
    simp only [Display.feed, if_true]
  rw [sequence, run_cons, hesc, Option.bind_some, run_cons, hcsi, Option.bind_some, run_decimal,
    run_params t final hdigit hsemi, List.nil_append]

/-! ## Characters -/

theorem print_mode (t : Display) (m : Mode) (c : Char) :
    ({ t with mode := m } : Display).print narrow c = t.print narrow c := rfl

theorem feed_lead (t : Display) (ht : t.mode = .ground) (b : Nat) (hlow : 0x80 ≤ b)
    (hhigh : b < 256) : t.feed narrow (.ofNat b) = t.lead b := by
  have hb : (UInt8.ofNat b).toNat = b := by
    rw [UInt8.toNat_ofNat']
    omega
  have hesc : UInt8.ofNat b ≠ 0x1b := by
    intro h
    have : b = 27 := by rw [← hb, h]; rfl
    omega
  have hascii : ¬ UInt8.ofNat b < 0x80 := by
    rw [UInt8.lt_iff_toNat_lt, hb]
    exact Nat.not_lt.mpr hlow
  simp only [Display.feed, ht, if_neg hesc, if_neg hascii, hb]

theorem feed_next (t : Display) (more least value low : Nat) (h : low < 64) :
    ({ t with mode := .rest (more + 1) least value } : Display).feed narrow (.ofNat (low + 0x80)) =
      some { t with mode := .rest more least (64 * value + low) } := by
  have hb : (UInt8.ofNat (low + 0x80)).toNat = low + 0x80 := by
    rw [UInt8.toNat_ofNat']
    omega
  have hrange : 0x80 ≤ low + 0x80 ∧ low + 0x80 < 0xc0 := by omega
  simp only [Display.feed, Display.next, hb, if_pos hrange, Nat.add_sub_cancel]

theorem feed_last (t : Display) (least value low : Nat) (h : low < 64) {c : Char}
    (hc : c.toNat = 64 * value + low) (hleast : least ≤ c.toNat) :
    ({ t with mode := .rest 0 least value } : Display).feed narrow (.ofNat (low + 0x80)) =
      t.print narrow c := by
  have hb : (UInt8.ofNat (low + 0x80)).toNat = low + 0x80 := by
    rw [UInt8.toNat_ofNat']
    omega
  have hrange : 0x80 ≤ low + 0x80 ∧ low + 0x80 < 0xc0 := by omega
  have hvalid : least ≤ c.toNat ∧ c.toNat.isValidChar := ⟨hleast, c.valid⟩
  simp only [Display.feed, Display.next, hb, if_pos hrange, Nat.add_sub_cancel, ← hc, if_pos hvalid,
    Char.ofNat_toNat, print_mode]

theorem run_char (t : Display) (ht : t.mode = .ground) {c : Char} (hc : printable narrow c = true)
    (hrow : t.row < t.height) (hcol : t.col < t.width) :
    t.run narrow (String.utf8EncodeChar c) = some (t.place c) := by
  have hprint : t.print narrow c = some (t.place c) := by
    unfold Display.print
    rw [if_pos ⟨hc, hrow, hcol⟩]
  have hval : c.val.toNat = c.toNat := rfl
  have hmax : c.toNat < 0x110000 := by
    have := c.valid
    rw [UInt32.isValidChar, Nat.isValidChar] at this
    omega
  have hspace : 0x20 ≤ c.toNat := by
    simp only [printable, Bool.and_eq_true, Bool.or_eq_true, decide_eq_true_eq] at hc
    omega
  unfold String.utf8EncodeChar
  simp only [hval]
  split_ifs with h1 h2 h3
  · -- one byte
    have hb : (UInt8.ofNat c.toNat).toNat = c.toNat := by
      rw [UInt8.toNat_ofNat']
      omega
    have hesc : UInt8.ofNat c.toNat ≠ 0x1b := by
      intro h
      have : c.toNat = 27 := by rw [← hb, h]; rfl
      omega
    have hascii : UInt8.ofNat c.toNat < 0x80 := by
      rw [UInt8.lt_iff_toNat_lt, hb]
      exact Nat.lt_succ_of_le h1
    rw [run_cons]
    simp only [Display.feed, ht, if_neg hesc, if_pos hascii, hb, Char.ofNat_toNat, hprint,
      Option.bind_some, run_nil]
  · -- two
    have hlead : t.lead (c.toNat / 64 % 32 + 0xc0) =
        some { t with mode := .rest 0 0x80 (c.toNat / 64 % 32) } := by
      unfold Display.lead
      rw [if_pos (by omega), Nat.add_sub_cancel]
    rw [run_cons, feed_lead t ht _ (by omega) (by omega), hlead, Option.bind_some, run_cons,
      feed_last t _ _ _ (Nat.mod_lt _ (by omega)) (c := c) (by omega) (by omega), hprint,
      Option.bind_some, run_nil]
  · -- three
    have hlead : t.lead (c.toNat / 4096 % 16 + 0xe0) =
        some { t with mode := .rest 1 0x800 (c.toNat / 4096 % 16) } := by
      unfold Display.lead
      rw [if_neg (by omega), if_pos (by omega), Nat.add_sub_cancel]
    rw [run_cons, feed_lead t ht _ (by omega) (by omega), hlead, Option.bind_some, run_cons,
      feed_next t _ _ _ _ (Nat.mod_lt _ (by omega)), Option.bind_some, run_cons,
      feed_last t _ _ _ (Nat.mod_lt _ (by omega)) (c := c) (by omega) (by omega), hprint,
      Option.bind_some, run_nil]
  · -- four
    have hlead : t.lead (c.toNat / 262144 % 8 + 0xf0) =
        some { t with mode := .rest 2 0x10000 (c.toNat / 262144 % 8) } := by
      unfold Display.lead
      rw [if_neg (by omega), if_neg (by omega), if_pos (by omega), Nat.add_sub_cancel]
    rw [run_cons, feed_lead t ht _ (by omega) (by omega), hlead, Option.bind_some, run_cons,
      feed_next t _ _ _ _ (Nat.mod_lt _ (by omega)), Option.bind_some, run_cons,
      feed_next t _ _ _ _ (Nat.mod_lt _ (by omega)), Option.bind_some, run_cons,
      feed_last t _ _ _ (Nat.mod_lt _ (by omega)) (c := c) (by omega) (by omega), hprint,
      Option.bind_some, run_nil]

end

end Euxis.Terminal
