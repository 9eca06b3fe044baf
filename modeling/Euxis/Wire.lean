import Euxis.Bytes
import Euxis.Outcome

/-!
# Words and records on the wire

A little-endian word of four bytes, and a record read a given number of times. A reader takes the
bytes that are left and returns a value with the bytes behind it.
-/

namespace Euxis

namespace Wire

/-! ## One word -/

/-- The four bytes that `memcpy` takes from a `uint32_t`. A longer number is cut to its low word. -/
def putWord (n : Nat) : Bytes :=
  [UInt8.ofNat n, UInt8.ofNat (n / 2 ^ 8), UInt8.ofNat (n / 2 ^ 16), UInt8.ofNat (n / 2 ^ 24)]

def takeWord : Bytes → Option (Nat × Bytes)
  | a :: b :: c :: d :: rest =>
    some (a.toNat + 2 ^ 8 * b.toNat + 2 ^ 16 * c.toNat + 2 ^ 24 * d.toNat, rest)
  | _ => none

theorem putWord_length (n : Nat) : (putWord n).length = 4 := rfl

theorem takeWord_putWord (n : Nat) (rest : Bytes) (h : n < 2 ^ 32) :
    takeWord (putWord n ++ rest) = some (n, rest) := by
  simp only [putWord, List.cons_append, List.nil_append, takeWord, UInt8.toNat_ofNat',
    Option.some.injEq, Prod.mk.injEq, and_true]
  omega

theorem putWord_bytes (a b c d : UInt8) :
    putWord (a.toNat + 2 ^ 8 * b.toNat + 2 ^ 16 * c.toNat + 2 ^ 24 * d.toNat) = [a, b, c, d] := by
  have ha := a.toNat_lt
  have hb := b.toNat_lt
  have hc := c.toNat_lt
  have hd := d.toNat_lt
  simp only [putWord, List.cons.injEq, and_true, ← UInt8.toNat_inj, UInt8.toNat_ofNat']
  omega

theorem takeWord_some (p rest : Bytes) (n : Nat) (h : takeWord p = some (n, rest)) :
    p = putWord n ++ rest ∧ n < 2 ^ 32 := by
  match p, h with
  | a :: b :: c :: d :: tail, h =>
    simp only [takeWord, Option.some.injEq, Prod.mk.injEq] at h
    obtain ⟨rfl, rfl⟩ := h
    have ha := a.toNat_lt
    have hb := b.toNat_lt
    have hc := c.toNat_lt
    have hd := d.toNat_lt
    refine ⟨?_, by omega⟩
    rw [putWord_bytes]
    rfl

/-! ## A record a number of times -/

variable {α ε : Type} (read : Bytes → Except ε (α × Bytes))

def times : Nat → Bytes → Except ε (List α × Bytes)
  | 0, p => .ok ([], p)
  | n + 1, p => do
    let (a, p) ← read p
    let (more, p) ← times n p
    return (a :: more, p)

variable {read} {write : α → Bytes}

theorem times_write (values : List α) (rest : Bytes)
    (h : ∀ a more, a :: more <:+ values →
      read (write a ++ (more.flatMap write ++ rest)) = .ok (a, more.flatMap write ++ rest)) :
    times read values.length (values.flatMap write ++ rest) = .ok (values, rest) := by
  induction values with
  | nil => rfl
  | cons a more ih =>
    have hmore := ih (fun b later hs => h b later (hs.trans (List.suffix_cons a more)))
    have ha := h a more List.suffix_rfl
    simp only [List.length_cons, times, List.flatMap_cons, List.append_assoc, ha,
      Outcome.ok_bind, hmore]
    rfl

theorem times_ok (hread : ∀ p a rest, read p = .ok (a, rest) → p = write a ++ rest)
    (n : Nat) (p : Bytes) (values : List α) (rest : Bytes)
    (h : times read n p = .ok (values, rest)) :
    p = values.flatMap write ++ rest ∧ values.length = n := by
  induction n generalizing p values with
  | zero =>
    obtain ⟨rfl, rfl⟩ := Prod.mk.inj (Except.ok.inj h)
    exact ⟨rfl, rfl⟩
  | succ n ih =>
    obtain ⟨⟨a, q⟩, ha, h⟩ := Outcome.ok_of_bind h
    obtain ⟨⟨more, r⟩, hmore, h⟩ := Outcome.ok_of_bind h
    obtain ⟨rfl, rfl⟩ := Prod.mk.inj (Except.ok.inj h)
    obtain ⟨hq, hlen⟩ := ih q more hmore
    refine ⟨?_, by rw [List.length_cons, hlen]⟩
    rw [hread p a q ha, hq, List.flatMap_cons, List.append_assoc]

end Wire

end Euxis
