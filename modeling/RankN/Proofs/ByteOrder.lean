import Mathlib.Algebra.Group.Nat.Defs
import Mathlib.Tactic.SplitIfs

/-!
# Names in byte order

Strings are compared character by character. The UTF-8 bytes of strings are in the same order: of
two different characters the smaller one has the smaller encoding, and the encodings differ before
either of them ends, so nothing that follows can change the order (`Utf8.Precedes`).

A character is encoded by its code point in base 64, most significant digit first, and the first
byte also marks how many bytes continue it. More continuing bytes have a larger mark, which decides
between encodings of different lengths; between encodings of one length the digits decide.

Main result: `Utf8.bytes_lt_bytes`.
-/

namespace RankN.Utf8

/-- The bytes of a string. -/
def bytes (s : String) : List UInt8 := s.toByteArray.data.toList

theorem bytes_eq_flatMap (s : String) : bytes s = s.toList.flatMap String.utf8EncodeChar := by
  rw [bytes, ← String.utf8Encode_toList, List.utf8Encode, List.toList_data_toByteArray]

/-- The first bytes come before the second ones, whatever follows each of them. -/
def Precedes (l m : List UInt8) : Prop := ∀ x y, l ++ x < m ++ y

/-- A smaller byte decides, an equal one leaves it to the bytes behind it. -/
theorem precedes_cons {a b : Nat} {l m : List UInt8} (hb : b < 256)
    (h : a < b ∨ a = b ∧ Precedes l m) : Precedes (.ofNat a :: l) (.ofNat b :: m) := by
  intro x y
  rw [List.cons_append, List.cons_append, List.cons_lt_cons_iff]
  rcases h with hab | ⟨rfl, hlm⟩
  · exact .inl ((UInt8.ofNat_lt_iff_lt (Nat.lt_trans hab hb) hb).2 hab)
  · exact .inr ⟨rfl, hlm x y⟩

/-! ## Characters -/

/-- The number of bytes that continue the encoding of a code point after its first one. -/
def continuing (v : Nat) : Nat :=
  if v ≤ 0x7f then 0 else if v ≤ 0x7ff then 1 else if v ≤ 0xffff then 2 else 3

/-- What the first byte holds apart from a digit, by the number of continuing bytes. -/
def mark : Nat → Nat
  | 0 => 0x00
  | 1 => 0xc0
  | 2 => 0xe0
  | _ => 0xf0

/-- The first byte of the encoding of a code point. -/
def first (v : Nat) : Nat := v / 64 ^ continuing v + mark (continuing v)

/-- The last `k` digits of a number in base 64, as bytes that continue an encoding. -/
def digits : Nat → Nat → List UInt8
  | 0, _ => []
  | k + 1, v => .ofNat (v / 64 ^ k % 64 + 0x80) :: digits k v

theorem precedes_digits {k v w : Nat} (h : v % 64 ^ k < w % 64 ^ k) :
    Precedes (digits k v) (digits k w) := by
  induction k with
  | zero => simp [Nat.mod_one] at h
  | succ k ih =>
    refine precedes_cons (by omega) ?_
    rw [Nat.mod_pow_succ, Nat.mod_pow_succ] at h
    rcases Nat.lt_trichotomy (v / 64 ^ k % 64) (w / 64 ^ k % 64) with hlt | heq | hgt
    · exact .inl (by omega)
    · rw [heq] at h ⊢
      exact .inr ⟨rfl, ih (Nat.lt_of_add_lt_add_right h)⟩
    · -- A larger digit outweighs all digits behind it.
      have hw : w % 64 ^ k < 64 ^ k := Nat.mod_lt _ (Nat.pow_pos (by decide))
      have hmul := Nat.mul_le_mul_left (64 ^ k) (Nat.succ_le_of_lt hgt)
      rw [Nat.mul_succ] at hmul
      omega

theorem codePoint_lt (c : Char) : c.val.toNat < 0x110000 := by
  have h := c.valid
  simp only [UInt32.isValidChar, Nat.isValidChar] at h
  omega

/-- The encoding of a character is its first byte and the digits that continue it. -/
theorem encodeChar_eq (c : Char) :
    String.utf8EncodeChar c =
      .ofNat (first c.val.toNat) :: digits (continuing c.val.toNat) c.val.toNat := by
  have hc := codePoint_lt c
  simp only [String.utf8EncodeChar, first, continuing]
  generalize c.val.toNat = v at *
  split_ifs <;>
    simp only [mark, digits, List.cons.injEq, and_true, Nat.reducePow, Nat.div_one, Nat.add_zero]
  all_goals rw [Nat.mod_eq_of_lt (by omega)]

theorem first_lt {v : Nat} (hv : v < 0x110000) : first v < 256 := by
  unfold first continuing
  split_ifs <;> simp only [mark, Nat.reducePow] <;> omega

/-- Between encodings of different lengths the first byte decides. -/
theorem first_lt_first {v w : Nat} (hvw : v < w) (hne : continuing v ≠ continuing w) :
    first v < first w := by
  unfold first continuing at *
  split_ifs at * <;> simp only [mark, Nat.reducePow] <;> omega

theorem precedes_encodeChar {c d : Char} (h : c < d) :
    Precedes (String.utf8EncodeChar c) (String.utf8EncodeChar d) := by
  have hcd : c.val.toNat < d.val.toNat := h
  rw [encodeChar_eq, encodeChar_eq]
  refine precedes_cons (first_lt (codePoint_lt d)) ?_
  by_cases hk : continuing c.val.toNat = continuing d.val.toNat
  · rw [first, first, hk]
    generalize continuing d.val.toNat = k
    rcases Nat.lt_or_eq_of_le (Nat.div_le_div_right (c := 64 ^ k) (Nat.le_of_lt hcd)) with hlt | heq
    · exact .inl (Nat.add_lt_add_right hlt _)
    · refine .inr ⟨by rw [heq], precedes_digits ?_⟩
      have hc := Nat.div_add_mod c.val.toNat (64 ^ k)
      have hd := Nat.div_add_mod d.val.toNat (64 ^ k)
      rw [heq] at hc
      omega
  · exact .inl (first_lt_first hcd hk)

/-! ## Strings -/

/-- A smaller string has smaller bytes. -/
theorem bytes_lt_bytes {a b : String} (h : a < b) : bytes a < bytes b := by
  rw [bytes_eq_flatMap, bytes_eq_flatMap]
  have h : List.Lex (· < ·) a.toList b.toList := h
  generalize a.toList = l, b.toList = m at h
  induction h with
  | nil =>
    rw [List.flatMap_cons, encodeChar_eq]
    exact List.nil_lt_cons _ _
  | rel hcd =>
    rw [List.flatMap_cons, List.flatMap_cons]
    exact precedes_encodeChar hcd _ _
  | cons _ ih =>
    rw [List.flatMap_cons, List.flatMap_cons]
    exact List.append_left_lt ih

end RankN.Utf8
