import Mathlib.Data.Nat.Basic
import Mathlib.Algebra.Order.Group.Nat

/-!
# Blocks of words

The words of width `w` fall into blocks of `2 ^ k` that agree in all but their last `k` bits. A mask
of `k` ones gives the first and the last word of the block of a word, and the order says which words
are in it. Four octets make a word of width 32.
-/

namespace IndimailMta.Words

variable {w k : Nat}

/-- The mask of the last `k` bits. -/
def low (w k : Nat) : BitVec w := 1#w <<< k - 1#w

theorem toNat_low (h : k < w) : (low w k).toNat = 2 ^ k - 1 := by
  have hlt : 2 ^ k < 2 ^ w := Nat.pow_lt_pow_right (by decide) h
  have hpos : 0 < 2 ^ k := Nat.two_pow_pos k
  have hone : 1 % 2 ^ w = 1 := Nat.mod_eq_of_lt (by omega)
  rw [low, BitVec.toNat_sub, BitVec.toNat_shiftLeft, BitVec.toNat_ofNat, hone, Nat.one_shiftLeft,
    Nat.mod_eq_of_lt hlt]
  have hsum : 2 ^ w - 1 + 2 ^ k = 2 ^ w + (2 ^ k - 1) := by omega
  rw [hsum, Nat.add_mod_left, Nat.mod_eq_of_lt (by omega)]

theorem getLsbD_low (h : k < w) (i : Nat) : (low w k).getLsbD i = decide (i < k) := by
  rw [BitVec.getLsbD, toNat_low h, Nat.testBit_two_pow_sub_one]

/-- The first word of the block. -/
theorem toNat_first (x : BitVec w) (h : k < w) :
    (x &&& ~~~ low w k).toNat = x.toNat / 2 ^ k * 2 ^ k := by
  have hshift : x &&& ~~~ low w k = x >>> k <<< k := by
    apply BitVec.eq_of_getLsbD_eq
    intro i hi
    rw [BitVec.getLsbD_and, BitVec.getLsbD_not, getLsbD_low h, BitVec.getLsbD_shiftLeft,
      BitVec.getLsbD_ushiftRight]
    by_cases hik : i < k
    · simp [hik]
    · have hsum : k + (i - k) = i := by omega
      simp [hik, hi, hsum]
  have hle : x.toNat / 2 ^ k * 2 ^ k ≤ x.toNat := Nat.div_mul_le_self _ _
  rw [hshift, BitVec.toNat_shiftLeft, BitVec.toNat_ushiftRight, Nat.shiftRight_eq_div_pow,
    Nat.shiftLeft_eq, Nat.mod_eq_of_lt (by have := x.isLt; omega)]

/-- The last word of the block. -/
theorem toNat_last (x : BitVec w) (h : k < w) :
    ((x &&& ~~~ low w k) ||| low w k).toNat = x.toNat / 2 ^ k * 2 ^ k + (2 ^ k - 1) := by
  have hpos : 0 < 2 ^ k := Nat.two_pow_pos k
  rw [BitVec.toNat_or, toNat_first x h, toNat_low h, Nat.mul_comm,
    ← Nat.two_pow_add_eq_or_of_lt (by omega)]

/-- **The words between the first and the last are those of the block.** -/
theorem between_iff (x y : BitVec w) (h : k < w) :
    x &&& ~~~ low w k ≤ y ∧ y ≤ (x &&& ~~~ low w k) ||| low w k ↔
      y.toNat / 2 ^ k = x.toNat / 2 ^ k := by
  have hpos : 0 < 2 ^ k := Nat.two_pow_pos k
  rw [BitVec.le_def, BitVec.le_def, toNat_last x h, toNat_first x h, Nat.div_eq_iff hpos]
  omega

/-- The number four octets stand for. -/
def ofOctets (bs : List UInt8) : Nat := bs.foldl (fun v b => v * 256 + b.toNat) 0

/-- Octets that are put side by side in a word. -/
theorem toNat_octets (a b c d : UInt8) :
    ((BitVec.ofNat 32 a.toNat <<< 24 ||| BitVec.ofNat 32 b.toNat <<< 16) |||
      BitVec.ofNat 32 c.toNat <<< 8 ||| BitVec.ofNat 32 d.toNat).toNat = ofOctets [a, b, c, d] := by
  have ha := a.toNat_lt
  have hb := b.toNat_lt
  have hc := c.toNat_lt
  have hd := d.toNat_lt
  have h1 : c.toNat <<< 8 ||| d.toNat = c.toNat <<< 8 + d.toNat :=
    (Nat.shiftLeft_add_eq_or_of_lt (by omega) _).symm
  have h2 : b.toNat <<< 16 ||| (c.toNat <<< 8 + d.toNat) =
      b.toNat <<< 16 + (c.toNat <<< 8 + d.toNat) :=
    (Nat.shiftLeft_add_eq_or_of_lt (by rw [Nat.shiftLeft_eq]; omega) _).symm
  have h3 : a.toNat <<< 24 ||| (b.toNat <<< 16 + (c.toNat <<< 8 + d.toNat)) =
      a.toNat <<< 24 + (b.toNat <<< 16 + (c.toNat <<< 8 + d.toNat)) :=
    (Nat.shiftLeft_add_eq_or_of_lt (by simp only [Nat.shiftLeft_eq]; omega) _).symm
  have hsmall : ∀ x : UInt8, x.toNat % 2 ^ 32 = x.toNat := fun x =>
    Nat.mod_eq_of_lt (by have := x.toNat_lt; omega)
  have hshift : ∀ (x : UInt8) (j : Nat), j ≤ 24 → x.toNat <<< j % 2 ^ 32 = x.toNat <<< j := by
    intro x j hj
    have hx := x.toNat_lt
    rw [Nat.shiftLeft_eq]
    refine Nat.mod_eq_of_lt ?_
    calc x.toNat * 2 ^ j < 2 ^ 8 * 2 ^ j := Nat.mul_lt_mul_of_pos_right hx (Nat.two_pow_pos j)
      _ ≤ 2 ^ 8 * 2 ^ 24 := Nat.mul_le_mul_left _ (Nat.pow_le_pow_right (by decide) hj)
      _ = 2 ^ 32 := rfl
  simp only [BitVec.toNat_or, BitVec.toNat_shiftLeft, BitVec.toNat_ofNat, hsmall,
    hshift _ 24 (by decide), hshift _ 16 (by decide), hshift _ 8 (by decide)]
  rw [Nat.or_assoc, Nat.or_assoc, h1, h2, h3, ofOctets]
  simp only [List.foldl_cons, List.foldl_nil, Nat.shiftLeft_eq]
  omega

end IndimailMta.Words
