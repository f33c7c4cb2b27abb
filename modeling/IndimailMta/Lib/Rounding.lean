import Mathlib.Data.Int.Log
import Mathlib.Data.Rat.Floor
import Mathlib.Algebra.Order.Field.Rat
import Mathlib.Tactic.FieldSimp
import Mathlib.Tactic.Linarith
import Mathlib.Tactic.Positivity

/-!
# Rounding to a number of bits

A binary floating-point format keeps `p` significant bits of a number; what it cannot keep is
rounded to the nearest, and of two nearest to the even one. This is that arithmetic on rational
numbers, without bounds on the exponent: in the range of the format both agree. The error of an
operation is given relative to its exact result.
-/

namespace IndimailMta.Rounding

/-- The nearest integer, and the even one of two. -/
def half_even (x : ℚ) : ℤ :=
  if x - ⌊x⌋ < 1 / 2 then ⌊x⌋
  else if 1 / 2 < x - ⌊x⌋ then ⌊x⌋ + 1
  else if ⌊x⌋ % 2 = 0 then ⌊x⌋ else ⌊x⌋ + 1

/-- The value of the last of `p` bits of `x`. -/
def quantum (p : ℕ) (x : ℚ) : ℚ := 2 ^ (Int.log 2 |x| - p + 1)

/-- `x` with `p` significant bits. -/
def roundTo (p : ℕ) (x : ℚ) : ℚ := half_even (x / quantum p x) * quantum p x

/-- A quotient of two numbers that are rounded themselves. -/
def quotient (p : ℕ) (a b : ℚ) : ℚ := roundTo p (roundTo p a / roundTo p b)

theorem half_even_near (x : ℚ) : |(half_even x : ℚ) - x| ≤ 1 / 2 := by
  have hlo := Int.floor_le x
  have hhi := Int.lt_floor_add_one x
  rw [abs_le]
  unfold half_even
  split
  · constructor <;> linarith
  · split
    · push_cast
      constructor <;> linarith
    · split
      · constructor <;> linarith
      · push_cast
        constructor <;> linarith

theorem quantum_pos (p : ℕ) (x : ℚ) : 0 < quantum p x := zpow_pos (by norm_num) _

/-- Half of the last bit, against the number. -/
theorem quantum_le {x : ℚ} (p : ℕ) (hx : x ≠ 0) : quantum p x / 2 ≤ |x| / 2 ^ p := by
  have hlog : (2 : ℚ) ^ Int.log 2 |x| ≤ |x| := by
    exact_mod_cast Int.zpow_log_le_self (by norm_num) (abs_pos.mpr hx)
  have hscale : quantum p x / 2 = 2 ^ Int.log 2 |x| / 2 ^ p := by
    rw [quantum, zpow_add₀ (by norm_num), zpow_sub₀ (by norm_num), zpow_natCast, zpow_one]
    ring
  rw [hscale]
  exact div_le_div_of_nonneg_right hlog (by positivity)

/-- **The error of rounding**, relative to the number. -/
theorem roundTo_near (p : ℕ) (x : ℚ) : |roundTo p x - x| ≤ |x| / 2 ^ p := by
  by_cases hx : x = 0
  · subst hx
    have hzero : roundTo p 0 = 0 := by simp [roundTo, half_even]
    simp [hzero]
  · have hq := quantum_pos p x
    have hsplit : roundTo p x - x = (half_even (x / quantum p x) - x / quantum p x) * quantum p x := by
      rw [roundTo, sub_mul, div_mul_cancel₀ _ hq.ne']
    rw [hsplit, abs_mul, abs_of_pos hq]
    have hnear := mul_le_mul_of_nonneg_right (half_even_near (x / quantum p x)) hq.le
    have hle := quantum_le p hx
    linarith

/-- A rounded number, between two multiples of the number itself. -/
theorem roundTo_bounds (p : ℕ) {x : ℚ} (hx : 0 ≤ x) :
    (1 - 1 / 2 ^ p) * x ≤ roundTo p x ∧ roundTo p x ≤ (1 + 1 / 2 ^ p) * x := by
  have h := abs_le.mp (roundTo_near p x)
  rw [abs_of_nonneg hx] at h
  have hdiv : x / 2 ^ p = 1 / 2 ^ p * x := by ring
  rw [hdiv] at h
  constructor <;> linarith [h.1, h.2]

section Quotient

variable {u a b a' b' : ℚ}

/-- A quotient of numbers that are too large and too small by a part `u` of themselves. -/
theorem quotient_le (hu : u < 1) (ha : 0 ≤ a) (hb : 0 < b) (ha' : a' ≤ (1 + u) * a)
    (hb' : (1 - u) * b ≤ b') (hu0 : 0 ≤ u) : (1 - u) * (a' / b') ≤ (1 + u) * (a / b) := by
  have hpos : 0 < 1 - u := by linarith
  have hden : 0 < b' := (mul_pos hpos hb).trans_le hb'
  have hr : 0 ≤ (1 + u) * (a / b) := mul_nonneg (by linarith) (div_nonneg ha hb.le)
  rw [← mul_div_assoc, div_le_iff₀ hden]
  calc (1 - u) * a' ≤ (1 - u) * ((1 + u) * a) := mul_le_mul_of_nonneg_left ha' hpos.le
    _ = (1 + u) * (a / b) * ((1 - u) * b) := by field_simp
    _ ≤ (1 + u) * (a / b) * b' := mul_le_mul_of_nonneg_left hb' hr

/-- And of numbers that are too small and too large. -/
theorem le_quotient (hu0 : 0 ≤ u) (ha : 0 ≤ a) (hb : 0 < b) (ha' : (1 - u) * a ≤ a')
    (hb' : b' ≤ (1 + u) * b) (hden : 0 < b') (hu : u < 1) :
    (1 - u) * (a / b) ≤ (1 + u) * (a' / b') := by
  have hr : 0 ≤ (1 - u) * (a / b) := mul_nonneg (by linarith) (div_nonneg ha hb.le)
  rw [← mul_div_assoc (1 + u), le_div_iff₀ hden]
  calc (1 - u) * (a / b) * b' ≤ (1 - u) * (a / b) * ((1 + u) * b) :=
        mul_le_mul_of_nonneg_left hb' hr
    _ = (1 + u) * ((1 - u) * a) := by field_simp
    _ ≤ (1 + u) * a' := mul_le_mul_of_nonneg_left ha' (by linarith)

end Quotient

/-- **The error of a quotient**, relative to the exact one: two conversions and a division. -/
theorem quotient_near {p : ℕ} (hp : 3 ≤ p) {a b : ℚ} (ha : 0 ≤ a) (hb : 0 < b) :
    |quotient p a b - a / b| ≤ a / b * (4 / 2 ^ p) := by
  have hu : (0 : ℚ) < 1 / 2 ^ p := by positivity
  have hu8 : (1 : ℚ) / 2 ^ p ≤ 1 / 8 := by
    have h8 : (8 : ℚ) ≤ 2 ^ p := by
      calc (8 : ℚ) = 2 ^ 3 := by norm_num
        _ ≤ 2 ^ p := pow_le_pow_right₀ (by norm_num) hp
    exact one_div_le_one_div_of_le (by norm_num) h8
  have hfour : (4 : ℚ) / 2 ^ p = 4 * (1 / 2 ^ p) := by ring
  obtain ⟨ha₁, ha₂⟩ := roundTo_bounds p ha
  obtain ⟨hb₁, hb₂⟩ := roundTo_bounds p hb.le
  have hden : 0 < roundTo p b := (mul_pos (by linarith) hb).trans_le hb₁
  have hnum : 0 ≤ roundTo p a := (mul_nonneg (by linarith) ha).trans ha₁
  have hq : 0 ≤ roundTo p a / roundTo p b := div_nonneg hnum hden.le
  obtain ⟨hq₁, hq₂⟩ := roundTo_bounds p hq
  have hle := quotient_le (by linarith) ha hb ha₂ hb₁ hu.le
  have hge := le_quotient hu.le ha hb ha₁ hb₂ hden (by linarith)
  have hr : 0 ≤ a / b := div_nonneg ha hb.le
  rw [quotient, hfour]
  generalize (1 : ℚ) / 2 ^ p = u at *
  generalize roundTo p a / roundTo p b = q at *
  generalize a / b = r at *
  have hsq : 5 * u ^ 2 * r ≤ u * r := by
    apply mul_le_mul_of_nonneg_right _ hr
    nlinarith only [hu, hu8]
  have hup : (1 + u) * q ≤ (1 + 4 * u) * r := by
    apply le_of_mul_le_mul_left _ (show 0 < 1 - u by linarith)
    nlinarith only [mul_le_mul_of_nonneg_left hle (show 0 ≤ 1 + u by linarith), hsq]
  have hlow : (1 - 4 * u) * r ≤ (1 - u) * q := by
    apply le_of_mul_le_mul_left _ (show 0 < 1 + u by linarith)
    nlinarith only [mul_le_mul_of_nonneg_left hge (show 0 ≤ 1 - u by linarith), hsq,
      mul_nonneg (mul_nonneg hu.le hu.le) hr]
  rw [abs_le]
  constructor <;> linarith

end IndimailMta.Rounding
