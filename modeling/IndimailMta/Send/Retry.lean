import IndimailMta.Send.Pass
import Mathlib.Tactic.Ring

/-!
# Retry times

`squareroot` finds the root digit by digit: after the digits above bit `j` the root `y` has
`y ^ 2 ≤ x < (y + 2 ^ j) ^ 2`, and `yy` is `y ^ 2`. The retry times follow from what the
root is, whatever the loop did.
-/

namespace IndimailMta.Send

open IndimailMta

/-- The loop keeps the root below and the next one above. -/
theorem squarerootLoop_spec {x : Int} {j : Nat} {y yy : Int} (hy : 0 ≤ y) (hyy : yy = y * y)
    (hle : y * y ≤ x) (hlt : x < (y + 2 ^ j) * (y + 2 ^ j)) :
    let r := squarerootLoop x j y yy
    0 ≤ r ∧ r * r ≤ x ∧ x < (r + 1) * (r + 1) := by
  induction j generalizing y yy with
  | zero =>
      rw [pow_zero] at hlt
      exact ⟨hy, hle, hlt⟩
  | succ j ih =>
      have hpow : (0 : Int) ≤ 2 ^ j := Int.pow_nonneg (by decide)
      -- the square of the root with one more digit
      have hsq : (y + 2 ^ j) * (y + 2 ^ j) = y * y + (y * 2 ^ (j + 1) + 2 ^ (j + j)) := by
        rw [pow_succ, pow_add]
        ring
      simp only [squarerootLoop]
      split
      · rename_i h
        apply ih
        · omega
        · rw [hsq, hyy]
        · omega
        · have hnext : y + 2 ^ j + 2 ^ j = y + 2 ^ (j + 1) := by
            rw [pow_succ]
            ring
          rw [hnext]
          exact hlt
      · rename_i h
        exact ih hy hyy hle (by omega)

/-- `squareroot` is the integer square root. -/
theorem squareroot_spec {x : Int} (h0 : 0 ≤ x) (h : x < 2 ^ 32) :
    0 ≤ squareroot x ∧ squareroot x * squareroot x ≤ x ∧
      x < (squareroot x + 1) * (squareroot x + 1) :=
  squarerootLoop_spec (Int.le_refl 0) rfl (by simpa using h0) (by simpa using h)

/-- The root does not decrease. -/
theorem squareroot_mono {x x' : Int} (h0 : 0 ≤ x) (hle : x ≤ x') (h : x' < 2 ^ 32) :
    squareroot x ≤ squareroot x' := by
  obtain ⟨hr, hsq, -⟩ := squareroot_spec h0 (Int.lt_of_le_of_lt hle h)
  obtain ⟨hr', -, hlt⟩ := squareroot_spec (Int.le_trans h0 hle) h
  by_contra hgt
  have hstep : squareroot x' + 1 ≤ squareroot x := by omega
  have hmul : (squareroot x' + 1) * (squareroot x' + 1) ≤ squareroot x * squareroot x :=
    Int.mul_le_mul hstep hstep (by omega) hr
  omega

/-- The root the retry time is taken from. -/
def retryRoot (recent birth : Int) : Int := if birth > recent then 0 else squareroot (recent - birth)

theorem nextretry_eq (recent birth : Int) (c : Channel) :
    nextretry recent birth c
      = birth + (retryRoot recent birth + chanskip c) * (retryRoot recent birth + chanskip c) := rfl

theorem chanskip_pos (c : Channel) : 1 ≤ chanskip c := by
  cases c <;> decide

theorem retryRoot_spec {recent birth : Int} (h : recent - birth < 2 ^ 32) :
    0 ≤ retryRoot recent birth ∧
      recent - birth < (retryRoot recent birth + 1) * (retryRoot recent birth + 1) := by
  unfold retryRoot
  split
  · rename_i hb
    constructor
    · decide
    · simp only [zero_add, mul_one]
      omega
  · obtain ⟨h0, -, hlt⟩ := squareroot_spec (x := recent - birth) (by omega) h
    exact ⟨h0, hlt⟩

theorem retryRoot_mono {recent recent' birth : Int} (hle : recent ≤ recent')
    (h : recent' - birth < 2 ^ 32) : retryRoot recent birth ≤ retryRoot recent' birth := by
  obtain ⟨h0, -⟩ := retryRoot_spec h
  by_cases hb : birth > recent
  · rw [retryRoot, if_pos hb]
    exact h0
  · rw [retryRoot, if_neg hb, retryRoot, if_neg (by omega)]
    exact squareroot_mono (by omega) (by omega) h

/-- A retry is in the future. -/
theorem lt_nextretry {recent birth : Int} (c : Channel) (h : recent - birth < 2 ^ 32) :
    recent < nextretry recent birth c := by
  obtain ⟨h0, hlt⟩ := retryRoot_spec h
  have hskip := chanskip_pos c
  have hmul : (retryRoot recent birth + 1) * (retryRoot recent birth + 1)
      ≤ (retryRoot recent birth + chanskip c) * (retryRoot recent birth + chanskip c) :=
    Int.mul_le_mul (by omega) (by omega) (by omega) (by omega)
  rw [nextretry_eq]
  omega

/-- Retry times do not decrease. -/
theorem nextretry_mono {recent recent' birth : Int} (c : Channel) (hle : recent ≤ recent')
    (h : recent' - birth < 2 ^ 32) : nextretry recent birth c ≤ nextretry recent' birth c := by
  obtain ⟨h0, -⟩ := @retryRoot_spec recent birth (by omega)
  have hroot := retryRoot_mono hle h
  have hskip := chanskip_pos c
  have hmul : (retryRoot recent birth + chanskip c) * (retryRoot recent birth + chanskip c)
      ≤ (retryRoot recent' birth + chanskip c) * (retryRoot recent' birth + chanskip c) :=
    Int.mul_le_mul (by omega) (by omega) (by omega) (by omega)
  rw [nextretry_eq, nextretry_eq]
  omega

/-- **The retry schedule moves forward.** `squareroot` is exact on 32 bits; a retry is after
`recent`, and later for a later one. -/
theorem retry_forward :
    (∀ x : Int, 0 ≤ x → x < 2 ^ 32 →
      squareroot x ^ 2 ≤ x ∧ x < (squareroot x + 1) ^ 2) ∧
    ∀ (birth recent : Int) (c : Channel), recent - birth < 2 ^ 32 →
      recent < nextretry recent birth c ∧
        ∀ recent', recent ≤ recent' → recent' - birth < 2 ^ 32 →
          nextretry recent birth c ≤ nextretry recent' birth c := by
  constructor
  · intro x h0 h
    rw [pow_two, pow_two]
    exact (squareroot_spec h0 h).2
  · intro birth recent c h
    exact ⟨lt_nextretry c h, fun recent' hle h' => nextretry_mono c hle h'⟩

theorem retry_forward_day : squareroot 86400 ^ 2 ≤ 86400 ∧ (86400 : Int) < (squareroot 86400 + 1) ^ 2 ∧
    86400 < nextretry 86400 0 .rem ∧ nextretry 86400 0 .rem ≤ nextretry 90000 0 .rem := by
  obtain ⟨h1, h2⟩ := retry_forward.1 86400 (by decide) (by decide)
  obtain ⟨h3, h4⟩ := retry_forward.2 0 86400 .rem (by decide)
  exact ⟨h1, h2, h3, h4 90000 (by decide) (by decide)⟩

end IndimailMta.Send
