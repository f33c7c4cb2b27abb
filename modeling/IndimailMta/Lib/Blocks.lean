import Mathlib.Data.List.Basic

/-!
# Texts that are taken block by block

A machine takes its text in blocks of `n`. What does not fill a block waits, and how the text came
makes no difference: `absorbAll_append`. A text of whole blocks leaves nothing that waits
(`absorbAll_flatten`).
-/

namespace IndimailMta.Lib.Blocks

variable {σ α : Type*} {n : Nat} {f : σ → List α → σ}

/-- One symbol: the state, and what waits. -/
def absorb (n : Nat) (f : σ → List α → σ) (p : σ × List α) (a : α) : σ × List α :=
  if (p.2 ++ [a]).length = n then (f p.1 (p.2 ++ [a]), []) else (p.1, p.2 ++ [a])

def absorbAll (n : Nat) (f : σ → List α → σ) (p : σ × List α) (s : List α) : σ × List α :=
  s.foldl (absorb n f) p

theorem absorbAll_cons (p : σ × List α) (a : α) (s : List α) :
    absorbAll n f p (a :: s) = absorbAll n f (absorb n f p a) s := rfl

theorem absorbAll_append (p : σ × List α) (s t : List α) :
    absorbAll n f p (s ++ t) = absorbAll n f (absorbAll n f p s) t := List.foldl_append

/-- What does not fill the block waits. -/
theorem absorbAll_short {x : σ} {w s : List α} (h : w.length + s.length < n) :
    absorbAll n f (x, w) s = (x, w ++ s) := by
  induction s generalizing w with
  | nil => rw [List.append_nil]; rfl
  | cons a s ih =>
      rw [List.length_cons] at h
      have hlen : (w ++ [a]).length = w.length + 1 := List.length_append
      have hne : (w ++ [a]).length ≠ n := by omega
      have hrest : (w ++ [a]).length + s.length < n := by omega
      rw [absorbAll_cons, absorb, if_neg hne, ih hrest, List.append_assoc, List.singleton_append]

/-- What fills the block is taken. -/
theorem absorbAll_full {x : σ} {w s : List α} (h : w.length + s.length = n) (hs : s ≠ []) :
    absorbAll n f (x, w) s = (f x (w ++ s), []) := by
  obtain ⟨t, a, rfl⟩ : ∃ t a, s = t ++ [a] :=
    ⟨s.dropLast, s.getLast hs, (List.dropLast_append_getLast hs).symm⟩
  have hfull : (w ++ (t ++ [a])).length = n := by rw [List.length_append, h]
  rw [List.length_append, List.length_singleton] at h
  have hshort : w.length + t.length < n := by omega
  rw [absorbAll_append, absorbAll_short hshort, absorbAll_cons, absorb, List.append_assoc, if_pos hfull]
  rfl

/-- **Whole blocks** are taken one after the other. -/
theorem absorbAll_flatten (hn : 0 < n) {x : σ} {bs : List (List α)} (h : ∀ b ∈ bs, b.length = n) :
    absorbAll n f (x, []) bs.flatten = (bs.foldl f x, []) := by
  induction bs generalizing x with
  | nil => rfl
  | cons b bs ih =>
      have hb : b.length = n := h b List.mem_cons_self
      have hne : b ≠ [] := fun hnil => by
        rw [hnil] at hb
        exact absurd hb (Nat.ne_of_lt hn)
      rw [List.flatten_cons, absorbAll_append,
        absorbAll_full (by rw [List.length_nil, Nat.zero_add, hb]) hne, List.nil_append,
        ih fun b' hb' => h b' (List.mem_cons_of_mem b hb'), List.foldl_cons]

/-- The blocks of a text; what is left over is in none of them. -/
def blocksOf (n : Nat) (s : List α) : List (List α) :=
  (List.range (s.length / n)).map fun i => (s.drop (n * i)).take n

theorem length_of_mem_blocksOf {s b : List α} (h : b ∈ blocksOf n s) : b.length = n := by
  obtain ⟨i, hi, rfl⟩ := List.mem_map.mp h
  have hle : n * (i + 1) ≤ s.length :=
    Nat.le_trans (Nat.mul_le_mul_left n (List.mem_range.mp hi)) (Nat.mul_div_le s.length n)
  rw [Nat.mul_add, Nat.mul_one] at hle
  rw [List.length_take, List.length_drop]
  omega

theorem flatten_blocksOf {s : List α} (h : n ∣ s.length) : (blocksOf n s).flatten = s := by
  have hfront : ∀ k, k ≤ s.length / n →
      ((List.range k).map fun i => (s.drop (n * i)).take n).flatten = s.take (n * k) := by
    intro k
    induction k with
    | zero => intro; rw [Nat.mul_zero, List.take_zero]; rfl
    | succ k ih =>
        intro hk
        rw [List.range_succ, List.map_append, List.flatten_append, ih (Nat.le_of_succ_le hk), List.map_singleton,
          List.flatten_singleton, Nat.mul_add, Nat.mul_one, List.take_add]
  rw [blocksOf, hfront _ (Nat.le_refl _), Nat.mul_div_cancel' h, List.take_length]

/-- What waits is less than a block, and as much as is left over. -/
theorem length_absorbAll {p : σ × List α} (hp : p.2.length < n) (s : List α) :
    (absorbAll n f p s).2.length = (p.2.length + s.length) % n := by
  induction s generalizing p with
  | nil => exact (Nat.mod_eq_of_lt hp).symm
  | cons a s ih =>
      have hlen : (p.2 ++ [a]).length = p.2.length + 1 := List.length_append
      rw [absorbAll_cons, absorb, List.length_cons]
      by_cases hfull : (p.2 ++ [a]).length = n
      · have hzero : ([] : List α).length < n := Nat.lt_of_le_of_lt (Nat.zero_le _) hp
        rw [if_pos hfull, ih hzero, List.length_nil]
        have hsum : p.2.length + (s.length + 1) = s.length + n := by omega
        rw [hsum, Nat.add_mod_right, Nat.zero_add]
      · have hless : (p.2 ++ [a]).length < n := by omega
        rw [if_neg hfull, ih hless, hlen, Nat.add_assoc, Nat.add_comm 1]

end IndimailMta.Lib.Blocks
