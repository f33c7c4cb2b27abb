import Mathlib.Algebra.Group.Nat.Defs
import Mathlib.Data.List.Pairwise

/-!
# Blocks that tile a range

A block is a run of `2 ^ bits` numbers whose first is a multiple of their count. Blocks tile a range
when each begins where the one before it ended: they are then in order, none meets another, and they
have the numbers of the range and no others.
-/

namespace IndimailMta

/-- The numbers from `first` on, `2 ^ bits` of them. -/
structure Block where
  first : Nat
  bits : Nat
  deriving DecidableEq, Repr

namespace Block

variable {b : Block} {bs cs : List Block} {lo mid hi x : Nat}

/-- The first number behind the block. -/
def next (b : Block) : Nat := b.first + 2 ^ b.bits

def Mem (b : Block) (x : Nat) : Prop := b.first ≤ x ∧ x < b.next

/-- The blocks tile the numbers from `lo` to `hi`, without `hi`. -/
def Tiles : List Block → Nat → Nat → Prop
  | [], lo, hi => lo = hi
  | b :: bs, lo, hi => b.first = lo ∧ 2 ^ b.bits ∣ lo ∧ Tiles bs b.next hi

theorem Tiles.append (h : Tiles bs lo mid) (h' : Tiles cs mid hi) : Tiles (bs ++ cs) lo hi := by
  induction bs generalizing lo with
  | nil =>
      obtain rfl : lo = mid := h
      exact h'
  | cons b bs ih =>
      obtain ⟨hfirst, hdvd, hrest⟩ := h
      exact ⟨hfirst, hdvd, ih hrest⟩

theorem first_lt_next (b : Block) : b.first < b.next :=
  Nat.lt_add_of_pos_right (Nat.two_pow_pos b.bits)

theorem Tiles.le (h : Tiles bs lo hi) : lo ≤ hi := by
  induction bs generalizing lo with
  | nil => exact Nat.le_of_eq h
  | cons b bs ih =>
      obtain ⟨rfl, -, hrest⟩ := h
      exact Nat.le_trans (Nat.le_of_lt b.first_lt_next) (ih hrest)

theorem Tiles.aligned (h : Tiles bs lo hi) : ∀ b ∈ bs, 2 ^ b.bits ∣ b.first := by
  induction bs generalizing lo with
  | nil => exact fun b hb => absurd hb List.not_mem_nil
  | cons c bs ih =>
      obtain ⟨rfl, hdvd, hrest⟩ := h
      intro b hb
      rcases List.mem_cons.mp hb with rfl | hb
      · exact hdvd
      · exact ih hrest b hb

/-- No block begins in front of the range. -/
theorem Tiles.first_le (h : Tiles bs lo hi) : ∀ b ∈ bs, lo ≤ b.first := by
  induction bs generalizing lo with
  | nil => exact fun b hb => absurd hb List.not_mem_nil
  | cons c bs ih =>
      obtain ⟨rfl, -, hrest⟩ := h
      intro b hb
      rcases List.mem_cons.mp hb with rfl | hb
      · exact Nat.le_refl _
      · exact Nat.le_trans (Nat.le_of_lt c.first_lt_next) (ih hrest b hb)

/-- A block ends before the next one begins. -/
theorem Tiles.pairwise (h : Tiles bs lo hi) : bs.Pairwise fun b c => b.next ≤ c.first := by
  induction bs generalizing lo with
  | nil => exact List.Pairwise.nil
  | cons b bs ih =>
      obtain ⟨-, -, hrest⟩ := h
      exact List.pairwise_cons.mpr ⟨hrest.first_le, ih hrest⟩

/-- **The blocks have the numbers of the range.** -/
theorem Tiles.mem_iff (h : Tiles bs lo hi) : (∃ b ∈ bs, b.Mem x) ↔ lo ≤ x ∧ x < hi := by
  induction bs generalizing lo with
  | nil =>
      obtain rfl : lo = hi := h
      constructor
      · rintro ⟨b, hb, -⟩
        exact absurd hb List.not_mem_nil
      · rintro ⟨h1, h2⟩
        exact absurd h1 (Nat.not_le.mpr h2)
  | cons b bs ih =>
      obtain ⟨rfl, -, hrest⟩ := h
      have hle := hrest.le
      have hlt := b.first_lt_next
      have hcons : (∃ c ∈ b :: bs, c.Mem x) ↔ b.Mem x ∨ ∃ c ∈ bs, c.Mem x := by
        simp only [List.mem_cons, exists_eq_or_imp]
      rw [hcons, ih hrest, Mem]
      omega

end Block

end IndimailMta
