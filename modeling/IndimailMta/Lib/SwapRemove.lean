import Mathlib.Data.List.Basic
import Mathlib.Data.List.Perm.Basic

/-!
# Removal by moving the last element

An array forgets the element at a place by moving its last element there. The order is lost, and
nothing else: what is left and what was taken are the elements that were there. A loop that takes out
one of the least until nothing is left goes over the elements in order.
-/

namespace IndimailMta.SwapRemove

variable {α β σ : Type} {l : List α} {i n : Nat}

/-- The last element takes the place of the one at `i`. -/
def swapRemove (l : List α) (i : Nat) : List α :=
  match l.getLast? with
  | none => []
  | some x => (l.set i x).dropLast

theorem swapRemove_concat (l : List α) (x : α) (i : Nat) : swapRemove (l ++ [x]) i = l.set i x := by
  have hlast : (l ++ [x]).getLast? = some x := List.getLast?_concat
  rw [swapRemove, hlast]
  dsimp only
  by_cases hi : i < l.length
  · rw [List.set_append_left _ _ hi, List.dropLast_concat]
  · rw [List.set_append_right _ _ (Nat.le_of_not_lt hi), List.set_eq_of_length_le (Nat.le_of_not_lt hi)]
    cases i - l.length with
    | zero => rw [List.set_cons_zero, List.dropLast_concat]
    | succ k => rw [List.set_cons_succ, List.set_nil, List.dropLast_concat]

@[simp] theorem length_swapRemove (l : List α) (i : Nat) :
    (swapRemove l i).length = l.length - 1 := by
  rcases List.eq_nil_or_concat l with rfl | ⟨l, x, rfl⟩
  · rfl
  · rw [List.concat_eq_append, swapRemove_concat, List.length_set, List.length_append]
    rfl

/-- What is written at a place takes the part of what was there. -/
theorem set_perm {x : α} (y : α) (h : l[i]? = some x) : (x :: l.set i y).Perm (y :: l) := by
  induction l generalizing i with
  | nil => cases h
  | cons z l ih =>
      cases i with
      | zero =>
          obtain rfl : z = x := by simpa using h
          rw [List.set_cons_zero]
          exact List.Perm.swap y z l
      | succ i =>
          rw [List.getElem?_cons_succ] at h
          rw [List.set_cons_succ]
          calc (x :: z :: l.set i y).Perm (z :: x :: l.set i y) := List.Perm.swap z x _
            _ |>.Perm (z :: y :: l) := (ih h).cons z
            _ |>.Perm (y :: z :: l) := List.Perm.swap y z l

/-- **Nothing else is lost.** -/
theorem swapRemove_perm {x : α} (h : l[i]? = some x) : (x :: swapRemove l i).Perm l := by
  rcases List.eq_nil_or_concat l with rfl | ⟨l, y, rfl⟩
  · cases h
  · rw [List.concat_eq_append] at h ⊢
    rw [swapRemove_concat]
    rcases Nat.lt_or_ge i l.length with hi | hi
    · rw [List.getElem?_append_left hi] at h
      exact (set_perm y h).trans (List.perm_append_singleton y l).symm
    · -- the last element itself
      rw [List.getElem?_append_right hi] at h
      obtain rfl : y = x := by
        cases hk : i - l.length with
        | zero => simpa [hk] using h
        | succ k => simp [hk] at h
      rw [List.set_eq_of_length_le hi]
      exact (List.perm_append_singleton y l).symm

theorem map_swapRemove (f : α → β) (l : List α) (i : Nat) :
    (swapRemove l i).map f = swapRemove (l.map f) i := by
  rcases List.eq_nil_or_concat l with rfl | ⟨l, x, rfl⟩
  · rfl
  · rw [List.concat_eq_append, swapRemove_concat, List.map_append, List.map_singleton,
      swapRemove_concat, List.map_set]

/-! ## Taking out the least -/

section Order

variable (pick : σ → List α → Nat × σ)

/-- The elements in the order in which they are picked. -/
def order : Nat → σ → List α → List α
  | 0, _, _ => []
  | n + 1, s, l =>
      match l[(pick s l).1]? with
      | none => []
      | some x => x :: order n (pick s l).2 (swapRemove l (pick s l).1)

variable {pick}

/-- A place that is picked is one of the list. -/
theorem getElem?_pick (hpick : ∀ s l, l ≠ [] → (pick s l).1 < l.length) {s : σ} (h : l ≠ []) :
    ∃ x, l[(pick s l).1]? = some x :=
  ⟨l.get ⟨(pick s l).1, hpick s l h⟩, List.getElem?_eq_getElem (hpick s l h)⟩

/-- Everything is taken out once. -/
theorem order_perm (hpick : ∀ s l, l ≠ [] → (pick s l).1 < l.length) :
    ∀ (s : σ) (l : List α), (order pick l.length s l).Perm l := by
  intro s l
  induction hn : l.length generalizing s l with
  | zero =>
      rw [List.eq_nil_of_length_eq_zero hn]
      exact List.Perm.nil
  | succ n ih =>
      have hne : l ≠ [] := List.ne_nil_of_length_eq_add_one hn
      obtain ⟨x, hx⟩ := getElem?_pick hpick (s := s) hne
      have hlen : (swapRemove l (pick s l).1).length = n := by
        rw [length_swapRemove, hn, Nat.add_sub_cancel]
      rw [order, hx]
      exact ((ih _ _ hlen).cons x).trans (swapRemove_perm hx)

/-- Where one of the least is picked each time, the elements are taken out in order. -/
theorem order_sorted {le : α → α → Prop} (hpick : ∀ s l, l ≠ [] → (pick s l).1 < l.length)
    (hmin : ∀ s l x, l[(pick s l).1]? = some x → ∀ y ∈ l, le x y) :
    ∀ (s : σ) (l : List α), (order pick l.length s l).Pairwise le := by
  intro s l
  induction hn : l.length generalizing s l with
  | zero => exact List.Pairwise.nil
  | succ n ih =>
      have hne : l ≠ [] := List.ne_nil_of_length_eq_add_one hn
      obtain ⟨x, hx⟩ := getElem?_pick hpick (s := s) hne
      have hlen : (swapRemove l (pick s l).1).length = n := by
        rw [length_swapRemove, hn, Nat.add_sub_cancel]
      rw [order, hx]
      refine List.pairwise_cons.mpr ⟨fun y hy => ?_, ih _ _ hlen⟩
      rw [← hlen] at hy
      have hrest : y ∈ swapRemove l (pick s l).1 := (order_perm hpick _ _).mem_iff.mp hy
      exact hmin s l x hx y ((swapRemove_perm hx).mem_iff.mp (List.mem_cons_of_mem x hrest))

end Order

end IndimailMta.SwapRemove
