import Mathlib.Data.Finset.Card
import Mathlib.Logic.Function.Basic

/-!
# Reference counts

Objects are held by holders, and each object has a counter. `Counts refs holds`
says that every counter is the number of its holders. The rules are the ones a
program with reference counts is verified with: a counter goes up when a holder
is added and down when one is removed, a counter at zero means no holder, and a
holder means a positive counter.
-/

namespace IndimailMta.Refcount

open Function (update update_of_ne)

variable {ι η : Type*} [DecidableEq ι] [DecidableEq η]

/-- Every counter is the number of holders. -/
def Counts (refs : ι → Int) (holds : ι → η → Prop) : Prop :=
  ∀ j, ∃ hs : Finset η, (∀ x, x ∈ hs ↔ holds j x) ∧ refs j = hs.card

variable {refs refs' : ι → Int} {holds holds' : ι → η → Prop} {j : ι} {x : η}

omit [DecidableEq ι] [DecidableEq η] in
theorem Counts.pos (h : Counts refs holds) (hx : holds j x) : 0 < refs j := by
  obtain ⟨hs, hmem, hcard⟩ := h j
  have hpos := Finset.card_pos.mpr ⟨x, (hmem x).mpr hx⟩
  omega

omit [DecidableEq ι] [DecidableEq η] in
theorem Counts.not_holds (h : Counts refs holds) (hj : refs j = 0) (x : η) : ¬ holds j x := by
  intro hx
  have hpos := h.pos hx
  omega

omit [DecidableEq ι] [DecidableEq η] in
/-- No holders at all. -/
theorem counts_zero (hr : ∀ j, refs j = 0) (hh : ∀ j x, ¬ holds j x) : Counts refs holds :=
  fun j => ⟨∅, fun x => by simp [hh j x], by simp [hr j]⟩

omit [DecidableEq ι] [DecidableEq η] in
theorem Counts.congr (h : Counts refs holds) (hr : ∀ j, refs' j = refs j)
    (hh : ∀ j x, holds' j x ↔ holds j x) : Counts refs' holds' := by
  intro j
  obtain ⟨hs, hmem, hcard⟩ := h j
  exact ⟨hs, fun x => (hmem x).trans (hh j x).symm, (hr j).trans hcard⟩

omit [DecidableEq ι] in
/-- One holder more. -/
theorem Counts.add (h : Counts refs holds) (hx : ¬ holds j x) (hj : refs' j = refs j + 1)
    (hr : ∀ k, k ≠ j → refs' k = refs k)
    (hh : ∀ k y, holds' k y ↔ holds k y ∨ (k = j ∧ y = x)) : Counts refs' holds' := by
  intro k
  obtain ⟨hs, hmem, hcard⟩ := h k
  by_cases hk : k = j
  · subst hk
    refine ⟨insert x hs, fun y => ?_, ?_⟩
    · rw [Finset.mem_insert, hmem, hh]
      tauto
    · rw [Finset.card_insert_of_notMem (by rwa [hmem]), hj, hcard]
      rfl
  · refine ⟨hs, fun y => ?_, ?_⟩
    · rw [hmem, hh]
      tauto
    · rw [hr k hk, hcard]

omit [DecidableEq ι] in
/-- One holder less. -/
theorem Counts.remove (h : Counts refs holds) (hx : holds j x) (hj : refs' j = refs j - 1)
    (hr : ∀ k, k ≠ j → refs' k = refs k)
    (hh : ∀ k y, holds' k y ↔ holds k y ∧ ¬ (k = j ∧ y = x)) : Counts refs' holds' := by
  intro k
  obtain ⟨hs, hmem, hcard⟩ := h k
  by_cases hk : k = j
  · subst hk
    have hin := (hmem x).mpr hx
    refine ⟨hs.erase x, fun y => ?_, ?_⟩
    · rw [Finset.mem_erase, hmem, hh]
      tauto
    · have hpos := Finset.card_pos.mpr ⟨x, hin⟩
      rw [Finset.card_erase_of_mem hin, hj, hcard]
      omega
  · refine ⟨hs, fun y => ?_, ?_⟩
    · rw [hmem, hh]
      tauto
    · rw [hr k hk, hcard]

end IndimailMta.Refcount
