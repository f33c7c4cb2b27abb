import Mathlib.Logic.Function.Basic
import Mathlib.Data.List.Basic

/-!
# Things that are moved

A store has things at places, one at a place. Some things are moved to free places, one after
the other, and some are taken out. `Moved E₀ E r` says where the things of `E₀` are in `E`: what
was at `t` is at `r t`, and there is nothing else.
-/

namespace IndimailMta.Moves

variable {P G : Type} {E E₀ : P → Option G} {r : P → P} {a b q t : P} {g : G}

/-- What was at `t` is at `r t`, and nothing else is there. -/
structure Moved (E₀ E : P → Option G) (r : P → P) : Prop where
  placed : ∀ t g, E₀ t = some g → E (r t) = some g
  only : ∀ q g, E q = some g → ∃ t, E₀ t = some g ∧ r t = q
  inj : ∀ t u, E₀ t ≠ none → E₀ u ≠ none → r t = r u → t = u

/-- Where nothing is, nothing was moved to. -/
theorem Moved.free (h : Moved E₀ E r) (hb : E b = none) (ht : E₀ t ≠ none) : r t ≠ b := by
  rintro rfl
  obtain ⟨g, hg⟩ := Option.ne_none_iff_exists'.mp ht
  rw [h.placed t g hg] at hb
  cases hb

/-- What is somewhere comes from somewhere. -/
theorem Moved.source (h : Moved E₀ E r) (hq : E q ≠ none) : ∃ t, E₀ t ≠ none ∧ r t = q := by
  obtain ⟨g, hg⟩ := Option.ne_none_iff_exists'.mp hq
  obtain ⟨t, ht, hr⟩ := h.only q g hg
  exact ⟨t, by rw [ht]; exact Option.some_ne_none g, hr⟩

variable [DecidableEq P]

/-- What is at `a` goes to `b`. -/
def move (E : P → Option G) (a b : P) : P → Option G :=
  match E a with
  | none => E
  | some g => fun q => if q = b then some g else if q = a then none else E q

theorem move_none (h : E a = none) : move E a b = E := by
  rw [move, h]

theorem move_some (h : E a = some g) :
    move E a b = fun q => if q = b then some g else if q = a then none else E q := by
  rw [move, h]

/-- **A thing is moved to a free place.** -/
theorem Moved.move (h : Moved E₀ E r) (ht : E₀ t ≠ none) (hb : E b = none) :
    Moved E₀ (move E (r t) b) (Function.update r t b) := by
  obtain ⟨g, hg⟩ := Option.ne_none_iff_exists'.mp ht
  have hrt := h.placed t g hg
  have hne : r t ≠ b := h.free hb ht
  rw [move_some hrt]
  constructor
  · intro u x hu
    by_cases hut : u = t
    · subst hut
      rw [hg] at hu
      rw [Function.update_self, if_pos rfl, hu]
    · have hru : r u ≠ r t := by
        intro heq
        exact hut (h.inj u t (by rw [hu]; exact Option.some_ne_none x) ht heq)
      rw [Function.update_of_ne hut, if_neg (h.free hb (by rw [hu]; exact Option.some_ne_none x)),
        if_neg hru]
      exact h.placed u x hu
  · intro q x hq
    by_cases hqb : q = b
    · rw [if_pos hqb, Option.some.injEq] at hq
      exact ⟨t, by rw [hg, hq], by rw [Function.update_self, hqb]⟩
    · rw [if_neg hqb] at hq
      by_cases hqa : q = r t
      · rw [if_pos hqa] at hq
        cases hq
      · rw [if_neg hqa] at hq
        obtain ⟨u, hu, hru⟩ := h.only q x hq
        refine ⟨u, hu, ?_⟩
        rw [Function.update_of_ne, hru]
        rintro rfl
        exact hqa hru.symm
  · intro u v hu hv heq
    by_cases hut : u = t <;> by_cases hvt : v = t
    · rw [hut, hvt]
    · rw [hut, Function.update_self, Function.update_of_ne hvt] at heq
      exact absurd heq.symm (h.free hb hv)
    · rw [hvt, Function.update_self, Function.update_of_ne hut] at heq
      exact absurd heq (h.free hb hu)
    · rw [Function.update_of_ne hut, Function.update_of_ne hvt] at heq
      exact h.inj u v hu hv heq

/-- Nothing is moved from where nothing is. -/
theorem Moved.move_none (h : Moved E₀ E r) (ha : E a = none) : Moved E₀ (Moves.move E a b) r := by
  rw [Moves.move_none ha]
  exact h

end IndimailMta.Moves
