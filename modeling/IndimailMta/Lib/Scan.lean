import Mathlib.Data.List.Basic

/-!
# Loops that scan

A loop goes from state to state until its condition fails, or until a turn returns. `loop` is such
a loop, with a bound on its turns; a turn has no value where it does what it may not do, and the
loop has none either then, nor when the bound is used up.

The reference of such a loop is a fold over the items it scans, in `Except`: an item changes the
value that is carried, or decides. `loop_agrees` is the rule that connects the two: where each turn
agrees with what its item does, the loop agrees with the fold.
-/

namespace IndimailMta.Scan

variable {σ τ ρ κ ι : Type*}

/-- The loop: at most so many turns. -/
def loop (more : σ → Bool) (turn : σ → Option (Except ρ σ)) : Nat → σ → Option (Except ρ σ)
  | 0, s => if more s then none else some (.ok s)
  | left + 1, s =>
      if more s then
        match turn s with
        | none => none
        | some (.ok s') => loop more turn left s'
        | some (.error r) => some (.error r)
      else some (.ok s)

/-- An outcome of the code and one of the reference: both go on, in states that are related, or
both are decided, with results that are. -/
def Agree (R : σ → τ → Prop) (Q : ρ → κ → Prop) : Option (Except ρ σ) → Except κ τ → Prop
  | some (.ok s), .ok t => R s t
  | some (.error r), .error k => Q r k
  | _, _ => False

theorem Agree.ok {R : σ → τ → Prop} {Q : ρ → κ → Prop} {s : σ} {t : τ} (h : R s t) :
    Agree R Q (some (.ok s)) (.ok t) := h

theorem Agree.error {R : σ → τ → Prop} {Q : ρ → κ → Prop} {r : ρ} {k : κ} (h : Q r k) :
    Agree R Q (some (.error r)) (.error k) := h

theorem Agree.ok_inv {R : σ → τ → Prop} {Q : ρ → κ → Prop} {o : Option (Except ρ σ)} {t : τ}
    (h : Agree R Q o (.ok t)) : ∃ s, o = some (.ok s) ∧ R s t := by
  match o, h with
  | some (.ok s), h => exact ⟨s, rfl, h⟩

theorem Agree.error_inv {R : σ → τ → Prop} {Q : ρ → κ → Prop} {o : Option (Except ρ σ)} {k : κ}
    (h : Agree R Q o (.error k)) : ∃ r, o = some (.error r) ∧ Q r k := by
  match o, h with
  | some (.error r), h => exact ⟨r, rfl, h⟩

theorem Agree.mono {R R' : σ → τ → Prop} {Q : ρ → κ → Prop} {o : Option (Except ρ σ)}
    {x : Except κ τ} (h : Agree R Q o x) (hR : ∀ s t, R s t → R' s t) : Agree R' Q o x := by
  match o, x, h with
  | some (.ok s), .ok t, h => exact hR s t h
  | some (.error r), .error k, h => exact h

section
variable {more : σ → Bool} {turn : σ → Option (Except ρ σ)} {f : τ → ι → Except κ τ}
  {R : List ι → σ → τ → Prop} {Q : ρ → κ → Prop}

/-- **The loop rule.** `R` relates the state of the loop to the items that are left and to the
value the fold carries. -/
theorem loop_agrees (hnil : ∀ s t, R [] s t → more s = false)
    (hcons : ∀ x xs s t, R (x :: xs) s t → more s = true ∧ Agree (R xs) Q (turn s) (f t x))
    {xs : List ι} {s : σ} {t : τ} {left : Nat} (hR : R xs s t) (hleft : xs.length ≤ left) :
    Agree (R []) Q (loop more turn left s) (xs.foldlM f t) := by
  induction xs generalizing s t left with
  | nil =>
      have hstop : loop more turn left s = some (.ok s) := by
        cases left <;> simp [loop, hnil s t hR]
      rw [hstop]
      exact Agree.ok hR
  | cons x xs ih =>
      obtain ⟨hm, hturn⟩ := hcons x xs s t hR
      cases left with
      | zero => exact absurd hleft (by simp)
      | succ left =>
          rw [List.foldlM_cons, loop, if_pos hm]
          cases hf : f t x with
          | error k =>
              rw [hf] at hturn
              obtain ⟨r, hr, hq⟩ := hturn.error_inv
              rw [hr]
              exact Agree.error hq
          | ok t' =>
              rw [hf] at hturn
              obtain ⟨s', hs', hR'⟩ := hturn.ok_inv
              rw [hs']
              exact ih hR' (Nat.le_of_succ_le_succ hleft)

end

/-! ## Searches -/

/-- An outcome of the code and an item's answer: the code goes on where the item has none. -/
def Finds (R : σ → Prop) (Q : ρ → κ → Prop) : Option (Except ρ σ) → Option κ → Prop
  | some (.ok s), none => R s
  | some (.error r), some k => Q r k
  | _, _ => False

theorem Finds.none_inv {R : σ → Prop} {Q : ρ → κ → Prop} {o : Option (Except ρ σ)}
    (h : Finds R Q o none) : ∃ s, o = some (.ok s) ∧ R s := by
  match o, h with
  | some (.ok s), h => exact ⟨s, rfl, h⟩

theorem Finds.some_inv {R : σ → Prop} {Q : ρ → κ → Prop} {o : Option (Except ρ σ)} {k : κ}
    (h : Finds R Q o (some k)) : ∃ r, o = some (.error r) ∧ Q r k := by
  match o, h with
  | some (.error r), h => exact ⟨r, rfl, h⟩

theorem Finds.mono {R R' : σ → Prop} {Q : ρ → κ → Prop} {o : Option (Except ρ σ)} {x : Option κ}
    (h : Finds R Q o x) (hR : ∀ s, R s → R' s) : Finds R' Q o x := by
  match o, x, h with
  | some (.ok s), none, h => exact hR s h
  | some (.error r), some k, h => exact h

/-- **The search rule.** A loop whose reference carries nothing finds the first item that has an
answer. -/
theorem loop_finds {more : σ → Bool} {turn : σ → Option (Except ρ σ)} {g : ι → Option κ}
    {R : List ι → σ → Prop} {Q : ρ → κ → Prop} (hnil : ∀ s, R [] s → more s = false)
    (hcons : ∀ x xs s, R (x :: xs) s → more s = true ∧ Finds (R xs) Q (turn s) (g x))
    {xs : List ι} {s : σ} (hR : R xs s) {left : Nat} (hleft : xs.length ≤ left) :
    Finds (R []) Q (loop more turn left s) (xs.findSome? g) := by
  induction xs generalizing s left with
  | nil =>
      have hstop : loop more turn left s = some (.ok s) := by
        cases left <;> simp [loop, hnil s hR]
      rw [hstop]
      exact hR
  | cons x xs ih =>
      obtain ⟨hm, hturn⟩ := hcons x xs s hR
      cases left with
      | zero => exact absurd hleft (by simp)
      | succ left =>
          rw [List.findSome?_cons, loop, if_pos hm]
          cases hg : g x with
          | some k =>
              rw [hg] at hturn
              obtain ⟨r, hr, hq⟩ := hturn.some_inv
              rw [hr]
              exact hq
          | none =>
              rw [hg] at hturn
              obtain ⟨s', hs', hR'⟩ := hturn.none_inv
              rw [hs']
              exact ih hR' (Nat.le_of_succ_le_succ hleft)

end IndimailMta.Scan
