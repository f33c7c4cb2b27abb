import Mathlib.Data.List.Basic

/-!
# Loops that may fail

A loop over a list whose steps may fail is `List.foldlM` in `Except`. If it ends well, each of its
steps did (`foldlM_cons_ok`), and what every step keeps holds at the end, of the whole list
(`foldlM_keeps`).
-/

namespace IndimailMta.Folds

variable {α β ε : Type} {k : β → α → Except ε β}

/-- A loop that does not fail does its first step. -/
theorem foldlM_cons_ok {b b' : β} {a : α} {as : List α} :
    (a :: as).foldlM k b = .ok b' ↔ ∃ b₁, k b a = .ok b₁ ∧ as.foldlM k b₁ = .ok b' := by
  rw [List.foldlM_cons]
  simp only [bind, Except.bind]
  cases k b a with
  | error e =>
      constructor
      · intro h
        cases h
      · rintro ⟨b₁, h, -⟩
        cases h
  | ok b₁ =>
      constructor
      · intro h
        exact ⟨b₁, rfl, h⟩
      · rintro ⟨b₂, h, hrest⟩
        obtain rfl := Except.ok.inj h
        exact hrest

/-- **What a step keeps, the loop keeps.** The invariant may speak of the part of the list that is
done. -/
theorem foldlM_keeps {I : List α → β → Prop}
    (hstep : ∀ as a b b', I as b → k b a = .ok b' → I (as ++ [a]) b') (as : List α) {bs : List α}
    {b b' : β} (hb : I as b) (h : bs.foldlM k b = .ok b') : I (as ++ bs) b' := by
  induction bs generalizing as b with
  | nil =>
      cases h
      rwa [List.append_nil]
  | cons a bs ih =>
      obtain ⟨b₁, hfirst, hrest⟩ := foldlM_cons_ok.mp h
      have hbs := ih (as ++ [a]) (hstep as a b b₁ hb hfirst) hrest
      rwa [List.append_assoc] at hbs

/-- An invariant that does not speak of the list. -/
theorem foldlM_invariant {I : β → Prop} (hstep : ∀ a b b', I b → k b a = .ok b' → I b')
    {as : List α} {b b' : β} (hb : I b) (h : as.foldlM k b = .ok b') : I b' :=
  foldlM_keeps (I := fun _ => I) (fun _ a b b' => hstep a b b') [] hb h

end IndimailMta.Folds
