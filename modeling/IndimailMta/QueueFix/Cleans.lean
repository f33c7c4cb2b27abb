import IndimailMta.QueueFix.Renames

/-!
# What is left beside, and the strays

`clean_tmp` takes the `.tmp` from every file that has it. `CleanInv L d E` is what holds of a
directory meanwhile: every file of a misplaced message is at its place, or still beside it, at one
of the places `L`. Then `check_strays` removes only files for which there is nothing in `mess`,
and `mess` does not change.
-/

namespace IndimailMta.QueueFix

open IndimailMta Moves Run Folds

variable {c : Conf} {nm : Numerals} {fs fs' fs₀ fs₁ : Fs} {d : Dir} {i j : Nat} {y : Bytes}
  {f g : File} {s : Option Nat} {t q : Place} {E : Place → Option File}
  {L L' : Dir → Place → Prop} {names : List Bytes} {ls : List Label}

/-! ## `clean_tmp` -/

/-- Where the file that was at `t` is, when all misplaced messages have been renamed. -/
inductive Rest (c : Conf) (nm : Numerals) (fs₀ : Fs) (L : Dir → Place → Prop) (d : Dir)
    (t : Place) : Place → Prop
  | unmoved (h : ∀ i f, Owns c fs₀ d t i f → ¬ Misplaced c nm i t.2 f) : Rest c nm fs₀ L d t t
  | dest (i : Nat) (f : File) (ho : Owns c fs₀ d t i f) : Rest c nm fs₀ L d t (dest c nm d f)
  | aside (i : Nat) (f : File) (ho : Owns c fs₀ d t i f) (hL : L d (aside c nm d f)) :
      Rest c nm fs₀ L d t (aside c nm d f)

/-- What holds of a directory while it is cleaned. -/
def CleanInv (c : Conf) (nm : Numerals) (fs₀ : Fs) (L : Dir → Place → Prop) (d : Dir)
    (E : Place → Option File) : Prop :=
  ∃ r, Moved (fs₀ d) E r ∧ ∀ t, fs₀ d t ≠ none → Rest c nm fs₀ L d t (r t)

/-- When `fix_part` is through, every directory has files beside in its subdirectories only. -/
theorem FixInv.clean (hc : Content c fs₀) (hI : FixInv c nm fs₀ (fun m => m.1 < c.split) fs)
    (d : Dir) : CleanInv c nm fs₀ (fun d q => ∃ i, i < c.split ∧ q.1 = c.slot d i) d (fs d) := by
  obtain ⟨r, hr, hw⟩ := hI d
  refine ⟨r, hr, ?_⟩
  intro t ht
  have hwt := hw t ht
  generalize r t = q at hwt ⊢
  cases hwt with
  | unmoved h =>
      refine .unmoved ?_
      intro i f ho hm
      obtain ⟨k, hk, hs⟩ := hc.inside .mess (some i) t.2 (by rw [ho.1]; exact Option.some_ne_none f)
      rw [c.slot_mess, Option.some.injEq] at hs
      exact h i f ho hm (hs ▸ hk)
  | dest i f ho hm hD => exact .dest i f ho
  | aside i f ho hm hD => exact .aside i f ho ⟨c.home f, c.home_lt f, rfl⟩

/-- What is beside is there, and is at one of the places; other places do not matter. -/
theorem CleanInv.mono (h : CleanInv c nm fs₀ L d E)
    (hL : ∀ f, E (aside c nm d f) ≠ none → L d (aside c nm d f) → L' d (aside c nm d f)) :
    CleanInv c nm fs₀ L' d E := by
  obtain ⟨r, hr, hw⟩ := h
  refine ⟨r, hr, ?_⟩
  intro t ht
  obtain ⟨g, hg⟩ := Option.ne_none_iff_exists'.mp ht
  have hthere := hr.placed t g hg
  have hwt := hw t ht
  generalize r t = q at hwt hthere ⊢
  cases hwt with
  | unmoved h => exact .unmoved h
  | dest i f ho => exact .dest i f ho
  | aside i f ho hin =>
      exact .aside i f ho (hL f (by rw [hthere]; exact Option.some_ne_none g) hin)

end IndimailMta.QueueFix
