import IndimailMta.QueueFix.Cleans
import IndimailMta.QueueFix.Known

/-!
# queue-fix loses and mixes up nothing

`Fixed fs fs'` is what a queue should be when `queue-fix` is done. It is, for every order in
which the directories are read, where the queue was `Orderly`.
-/

namespace IndimailMta.QueueFix

open IndimailMta Moves Run Folds

variable {c : Conf} {nm : Numerals} {fs fs' fs₀ fs₁ : Fs} {d : Dir} {i j : Nat} {y : Bytes}
  {f g : File} {s : Option Nat} {t q : Place} {E : Place → Option File}
  {names : List Bytes} {ls : List Label}

/-! ## What is wanted -/

/-- Nothing is beside its place. -/
def Placed (c : Conf) (nm : Numerals) (fs₀ fs : Fs) : Prop :=
  ∀ d, CleanInv c nm fs₀ (fun _ _ => False) d (fs d)

/-- Every file is where it was, or where a message's file belongs. -/
theorem Placed.moved (h : Placed c nm fs₀ fs) (d : Dir) :
    ∃ r, Moved (fs₀ d) (fs d) r ∧ ∀ t, fs₀ d t ≠ none →
      r t = t ∧ (∀ i f, Owns c fs₀ d t i f → ¬ Misplaced c nm i t.2 f) ∨
        ∃ i f, Owns c fs₀ d t i f ∧ r t = dest c nm d f := by
  obtain ⟨r, hr, hw⟩ := h d
  refine ⟨r, hr, ?_⟩
  intro t ht
  have hwt := hw t ht
  generalize r t = q at hwt ⊢
  cases hwt with
  | unmoved h => exact Or.inl ⟨rfl, h⟩
  | dest i f ho => exact Or.inr ⟨i, f, ho, rfl⟩
  | aside i f ho hL => exact hL.elim

/-- **What is where a message's file belongs is its file**, or stood there and is no message's. -/
theorem Placed.source (hc : Content c fs₀) (ho : Orderly c nm fs₀) (h : Placed c nm fs₀ fs)
    (hf : fs₀ .mess (some i, y) = some f) (hE : fs d (dest c nm d f) ≠ none) :
    fs₀ d (c.slot d i, y) ≠ none ∨ fs d (dest c nm d f) = fs₀ d (dest c nm d f) ∧
      ∀ j g, ¬ Owns c fs₀ d (dest c nm d f) j g := by
  obtain ⟨r, hr, hw⟩ := h.moved d
  obtain ⟨g, hg⟩ := Option.ne_none_iff_exists'.mp hE
  obtain ⟨t, ht, hrt⟩ := hr.only _ g hg
  have ht' : fs₀ d t ≠ none := by rw [ht]; exact Option.some_ne_none g
  -- a message that belongs here is this one
  have hthis : ∀ j f', Owns c fs₀ d t j f' → dest c nm d f = dest c nm d f' →
      fs₀ d (c.slot d i, y) ≠ none := by
    intro j f' hj heq
    obtain ⟨rfl, rfl⟩ := hc.same hf hj.1 (congrArg Prod.snd heq)
    have : t = (c.slot d i, t.2) := Prod.ext hj.2 rfl
    rwa [← this]
  rcases hw t ht' with ⟨hrt', hno⟩ | ⟨j, f', hj, hrt'⟩
  · have heq : t = dest c nm d f := hrt'.symm.trans hrt
    by_cases hown : ∃ j f', Owns c fs₀ d t j f'
    · obtain ⟨j, f', hj⟩ := hown
      exact Or.inl (hthis j f' hj (heq.symm.trans (ho.at_dest hj (hno j f' hj))))
    · right
      refine ⟨by rw [hg, ← heq, ht], ?_⟩
      intro j f' hj
      exact hown ⟨j, f', heq ▸ hj⟩
  · exact Or.inl (hthis j f' hj (hrt.symm.trans hrt'))

/-- Every file of `mess` has its number for a name. -/
theorem Placed.named (hc : Content c fs₀) (ho : Orderly c nm fs₀) (h : Placed c nm fs₀ fs)
    (hq : fs .mess q = some f) : q = (some (f.ino % c.split), nm.fmtUlong f.ino) := by
  obtain ⟨r, hr, hw⟩ := h.moved .mess
  obtain ⟨t, ht, hrt⟩ := hr.only q f hq
  obtain ⟨i, -, hi⟩ := hc.owns_of_mess ht
  have ht' : fs₀ .mess t ≠ none := by rw [ht]; exact Option.some_ne_none f
  have hdest : q = dest c nm .mess f := by
    rcases hw t ht' with ⟨hrt', hno⟩ | ⟨j, f', hj, hrt'⟩
    · rw [← hrt, hrt']
      exact ho.at_dest hi (hno i f hi)
    · obtain ⟨-, rfl⟩ := hc.owner ht' hi hj
      rw [← hrt, hrt']
  rw [hdest, dest, c.slot_mess, Conf.home]

/-! ## `check_strays` -/

/-- One message, and its envelope in `todo`. -/
def copied (a : Place) (b : Option Place) : Fs := fun d q =>
  if d = .mess ∧ q = a then some ⟨7, asc "mail"⟩
  else if d = .todo ∧ b = some q then some ⟨8, asc "uT"⟩
  else none

/-- A queue without more subdirectories. -/
def small (bigtodo : Bool) : Conf := ⟨1, bigtodo, Nat.one_pos⟩

end IndimailMta.QueueFix
