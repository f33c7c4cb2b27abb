import IndimailMta.QueueFix.Places

/-!
# The files that are renamed

`fix_part` renames the files of one misplaced message after the other. `FixInv fs₀ D fs` is what
holds of all directories when those of `D` have been renamed. A message that is already renamed
may be read again, at its new place; `fix_part` finds it in order there, with `.tmp` too.
-/

namespace IndimailMta.QueueFix

open IndimailMta Moves Run Folds

variable {c : Conf} {nm : Numerals} {fs fs' fs₀ : Fs} {d : Dir} {i j : Nat} {y : Bytes}
  {f g : File} {D D' : Nat × Bytes → Prop} {t q : Place} {E : Place → Option File}

/-! ## `rename_mess` -/

theorem access_ok {b : Bool} (h : access c nm fs d q = .ok b) : b = (fs d q).isSome := by
  rw [access] at h
  split at h
  · cases h
  · exact (Except.ok.inj h).symm

theorem rename_ok {a b : Place} (h : rename c nm d a b fs = .ok fs') :
    fs' = fun e => if e = d then move (fs d) a b else fs e := by
  rw [rename] at h
  split at h
  · cases h
  · exact (Except.ok.inj h).symm

/-- The file goes to a place where nothing is: to the new name, or to that with `.tmp`. -/
theorem rename_mess_ok {s s' : Option Nat} {x x' : Bytes}
    (h : rename_mess c nm d s s' x x' fs = .ok fs') :
    ∃ b, (b = (s', x') ∧ fs d (s', x') = none ∨ b = (s', x' ++ tmp) ∧ fs d (s', x') ≠ none) ∧
      fs d b = none ∧ fs' = fun e => if e = d then move (fs d) (s, x) b else fs e := by
  simp only [rename_mess, bind, Except.bind] at h
  cases h1 : access c nm fs d (s', x') with
  | error e =>
      rw [h1] at h
      cases h
  | ok b1 =>
      have hb1 := access_ok h1
      rw [h1] at h
      cases b1 with
      | false =>
          have hnone : fs d (s', x') = none := Option.not_isSome_iff_eq_none.mp (by
            rw [← hb1]
            exact Bool.false_ne_true)
          exact ⟨(s', x'), Or.inl ⟨rfl, hnone⟩, hnone, rename_ok h⟩
      | true =>
          have hsome : fs d (s', x') ≠ none := Option.isSome_iff_ne_none.mp hb1.symm
          simp only [if_true] at h
          cases h2 : access c nm fs d (s', x' ++ tmp) with
          | error e =>
              rw [h2] at h
              cases h
          | ok b2 =>
              have hb2 := access_ok h2
              rw [h2] at h
              cases b2 with
              | true => cases h
              | false =>
                  have hnone : fs d (s', x' ++ tmp) = none := Option.not_isSome_iff_eq_none.mp (by
                    rw [← hb2]
                    exact Bool.false_ne_true)
                  exact ⟨(s', x' ++ tmp), Or.inr ⟨rfl, hsome⟩, hnone, rename_ok h⟩

/-! ## One message -/

/-- What holds of all directories when the messages of `D` have been renamed. -/
def FixInv (c : Conf) (nm : Numerals) (fs₀ : Fs) (D : Nat × Bytes → Prop) (fs : Fs) : Prop :=
  ∀ d, DirInv c nm fs₀ D d (fs d)

/-- What `fix_part` does with a name, when it does not fail. -/
theorem fixName_ok (h : fixName c nm i y fs = .ok fs') :
    y.head? = some 46 ∧ fs' = fs ∨
      ∃ st, fs .mess (some i, y) = some st ∧
        (¬ Misplaced c nm i y st ∧ fs' = fs ∨
          Misplaced c nm i y st ∧
            renamed.foldlM (fun fs d => rename_mess c nm d (fixSlot d i) (fixSlot d (c.home st)) y
              (nm.fmtUlong st.ino) fs) fs = .ok fs') := by
  rw [fixName] at h
  by_cases hdot : y.head? = some 46
  · rw [if_pos hdot] at h
    exact Or.inl ⟨hdot, (Except.ok.inj h).symm⟩
  · rw [if_neg hdot] at h
    right
    cases hst : fs .mess (some i, y) with
    | none =>
        rw [hst] at h
        cases h
    | some st =>
        rw [hst] at h
        refine ⟨st, rfl, ?_⟩
        simp only at h
        by_cases hp : st.ino = unsignedLong (scanInt nm y) ∧ i = st.ino % c.split
        · rw [if_pos hp] at h
          exact Or.inl ⟨not_not.mpr hp, (Except.ok.inj h).symm⟩
        · rw [if_neg hp] at h
          exact Or.inr ⟨hp, h⟩

/-- What `fix_part` finds in `mess` under a name: a message that was not renamed, or one that
was and is in order. -/
theorem FixInv.found (hc : Content c fs₀) (hI : FixInv c nm fs₀ D fs)
    (hst : fs .mess (some i, y) = some f) :
    fs₀ .mess (some i, y) = some f ∧ (Misplaced c nm i y f → ¬ D (i, y)) ∨
      ¬ Misplaced c nm i y f ∧
        ∀ g, fs₀ .mess (some i, y) = some g → Misplaced c nm i y g → D (i, y) := by
  obtain ⟨r, hr, hw⟩ := hI .mess
  obtain ⟨t, ht, hrt⟩ := hr.only _ _ hst
  have ht' : fs₀ .mess t ≠ none := by rw [ht]; exact Option.some_ne_none f
  have hwt := hw t ht'
  -- where another file stands, the message that had the name is gone
  have hgone : ∀ j g, Owns c fs₀ .mess t j g → D (j, t.2) →
      ∀ g, fs₀ .mess (some i, y) = some g → Misplaced c nm i y g → D (i, y) := by
    intro j g hj hD g' hg' hm
    by_contra hn
    have hne : fs₀ .mess (some i, y) ≠ none := by rw [hg']; exact Option.some_ne_none g'
    have hri : r (some i, y) = (some i, y) := (hw _ hne).eq_of_not hc hne (owns_mess hg') hn
    have heq := hr.inj t (some i, y) ht' hne (hrt.trans hri.symm)
    subst heq
    exact hn ((hc.owner hne hj (owns_mess hg')).1 ▸ hD)
  rw [hrt] at hwt
  generalize hq : (some i, y) = q at hwt
  cases hwt with
  | unmoved h =>
      subst hq
      exact Or.inl ⟨ht, fun hm => h i f (owns_mess ht) hm⟩
  | dest j g hj hm hD =>
      obtain ⟨k, -, hk⟩ := hc.owns_of_mess ht
      obtain ⟨-, rfl⟩ := hc.owner ht' hj hk
      rw [dest, c.slot_mess] at hq
      obtain ⟨h1, rfl⟩ := Prod.mk.inj hq
      obtain rfl := Option.some.inj h1
      exact Or.inr ⟨not_misplaced_dest (hc.ino _ _ ht), hgone j g hj hD⟩
  | aside j g hj hm hD =>
      obtain ⟨k, -, hk⟩ := hc.owns_of_mess ht
      obtain ⟨-, rfl⟩ := hc.owner ht' hj hk
      rw [aside, c.slot_mess] at hq
      obtain ⟨h1, rfl⟩ := Prod.mk.inj hq
      obtain rfl := Option.some.inj h1
      exact Or.inr ⟨not_misplaced_aside (hc.ino _ _ ht), hgone j g hj hD⟩

/-- A step of the run is a loop over the names. -/
theorem step_eq {v : Visit} {names : List Bytes} (h : (machine c nm).step fs (v, names) = some fs') :
    names.foldlM (fun fs y => v.name c nm y fs) fs = .ok fs' := by
  cases h1 : names.foldlM (fun fs y => v.name c nm y fs) fs with
  | error e =>
      rw [machine] at h
      simp only [h1] at h
      cases h
  | ok fs1 =>
      rw [machine] at h
      simp only [h1] at h
      exact congrArg Except.ok (Option.some.inj h)

end IndimailMta.QueueFix
