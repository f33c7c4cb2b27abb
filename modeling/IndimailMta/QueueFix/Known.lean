import IndimailMta.QueueFix.Renames

/-!
# The names of a run

Every name a run of `queue-fix` comes to is one the queue had, the number of a message, or such a
number with `.tmp`. So a run can be computed, with what `readdir` has to return: no name comes up
that is not one of finitely many.
-/

namespace IndimailMta.QueueFix

open IndimailMta Moves Run Folds

variable {c : Conf} {nm : Numerals} {fs fs' : Fs} {d : Dir} {i : Nat} {y : Bytes} {f : File}
  {s : Option Nat} {q : Place} {Y : List Bytes} {F : List File}

/-! ## Known names -/

/-- Every name is in `Y`, and every message's file in `F`. -/
def Known (Y : List Bytes) (F : List File) (fs : Fs) : Prop :=
  ∀ d s y f, fs d (s, y) = some f → y ∈ Y ∧ (d = .mess → f ∈ F)

/-- `Y` has all names that files can get if it has theirs, and `F` the messages'. -/
structure Covers (nm : Numerals) (Y : List Bytes) (F : List File) : Prop where
  number : ∀ f ∈ F, nm.fmtUlong f.ino ∈ Y ∧ nm.fmtUlong f.ino ++ tmp ∈ Y
  short : ∀ y ∈ Y, 4 < y.length → y.drop (y.length - 4) = tmp → y.take (y.length - 4) ∈ Y

/-- One directory of one message. -/
theorem Known.rename_mess (h : Known Y F fs) {s s' : Option Nat} {x x' : Bytes}
    (hx : fs d (s, x) ≠ none → x' ∈ Y ∧ x' ++ tmp ∈ Y)
    (he : rename_mess c nm d s s' x x' fs = .ok fs') : Known Y F fs' := by
  obtain ⟨b, hb, -, rfl⟩ := rename_mess_ok he
  intro e u z g hg
  by_cases hed : e = d
  · subst hed
    simp only [if_true] at hg
    cases ha : fs e (s, x) with
    | none =>
        rw [move_none ha] at hg
        exact h e u z g hg
    | some f =>
        obtain ⟨hnew, htmp⟩ := hx (by rw [ha]; exact Option.some_ne_none f)
        simp only [move_some ha] at hg
        split_ifs at hg with hzb
        · obtain rfl := Option.some.inj hg
          refine ⟨?_, (h e s x f ha).2⟩
          rcases hb with ⟨rfl, -⟩ | ⟨rfl, -⟩
          · rwa [(Prod.mk.inj hzb).2]
          · rwa [(Prod.mk.inj hzb).2]
        · exact h e u z g hg
  · simp only [if_neg hed] at hg
    exact h e u z g hg

/-- One name. -/
theorem Known.name (hY : Covers nm Y F) (h : Known Y F fs) {v : Visit}
    (he : v.name c nm y fs = .ok fs') : Known Y F fs' := by
  cases v with
  | fix i =>
      rcases fixName_ok he with ⟨-, rfl⟩ | ⟨st, hst, ⟨-, rfl⟩ | ⟨-, hrun⟩⟩
      · exact h
      · exact h
      · have hnumber := hY.number st ((h .mess (some i) y st hst).2 rfl)
        exact foldlM_invariant (fun _ _ _ hk he => hk.rename_mess (fun _ => hnumber) he) h hrun
  | clean d s =>
      simp only [Visit.name, cleanName] at he
      split_ifs at he with hdot htmp
      · cases he
        exact h
      · refine h.rename_mess (fun hne => ?_) he
        obtain ⟨f, hf⟩ := Option.ne_none_iff_exists'.mp hne
        have hy := (h d s y f hf).1
        refine ⟨hY.short y hy htmp.1 htmp.2, ?_⟩
        rwa [← htmp.2, List.take_append_drop]
      · cases he
        exact h
  | stray d s =>
      simp only [Visit.name, strayName] at he
      split_ifs at he
      · cases he
        exact h
      · cases he
        exact h
      · obtain rfl := Except.ok.inj he
        intro e u z g hg
        by_cases hz : e = d ∧ (u, z) = (s, y)
        · simp only [if_pos hz] at hg
          cases hg
        · simp only [if_neg hz] at hg
          exact h e u z g hg

/-- **A run comes to no other names.** -/
theorem Known.step (hY : Covers nm Y F) (h : Known Y F fs) {l : Label}
    (he : (machine c nm).step fs l = some fs') : Known Y F fs' :=
  foldlM_invariant (fun _ _ _ hk he => hk.name hY he) h (step_eq he)

/-! ## Runs that can be computed -/

/-- The files of a list. -/
def table (L : List (Dir × Place × File)) : Fs := fun d q =>
  (L.find? fun e => e.1 == d && e.2.1 == q).map fun e => e.2.2

end IndimailMta.QueueFix
