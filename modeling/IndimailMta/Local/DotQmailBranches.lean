import IndimailMta.Local.DotQmailRuns

/-!
# The branches of a `.qmail` file

The interpreter does what the file says if each branch that is taken goes on behind its own label. It
does not where a line that comes before has a label with which that one begins.
-/

namespace IndimailMta.Local

open IndimailMta Lines

/-- Each branch that is taken goes on behind the first label that is the one it looks for, as it does
with the first one that this begins with. -/
def branchesMeet (answers : Nat → Option Nat) : Nat → Bool → Bool → Nat → List Bytes → Prop
  | 0, _, _, _, _ => True
  | _ + 1, _, _, _, [] => True
  | turns + 1, first, only, n, l :: ls =>
      let next := branchesMeet answers turns false
      let goto := fun (n : Nat) (label : Bytes) =>
        behind starts label ls = behind (· == ·) label ls ∧
          next only n (behind (· == ·) label ls)
      let inst := read (l.rdropWhile isBlank)
      if only && inst.guarded then True
      else
        match inst with
        | .blank => if first then True else next only n ls
        | .nothing => next only n ls
        | .forwardOnly => next true n ls
        | .forward _ => next only n ls
        | .call e =>
            match e.next (answers n) with
            | .goOn => next only (n + 1) ls
            | _ => True
        | .branch label none => goto n label
        | .branch label (some _) =>
            match exitcode (answers n) with
            | .goOn => next only (n + 1) ls
            | .flag99 => goto (n + 1) label
            | .dies _ => True

variable {answers : Nat → Option Nat} {turns n : Nat} {first only : Bool}
variable {ls : List Bytes} {label : Bytes}

theorem after_inj (es : List Event) (a b : Outcome) : a.after es = b.after es ↔ a = b := by
  constructor
  · intro h
    obtain ⟨ea, fa⟩ := a
    obtain ⟨eb, fb⟩ := b
    rw [Outcome.after, Outcome.after, Outcome.mk.injEq] at h
    rw [Outcome.mk.injEq]
    exact ⟨List.append_cancel_left h.1, h.2⟩
  · exact congrArg (Outcome.after es)

/-- The lines that are left are known by the length of their text. -/
theorem suffix_eq {a b : List Bytes} (ha : a <:+ ls) (hb : b <:+ ls)
    (h : (textOf a).length = (textOf b).length) : a = b := by
  have hline : ∀ u v : List Bytes, (textOf (u ++ v)).length = (textOf v).length → u = [] := by
    intro u v huv
    cases u with
    | nil => rfl
    | cons x u =>
        rw [List.cons_append, textOf_cons, List.length_append, List.length_cons] at huv
        have := textOf_suffix (List.suffix_append u v)
        omega
  rcases List.suffix_or_suffix_of_suffix ha hb with ⟨u, rfl⟩ | ⟨u, rfl⟩
  · rw [hline u a h.symm, List.nil_append]
  · rw [hline u b h, List.nil_append]

/-- A branch tells where it goes. -/
theorem goto_iff {A : List Bytes → Outcome} {A' : List Bytes → Outcome} {P : Prop}
    (hA : A (behind (· == ·) label ls) = A' (behind (· == ·) label ls) ↔ P) :
    (A (behind starts label ls)).after [.goto (textOf (behind starts label ls)).length] =
        (A' (behind (· == ·) label ls)).after
          [.goto (textOf (behind (· == ·) label ls)).length] ↔
      behind starts label ls = behind (· == ·) label ls ∧ P := by
  constructor
  · intro h
    have hevents := congrArg Outcome.events h
    rw [Outcome.after, Outcome.after] at hevents
    have hlen : (textOf (behind starts label ls)).length =
        (textOf (behind (· == ·) label ls)).length := by
      have := congrArg List.head? hevents
      simpa using this
    have hsame := suffix_eq (behind_suffix _ _ _) (behind_suffix _ _ _) hlen
    rw [hsame, after_inj, hA] at h
    exact ⟨hsame, h⟩
  · rintro ⟨hsame, hP⟩
    rw [hsame, after_inj, hA]
    exact hP

/-- **The two interpreters** do the same if and only if the branches do. -/
theorem interpret_iff {recips : List Bytes} :
    interpret answers starts turns first only n recips ls =
        interpret answers (· == ·) turns first only n recips ls ↔
      branchesMeet answers turns first only n ls := by
  induction turns generalizing first only n recips ls with
  | zero => exact iff_of_true rfl trivial
  | succ turns ih =>
      cases ls with
      | nil => exact iff_of_true rfl trivial
      | cons l ls =>
          rw [interpret, interpret, branchesMeet]
          dsimp only
          generalize read (l.rdropWhile isBlank) = inst
          by_cases hguard : (only && inst.guarded) = true
          · rw [if_pos hguard, if_pos hguard, if_pos hguard]
            exact iff_of_true rfl trivial
          rw [if_neg hguard, if_neg hguard, if_neg hguard]
          cases inst with
          | blank =>
              cases first with
              | true => exact iff_of_true rfl trivial
              | false => exact ih
          | nothing => exact ih
          | forwardOnly => exact ih
          | forward a => exact ih
          | call e =>
              dsimp only
              cases e.next (answers n) with
              | goOn => exact (after_inj _ _ _).trans ih
              | flag99 => exact iff_of_true rfl trivial
              | dies code => exact iff_of_true rfl trivial
          | branch label prog =>
              cases prog with
              | none => exact goto_iff ih
              | some prog =>
                  dsimp only
                  cases exitcode (answers n) with
                  | goOn => exact (after_inj _ _ _).trans ih
                  | flag99 => exact (after_inj _ _ _).trans (goto_iff ih)
                  | dies code => exact iff_of_true rfl trivial

/-- No address is stored without room. -/
theorem interpret_final (agrees : Bytes → Bytes → Bool) (recips : List Bytes) :
    (interpret answers agrees turns first only n recips ls).final ≠ .overflows := by
  induction turns generalizing first only n recips ls with
  | zero => exact Final.noConfusion
  | succ turns ih =>
      cases ls with
      | nil => exact Final.noConfusion
      | cons l ls =>
          rw [interpret]
          dsimp only
          generalize read (l.rdropWhile isBlank) = inst
          by_cases hguard : (only && inst.guarded) = true
          · rw [if_pos hguard]
            exact Final.noConfusion
          rw [if_neg hguard]
          cases inst with
          | blank =>
              cases first with
              | true => exact Final.noConfusion
              | false => exact ih _
          | nothing => exact ih _
          | forwardOnly => exact ih _
          | forward a => exact ih _
          | call e =>
              dsimp only
              cases e.next (answers n) with
              | goOn => exact ih _
              | flag99 => exact Final.noConfusion
              | dies code => exact Final.noConfusion
          | branch label prog =>
              cases prog with
              | none => exact ih _
              | some prog =>
                  dsimp only
                  cases exitcode (answers n) with
                  | goOn => exact ih _
                  | flag99 => exact ih _
                  | dies code => exact Final.noConfusion

/-- **A `.qmail` file is executed as it is written**, and no more addresses are stored than were
counted, if and only if each branch that is taken meets its label. -/
theorem executed_as_written_iff (answers : Nat → Option Nat) (text aliasempty : Bytes)
    (cutable : Bool) :
    (qmail_local answers text aliasempty cutable =
        reference answers (prepare text aliasempty cutable).2
          (fields 10 (prepare text aliasempty cutable).1) ∧
      (qmail_local answers text aliasempty cutable).final ≠ .overflows) ↔
    branchesMeet answers (fields 10 (prepare text aliasempty cutable).1).length true
      (prepare text aliasempty cutable).2 0 (fields 10 (prepare text aliasempty cutable).1) := by
  rw [qmail_local_eq, reference, ← @interpret_iff answers _ 0 true _ _ []]
  exact ⟨fun h => h.1, fun h => ⟨h, interpret_final _ _⟩⟩

/-- The branch to `abc` goes on behind `:a`. -/
theorem label_is_compared_in_part :
    qmail_local (fun _ => some 0) (asc "?abc\n:a\n|x\n:abc\n") [] false ≠
      reference (fun _ => some 0) false (fields 10 (asc "?abc\n:a\n|x\n:abc\n")) := by
  decide +kernel

end IndimailMta.Local
