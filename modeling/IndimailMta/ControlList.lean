import IndimailMta.Base
import IndimailMta.Lib.Scan

/-!
# Control files in memory

`control_readfile` reads a control file into one buffer, each line with a NUL. A loop over the
lines has the place of a line, and the length of what it has been through. To look at the two parts
of a line it writes a NUL over the separator between them, and the separator back over the NUL when
it is done: until then the line is two lines.
-/

namespace IndimailMta.ControlList

open IndimailMta

/-- The string at place `i`. No value where its NUL is not in the buffer. -/
def textAt (buf : Bytes) (i : Nat) : Option Bytes :=
  if 0 ∈ buf.drop i then some (cstr (buf.drop i)) else none

/-- No line has a NUL in it. -/
def Plain (lines : List Bytes) : Prop := ∀ l ∈ lines, (0 : Byte) ∉ l

theorem Plain.of_cons {l : Bytes} {lines : List Bytes} (h : Plain (l :: lines)) :
    (0 : Byte) ∉ l ∧ Plain lines :=
  ⟨h l (by simp), fun m hm => h m (by simp [hm])⟩

/-- The buffer with the lines `pre` in front of `l`. -/
theorem nuls_split (pre post : List Bytes) (l : Bytes) :
    nuls (pre ++ l :: post) = nuls pre ++ (l ++ 0 :: nuls post) := by
  rw [nuls_append, nuls_cons]

theorem length_nuls_split (pre post : List Bytes) (l : Bytes) :
    (nuls (pre ++ l :: post)).length = (nuls pre).length + l.length + 1 + (nuls post).length := by
  rw [nuls_split]
  simp only [List.length_append, List.length_cons]
  omega

theorem length_nuls_snoc (pre : List Bytes) (l : Bytes) :
    (nuls (pre ++ [l])).length = (nuls pre).length + l.length + 1 := by
  rw [length_nuls_split]
  simp

theorem cstr_append_any (s t : Bytes) : cstr (s ++ 0 :: t) = cstr s := by
  by_cases h : (0 : Byte) ∈ s
  · obtain ⟨u, v, rfl, hu⟩ := List.eq_append_cons_of_mem h
    rw [List.append_assoc, List.cons_append, cstr_append _ hu, cstr_append _ hu]
  · rw [cstr_append t h, cstr_eq h]

/-- A NUL that is written into a string ends it there. -/
theorem cstr_set_nul (l : Bytes) (j : Nat) : cstr (l.set j 0) = (cstr l).take j := by
  induction l generalizing j with
  | nil => simp [cstr]
  | cons b l ih =>
      cases j with
      | zero => simp [cstr]
      | succ j =>
          by_cases hb : b = 0
          · simp [cstr, hb]
          · simpa [cstr, hb] using ih j

theorem drop_nuls_split (pre post : List Bytes) {l : Bytes} {k : Nat} (hk : k ≤ l.length) :
    (nuls (pre ++ l :: post)).drop ((nuls pre).length + k) = l.drop k ++ 0 :: nuls post := by
  rw [nuls_split, List.drop_append, List.drop_eq_nil_of_le (Nat.le_add_right _ _),
    List.nil_append, Nat.add_sub_cancel_left, List.drop_append_of_le_length hk]

/-- From a place within a line one reads the rest of the line, to the first NUL. -/
theorem textAt_split (pre post : List Bytes) {l : Bytes} {k : Nat} (hk : k ≤ l.length) :
    textAt (nuls (pre ++ l :: post)) ((nuls pre).length + k) = some (cstr (l.drop k)) := by
  rw [textAt, drop_nuls_split pre post hk, if_pos (by simp), cstr_append_any]

theorem textAt_within (pre post : List Bytes) {l : Bytes} {k : Nat} (h0 : (0 : Byte) ∉ l)
    (hk : k ≤ l.length) :
    textAt (nuls (pre ++ l :: post)) ((nuls pre).length + k) = some (l.drop k) := by
  have hd : (0 : Byte) ∉ l.drop k := fun h => h0 (List.mem_of_mem_drop h)
  rw [textAt_split pre post hk, cstr_eq hd]

theorem textAt_line (pre post : List Bytes) {l : Bytes} (h0 : (0 : Byte) ∉ l) :
    textAt (nuls (pre ++ l :: post)) (nuls pre).length = some l :=
  textAt_within pre post (k := 0) h0 (Nat.zero_le _)

/-- A byte is written within a line. -/
theorem set_line (pre post : List Bytes) {l : Bytes} {i : Nat} (hi : i < l.length) (d : Byte) :
    (nuls (pre ++ l :: post)).set ((nuls pre).length + i) d =
      nuls (pre ++ l.set i d :: post) := by
  rw [nuls_split, nuls_split, List.set_append_right _ _ (by omega), Nat.add_sub_cancel_left,
    List.set_append_left _ _ hi]

theorem set_within (pre post : List Bytes) (a b : Bytes) (c d : Byte) :
    (nuls (pre ++ (a ++ c :: b) :: post)).set ((nuls pre).length + a.length) d =
      nuls (pre ++ (a ++ d :: b) :: post) := by
  rw [set_line pre post (by simp), List.set_append_right _ _ (Nat.le_refl _), Nat.sub_self,
    List.set_cons_zero]

/-- A line with a NUL in it is two lines. -/
theorem nuls_cut (pre post : List Bytes) (a b : Bytes) :
    nuls (pre ++ (a ++ 0 :: b) :: post) = nuls (pre ++ a :: b :: post) := by
  simp only [nuls_split, nuls_cons]
  simp

/-- What stands in front of the first separator, and behind it. -/
theorem split_at {c : Byte} {l b : Bytes} {x : Byte} (h : l.dropWhile (· ≠ c) = x :: b) :
    x = c ∧ l = l.takeWhile (· ≠ c) ++ c :: b := by
  induction l with
  | nil => simp at h
  | cons y l ih =>
      by_cases hy : y = c
      · subst hy
        simp only [List.dropWhile_cons, ne_eq, not_true_eq_false, decide_false,
          Bool.false_eq_true, if_false, List.cons.injEq] at h
        simp [h.1, h.2]
      · simp only [List.dropWhile_cons, ne_eq, hy, not_false_eq_true, decide_true, if_true] at h
        obtain ⟨hx, hl⟩ := ih h
        refine ⟨hx, ?_⟩
        simpa [List.takeWhile_cons, hy] using hl

end IndimailMta.ControlList
