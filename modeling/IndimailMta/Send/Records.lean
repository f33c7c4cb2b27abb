import IndimailMta.Send.Pass

/-!
# Records of a channel file

A channel file is a list of NUL-terminated records whose first byte is `T`, to be
delivered, or `D`, done. qmail-send only ever turns a `T` into a `D`, in place, so
record boundaries never move. A pass reads the file through a buffer that can be
older than the marks; `Copy` is what such bytes have in common with the file as
it was first written, and `getln_record` and `getln_end` are what one line of a
pass therefore says about that file.
-/

namespace IndimailMta.Send

open IndimailMta

/-- A record starts at `pos`. -/
def Boundary (file : Bytes) (pos : Nat) : Prop := pos = 0 ∨ file[pos - 1]? = some 0

/-- A complete record of type `T` starts at `pos`. -/
structure TRecord (file : Bytes) (pos : Nat) : Prop where
  boundary : Boundary file pos
  type : file[pos]? = some 84
  complete : ∃ k, pos < k ∧ file[k]? = some 0

/-- `b` was read from a file that was `orig` once, at offset `off`: some records, all of
them done, may be marked. -/
def Copy (done : Nat → Prop) (orig : Bytes) (off : Nat) (b : Bytes) : Prop :=
  ∀ i, i < b.length →
    b[i]? = orig[off + i]? ∨
      (orig[off + i]? = some 84 ∧ b[i]? = some 68 ∧ done (off + i))

section Copy

variable {done done' : Nat → Prop} {orig b : Bytes} {off : Nat}

theorem Copy.self (done : Nat → Prop) (orig : Bytes) : Copy done orig 0 orig :=
  fun i _ => .inl (by rw [Nat.zero_add])

theorem Copy.nil (done : Nat → Prop) (orig : Bytes) (off : Nat) : Copy done orig off [] :=
  fun _ hi => absurd hi (Nat.not_lt_zero _)

theorem Copy.mono (h : Copy done orig off b) (hd : ∀ p, done p → done' p) :
    Copy done' orig off b := by
  intro i hi
  rcases h i hi with h | ⟨ho, hb, hp⟩
  · exact .inl h
  · exact .inr ⟨ho, hb, hd _ hp⟩

theorem Copy.append {b' : Bytes} (h : Copy done orig off b)
    (h' : Copy done orig (off + b.length) b') : Copy done orig off (b ++ b') := by
  intro i hi
  by_cases hib : i < b.length
  · rw [List.getElem?_append_left hib]
    exact h i hib
  · rw [List.length_append] at hi
    rw [List.getElem?_append_right (by omega)]
    have hrest := h' (i - b.length) (by omega)
    rwa [show off + b.length + (i - b.length) = off + i by omega] at hrest

theorem Copy.drop (h : Copy done orig off b) (k : Nat) : Copy done orig (off + k) (b.drop k) := by
  intro i hi
  rw [List.length_drop] at hi
  rw [List.getElem?_drop]
  have hk := h (k + i) (by omega)
  rwa [← Nat.add_assoc] at hk

theorem Copy.take (h : Copy done orig off b) (k : Nat) : Copy done orig off (b.take k) := by
  intro i hi
  rw [List.length_take] at hi
  rw [List.getElem?_take_of_lt (by omega)]
  exact h i (by omega)

/-- The bytes that end records are never touched. -/
theorem Copy.nul (h : Copy done orig off b) {i : Nat} (hi : i < b.length) :
    b[i]? = some 0 ↔ orig[off + i]? = some 0 := by
  rcases h i hi with h | ⟨ho, hb, _⟩
  · rw [h]
  · rw [ho, hb]
    decide

/-- A record that is done may be marked. -/
theorem Copy.mark (h : Copy done orig 0 b) {pos : Nat} (ht : orig[pos]? = some 84)
    (hd : done pos) : Copy done orig 0 (b.set pos 68) := by
  intro i hi
  rw [List.length_set] at hi
  by_cases hip : pos = i
  · subst hip
    rw [List.getElem?_set_self hi, Nat.zero_add]
    exact .inr ⟨ht, rfl, hd⟩
  · rw [List.getElem?_set_ne hip]
    exact h i hi

end Copy

/-! ## Reading a line -/

section Getln

variable {done : Nat → Prop} {orig file : Bytes} {p : Pass} {ahead : Nat}

theorem copy_lineWindow (ahead : Nat) (hbuf : Copy done orig p.mpos p.buf)
    (hfile : Copy done orig 0 file) : Copy done orig p.mpos (lineWindow ahead file p) := by
  have hrest := hfile.drop (p.mpos + p.buf.length)
  rw [Nat.zero_add] at hrest
  unfold lineWindow
  simp only
  split
  · exact hbuf.append (hrest.take ahead)
  · exact hbuf.append hrest

/-- **A terminated line is the record at the position of the pass.** -/
theorem getln_record {line buf : Bytes} (hbuf : Copy done orig p.mpos p.buf)
    (hfile : Copy done orig 0 file) (h : getln ahead file p = (line, true, buf)) :
    ∃ n, line.length = n + 1 ∧ orig[p.mpos + n]? = some 0 ∧
      (∀ k < n, orig[p.mpos + k]? ≠ some 0) ∧
      Copy done orig (p.mpos + line.length) buf ∧
      (line.head? = some 84 → orig[p.mpos]? = some 84) ∧
      (line.head? = some 68 → orig[p.mpos]? = some 84 → done p.mpos) := by
  have hcopy := copy_lineWindow ahead hbuf hfile
  unfold getln at h
  simp only at h
  split at h
  · simp at h
  · rename_i pre more hsplit
    obtain ⟨hw, hpre⟩ := splitNul_eq_some hsplit
    simp only [Prod.mk.injEq, true_and] at h
    obtain ⟨rfl, rfl⟩ := h
    rw [hw] at hcopy
    have hget : ∀ i < pre.length, (pre ++ 0 :: more)[i]? = pre[i]? :=
      fun i hi => List.getElem?_append_left hi
    have hend : (pre ++ 0 :: more)[pre.length]? = some 0 := by
      rw [List.getElem?_append_right (Nat.le_refl _), Nat.sub_self, List.getElem?_cons_zero]
    have hlen : pre.length < (pre ++ 0 :: more).length := by simp
    refine ⟨pre.length, by simp, (hcopy.nul hlen).mp hend, ?_, ?_, ?_, ?_⟩
    · intro k hk hzero
      have hk' := (hcopy.nul (i := k) (by omega)).mpr hzero
      rw [hget k hk] at hk'
      exact hpre (List.mem_of_getElem? hk')
    · have hrest := hcopy.drop (pre.length + 1)
      have htail : (pre ++ 0 :: more).drop (pre.length + 1) = more := by
        rw [← List.drop_drop, List.drop_left', List.drop_one, List.tail_cons]
        rfl
      rw [htail] at hrest
      simpa using hrest
    · intro hT
      rcases pre with _ | ⟨t, pre⟩
      · simp at hT
      · have ht : t = 84 := by simpa using hT
        subst ht
        rcases hcopy 0 (by simp) with h | ⟨h, _⟩
        · simpa using h.symm
        · simpa using h
    · intro hD hT
      rcases pre with _ | ⟨t, pre⟩
      · simp at hD
      · have ht : t = 68 := by simpa using hD
        subst ht
        rcases hcopy 0 (by simp) with h | ⟨_, _, h⟩
        · rw [Nat.add_zero, hT] at h
          simp at h
        · simpa using h

/-- **A line that is not terminated means that no record is left.** -/
theorem getln_end {line buf : Bytes} (hbuf : Copy done orig p.mpos p.buf)
    (hfile : Copy done orig 0 file) (hlen : file.length = orig.length)
    (h : getln ahead file p = (line, false, buf)) :
    ∀ k, p.mpos ≤ k → orig[k]? ≠ some 0 := by
  have hnone : 0 ∉ lineWindow ahead file p := by
    unfold getln at h
    simp only at h
    split at h
    · rename_i hsplit
      exact splitNul_eq_none hsplit
    · simp at h
  have hwindow : lineWindow ahead file p = p.buf ++ file.drop (p.mpos + p.buf.length) := by
    unfold lineWindow at hnone ⊢
    simp only at hnone ⊢
    split
    · rename_i hin
      rw [if_pos hin] at hnone
      exact absurd hin hnone
    · rfl
  rw [hwindow, List.mem_append, not_or] at hnone
  intro k hk hzero
  have hklt : k < orig.length := (List.getElem?_eq_some_iff.mp hzero).1
  by_cases hin : k - p.mpos < p.buf.length
  · have hb := (hbuf.nul hin).mpr (by rwa [show p.mpos + (k - p.mpos) = k by omega])
    exact hnone.1 (List.mem_of_getElem? hb)
  · have hf := (hfile.nul (i := k) (by omega)).mpr (by rwa [Nat.zero_add])
    apply hnone.2
    apply List.mem_of_getElem? (i := k - (p.mpos + p.buf.length))
    rw [List.getElem?_drop, show p.mpos + p.buf.length + (k - (p.mpos + p.buf.length)) = k by omega]
    exact hf

/-- Between two boundaries that follow each other there is no third one. -/
theorem eq_of_boundary {mpos n pos : Nat} (hnul : ∀ k < n, orig[mpos + k]? ≠ some 0)
    (hb : Boundary orig pos) (hle : mpos ≤ pos) (hlt : pos < mpos + (n + 1)) : pos = mpos := by
  rcases hb with h0 | hprev
  · omega
  · by_contra hne
    apply hnul (pos - 1 - mpos) (by omega)
    rwa [show mpos + (pos - 1 - mpos) = pos - 1 by omega]

end Getln

end IndimailMta.Send
