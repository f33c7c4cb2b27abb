import Mathlib.Data.List.Basic
import Mathlib.Data.List.Perm.Basic
import Mathlib.Data.List.GetD

/-!
# The priority queue `prioq`

A binary heap in an array, ordered by `dt`. Insertion moves elements down along
the path to the root until the new one fits; deletion takes the last element and
moves elements up along a path from the root until it fits. One ordering, the
static `type`, is set by each insertion and used by the next deletion.

What the queues of qmail-send rest on is that the array is a bag: an insertion
adds its element (`insert_perm`), `prioq_get` reads the first element, and a
deletion removes that element and no other (`del_perm`).
-/

namespace IndimailMta.Prioq

/-- `struct prioq_elt`. -/
structure Elt where
  dt : Int := 0
  id : Nat := 0
  delayed : Bool := false
  deriving DecidableEq, Repr, Inhabited

/-- `prioq_type`. -/
inductive Order where
  | min
  | max
  deriving DecidableEq, Repr

/-- The comparison of two times that stops a sift. -/
def Order.le : Order → Int → Int → Bool
  | .min, a, b => a ≤ b
  | .max, a, b => b ≤ a

/-- `p[0]` to `p[len - 1]`. -/
abbrev Queue := List Elt

/-! ## Operations -/

/-- The loop of `prioq_insert`: `j` is the hole, `fuel` at least `j`. -/
def siftUp (t : Order) (pe : Elt) : Nat → Queue → Nat → Queue
  | 0, p, j => p.set j pe
  | fuel + 1, p, j =>
      if j = 0 then p.set j pe
      else
        let i := (j - 1) / 2
        if t.le (p.getD i default).dt pe.dt then p.set j pe
        else siftUp t pe fuel (p.set j (p.getD i default)) i

/-- `prioq_insert`. -/
def insert (t : Order) (p : Queue) (pe : Elt) : Queue :=
  siftUp t pe p.length (p ++ [pe]) p.length

/-- `prioq_get`. -/
def get (p : Queue) : Option Elt := p.head?

/-- The loop of `prioq_del`: `i` is the hole, `n` the index of the last element. -/
def siftDown (t : Order) (n : Nat) : Nat → Queue → Nat → Queue
  | 0, p, i => p.set i (p.getD n default)
  | fuel + 1, p, i =>
      let j := i + i + 2
      if j > n then p.set i (p.getD n default)
      else
        let j := if t.le (p.getD (j - 1) default).dt (p.getD j default).dt then j - 1 else j
        if t.le (p.getD n default).dt (p.getD j default).dt then p.set i (p.getD n default)
        else siftDown t n fuel (p.set i (p.getD j default)) j

/-- `prioq_del`. -/
def del (t : Order) (p : Queue) : Queue :=
  if p.isEmpty then p
  else (siftDown t (p.length - 1) p.length p 0).take (p.length - 1)

/-! ## The array is a bag -/

/-- Moving an element into the hole moves the hole. -/
theorem move_perm {p : Queue} {i j : Nat} (x : Elt) (hi : i < p.length) (hj : j < p.length)
    (hij : i ≠ j) : ((p.set i (p.getD j default)).set j x).Perm (p.set i x) := by
  have hi' : i < (p.set i x).length := by rwa [List.length_set]
  have hj' : j < (p.set i x).length := by rwa [List.length_set]
  have h := List.set_set_perm hi' hj'
  have hxj : (p.set i x)[j] = p.getD j default := by
    rw [List.getElem_set_ne hij, List.getD_eq_getElem p default hj]
  rw [List.getElem_set_self, hxj, List.set_set] at h
  exact h

theorem siftUp_perm (t : Order) (pe : Elt) :
    ∀ {n : Nat} {p : Queue} {j : Nat}, j < p.length →
      (siftUp t pe n p j).Perm (p.set j pe)
  | 0, _, _, _ => List.Perm.refl _
  | fuel + 1, p, j, hj => by
      rw [siftUp]
      split
      · exact List.Perm.refl _
      · rename_i hj0
        simp only
        split
        · exact List.Perm.refl _
        · have hi : (j - 1) / 2 < j := by omega
          have ih := siftUp_perm t pe (n := fuel)
            (p := p.set j (p.getD ((j - 1) / 2) default)) (j := (j - 1) / 2)
            (by rw [List.length_set]; omega)
          exact ih.trans (move_perm pe hj (by omega) (by omega))

/-- **Insertion adds its element.** -/
theorem insert_perm (t : Order) (p : Queue) (pe : Elt) : (insert t p pe).Perm (pe :: p) := by
  have h := siftUp_perm t pe (n := p.length) (p := p ++ [pe]) (j := p.length) (by simp)
  have hset : (p ++ [pe]).set p.length pe = p ++ [pe] := by
    rw [List.set_append_right _ _ (Nat.le_refl _)]
    simp
  rw [hset] at h
  exact h.trans (List.perm_append_singleton pe p)

theorem siftDown_take_perm (t : Order) {n : Nat} :
    ∀ {m : Nat} {p : Queue} {i : Nat}, p.length = n + 1 → i < n →
      ((siftDown t n m p i).take n).Perm ((p.set i (p.getD n default)).take n)
  | 0, _, _, _, _ => List.Perm.refl _
  | fuel + 1, p, i, hp, hi => by
      rw [siftDown]
      simp only
      split
      · exact List.Perm.refl _
      · rename_i hj
        generalize hj' : (if t.le (p.getD (i + i + 2 - 1) default).dt
          (p.getD (i + i + 2) default).dt = true then i + i + 2 - 1 else i + i + 2) = j
        have hjb : i < j ∧ j ≤ n := by
          rw [← hj']
          split <;> omega
        split
        · exact List.Perm.refl _
        · rename_i hstop
          have hjn : j ≠ n := by
            rintro rfl
            apply hstop
            cases t <;> simp [Order.le]
          have hlast : (p.set i (p.getD j default)).getD n default = p.getD n default := by
            rw [List.getD_eq_getElem?_getD, List.getElem?_set_ne (by omega),
              List.getD_eq_getElem?_getD]
          have ih := siftDown_take_perm t (m := fuel) (p := p.set i (p.getD j default))
            (i := j) (by rw [List.length_set, hp]) (by omega)
          rw [hlast] at ih
          refine ih.trans ?_
          -- the elements from `n` on are the same on both sides
          refine List.Perm.take_of_getElem? (move_perm _ (by omega) (by omega) (by omega)) ?_
          intro k hk
          rw [List.getElem?_set_ne (by omega), List.getElem?_set_ne (by omega),
            List.getElem?_set_ne (by omega)]

/-- **Deletion removes the first element**, the one `prioq_get` returns. -/
theorem del_perm (t : Order) (p : Queue) : (del t p).Perm p.tail := by
  rcases p with _ | ⟨x, p⟩
  · simp [del]
  · rcases Nat.eq_zero_or_pos p.length with h0 | hpos
    · have hp := List.eq_nil_of_length_eq_zero h0
      simp [del, hp]
    · have hlen : (x :: p).length = p.length + 1 := rfl
      have h := siftDown_take_perm t (m := p.length + 1) (p := x :: p) (i := 0) hlen hpos
      have hlast : (x :: p).getD p.length default = p.getLast (List.ne_nil_of_length_pos hpos) := by
        rw [List.getD_eq_getElem _ _ (by simp), List.getLast_eq_getElem]
        rw [List.getElem_cons, dif_neg (by omega)]
      have htake : (((x :: p).set 0 ((x :: p).getD p.length default)).take p.length).Perm p := by
        rw [hlast, List.set_cons_zero]
        obtain ⟨k, hk⟩ : ∃ k, p.length = k + 1 := ⟨p.length - 1, by omega⟩
        have hsplit := List.dropLast_append_getLast (List.ne_nil_of_length_pos hpos)
        rw [hk, List.take_succ_cons, show k = p.length - 1 by omega, ← List.dropLast_eq_take]
        exact (List.perm_append_singleton _ _).symm.trans (List.Perm.of_eq hsplit)
      simp only [del, List.isEmpty_cons, Bool.false_eq_true, if_false, List.tail_cons]
      rw [show (x :: p).length - 1 = p.length from rfl]
      exact h.trans htake

@[simp] theorem del_nil (t : Order) : del t [] = [] := rfl

/-- What a queue holds, before and after the first element is taken off. -/
theorem get_del_perm {t : Order} {p : Queue} {pe : Elt} (h : get p = some pe) :
    p.Perm (pe :: del t p) := by
  rcases p with _ | ⟨x, p⟩
  · simp [get] at h
  · have hx : x = pe := by simpa [get] using h
    subst hx
    exact (List.Perm.cons x (del_perm t (x :: p))).symm

end IndimailMta.Prioq
