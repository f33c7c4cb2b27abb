import IndimailMta.PrioqOrder
import IndimailMta.Lib.Run

/-!
# Several queues at once

A program may keep some queues with the earliest element first and some with the latest. The
ordering is not kept with the queue: `prioq_insert` leaves the one it was called with in the
static `type`, and `prioq_del` sifts with what it finds there.

No queue loses or doubles an element, whatever `type` is. They stay in order as long as each
deletion that has to compare finds the ordering of its own queue.
-/

namespace IndimailMta.Prioq

open Run

/-! ## Both orderings -/

/-- An element with its time turned around, for a queue with the latest first. -/
def Elt.under (t : Order) (e : Elt) : Elt :=
  match t with
  | .min => e
  | .max => { e with dt := -e.dt }

theorem le_under (t : Order) (a b : Elt) :
    Order.le .min (a.under t).dt (b.under t).dt = t.le a.dt b.dt := by
  cases t with
  | min => rfl
  | max => simp [Elt.under, Order.le]

theorem default_under (t : Order) : (default : Elt).under t = default := by
  cases t with
  | min => rfl
  | max => rfl

section Under

variable (t : Order) {p : Queue} {pe : Elt}

theorem getD_under (p : Queue) (i : Nat) :
    (p.map (Elt.under t)).getD i default = (p.getD i default).under t := by
  have h := List.getD_map (l := p) (d := default) (n := i) (Elt.under t)
  rwa [default_under] at h

theorem siftUp_under : ∀ (fuel : Nat) (p : Queue) (j : Nat),
    (siftUp t pe fuel p j).map (Elt.under t) =
      siftUp .min (pe.under t) fuel (p.map (Elt.under t)) j
  | 0, p, j => by rw [siftUp, siftUp, List.map_set]
  | fuel + 1, p, j => by
      rw [siftUp, siftUp]
      simp only [getD_under, le_under]
      split
      · exact List.map_set
      · split
        · exact List.map_set
        · rw [siftUp_under fuel, List.map_set]

theorem siftDown_under (n : Nat) : ∀ (fuel : Nat) (p : Queue) (i : Nat),
    (siftDown t n fuel p i).map (Elt.under t) =
      siftDown .min n fuel (p.map (Elt.under t)) i
  | 0, p, i => by rw [siftDown, siftDown, List.map_set, getD_under]
  | fuel + 1, p, i => by
      rw [siftDown, siftDown]
      simp only [getD_under, le_under]
      split
      · exact List.map_set
      · -- the child that is compared is the same on both sides
        generalize (if t.le (p.getD (i + i + 2 - 1) default).dt
          (p.getD (i + i + 2) default).dt = true then i + i + 2 - 1 else i + i + 2) = j
        split
        · exact List.map_set
        · rw [siftDown_under n fuel, List.map_set]

theorem insert_under (p : Queue) (pe : Elt) :
    (insert t p pe).map (Elt.under t) = insert .min (p.map (Elt.under t)) (pe.under t) := by
  rw [insert, insert, siftUp_under, List.map_append, List.map_singleton, List.length_map]

theorem del_under (p : Queue) :
    (del t p).map (Elt.under t) = del .min (p.map (Elt.under t)) := by
  rw [del, del]
  cases p with
  | nil => rfl
  | cons x p =>
      simp only [List.isEmpty_cons, List.map_cons, Bool.false_eq_true, if_false]
      rw [List.map_take, siftDown_under, List.map_cons, List.length_cons, List.length_cons,
        List.length_map]

end Under

/-- The queue is a heap with respect to an ordering. -/
def OrderedBy (t : Order) (p : Queue) : Prop := Ordered (p.map (Elt.under t))

section OrderedBy

variable {t : Order} {p : Queue} {pe : Elt}

theorem orderedBy_nil : OrderedBy t [] := ordered_nil

theorem OrderedBy.insert (h : OrderedBy t p) (pe : Elt) : OrderedBy t (Prioq.insert t p pe) := by
  rw [OrderedBy, insert_under]
  exact Ordered.insert h _

theorem OrderedBy.del (h : OrderedBy t p) : OrderedBy t (Prioq.del t p) := by
  rw [OrderedBy, del_under]
  exact Ordered.del h

theorem OrderedBy.get_le (h : OrderedBy t p) (hg : get p = some pe) :
    ∀ e ∈ p, t.le pe.dt e.dt = true := by
  intro e he
  have hg' : get (p.map (Elt.under t)) = some (pe.under t) := by
    rw [get, List.head?_map]
    exact congrArg (Option.map _) hg
  have hle := Ordered.get_le h hg' (e.under t) (List.mem_map_of_mem he)
  rw [← le_under]
  exact le_min.mpr hle

/-- With at most two elements a deletion compares nothing. -/
theorem OrderedBy.del_short (t' : Order) (hlen : p.length ≤ 2) : OrderedBy t (Prioq.del t' p) := by
  rcases p with _ | ⟨a, _ | ⟨b, _ | ⟨c, p⟩⟩⟩
  · exact ordered_nil
  · intro i hi hin
    simp [Prioq.del] at hin
  · intro i hi hin
    simp [Prioq.del] at hin
    omega
  · simp at hlen

end OrderedBy

/-! ## The queues of a program -/

section Queues

variable {ι : Type} [DecidableEq ι]

/-- The static `type`, the queues, and what was inserted into each and not deleted (which the
program does not keep). -/
structure State (ι : Type) where
  type : Order := .min
  p : ι → Queue := fun _ => []
  held : ι → List Elt := fun _ => []

/-- A call, for one of the queues. `prioq_get` changes nothing. -/
inductive Call (ι : Type) where
  | insert (i : ι) (pe : Elt)
  | get (i : ι)
  | del (i : ι)
  deriving DecidableEq, Repr

/-- A call of a program that keeps the queue `i` in the ordering `ord i`. A deletion is meant to
take away the element that `prioq_get` returns. -/
def step (ord : ι → Order) (s : State ι) : Call ι → State ι
  | .insert i pe =>
      { type := ord i
        p := Function.update s.p i (insert (ord i) (s.p i) pe)
        held := Function.update s.held i (pe :: s.held i) }
  | .get _ => s
  | .del i =>
      { s with
        p := Function.update s.p i (del s.type (s.p i))
        held := Function.update s.held i ((get (s.p i)).elim (s.held i) (s.held i).erase) }

def machine (ord : ι → Order) : Machine (State ι) (Call ι) where
  init s := s = {}
  step s l := some (step ord s l)

/-- What is to hold of every state: each queue is in its own order and has what was inserted and
not deleted, and `prioq_get` returns a first one of these. -/
structure Correct (ord : ι → Order) (s : State ι) : Prop where
  ordered : ∀ i, OrderedBy (ord i) (s.p i)
  holds : ∀ i, (s.p i).Perm (s.held i)
  first : ∀ i pe, get (s.p i) = some pe →
    pe ∈ s.held i ∧ ∀ e ∈ s.held i, (ord i).le pe.dt e.dt = true
  empty : ∀ i, get (s.p i) = none → s.held i = []

/-- A deletion finds the ordering of its queue in `type`, or has nothing to compare. -/
def OwnType (ord : ι → Order) (s : State ι) : Call ι → Prop
  | .del i => s.type = ord i ∨ (s.p i).length ≤ 2
  | _ => True

variable {ord : ι → Order} {s : State ι}

omit [DecidableEq ι] in
theorem correct_of_ordered (h : ∀ i, OrderedBy (ord i) (s.p i))
    (hp : ∀ i, (s.p i).Perm (s.held i)) : Correct ord s where
  ordered := h
  holds := hp
  first i pe hg := by
    constructor
    · exact (hp i).mem_iff.mp (List.mem_of_head? hg)
    · intro e he
      exact (h i).get_le hg e ((hp i).mem_iff.mpr he)
  empty i hg := by
    rw [get, List.head?_eq_none_iff] at hg
    have hi := hp i
    rw [hg] at hi
    exact List.nil_perm.mp hi

/-- No element is lost or doubled, whatever `type` is. -/
theorem step_holds (l : Call ι) (h : ∀ i, (s.p i).Perm (s.held i)) :
    ∀ i, ((step ord s l).p i).Perm ((step ord s l).held i) := by
  intro i
  cases l with
  | insert k pe =>
      by_cases hk : i = k
      · subst hk
        simp only [step, Function.update_self]
        exact (insert_perm _ _ _).trans ((h i).cons pe)
      · simp only [step, Function.update_of_ne hk]
        exact h i
  | get k => exact h i
  | del k =>
      by_cases hk : i = k
      · subst hk
        simp only [step, Function.update_self]
        cases hg : get (s.p i) with
        | none =>
            rw [get, List.head?_eq_none_iff] at hg
            have hi := h i
            rw [hg] at hi ⊢
            exact hi
        | some pe =>
            have hperm := (get_del_perm (t := s.type) hg).symm.trans (h i)
            have herase := hperm.erase pe
            rwa [List.erase_cons_head] at herase
      · simp only [step, Function.update_of_ne hk]
        exact h i

theorem step_ordered {l : Call ι} (h : ∀ i, OrderedBy (ord i) (s.p i)) (hc : OwnType ord s l) :
    ∀ i, OrderedBy (ord i) ((step ord s l).p i) := by
  intro i
  cases l with
  | insert k pe =>
      by_cases hk : i = k
      · subst hk
        simp only [step, Function.update_self]
        exact (h i).insert pe
      · simp only [step, Function.update_of_ne hk]
        exact h i
  | get k => exact h i
  | del k =>
      by_cases hk : i = k
      · subst hk
        simp only [step, Function.update_self]
        rcases hc with htype | hlen
        · rw [htype]
          exact (h i).del
        · exact OrderedBy.del_short s.type hlen
      · simp only [step, Function.update_of_ne hk]
        exact h i

/-- **The queues are priority queues** in every run whose deletions each find the ordering of
their own queue. -/
theorem queues_correct (ord : ι → Order) (ls : List (Call ι))
    (hm : (machine ord).Meets (OwnType ord) {} ls) (he : (machine ord).exec {} ls = some s) :
    Correct ord s := by
  have hinv := Machine.exec_invariant (M := machine ord) (C := OwnType ord)
    (I := fun s => (∀ i, OrderedBy (ord i) (s.p i)) ∧ ∀ i, (s.p i).Perm (s.held i))
    (by
      rintro s l s' ⟨ho, hp⟩ hc hs
      have hs' : step ord s l = s' := Option.some.inj hs
      rw [← hs']
      exact ⟨step_ordered ho hc, step_holds l hp⟩)
    ⟨fun _ => orderedBy_nil, fun _ => List.Perm.refl _⟩ hm he
  exact correct_of_ordered hinv.1 hinv.2

/-! ### The other ordering -/

/-- Below the root the sift leaves the root alone. -/
theorem siftDown_root (t : Order) (n : Nat) : ∀ (fuel : Nat) (p : Queue) {i : Nat}, 0 < i →
    (siftDown t n fuel p i).head? = p.head?
  | 0, p, i, hi => by
      rw [siftDown, List.head?_eq_getElem?, List.head?_eq_getElem?,
        List.getElem?_set_ne (Nat.ne_of_gt hi)]
  | fuel + 1, p, i, hi => by
      have hset : ∀ x, (p.set i x).head? = p.head? := by
        intro x
        rw [List.head?_eq_getElem?, List.head?_eq_getElem?, List.getElem?_set_ne (Nat.ne_of_gt hi)]
      rw [siftDown]
      simp only
      split
      · exact hset _
      · rename_i hj
        generalize hj' : (if t.le (p.getD (i + i + 2 - 1) default).dt
          (p.getD (i + i + 2) default).dt = true then i + i + 2 - 1 else i + i + 2) = j
        have hpos : 0 < j := by
          rw [← hj']
          split <;> omega
        split
        · exact hset _
        · rw [siftDown_root t n fuel _ hpos]
          exact hset _

theorem Order.le_total {t : Order} {x y : Int} (h : ¬ t.le x y = true) : t.le y x = true := by
  cases t <;> simp [Order.le] at h ⊢ <;> omega

theorem Order.le_trans {t : Order} {x y z : Int} (h : t.le x y = true) (h' : t.le y z = true) :
    t.le x z = true := by
  cases t <;> simp [Order.le] at h h' ⊢ <;> omega

theorem Order.le_refl (t : Order) (x : Int) : t.le x x = true := by
  cases t <;> simp [Order.le]

/-- What comes to the root stands first, among it and the two elements that were below. -/
theorem del_root (t : Order) (a b c : Elt) (p : Queue) :
    ∃ r, get (del t (a :: b :: c :: p)) = some r ∧ t.le r.dt b.dt = true ∧
      t.le r.dt c.dt = true := by
  have htake : ∀ q : Queue, (q.take (p.length + 2)).head? = q.head? := by
    intro q
    rw [List.head?_take, if_neg (by omega)]
  -- the earlier of the two
  obtain ⟨j, hj, hb, hc⟩ : ∃ j, (if t.le b.dt c.dt = true then 1 else 2) = j ∧
      t.le ((a :: b :: c :: p).getD j default).dt b.dt = true ∧
      t.le ((a :: b :: c :: p).getD j default).dt c.dt = true := by
    by_cases hle : t.le b.dt c.dt = true
    · exact ⟨1, if_pos hle, t.le_refl _, hle⟩
    · exact ⟨2, if_neg hle, Order.le_total hle, t.le_refl _⟩
  have hlen : (a :: b :: c :: p).length = p.length + 2 + 1 := rfl
  have hdel : get (del t (a :: b :: c :: p)) =
      (siftDown t (p.length + 2) (p.length + 2 + 1) (a :: b :: c :: p) 0).head? := by
    rw [get, del, List.isEmpty_cons, if_neg Bool.false_ne_true, hlen, Nat.add_sub_cancel, htake]
  have hj0 : j ≠ 0 := by
    rw [← hj]
    split <;> decide
  have hloop : siftDown t (p.length + 2) (p.length + 2 + 1) (a :: b :: c :: p) 0 =
      if t.le ((a :: b :: c :: p).getD (p.length + 2) default).dt
          ((a :: b :: c :: p).getD j default).dt = true then
        (a :: b :: c :: p).set 0 ((a :: b :: c :: p).getD (p.length + 2) default)
      else siftDown t (p.length + 2) (p.length + 2)
        ((a :: b :: c :: p).set 0 ((a :: b :: c :: p).getD j default)) j := by
    rw [siftDown, ← hj]
    simp only
    rw [if_neg (by omega)]
    rfl
  rw [hdel, hloop]
  split
  · rename_i hlast
    exact ⟨_, rfl, Order.le_trans hlast hb, Order.le_trans hlast hc⟩
  · rw [siftDown_root t _ _ _ (Nat.pos_of_ne_zero hj0)]
    exact ⟨_, rfl, hb, hc⟩

/-- The two orderings agree only on equal times. -/
theorem eq_of_le {t t' : Order} (h : t ≠ t') {x y : Int} (hle : t.le x y = true)
    (hle' : t'.le x y = true) : x = y := by
  cases t <;> cases t' <;> simp [Order.le] at h hle hle' <;> omega

/-- A deletion that finds the other ordering leaves a queue out of order, unless the two elements
below its root have the same time. -/
theorem not_correct_of_other {i : ι} {a b c : Elt} {p : Queue} (h : s.type ≠ ord i)
    (hp : s.p i = a :: b :: c :: p) (hbc : b.dt ≠ c.dt) :
    ¬ Correct ord (step ord s (.del i)) := by
  intro hc
  obtain ⟨r, hr, hb, hc'⟩ := del_root s.type a b c p
  have hpi : (step ord s (.del i)).p i = del s.type (a :: b :: c :: p) := by
    simp only [step, Function.update_self, hp]
  have hperm : (del s.type (a :: b :: c :: p)).Perm (b :: c :: p) := del_perm _ _
  have hle : ∀ e ∈ b :: c :: p, (ord i).le r.dt e.dt = true := by
    intro e he
    apply (hc.ordered i).get_le (hpi ▸ hr)
    rw [hpi]
    exact hperm.mem_iff.mpr he
  apply hbc
  rw [← eq_of_le h hb (hle b List.mem_cons_self),
    ← eq_of_le h hc' (hle c (List.mem_cons_of_mem b List.mem_cons_self))]

end Queues

/-- One queue of each ordering. -/
def both : Bool → Order
  | false => .min
  | true => .max

/-- Three elements in the queue with the earliest first, one in the other. -/
def fill : List (Call Bool) :=
  [.insert false ⟨1, 1, false⟩, .insert false ⟨2, 2, false⟩, .insert false ⟨3, 3, false⟩,
    .insert true ⟨9, 4, false⟩]

/-- A deletion sifts with the ordering of the last insertion. -/
theorem del_other_type : ¬ ∀ (ls : List (Call Bool)) (s : State Bool),
    (machine both).exec {} ls = some s → Correct both s := by
  intro h
  have hc := h (fill ++ [.del false]) _ rfl
  have hfirst := (hc.first false ⟨3, 3, false⟩ (by decide +kernel)).2 ⟨2, 2, false⟩
    (by decide +kernel)
  exact absurd hfirst (by decide)

/-- The same insertions, and a deletion from the queue that was inserted into last. -/
theorem queues_correct_fill : Correct both (([.del true].foldl (step both)
    (fill.foldl (step both) {}))) :=
  queues_correct both (fill ++ [.del true])
    (by simp [fill, Machine.Meets, machine, OwnType, step, both]) rfl

end IndimailMta.Prioq
