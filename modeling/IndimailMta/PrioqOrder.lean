import IndimailMta.Prioq

/-!
# The order of `prioq`

A queue that only sees insertions with `min` is a heap: no element is before the one at
half its place. Its first element is then one of the earliest. Both sifts move a hole; what
they need of the elements around the hole is `Above` for the way down the array and `Below`
for the way up to the leaves.
-/

namespace IndimailMta.Prioq

variable {p : Queue} {pe x : Elt} {i j k n : Nat}

/-- The time at a place. -/
def dtAt (p : Queue) (i : Nat) : Int := (p.getD i default).dt

/-- Every element is at or behind the one above it, among the first `n`. -/
def OrderedTo (n : Nat) (p : Queue) : Prop :=
  ∀ i, 0 < i → i < n → dtAt p ((i - 1) / 2) ≤ dtAt p i

/-- The queue is a heap. -/
def Ordered (p : Queue) : Prop := OrderedTo p.length p

theorem ordered_nil : Ordered [] := fun i _ hi => absurd hi (Nat.not_lt_zero i)

theorem dtAt_set_self (h : j < p.length) : dtAt (p.set j x) j = x.dt := by
  rw [dtAt, List.getD_eq_getElem?_getD, List.getElem?_set_self h]
  rfl

theorem dtAt_set_ne (h : k ≠ j) : dtAt (p.set j x) k = dtAt p k := by
  rw [dtAt, dtAt, List.getD_eq_getElem?_getD, List.getD_eq_getElem?_getD,
    List.getElem?_set_ne (Ne.symm h)]

theorem le_min {a b : Int} : Order.le .min a b = true ↔ a ≤ b := decide_eq_true_iff

/-! ## The first element -/

/-- Nothing is before the first element. -/
theorem Ordered.head_le (h : Ordered p) : ∀ i < p.length, dtAt p 0 ≤ dtAt p i := by
  intro i
  induction i using Nat.strongRecOn with
  | _ i ih =>
      intro hi
      rcases Nat.eq_zero_or_pos i with rfl | hpos
      · exact Int.le_refl _
      · exact Int.le_trans (ih ((i - 1) / 2) (by omega) (by omega)) (h i hpos hi)

/-- What `prioq_get` returns is one of the earliest. -/
theorem Ordered.get_le (h : Ordered p) (hg : get p = some pe) : ∀ e ∈ p, pe.dt ≤ e.dt := by
  intro e he
  obtain ⟨i, hi, rfl⟩ := List.getElem_of_mem he
  have hle := h.head_le i hi
  have h0 : dtAt p 0 = pe.dt := by
    rw [get, List.head?_eq_getElem?] at hg
    rw [dtAt, List.getD_eq_getElem?_getD, hg]
    rfl
  have hi' : dtAt p i = p[i].dt := by
    rw [dtAt, List.getD_eq_getElem _ _ hi]
  rwa [h0, hi'] at hle

/-! ## The hole -/

/-- The pairs that do not touch the hole are in order. -/
def OffHole (n : Nat) (p : Queue) (j : Nat) : Prop :=
  ∀ i, 0 < i → i < n → i ≠ j → (i - 1) / 2 ≠ j → dtAt p ((i - 1) / 2) ≤ dtAt p i

/-- What is below the hole is behind what is above it. -/
def AcrossHole (n : Nat) (p : Queue) (j : Nat) : Prop :=
  0 < j → ∀ i, 0 < i → i < n → (i - 1) / 2 = j → dtAt p ((j - 1) / 2) ≤ dtAt p i

/-- The hole is filled. -/
theorem OffHole.fill (h : OffHole n p j) (hj : j < p.length)
    (habove : 0 < j → dtAt p ((j - 1) / 2) ≤ x.dt)
    (hbelow : ∀ i, 0 < i → i < n → (i - 1) / 2 = j → x.dt ≤ dtAt p i) :
    OrderedTo n (p.set j x) := by
  intro i hi hin
  by_cases hij : i = j
  · subst hij
    rw [dtAt_set_self hj, dtAt_set_ne (by omega)]
    exact habove hi
  · rw [dtAt_set_ne hij]
    by_cases hpar : (i - 1) / 2 = j
    · rw [hpar, dtAt_set_self hj]
      exact hbelow i hi hin hpar
    · rw [dtAt_set_ne hpar]
      exact h i hi hin hij hpar

/-! ## Insertion -/

theorem siftUp_ordered : ∀ {fuel : Nat} {p : Queue} {j : Nat}, j ≤ fuel → j < p.length →
    OffHole p.length p j → AcrossHole p.length p j →
    (∀ i, 0 < i → i < p.length → (i - 1) / 2 = j → pe.dt ≤ dtAt p i) →
    Ordered (siftUp .min pe fuel p j)
  | fuel, p, 0, _, hj, hoff, _, hbelow => by
      have hfill : Ordered (p.set 0 pe) := by
        rw [Ordered, List.length_set]
        exact hoff.fill hj (fun h => absurd h (Nat.lt_irrefl 0)) hbelow
      cases fuel with
      | zero => exact hfill
      | succ fuel =>
          rw [siftUp, if_pos rfl]
          exact hfill
  | 0, _, j + 1, hle, _, _, _, _ => absurd hle (Nat.not_succ_le_zero j)
  | fuel + 1, p, j + 1, hle, hj, hoff, hacross, hbelow => by
      rw [siftUp, if_neg (Nat.succ_ne_zero j)]
      simp only
      split
      · rename_i hstop
        rw [Ordered, List.length_set]
        exact hoff.fill hj (fun _ => le_min.mp hstop) hbelow
      · rename_i hgo
        rw [le_min, Int.not_le] at hgo
        -- the element above moves down, and the hole up
        have hi : (j + 1 - 1) / 2 < j + 1 := by omega
        have hi' : (j + 1 - 1) / 2 < p.length := by omega
        generalize hpar : (j + 1 - 1) / 2 = i at hi hi' hgo
        have hset : dtAt (p.set (j + 1) (p.getD i default)) (j + 1) = dtAt p i :=
          dtAt_set_self hj
        have hlen : (p.set (j + 1) (p.getD i default)).length = p.length := List.length_set ..
        apply siftUp_ordered (by omega) (by rw [hlen]; exact hi')
        · rw [hlen]
          intro k hk hkn hki hkpar
          by_cases hkj : k = j + 1
          · exact absurd (by rw [hkj]; exact hpar) hkpar
          · rw [dtAt_set_ne hkj]
            by_cases hkpar' : (k - 1) / 2 = j + 1
            · have hac := hacross (Nat.succ_pos j) k hk hkn hkpar'
              rw [hpar] at hac
              rw [hkpar', hset]
              exact hac
            · rw [dtAt_set_ne hkpar']
              exact hoff k hk hkn hkj hkpar'
        · rw [hlen]
          intro hi0 k hk hkn hkpar
          have hup : dtAt p ((i - 1) / 2) ≤ dtAt p i :=
            hoff i hi0 hi' (by omega) (by omega)
          rw [dtAt_set_ne (k := (i - 1) / 2) (by omega)]
          by_cases hkj : k = j + 1
          · rw [hkj, hset]
            exact hup
          · rw [dtAt_set_ne hkj]
            have hk' := hoff k hk hkn hkj (by omega)
            rw [hkpar] at hk'
            exact Int.le_trans hup hk'
        · rw [hlen]
          intro k hk hkn hkpar
          by_cases hkj : k = j + 1
          · rw [hkj, hset]
            exact Int.le_of_lt hgo
          · rw [dtAt_set_ne hkj]
            have hk' := hoff k hk hkn hkj (by omega)
            rw [hkpar] at hk'
            exact Int.le_trans (Int.le_of_lt hgo) hk'

/-- **Insertion keeps the order.** -/
theorem Ordered.insert (h : Ordered p) (pe : Elt) : Ordered (Prioq.insert .min p pe) := by
  have hlen : (p ++ [pe]).length = p.length + 1 := by simp
  have hat : ∀ i < p.length, dtAt (p ++ [pe]) i = dtAt p i := by
    intro i hi
    rw [dtAt, dtAt, List.getD_append _ _ _ _ hi]
  apply siftUp_ordered (Nat.le_refl _) (by omega)
  · rw [hlen]
    intro i hi hin hne hpar
    rw [hat i (by omega), hat _ (by omega)]
    exact h i hi (by omega)
  · rw [hlen]
    intro _ i hi hin hpar
    omega
  · rw [hlen]
    intro i hi hin hpar
    omega

/-! ## Deletion -/

theorem siftDown_ordered : ∀ {fuel : Nat} {p : Queue} {i : Nat}, p.length = n + 1 → i < n →
    n ≤ fuel + i → OffHole n p i → AcrossHole n p i →
    (0 < i → dtAt p ((i - 1) / 2) ≤ dtAt p n) →
    OrderedTo n (siftDown .min n fuel p i)
  | 0, p, i, hlen, hin, hfuel, _, _, _ => absurd hfuel (by omega)
  | fuel + 1, p, i, hlen, hin, hfuel, hoff, hacross, habove => by
      rw [siftDown]
      simp only
      split
      · -- no element is below the hole
        rename_i hj
        refine hoff.fill (by omega) habove ?_
        intro k hk hkn hkpar
        omega
      · rename_i hj
        generalize hj' : (if Order.le .min (p.getD (i + i + 2 - 1) default).dt
          (p.getD (i + i + 2) default).dt = true then i + i + 2 - 1 else i + i + 2) = j
        -- the earlier of the two below the hole
        have hjcase : (j = i + i + 1 ∨ j = i + i + 2) ∧
            ∀ k, 0 < k → k ≤ n → (k - 1) / 2 = i → dtAt p j ≤ dtAt p k := by
          rw [← hj']
          split
          · rename_i hle
            refine ⟨Or.inl rfl, fun k hk hkn hkpar => ?_⟩
            rw [le_min] at hle
            have hk' : k = i + i + 2 - 1 ∨ k = i + i + 2 := by omega
            rcases hk' with rfl | rfl
            · exact Int.le_refl _
            · exact hle
          · rename_i hle
            refine ⟨Or.inr rfl, fun k hk hkn hkpar => ?_⟩
            rw [le_min, Int.not_le] at hle
            have hk' : k = i + i + 2 - 1 ∨ k = i + i + 2 := by omega
            rcases hk' with rfl | rfl
            · exact Int.le_of_lt hle
            · exact Int.le_refl _
        obtain ⟨hjc, hmin⟩ := hjcase
        split
        · rename_i hstop
          rw [le_min] at hstop
          refine hoff.fill (by omega) habove ?_
          intro k hk hkn hkpar
          exact Int.le_trans hstop (hmin k hk (by omega) hkpar)
        · rename_i hgo
          rw [le_min, Int.not_le] at hgo
          have hjn : j < n := by
            rcases Nat.lt_or_ge j n with h | h
            · exact h
            · have : j = n := by omega
              subst this
              exact absurd hgo (Int.lt_irrefl _)
          have hset : dtAt (p.set i (p.getD j default)) i = dtAt p j :=
            dtAt_set_self (by omega)
          have hlast : dtAt (p.set i (p.getD j default)) n = dtAt p n := dtAt_set_ne (by omega)
          have hpar : (j - 1) / 2 = i := by omega
          apply siftDown_ordered (by rw [List.length_set, hlen]) hjn (by omega)
          · intro k hk hkn hkj hkpar
            by_cases hki : k = i
            · subst hki
              rw [hset, dtAt_set_ne (by omega)]
              exact hacross hk j (by omega) hjn hpar
            · rw [dtAt_set_ne hki]
              by_cases hkpar' : (k - 1) / 2 = i
              · rw [hkpar', hset]
                exact hmin k hk (by omega) hkpar'
              · rw [dtAt_set_ne hkpar']
                exact hoff k hk hkn hki hkpar'
          · intro _ k hk hkn hkpar
            have hk' := hoff k hk hkn (by omega) (by omega)
            rw [hkpar] at hk'
            rw [hpar, hset, dtAt_set_ne (by omega)]
            exact hk'
          · intro _
            rw [hpar, hset, hlast]
            exact Int.le_of_lt hgo

/-- **Deletion keeps the order.** -/
theorem Ordered.del (h : Ordered p) : Ordered (Prioq.del .min p) := by
  rcases p with _ | ⟨x, p⟩
  · exact h
  · rcases Nat.eq_zero_or_pos p.length with h0 | hpos
    · have hp := List.eq_nil_of_length_eq_zero h0
      subst hp
      exact ordered_nil
    · have hs : OrderedTo p.length (siftDown .min p.length (p.length + 1) (x :: p) 0) := by
        apply siftDown_ordered rfl hpos (by omega)
        · intro i hi hin hne hpar
          exact h i hi (by rw [List.length_cons]; omega)
        · intro h0
          exact absurd h0 (Nat.lt_irrefl 0)
        · intro h0
          exact absurd h0 (Nat.lt_irrefl 0)
      simp only [Prioq.del, List.isEmpty_cons, Bool.false_eq_true, if_false]
      rw [show (x :: p).length - 1 = p.length from rfl, List.length_cons]
      generalize siftDown .min p.length (p.length + 1) (x :: p) 0 = q at hs
      intro i hi hin
      have htake : ∀ k < (q.take p.length).length, dtAt (q.take p.length) k = dtAt q k := by
        intro k hk
        rw [List.length_take] at hk
        rw [dtAt, dtAt, List.getD_eq_getElem?_getD, List.getD_eq_getElem?_getD,
          List.getElem?_take_of_lt (by omega)]
      rw [htake i hin, htake _ (by omega)]
      rw [List.length_take] at hin
      exact hs i hi (by omega)

/-- A queue with one time is in order. -/
theorem ordered_map_dt (p : Queue) (t : Int) : Ordered (p.map fun e => { e with dt := t }) := by
  intro i hi hin
  have hat : ∀ k < (p.map fun e => { e with dt := t }).length,
      dtAt (p.map fun e => { e with dt := t }) k = t := by
    intro k hk
    rw [dtAt, List.getD_eq_getElem _ _ hk, List.getElem_map]
  exact Int.le_of_eq ((hat _ (by omega)).trans (hat i hin).symm)

end IndimailMta.Prioq
