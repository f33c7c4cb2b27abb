import Mathlib.Data.List.TakeWhile
import IndimailMta.Tcprules.Reading

/-!
# What tcprules makes of a text

A line that is kept (`KeptLine`) becomes the records of its rules: their addresses are the keys, and
the data is read back as the instructions. A line is dropped where no colon is followed by `allow`
or `deny`, and where its range is empty; and the records of a text are those of its rules only if
every line is kept.
-/

namespace IndimailMta.Tcprules

open IndimailMta Lines

variable {sc : Scanners} {s t x line beyond address data : Bytes} {c b : Byte} {k n : Nat}
  {ops : List Op}

/-! ## `byte_chr` -/

theorem byteChr_append (h : c ∉ s) : byteChr (s ++ c :: t) c = s.length := by
  have hs : ∀ b ∈ s, decide (b ≠ c) = true := fun b hb => decide_eq_true fun h0 => h (h0 ▸ hb)
  rw [byteChr, List.takeWhile_append_of_pos hs]
  simp

theorem byteChr_of_notMem (h : c ∉ s) : byteChr s c = s.length := by
  have hs : ∀ b ∈ s, decide (b ≠ c) = true := fun b hb => decide_eq_true fun h0 => h (h0 ▸ hb)
  have happ : (s ++ []).takeWhile (· ≠ c) = s ++ [].takeWhile (· ≠ c) :=
    List.takeWhile_append_of_pos hs
  rw [List.append_nil, List.takeWhile_nil, List.append_nil] at happ
  rw [byteChr, happ]

/-- The byte is found, or it is not there. -/
theorem byteChr_cases (s : Bytes) (c : Byte) :
    c ∉ s ∧ byteChr s c = s.length ∨ ∃ u t, s = u ++ c :: t ∧ c ∉ u ∧ byteChr s c = u.length := by
  by_cases h : c ∈ s
  · right
    obtain ⟨u, t, rfl, hu⟩ := List.eq_append_cons_of_mem h
    exact ⟨u, t, rfl, hu, byteChr_append hu⟩
  · exact Or.inl ⟨h, byteChr_of_notMem h⟩

theorem byteChr_le (s : Bytes) (c : Byte) : byteChr s c ≤ s.length := by
  rcases byteChr_cases s c with ⟨-, h⟩ | ⟨u, t, rfl, -, h⟩
  · omega
  · rw [h, List.length_append]
    omega

/-- Before the byte that is found there is none. -/
theorem notMem_take_byteChr (h : k ≤ byteChr s c) : c ∉ s.take k := by
  rcases byteChr_cases s c with ⟨hs, -⟩ | ⟨u, t, rfl, hu, hlen⟩
  · exact fun hc => hs (List.mem_of_mem_take hc)
  · rw [List.take_append_of_le_length (by omega)]
    exact fun hc => hu (List.mem_of_mem_take hc)

/-! ## The instructions -/

/-- The string that is kept of an instruction. -/
def opData : Op → Bytes
  | .set var value => 43 :: var ++ 61 :: value
  | .unset var => 45 :: var

/-- A removal. -/
theorem removal_text {rest : Bytes} (he : ¬ byteChr rest 44 < 2) (hbang : rest.head? = some 33)
    (hlt : byteChr rest 44 < byteChr (44 :: rest) 61) :
    ∃ var, rest = 33 :: var ++ rest.drop (byteChr rest 44) ∧
      (rest.drop 1).take (byteChr rest 44 - 1) = var ∧
      OpText (.unset var) (44 :: 33 :: var) := by
  cases rest with
  | nil => cases hbang
  | cons b r =>
      obtain rfl := Option.some.inj hbang
      obtain ⟨e, he'⟩ := Nat.exists_eq_add_one.mpr (show 0 < byteChr (33 :: r) 44 by omega)
      have hle := byteChr_le (33 :: r) 44
      have htake : (33 :: r).take (byteChr (33 :: r) 44) = 33 :: r.take e := by
        rw [he', List.take_succ_cons]
      have hcomma : 44 ∉ 33 :: r.take e := by
        rw [← htake]
        exact notMem_take_byteChr (Nat.le_refl _)
      have heq : 61 ∉ 44 :: 33 :: r.take e := by
        have := notMem_take_byteChr (s := 44 :: 33 :: r) (c := 61) (k := byteChr (33 :: r) 44 + 1)
          hlt
        rwa [List.take_succ_cons, htake] at this
      refine ⟨r.take e, ?_, ?_, .unset ?_ ?_⟩
      · rw [← htake, List.take_append_drop]
      · rw [he']
        rfl
      · intro h
        have hlen := congrArg List.length h
        rw [List.length_take, List.length_nil] at hlen
        rw [List.length_cons] at hle
        omega
      · exact ⟨fun h => heq (List.mem_cons_of_mem _ (List.mem_cons_of_mem _ h)),
          fun h => hcomma (List.mem_cons_of_mem _ h)⟩

/-- A setting, up to its value. -/
theorem setting_text {rest : Bytes} (hle : ¬ byteChr rest 44 < byteChr (44 :: rest) 61)  :
    ∃ var, rest = var ++ 61 :: rest.drop (byteChr (44 :: rest) 61) ∧
      rest.take (byteChr (44 :: rest) 61) = var ++ [61] ∧ 61 ∉ var ∧ 44 ∉ var := by
  have hlen := byteChr_le rest 44
  rcases byteChr_cases (44 :: rest) 61 with ⟨-, h⟩ | ⟨u, t, hut, hu, h⟩
  · rw [List.length_cons] at h
    omega
  · cases u with
    | nil => exact absurd (List.cons.inj hut).1 (by decide)
    | cons b var =>
        rw [List.cons_append] at hut
        obtain ⟨rfl, hrest⟩ := List.cons.inj hut
        rw [List.length_cons] at h
        have hcomma : 44 ∉ rest.take var.length := notMem_take_byteChr (by omega)
        rw [hrest, List.take_left] at hcomma
        refine ⟨var, ?_, ?_, fun hin => hu (List.mem_cons_of_mem _ hin), hcomma⟩
        · rw [h, hrest]
          congr 1
          rw [← List.drop_drop, List.drop_left]
          rfl
        · rw [h, hrest, List.take_append, List.take_of_length_le (by omega)]
          simp

/-- **The instructions are read as they are written.** -/
theorem instructions_ok (h : instructions n x = .ok data) :
    ∃ ops, OpsText ops x ∧ data = (ops.map opData).flatMap (· ++ [0]) := by
  induction n generalizing x data with
  | zero =>
      cases x with
      | nil =>
          rw [instructions] at h
          exact ⟨[], .nil, (Except.ok.inj h).symm⟩
      | cons c rest => cases h
  | succ n ih =>
      cases x with
      | nil =>
          rw [instructions] at h
          exact ⟨[], .nil, (Except.ok.inj h).symm⟩
      | cons c rest =>
          rw [instructions] at h
          by_cases hc : c = 44
          · subst hc
            rw [if_neg (by simp)] at h
            by_cases hei : byteChr rest 44 < byteChr (44 :: rest) 61
            · rw [if_pos hei] at h
              by_cases hbad : byteChr rest 44 < 2 ∨ rest.head? ≠ some 33
              · rw [if_pos hbad] at h
                cases h
              · rw [if_neg hbad] at h
                rw [not_or, not_not] at hbad
                obtain ⟨var, hrest, hvar, hop⟩ := removal_text hbad.1 hbad.2 hei
                cases hrun : instructions n (rest.drop (byteChr rest 44)) with
                | error e =>
                    simp only [hrun, bind, Except.bind] at h
                    cases h
                | ok more =>
                    obtain ⟨ops, hops, hmore⟩ := ih hrun
                    simp only [hrun, bind, Except.bind, hvar, Except.ok.injEq] at h
                    refine ⟨.unset var :: ops, ?_, ?_⟩
                    · rw [hrest]
                      exact .cons hop hops
                    · rw [← h, hmore]
                      simp [opData]
            · rw [if_neg hei] at h
              obtain ⟨var, hrest, htake, hv1, hv2⟩ := setting_text hei
              cases hdrop : rest.drop (byteChr (44 :: rest) 61) with
              | nil =>
                  simp only [hdrop] at h
                  cases h
              | cons q x =>
                  simp only [hdrop] at h
                  by_cases hq : byteChr x q = x.length
                  · rw [if_pos hq] at h
                    cases h
                  · rw [if_neg hq] at h
                    rcases byteChr_cases x q with ⟨-, hlen⟩ | ⟨value, t, rfl, hval, hlen⟩
                    · exact absurd hlen hq
                    · have hdt : (value ++ q :: t).drop (value.length + 1) = t := by
                        rw [← List.drop_drop, List.drop_left]
                        rfl
                      rw [hlen, hdt, List.take_left, htake] at h
                      cases hrun : instructions n t with
                      | error e =>
                          simp only [hrun, bind, Except.bind] at h
                          cases h
                      | ok more =>
                          obtain ⟨ops, hops, hmore⟩ := ih hrun
                          simp only [hrun, bind, Except.bind, Except.ok.injEq] at h
                          refine ⟨.set var value :: ops, ?_, ?_⟩
                          · have := OpsText.cons (OpText.set (q := q) ⟨hv1, hv2⟩ hval) hops
                            rw [hrest, hdrop]
                            simpa using this
                          · rw [← h, hmore]
                            simp [opData]
          · rw [if_pos hc] at h
            cases h

/-! ## The data is read back -/

/-- An instruction that comes back from its string: no part has a NUL, and a name has no `=`. -/
def OpOk : Op → Prop
  | .set var value => 0 ∉ var ∧ 0 ∉ value ∧ 61 ∉ var
  | .unset var => 0 ∉ var

instance (op : Op) : Decidable (OpOk op) :=
  match op with
  | .set _ _ => inferInstanceAs (Decidable (_ ∧ _ ∧ _))
  | .unset _ => inferInstanceAs (Decidable (¬ _))

theorem foundOne_op {i : Instructions} {op : Op} (h : OpOk op) :
    foundOne i (opData op ++ [0]) = { i with ops := i.ops ++ [op] } := by
  cases op with
  | set var value =>
      obtain ⟨h1, h2, h3⟩ := h
      have hnul : (0 : Byte) ∉ var ++ 61 :: value := by
        simp [h1, h2]
      have heq : opData (.set var value) ++ [0] = 43 :: ((var ++ 61 :: value) ++ [0]) := by
        simp [opData]
      have hlast : (43 :: ((var ++ 61 :: value) ++ [0])).getLast? = some 0 :=
        List.getLast?_concat (l := 43 :: (var ++ 61 :: value))
      have hsplit : byteChr (var ++ 61 :: value) 61 = var.length := byteChr_append h3
      have hdrop : (var ++ 61 :: value).drop (var.length + 1) = value := by
        rw [← List.drop_drop, List.drop_left]
        rfl
      rw [heq, foundOne, if_pos hlast]
      simp only [cstr_append_nul hnul, hsplit, List.take_left, hdrop]
      rw [if_pos (by simp)]
  | unset var =>
      have hlast : (45 :: (var ++ [0])).getLast? = some 0 :=
        List.getLast?_concat (l := 45 :: var)
      rw [opData, List.cons_append, foundOne, if_pos hlast]
      simp only [cstr_append_nul h]

/-- **The data of a rule is read back as its instructions.** -/
theorem found_data {d : Bool} (h : ∀ op ∈ ops, OpOk op) :
    found ((if d then [68, 0] else []) ++ (ops.map opData).flatMap (· ++ [0])) = ⟨d, ops⟩ := by
  have hloop : ∀ (ops : List Op) (i : Instructions), (∀ op ∈ ops, OpOk op) →
      ((ops.map opData).map (· ++ [0])).foldl foundOne i = { i with ops := i.ops ++ ops } := by
    intro ops
    induction ops with
    | nil => simp
    | cons op ops ih =>
        intro i hok
        rw [List.forall_mem_cons] at hok
        rw [List.map_cons, List.map_cons, List.foldl_cons, foundOne_op hok.1, ih _ hok.2]
        simp
  have hnul : ∀ y ∈ ops.map opData, (0 : Byte) ∉ y := by
    intro y hy
    obtain ⟨op, hop, rfl⟩ := List.mem_map.mp hy
    have hok := h op hop
    cases op with
    | set var value => simp [opData, hok.1, hok.2.1]
    | unset var =>
        intro hin
        rcases List.mem_cons.mp hin with h45 | hin
        · exact absurd h45 (by decide)
        · exact hok hin
  cases d with
  | false =>
      have hlines := @lines_flatMap _ _ (0 : Byte) _ (fun y => y) _ hnul
      rw [if_neg Bool.false_ne_true, List.nil_append, found, hlines, hloop ops _ h]
      simp
  | true =>
      have hdeny : (0 : Byte) ∉ [68] := by decide
      have hlines := @lines_append _ _ (0 : Byte) [68]
        ((ops.map opData).flatMap (· ++ [0])) hdeny
      have hlines' := @lines_flatMap _ _ (0 : Byte) _ (fun y => y) _ hnul
      rw [if_pos rfl, found, show [(68 : Byte), 0] ++ (ops.map opData).flatMap (· ++ [0]) =
        [68] ++ 0 :: (ops.map opData).flatMap (· ++ [0]) from rfl, hlines, hlines', List.foldl_cons,
        hloop ops _ h]
      simp [foundOne]

/-! ## The colon -/

/-- The colon that is found is the first one that `allow` or `deny` follows. -/
theorem findColon_ok {r : Nat} (h : findColon x beyond n k = .ok r) (hk : k ≤ x.length) :
    k ≤ r ∧ (r = x.length ∨ x[r]? = some 58) ∧
      ∀ j, k ≤ j → j < r → x[j]? = some 58 → verbAt ((x ++ beyond).drop (j + 1)) = false := by
  induction n generalizing k with
  | zero => cases h
  | succ n ih =>
      rw [findColon] at h
      have hbefore : ∀ j, k ≤ j → j < k + byteChr (x.drop k) 58 → x[j]? ≠ some 58 := by
        intro j hkj hj hx
        have hno := notMem_take_byteChr (s := x.drop k) (c := 58) (Nat.le_refl _)
        refine hno (List.mem_iff_getElem?.mpr ⟨j - k, ?_⟩)
        rw [List.getElem?_take_of_lt (by omega), List.getElem?_drop, Nat.add_sub_cancel' hkj, hx]
      by_cases h0 : k = 0 ∧ byteChr (x.drop k) 58 = x.length
      · rw [if_pos h0] at h
        cases h
      · rw [if_neg h0] at h
        have hle := byteChr_le (x.drop k) 58
        rw [List.length_drop] at hle
        by_cases hend : k + byteChr (x.drop k) 58 = x.length
        · rw [if_pos hend] at h
          obtain rfl := Except.ok.inj h
          exact ⟨by omega, Or.inl hend, fun j hkj hj hx => absurd hx (hbefore j hkj hj)⟩
        · rw [if_neg hend] at h
          have hat : x[k + byteChr (x.drop k) 58]? = some 58 := by
            rcases byteChr_cases (x.drop k) 58 with ⟨-, hlen⟩ | ⟨u, t, hut, -, hlen⟩
            · rw [List.length_drop] at hlen
              omega
            · rw [hlen, ← List.getElem?_drop, hut]
              simp
          by_cases hv : verbAt ((x ++ beyond).drop (k + byteChr (x.drop k) 58 + 1)) = true
          · rw [if_pos hv] at h
            obtain rfl := Except.ok.inj h
            exact ⟨by omega, Or.inr hat, fun j hkj hj hx => absurd hx (hbefore j hkj hj)⟩
          · rw [if_neg hv] at h
            obtain ⟨hkr, hr, hno⟩ := ih h (by omega)
            refine ⟨by omega, hr, ?_⟩
            intro j hkj hj hx
            rcases Nat.lt_trichotomy j (k + byteChr (x.drop k) 58) with hlt | heq | hgt
            · exact absurd hx (hbefore j hkj hlt)
            · rw [heq]
              simpa using hv
            · exact hno j (by omega) hj hx

/-! ## The addresses -/

/-- A number. -/
theorem getnum_digits (h : ∀ b ∈ s, isDigit b = true) :
    getnum sc s = .ok (digitsValue s % 2 ^ 64) := by
  have htake := @takeWhile_isDigit_append s [0] h (by simp [isDigit])
  rw [getnum, sc.scan_eq, scanDecimal, htake]
  simp only [List.drop_left]
  rfl

/-- The numbers of a range. -/
theorem range_filter (b top : Nat) :
    (List.range ((if 255 < top then 255 else top) + 1 - b)).map (b + ·) =
      (List.range 256).filter fun k => b ≤ k ∧ k ≤ top := by
  rw [← List.range'_eq_map_range]
  by_cases hb : b ≤ if 255 < top then 255 else top
  · have hle : (if 255 < top then 255 else top) ≤ 255 := by split <;> omega
    have htop : ∀ k ≤ 255, k ≤ (if 255 < top then 255 else top) ↔ k ≤ top := by
      intro k hk
      split <;> omega
    generalize (if 255 < top then 255 else top) = m at hb hle htop ⊢
    -- the numbers before the range, in it, and after it
    have hsplit : List.range 256 =
        List.range' 0 b ++ (List.range' b (m + 1 - b) ++ List.range' (m + 1) (255 - m)) := by
      have h1 : List.range' b (m + 1 - b) ++ List.range' (m + 1) (255 - m) =
          List.range' b (256 - b) := by
        have := List.range'_append_1 (s := b) (m := m + 1 - b) (n := 255 - m)
        rwa [show b + (m + 1 - b) = m + 1 by omega, show m + 1 - b + (255 - m) = 256 - b by omega]
          at this
      have h2 := List.range'_append_1 (s := 0) (m := b) (n := 256 - b)
      rw [h1, List.range_eq_range']
      rw [show b + (256 - b) = 256 by omega, Nat.zero_add] at h2
      exact h2.symm
    rw [hsplit, List.filter_append, List.filter_append, List.filter_eq_nil_iff.mpr,
      List.filter_eq_self.mpr, List.filter_eq_nil_iff.mpr]
    · simp
    · intro k hk
      rw [List.mem_range'_1] at hk
      have := htop k (by omega)
      simp only [decide_eq_true_eq, not_and]
      omega
    · intro k hk
      rw [List.mem_range'_1] at hk
      have := htop k (by omega)
      simp only [decide_eq_true_eq]
      omega
    · intro k hk
      rw [List.mem_range'_1] at hk
      simp only [decide_eq_true_eq, not_and]
      omega
  · rw [show (if 255 < top then 255 else top) + 1 - b = 0 by omega, List.range'_zero, eq_comm,
      List.filter_eq_nil_iff]
    intro k hk
    rw [List.mem_range] at hk
    simp only [decide_eq_true_eq, not_and]
    split at hb <;> omega

/-- What is before a range begins behind the last dot. -/
theorem range_left {a pre lo hi post : Bytes} (h : IsRange a pre lo hi post) :
    (if byteRchr (pre ++ lo) 46 = (pre ++ lo).length then 0 else byteRchr (pre ++ lo) 46 + 1) =
      pre.length := by
  have hlo : 46 ∉ lo := fun hin => absurd (h.lo_digits 46 hin) (by decide)
  rcases h.pre_eq.2 with rfl | hdot
  · rw [List.nil_append, byteRchr_of_notMem hlo, if_pos rfl]
    rfl
  · obtain ⟨u, rfl⟩ := List.getLast?_eq_some_iff.mp hdot
    have hcut : u ++ [46] ++ lo = u ++ 46 :: lo := by simp
    rw [hcut, byteRchr_append hlo, if_neg (by simp), List.length_append]
    rfl

/-- **The keys of a range**: the numbers from the first to the second, as `unsigned long`. -/
theorem doaddressdata_range {pre lo hi post : Bytes} (h : IsRange address pre lo hi post) :
    doaddressdata sc address = .ok (((List.range 256).filter fun k =>
      digitsValue lo % 2 ^ 64 ≤ k ∧ k ≤ digitsValue hi % 2 ^ 64).map fun k =>
        pre ++ sc.fmtUlong k ++ post) := by
  have hleft := range_left h
  have heq : address = (pre ++ lo) ++ 45 :: (hi ++ post) := by
    rw [h.eq]
    simp
  have h45 : 45 ∈ address := by
    rw [heq]
    simp
  have hu : 45 ∉ pre ++ lo := by
    intro hin
    rcases List.mem_append.mp hin with hin | hin
    · exact h.pre_eq.1 hin
    · exact absurd (h.lo_digits 45 hin) (by decide)
  rw [doaddressdata, if_pos ⟨h.plain.1, h.plain.2, h45⟩, heq]
  have hdash : byteChr ((pre ++ lo) ++ 45 :: (hi ++ post)) 45 = (pre ++ lo).length :=
    byteChr_append hu
  have hdrop : ((pre ++ lo) ++ 45 :: (hi ++ post)).drop ((pre ++ lo).length + 1) = hi ++ post := by
    rw [← List.drop_drop, List.drop_left]
    rfl
  have hright : byteChr (hi ++ post) 46 = hi.length := by
    have hno : 46 ∉ hi := fun hin => absurd (h.hi_digits 46 hin) (by decide)
    rcases h.post_eq with rfl | hdot
    · rw [List.append_nil]
      exact byteChr_of_notMem hno
    · obtain ⟨w, rfl⟩ := List.head?_eq_some_iff.mp hdot
      exact byteChr_append hno
  have htake : ((pre ++ lo) ++ 45 :: (hi ++ post)).take (pre ++ lo).length = pre ++ lo :=
    List.take_left
  have hlotext : (((pre ++ lo) ++ 45 :: (hi ++ post)).drop pre.length).take
      ((pre ++ lo).length + 1 - 1 - pre.length) = lo := by
    rw [List.append_assoc, List.drop_left, Nat.add_sub_cancel, List.length_append,
      Nat.add_sub_cancel_left, List.take_left]
  have hhitext : (hi ++ post).take ((pre ++ lo).length + 1 + hi.length -
      ((pre ++ lo).length + 1)) = hi := by
    rw [Nat.add_sub_cancel_left, List.take_left]
  have hpretext : ((pre ++ lo) ++ 45 :: (hi ++ post)).take pre.length = pre := by
    rw [List.append_assoc, List.take_left]
  have hposttext : ((pre ++ lo) ++ 45 :: (hi ++ post)).drop
      ((pre ++ lo).length + 1 + hi.length) = post := by
    rw [← List.drop_drop, hdrop, List.drop_left]
  simp only [hdash, htake, hleft, hdrop, hright, hlotext, hhitext, hpretext, hposttext,
    getnum_digits h.lo_digits, getnum_digits h.hi_digits, bind, Except.bind]
  rw [← range_filter, List.map_map]
  rfl

/-- An address that is no range is the key. -/
theorem doaddressdata_one (h : 61 ∈ address ∨ 64 ∈ address ∨ 45 ∉ address) :
    doaddressdata sc address = .ok [address] := by
  rw [doaddressdata, if_neg]
  rintro ⟨h61, h64, h45⟩
  rcases h with h | h | h
  · exact h61 h
  · exact h64 h
  · exact h h45

/-- An address whose keys are those it stands for: no range, or one that begins with a number of an
address, does not end before it, and is not cut by the width of an `unsigned long`. -/
def KeptAddress (a : Bytes) : Prop :=
  (61 ∈ a ∨ 64 ∈ a ∨ 45 ∉ a) ∨
    ∃ pre lo hi post, IsRange a pre lo hi post ∧ digitsValue lo ≤ digitsValue hi ∧
      digitsValue lo ≤ 255 ∧ (digitsValue hi < 2 ^ 64 ∨ 255 ≤ digitsValue hi % 2 ^ 64)

/-- **The keys of an address are the addresses it is an abbreviation for.** -/
theorem keys_addresses {keys : List Bytes} (h : doaddressdata sc address = .ok keys)
    (hk : KeptAddress address) : Addresses sc address keys ∧ keys ≠ [] := by
  rcases hk with hone | ⟨pre, lo, hi, post, hr, hle, hlo, hhi⟩
  · rw [doaddressdata_one hone] at h
    obtain rfl := Except.ok.inj h
    exact ⟨.one hone, List.cons_ne_nil _ _⟩
  · rw [doaddressdata_range hr] at h
    have hkeys := Except.ok.inj h
    have hsame : (List.range 256).filter (fun k => digitsValue lo % 2 ^ 64 ≤ k ∧
        k ≤ digitsValue hi % 2 ^ 64) =
          (List.range 256).filter fun k => digitsValue lo ≤ k ∧ k ≤ digitsValue hi := by
      apply List.filter_congr
      intro k hk
      rw [List.mem_range] at hk
      rw [decide_eq_decide]
      omega
    rw [hsame] at hkeys
    rw [← hkeys]
    refine ⟨.range hr, ?_⟩
    rw [Ne, List.map_eq_nil_iff, List.filter_eq_nil_iff]
    intro hno
    exact hno (digitsValue lo) (List.mem_range.mpr (by omega))
      (decide_eq_true ⟨Nat.le_refl _, hle⟩)

/-- There are not more keys than addresses, and fewer where the address is not kept. -/
theorem keys_le {keys as : List Bytes} (h : doaddressdata sc address = .ok keys)
    (has : Addresses sc address as) (hne : as ≠ []) :
    keys.length ≤ as.length ∧ (keys.length = as.length → KeptAddress address) := by
  cases has with
  | one hone =>
      rw [doaddressdata_one hone] at h
      obtain rfl := Except.ok.inj h
      exact ⟨Nat.le_refl _, fun _ => Or.inl hone⟩
  | @range pre lo hi post hr =>
      rw [doaddressdata_range hr] at h
      obtain rfl := Except.ok.inj h
      rw [Ne, List.map_eq_nil_iff, List.filter_eq_nil_iff, not_forall] at hne
      obtain ⟨k, hk⟩ := hne
      rw [Classical.not_imp, not_not, List.mem_range, decide_eq_true_eq] at hk
      obtain ⟨hk256, hlok, hkhi⟩ := hk
      have hsub : (List.range 256).filter (fun k => digitsValue lo % 2 ^ 64 ≤ k ∧
          k ≤ digitsValue hi % 2 ^ 64) =
            ((List.range 256).filter fun k => digitsValue lo ≤ k ∧ k ≤ digitsValue hi).filter
              fun k => k ≤ digitsValue hi % 2 ^ 64 := by
        rw [List.filter_filter]
        apply List.filter_congr
        intro j _
        rw [← Bool.decide_and, decide_eq_decide]
        have := Nat.mod_le (digitsValue hi) (2 ^ 64)
        omega
      rw [List.length_map, List.length_map, hsub]
      refine ⟨List.length_filter_le _ _, ?_⟩
      intro hlen
      refine Or.inr ⟨pre, lo, hi, post, hr, by omega, by omega, ?_⟩
      by_contra hcut
      rw [not_or, Nat.not_lt, Nat.not_le] at hcut
      -- the last number of an address is left out
      have hall := List.length_filter_eq_length_iff.mp hlen 255
        (List.mem_filter.mpr ⟨by decide, by rw [decide_eq_true_eq]; omega⟩)
      rw [decide_eq_true_eq] at hall
      omega

/-! ## Lines -/

/-- There is a colon that `allow` or `deny` follows. -/
def HasVerb (x : Bytes) : Prop := ∃ a t, x = a ++ 58 :: t ∧ verbAt t = true

/-- The lines that are kept: no name and no value has a NUL. -/
def KeptLine (line : Bytes) : Prop :=
  ∃ a i, LineText a i (stripped line) ∧ (∀ op ∈ i.ops, OpOk op) ∧ KeptAddress a

theorem LineText.hasVerb {a : Bytes} {i : Instructions} (h : LineText a i x) : HasVerb x := by
  obtain ⟨t, -, hx, -⟩ := h
  exact ⟨a, _, hx, verbAt_verb i t⟩

theorem verbAt_append (h : verbAt s = true) : verbAt (s ++ t) = true := by
  rw [verbAt, Bool.or_eq_true, List.isPrefixOf_iff_prefix, List.isPrefixOf_iff_prefix] at h ⊢
  rcases h with h | h
  · exact Or.inl (h.trans (List.prefix_append s t))
  · exact Or.inr (h.trans (List.prefix_append s t))

/-- A record of a rule. -/
def IsRecord (r : Record) (rule : Rule) : Prop :=
  r.key = rule.address ∧ found r.data = rule.instructions

theorem exists_record {db : List Record} {rs : List Rule} {rule : Rule}
    (h : List.Forall₂ IsRecord db rs) (hr : rule ∈ rs) : ∃ d, IsRecord d rule := by
  induction h with
  | nil => exact absurd hr List.not_mem_nil
  | @cons d x db rs hx hrest ih =>
      rcases List.mem_cons.mp hr with rfl | hr
      · exact ⟨d, hx⟩
      · exact ih hr

/-- What is written for instructions. -/
def dataOf (i : Instructions) : Bytes :=
  (if i.deny then [68, 0] else []) ++ (i.ops.map opData).flatMap (· ++ [0])

/-- The records of a line. -/
def LineRecords (sc : Scanners) (x : Bytes) (records : List Record) : Prop :=
  ∃ a i keys, LineText a i x ∧ doaddressdata sc a = .ok keys ∧
    records = keys.map fun key => ⟨key, dataOf i⟩

/-- The instructions after `allow` or `deny`, and the address before the colon. -/
theorem doLine_verb {d : Bool} {verb : Bytes} {records : List Record} {r : Nat}
    (hverb : (if d then deny else allow) = verb)
    (hx : x = x.take r ++ 58 :: x.drop (r + 1))
    (hfirst : ∀ j, j < r → x[j]? = some 58 → verbAt ((x ++ beyond).drop (j + 1)) = false)
    (hv : verb.isPrefixOf (x.drop (r + 1)) = true)
    (h : (do
      let data ← instructions n ((x.drop (r + 1)).drop verb.length)
      let keys ← doaddressdata sc (x.take r)
      .ok (keys.map fun key => (⟨key, (if d then [68, 0] else []) ++ data⟩ : Record))) =
        Except.ok records) :
    LineRecords sc x records := by
  cases hins : instructions n ((x.drop (r + 1)).drop verb.length) with
  | error e =>
      simp only [hins, bind, Except.bind] at h
      cases h
  | ok data =>
      cases hkeys : doaddressdata sc (x.take r) with
      | error e =>
          simp only [hins, hkeys, bind, Except.bind] at h
          cases h
      | ok keys =>
          simp only [hins, hkeys, bind, Except.bind, Except.ok.injEq] at h
          obtain ⟨ops, hops, rfl⟩ := instructions_ok hins
          have hrest : x.drop (r + 1) = verb ++ (x.drop (r + 1)).drop verb.length := by
            obtain ⟨w, hw⟩ := List.isPrefixOf_iff_prefix.mp hv
            rw [← hw, List.drop_left]
          refine ⟨x.take r, ⟨d, ops⟩, keys, ⟨_, hops, ?_, ?_⟩, hkeys, h.symm⟩
          · rw [hverb, ← hrest]
            exact hx
          · intro p q hpq
            have hlen := congrArg List.length hpq
            rw [List.length_append, List.length_cons, List.length_take] at hlen
            have hx' : x = p ++ 58 :: (q ++ 58 :: x.drop (r + 1)) := by
              conv_lhs => rw [hx, hpq, List.append_assoc, List.cons_append]
            have hat : x[p.length]? = some 58 := by
              rw [hx']
              simp
            have hno := hfirst p.length (by omega) hat
            rw [hverb, ← hrest]
            by_contra hyes
            rw [Bool.not_eq_false] at hyes
            have hdrop : (x ++ beyond).drop (p.length + 1) =
                (q ++ 58 :: x.drop (r + 1)) ++ beyond := by
              have hxd : x.drop (p.length + 1) = q ++ 58 :: x.drop (r + 1) := by
                conv_lhs => rw [hx', ← List.drop_drop, List.drop_left]
                rfl
              rw [List.drop_append_of_le_length (by omega), hxd]
            rw [hdrop, verbAt_append hyes] at hno
            cases hno

/-- **A line with a colon that `allow` or `deny` follows is read as the manual says**, or
`tcprules` ends. -/
theorem doLine_records {records : List Record} (h : doLine sc beyond line = .ok records)
    (hc : ¬ Comment line) (hv : HasVerb (stripped line)) :
    LineRecords sc (stripped line) records := by
  rw [Comment, not_or] at hc
  rw [doLine, if_neg hc.1, if_neg hc.2] at h
  dsimp only at h
  generalize stripped line = x at h hv ⊢
  generalize line.drop x.length ++ beyond = more at h
  cases hcol : findColon x more (x.length + 1) 0 with
  | error e =>
      simp only [hcol, bind, Except.bind] at h
      cases h
  | ok r =>
      obtain ⟨-, hr, hfirst⟩ := findColon_ok hcol (Nat.zero_le _)
      have hne : r ≠ x.length := by
        rintro rfl
        obtain ⟨a, t, hat, hv⟩ := hv
        have hno := hfirst a.length (Nat.zero_le _) (by rw [hat]; simp) (by rw [hat]; simp)
        have hdrop : (x ++ more).drop (a.length + 1) = t ++ more := by
          rw [hat, List.append_assoc, ← List.drop_drop, List.drop_left]
          rfl
        rw [hdrop, verbAt_append hv] at hno
        cases hno
      have hat : x[r]? = some 58 := by
        rcases hr with hr | hr
        · exact absurd hr hne
        · exact hr
      obtain ⟨hlt, hget⟩ := List.getElem?_eq_some_iff.mp hat
      have hsplit : x = x.take r ++ 58 :: x.drop (r + 1) := by
        rw [← hget, ← List.drop_eq_getElem_cons hlt, List.take_append_drop]
      simp only [hcol, bind, Except.bind, if_neg hne] at h
      by_cases hd : deny.isPrefixOf (x.drop (r + 1)) = true
      · rw [if_pos hd] at h
        exact @doLine_verb _ _ _ _ true deny _ _ rfl hsplit
          (fun j hj => hfirst j (Nat.zero_le _) hj) hd h
      · rw [if_neg hd] at h
        by_cases ha : allow.isPrefixOf (x.drop (r + 1)) = true
        · rw [if_pos ha] at h
          exact @doLine_verb _ _ _ _ false allow _ _ rfl hsplit
            (fun j hj => hfirst j (Nat.zero_le _) hj) ha h
        · rw [if_neg ha] at h
          cases h

/-- **A line that is kept becomes the records of its rules.** -/
theorem doLine_ok {records : List Record} (h : doLine sc beyond line = .ok records)
    (hc : ¬ Comment line) (hk : KeptLine line) :
    ∃ rs, (LineRules sc line rs ∧ rs ≠ []) ∧ List.Forall₂ IsRecord records rs := by
  obtain ⟨a, i, hline, hops, haddr⟩ := hk
  obtain ⟨a', i', keys, hline', hkeys, rfl⟩ := doLine_records h hc hline.hasVerb
  obtain ⟨rfl, rfl⟩ := lineText_unique hline' hline
  obtain ⟨has, hne⟩ := keys_addresses hkeys haddr
  refine ⟨_, ⟨⟨a', i', keys, hline, has, rfl⟩, by rwa [Ne, List.map_eq_nil_iff]⟩, ?_⟩
  clear hne has hkeys h
  induction keys with
  | nil => exact .nil
  | cons key keys ih => exact .cons ⟨rfl, found_data hops⟩ ih

/-- A line with rules has not more records than rules, and fewer where it is not kept. -/
theorem doLine_le {records : List Record} {rs : List Rule}
    (h : doLine sc beyond line = .ok records) (hc : ¬ Comment line)
    (hrs : LineRules sc line rs ∧ rs ≠ []) :
    records.length ≤ rs.length ∧ (records.length = rs.length →
      (∀ x ∈ rs, ∀ op ∈ x.instructions.ops, OpOk op) → KeptLine line) := by
  obtain ⟨⟨a, i, as, hline, has, rfl⟩, hne⟩ := hrs
  obtain ⟨a', i', keys, hline', hkeys, rfl⟩ := doLine_records h hc hline.hasVerb
  obtain ⟨rfl, rfl⟩ := lineText_unique hline' hline
  rw [Ne, List.map_eq_nil_iff] at hne
  obtain ⟨hle, hkept⟩ := keys_le hkeys has hne
  rw [List.length_map, List.length_map]
  refine ⟨hle, fun hlen hops => ⟨a', i', hline, ?_, hkept hlen⟩⟩
  obtain ⟨y, hy⟩ := List.exists_mem_of_ne_nil as hne
  exact hops ⟨y, i'⟩ (List.mem_map.mpr ⟨y, hy, rfl⟩)

/-! ## The text -/

/-- The lines that are no comments. -/
def ruleLines (text : Bytes) : List Bytes := (lines 10 text).filter fun line => ¬ Comment line

theorem not_comment {text : Bytes} (h : line ∈ ruleLines text) : ¬ Comment line := by
  have h2 := (List.mem_filter.mp h).2
  exact of_decide_eq_true h2

/-- The records of the lines, one after the other. -/
theorem compile_lines {text : Bytes} {db : List Record} (h : compile sc beyond text = .ok db) :
    ∃ records, List.Forall₂ (fun line records => doLine sc beyond line = .ok records)
      (ruleLines text) records ∧ db = records.flatten := by
  rw [compile] at h
  have hlines : ∀ (ls : List Bytes) (records : List (List Record)),
      ls.mapM (doLine sc beyond) = .ok records → ∃ recss,
        List.Forall₂ (fun line records => doLine sc beyond line = .ok records)
          (ls.filter fun line => ¬ Comment line) recss ∧ records.flatten = recss.flatten := by
    intro ls
    induction ls with
    | nil =>
        intro records h
        cases h
        exact ⟨[], .nil, rfl⟩
    | cons line ls ih =>
        intro records h
        rw [List.mapM_cons] at h
        cases h1 : doLine sc beyond line with
        | error e =>
            simp only [h1, bind, Except.bind] at h
            cases h
        | ok first =>
            cases h2 : ls.mapM (doLine sc beyond) with
            | error e =>
                simp only [h1, h2, bind, Except.bind] at h
                cases h
            | ok more =>
                simp only [h1, h2, bind, Except.bind, pure, Except.pure, Except.ok.injEq] at h
                obtain ⟨recss, hrecss, hflat⟩ := ih more h2
                rw [← h, List.flatten_cons, hflat]
                by_cases hc : Comment line
                · have hfirst : first = [] := by
                    rw [doLine] at h1
                    rcases hc with hc | hc
                    · rw [if_pos hc] at h1
                      exact (Except.ok.inj h1).symm
                    · rw [if_pos hc, ite_self] at h1
                      exact (Except.ok.inj h1).symm
                  rw [List.filter_cons_of_neg (by simpa using hc), hfirst]
                  exact ⟨recss, hrecss, rfl⟩
                · rw [List.filter_cons_of_pos (by simpa using hc)]
                  exact ⟨first :: recss, .cons h1 hrecss, rfl⟩
  cases hm : (lines 10 text).mapM (doLine sc beyond) with
  | error e =>
      simp only [hm, bind, Except.bind] at h
      cases h
  | ok records =>
      simp only [hm, bind, Except.bind, Except.ok.injEq] at h
      obtain ⟨recss, hrecss, hflat⟩ := hlines _ records hm
      exact ⟨recss, hrecss, by rw [← h, hflat]⟩

/-- **A text whose lines are kept becomes the records of its rules.** -/
theorem compile_ok {text : Bytes} {db : List Record} (h : compile sc beyond text = .ok db)
    (hk : ∀ line ∈ ruleLines text, KeptLine line) :
    ∃ rs, Reads sc text rs ∧ List.Forall₂ IsRecord db rs := by
  obtain ⟨recss, hrecss, rfl⟩ := compile_lines h
  have hall : ∀ line ∈ ruleLines text, ¬ Comment line := fun line hl => not_comment hl
  have hrules : ∃ rss, List.Forall₂ (fun line rs => LineRules sc line rs ∧ rs ≠ [])
      (ruleLines text) rss ∧ List.Forall₂ IsRecord recss.flatten rss.flatten := by
    clear h
    generalize ruleLines text = ls at *
    induction hrecss with
    | nil => exact ⟨[], .nil, .nil⟩
    | @cons line records ls recss h1 hrest ih =>
        rw [List.forall_mem_cons] at hk hall
        obtain ⟨rs, hrs, hrec⟩ := doLine_ok h1 hall.1 hk.1
        obtain ⟨rss, hrss, hrecs⟩ := ih hk.2 hall.2
        exact ⟨rs :: rss, .cons hrs hrss, List.rel_append hrec hrecs⟩
  obtain ⟨rss, hrss, hrec⟩ := hrules
  exact ⟨rss.flatten, ⟨rss, hrss, rfl⟩, hrec⟩

/-- What is read back has no NUL, and no name has a `=`. -/
theorem found_opOk (data : Bytes) : ∀ op ∈ (found data).ops, OpOk op := by
  have hone : ∀ (i : Instructions) (s : Bytes), (∀ op ∈ i.ops, OpOk op) →
      ∀ op ∈ (foundOne i s).ops, OpOk op := by
    intro i s hi
    have hsnoc : ∀ op, OpOk op → ∀ o ∈ i.ops ++ [op], OpOk o := by
      intro op hop o ho
      rcases List.mem_append.mp ho with ho | ho
      · exact hi o ho
      · rwa [List.mem_singleton.mp ho]
    unfold foundOne
    split
    · split
      · exact hi
      · dsimp only
        split
        · apply hsnoc
          refine ⟨?_, ?_, notMem_take_byteChr (Nat.le_refl _)⟩
          · exact fun hin => nul_notMem_cstr _ (List.mem_of_mem_take hin)
          · exact fun hin => nul_notMem_cstr _ (List.mem_of_mem_drop hin)
        · exact hi
      · exact hsnoc _ (nul_notMem_cstr _)
      · exact hi
    · exact hi
  have hall : ∀ (ss : List Bytes) (i : Instructions), (∀ op ∈ i.ops, OpOk op) →
      ∀ op ∈ (ss.foldl foundOne i).ops, OpOk op := by
    intro ss
    induction ss with
    | nil => exact fun i hi => hi
    | cons s ss ih => exact fun i hi => ih _ (hone i s hi)
  exact hall _ _ fun op hop => absurd hop List.not_mem_nil

/-- **Only a text whose lines are kept becomes the records of its rules.** -/
theorem kept_of_reads {text : Bytes} {db : List Record} {rs : List Rule}
    (h : compile sc beyond text = .ok db) (hreads : Reads sc text rs)
    (hrec : List.Forall₂ IsRecord db rs) : ∀ line ∈ ruleLines text, KeptLine line := by
  obtain ⟨recss, hrecss, rfl⟩ := compile_lines h
  obtain ⟨rss, hrss, rfl⟩ := hreads
  have hall : ∀ line ∈ ruleLines text, ¬ Comment line := fun line hl => not_comment hl
  have hops : ∀ x ∈ rss.flatten, ∀ op ∈ x.instructions.ops, OpOk op := by
    intro x hx
    obtain ⟨d, hd⟩ := exists_record hrec hx
    rw [← hd.2]
    exact found_opOk d.data
  have hrss' : List.Forall₂ (fun line rs => LineRules sc line rs ∧ rs ≠ []) (ruleLines text) rss :=
    hrss
  have hlen := hrec.length_eq
  clear h hrec hrss
  generalize ruleLines text = ls at *
  have hcount : recss.flatten.length ≤ rss.flatten.length ∧
      (recss.flatten.length = rss.flatten.length → ∀ line ∈ ls, KeptLine line) := by
    clear hlen
    induction hrecss generalizing rss with
    | nil => exact ⟨Nat.zero_le _, fun _ line hl => absurd hl List.not_mem_nil⟩
    | @cons line records ls recss h1 hrest ih =>
        cases hrss' with
        | @cons _ rs _ rss hrs hrss =>
            rw [List.forall_mem_cons] at hall
            rw [List.flatten_cons, List.forall_mem_append] at hops
            obtain ⟨hle, hkept⟩ := doLine_le h1 hall.1 hrs
            obtain ⟨hle', hkept'⟩ := ih rss hops.2 hall.2 hrss
            rw [List.flatten_cons, List.flatten_cons, List.length_append, List.length_append]
            refine ⟨by omega, fun hlen => ?_⟩
            rw [List.forall_mem_cons]
            exact ⟨hkept (by omega) hops.1, hkept' (by omega)⟩
  exact hcount.2 hlen

end IndimailMta.Tcprules
