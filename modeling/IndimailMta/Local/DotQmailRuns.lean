import Mathlib.Data.List.Forall2
import IndimailMta.Local.DotQmailLines

/-!
# The runs of a `.qmail` file

From the beginning of a line on the loop comes to what the reference does with the lines to come. What
it stores is counted, and stays in a part of the text that is not written to again.
-/

namespace IndimailMta.Local

open IndimailMta Lines

variable {answers : Nat → Option Nat} {counted turns n : Nat} {only : Bool}
variable {pre w rest l s t : Bytes} {ls : List Bytes} {r : Run}

/-! ## Labels -/

/-- A label in front of a text is one in front of its label. -/
theorem prefix_labelOf {m : Bytes} (hm : ∀ b ∈ m, isStop b = false) : m <+: s ↔ m <+: labelOf s := by
  constructor
  · rintro ⟨v, rfl⟩
    rw [labelOf, List.takeWhile_append_of_pos fun b hb => by simpa [isStop] using hm b hb]
    exact List.prefix_append _ _
  · exact fun h => h.trans (List.takeWhile_prefix _)

theorem labelOf_stop {b : Byte} (hb : isStop b = true) : labelOf (w ++ b :: s) = labelOf w := by
  rw [labelOf, labelOf, List.takeWhile_append]
  split_ifs with h
  · rw [List.takeWhile_cons_of_neg (by rw [← isStop, hb]; decide), List.append_nil]
    exact (List.takeWhile_prefix _).eq_of_length h |>.symm
  · rfl

theorem behind_suffix (agrees : Bytes → Bytes → Bool) (label : Bytes) (ls : List Bytes) :
    behind agrees label ls <:+ ls := by
  induction ls with
  | nil => exact List.suffix_rfl
  | cons l ls ih =>
      rw [behind]
      split_ifs
      · exact List.suffix_cons l ls
      · exact ih.trans (List.suffix_cons l ls)

/-! ## What is stored -/

/-- An address that is in a part of the text. -/
def Stored (pre : Bytes) (i : Nat) (a : Bytes) : Prop :=
  0 ∉ a ∧ ∃ u v, pre = u ++ a ++ 0 :: v ∧ u.length = i

theorem Stored.mono {pre' a : Bytes} {i : Nat} (h : Stored pre i a) (hpre : pre <+: pre') :
    Stored pre' i a := by
  obtain ⟨h0, u, v, rfl, hu⟩ := h
  obtain ⟨x, rfl⟩ := hpre
  exact ⟨h0, u, v ++ x, by simp, hu⟩

theorem Stored.read {a : Bytes} {i : Nat} (h : Stored pre i a) (s : Bytes) :
    cstr ((pre ++ s).drop i) = a := by
  obtain ⟨h0, u, v, rfl, rfl⟩ := h
  rw [List.append_assoc, List.append_assoc, List.drop_left, List.cons_append, cstr_zero]
  exact cstr_eq h0

theorem stored_cstr (pre t z : Bytes) : Stored (pre ++ t ++ 0 :: z) pre.length (cstr t) := by
  refine ⟨nul_notMem_cstr t, ?_⟩
  · have hsplit := (List.takeWhile_append_dropWhile (p := fun b : Byte => decide (b ≠ 0))
      (l := t)).symm
    cases hdrop : t.dropWhile fun b : Byte => decide (b ≠ 0) with
    | nil =>
        rw [hdrop, List.append_nil] at hsplit
        exact ⟨pre, z, by rw [cstr, ← hsplit], rfl⟩
    | cons b v =>
        have hb := List.head?_dropWhile_not (fun b : Byte => decide (b ≠ 0)) t
        rw [hdrop] at hb hsplit
        have hb0 : b = 0 := by simpa using hb
        subst hb0
        refine ⟨pre, v ++ 0 :: z, ?_, rfl⟩
        rw [cstr]
        conv_lhs => rw [hsplit]
        simp

theorem forwards_eq {offs : List Nat} {recips : List Bytes}
    (h : List.Forall₂ (Stored pre) offs recips) (s : Bytes) :
    offs.map (fun i => cstr ((pre ++ s).drop i)) = recips := by
  induction h with
  | nil => rfl
  | cons h _ ih => rw [List.map_cons, h.read, ih]

/-! ## What is counted -/

/-- A line that the first scan counts. -/
def counts (l : Bytes) : Bool := decide ((l ++ [10]).headD 0 ∉ ([37, 35, 46, 47, 124] : Bytes))

theorem countLoop_skip {i : Nat} (hw : 10 ∉ w) (hturns : w.length ≤ turns) :
    countLoop (pre ++ w ++ 10 :: rest) turns i pre.length n =
      countLoop (pre ++ w ++ 10 :: rest) (turns - w.length) i (pre.length + w.length) n := by
  induction w generalizing pre turns with
  | nil => rfl
  | cons b w ih =>
      obtain ⟨turns, rfl⟩ : ∃ n, turns = n + 1 := ⟨turns - 1, by
        rw [List.length_cons] at hturns
        omega⟩
      have hb : b ≠ 10 := fun h => hw (by rw [h]; exact List.mem_cons_self)
      have hget : (pre ++ b :: w ++ 10 :: rest).getD pre.length 0 = b := by
        rw [List.append_assoc, List.cons_append, getD_middle]
      have hih : countLoop ((pre ++ [b]) ++ w ++ 10 :: rest) turns i (pre ++ [b]).length n = _ :=
        ih (fun h => hw (List.mem_cons_of_mem _ h)) (Nat.le_of_succ_le_succ hturns)
      rw [countLoop, hget, if_neg hb]
      simp only [List.append_assoc, List.nil_append, List.length_append, List.length_singleton,
        List.cons_append] at hih ⊢
      rw [hih, List.length_cons, Nat.add_sub_add_right]
      congr 1
      omega

/-- The first scan counts lines. -/
theorem countLoop_eq (hls : ∀ l ∈ ls, (10 : Byte) ∉ l) (hturns : turns = (textOf ls).length) :
    countLoop (pre ++ textOf ls) turns pre.length pre.length n = n + ls.countP counts := by
  induction ls generalizing pre turns n with
  | nil =>
      subst hturns
      rfl
  | cons l ls ih =>
      have hlen : (textOf (l :: ls)).length = l.length + ((textOf ls).length + 1) := by
        rw [textOf_cons, List.length_append, List.length_cons]
      have hget : (pre ++ l ++ 10 :: textOf ls).getD (pre.length + l.length) 0 = 10 := by
        rw [← List.length_append, getD_middle]
      have hfirst : (pre ++ l ++ 10 :: textOf ls).getD pre.length 0 = (l ++ [10]).headD 0 := by
        cases l with
        | nil => rw [List.append_nil, getD_middle]; rfl
        | cons b l => rw [List.append_assoc, List.cons_append, getD_middle]; rfl
      have hih : ∀ n, countLoop ((pre ++ l ++ [10]) ++ textOf ls) (textOf ls).length
          (pre ++ l ++ [10]).length (pre ++ l ++ [10]).length n = _ :=
        fun n => ih (fun x hx => hls x (List.mem_cons_of_mem _ hx)) rfl
      have hpos : (pre ++ l ++ [10]).length = pre.length + l.length + 1 := by
        rw [List.length_append, List.length_append, List.length_singleton]
      rw [hpos, List.append_assoc (pre ++ l), List.singleton_append] at hih
      rw [textOf_cons, ← List.append_assoc, countLoop_skip (hls l List.mem_cons_self) (by omega),
        hturns, hlen, Nat.add_sub_cancel_left, countLoop, if_pos hget, hfirst]
      rw [hih, List.countP_cons, counts]
      by_cases hmem : (l ++ [10]).headD 0 ∈ ([37, 35, 46, 47, 124] : Bytes)
      · rw [if_pos hmem, decide_eq_false (not_not_intro hmem), if_neg Bool.false_ne_true]
        rfl
      · rw [if_neg hmem, decide_eq_true hmem, if_pos rfl]
        omega

/-! ## The loop -/

/-- What follows a line. -/
def proceed (answers : Nat → Option Nat) (counted turns : Nat) : List Event × Step → Outcome
  | (es, .dies code) => ⟨es, .dies code⟩
  | (es, .overflows) => ⟨es, .overflows⟩
  | (es, .goes r) =>
      if r.flag99 then ⟨es, .forwards (r.recips.map fun i => cstr (r.cmds.drop i))⟩
      else (loop answers counted turns { r with i := r.j + 1, j := r.j + 1 }).after es

theorem loop_newline (hlt : r.j < r.cmds.length) (hnl : r.cmds.getD r.j 0 = 10) :
    loop answers counted (turns + 1) r = proceed answers counted turns (line answers counted r) := by
  rw [loop, if_pos hlt, if_pos hnl]
  obtain ⟨es, code | _ | r'⟩ := line answers counted r <;> rfl

theorem loop_skip (hcmds : r.cmds = pre ++ w ++ 10 :: rest) (hj : r.j = pre.length) (hw : 10 ∉ w)
    (hturns : w.length ≤ turns) :
    loop answers counted turns r =
      loop answers counted (turns - w.length) { r with j := pre.length + w.length } := by
  induction w generalizing pre turns r with
  | nil => rw [List.length_nil, Nat.add_zero, ← hj, Nat.sub_zero]
  | cons b w ih =>
      obtain ⟨turns, rfl⟩ : ∃ n, turns = n + 1 := ⟨turns - 1, by
        rw [List.length_cons] at hturns
        omega⟩
      have hb : b ≠ 10 := fun h => hw (by rw [h]; exact List.mem_cons_self)
      have hget : r.cmds.getD r.j 0 = b := by
        rw [hcmds, hj, List.append_assoc, List.cons_append, getD_middle]
      have hlt : r.j < r.cmds.length := by
        rw [hcmds, hj]
        simp only [List.length_append, List.length_cons]
        omega
      have hih := @ih turns (pre ++ [b]) { r with j := r.j + 1 }
        (by rw [hcmds]; simp) (by rw [hj, List.length_append, List.length_singleton])
        (fun h => hw (List.mem_cons_of_mem _ h)) (Nat.le_of_succ_le_succ hturns)
      rw [loop, if_pos hlt, hget, if_neg hb, hih, List.length_cons, List.length_append,
        List.length_singleton, Nat.add_sub_add_right, Nat.add_assoc, Nat.add_comm 1]

/-- **A line of the text**: what is in front of its newline, cut. -/
theorem loop_line {offs : List Nat} {fuel : Nat} (hl : 10 ∉ l) (hfuel : l.length < fuel) :
    loop answers counted fuel
        ⟨pre ++ textOf (l :: ls), pre.length, pre.length, offs, false, only, n⟩ =
      proceed answers counted (fuel - (l.length + 1))
        (command answers counted (pre.length + (l.rdropWhile isBlank).length)
          ⟨pre ++ l.rdropWhile isBlank ++
            0 :: (List.replicate (l.length - (l.rdropWhile isBlank).length) 0 ++ textOf ls),
            pre.length, pre.length + l.length, offs, false, only, n⟩) := by
  obtain ⟨turns, rfl⟩ : ∃ n, fuel = l.length + (n + 1) := ⟨fuel - (l.length + 1), by omega⟩
  have hcmds : pre ++ textOf (l :: ls) = pre ++ l ++ 10 :: textOf ls := by
    rw [textOf_cons, List.append_assoc]
  have hget : (pre ++ l ++ 10 :: textOf ls).getD (pre.length + l.length) 0 = 10 := by
    rw [← List.length_append, getD_middle]
  have hset : (pre ++ l ++ 10 :: textOf ls).set (pre.length + l.length) 0 =
      pre ++ l ++ 0 :: textOf ls := by
    rw [← List.length_append, set_middle]
  have hzero : List.replicate (l.length - (l.rdropWhile isBlank).length) 0 ++ (0 : Byte) :: textOf ls
      = 0 :: (List.replicate (l.length - (l.rdropWhile isBlank).length) 0 ++ textOf ls) := by
    rw [← List.singleton_append, ← List.append_assoc, ← List.replicate_succ', List.replicate_succ]
    rfl
  rw [loop_skip hcmds rfl hl (Nat.le_add_right _ _), Nat.add_sub_cancel_left,
    loop_newline (by simp [hcmds]) (by rw [hcmds]; exact hget), line, hcmds]
  dsimp only
  rw [hset, trim_eq, hzero, ← Nat.add_assoc, Nat.add_assoc l.length, Nat.add_comm turns 1,
    ← Nat.add_assoc, Nat.add_sub_cancel_left]

/-! ## The simulation -/

/-- From the beginning of these lines on, the loop comes to what the reference does. -/
def Follows (answers : Nat → Option Nat) (counted turns : Nat) (ls : List Bytes) : Prop :=
  ∀ (pre : Bytes) (fuel : Nat) (offs : List Nat) (recips : List Bytes) (only : Bool) (n : Nat),
    (textOf ls).length ≤ fuel → List.Forall₂ (Stored pre) offs recips →
      offs.length + ls.countP counts ≤ counted →
        loop answers counted fuel
            ⟨pre ++ textOf ls, pre.length, pre.length, offs, false, only, n⟩ =
          interpret answers starts turns (decide (pre = [])) only n recips ls

section
variable {fuel : Nat} {recips : List Bytes} {es : List Event}

theorem textOf_suffix {ls' : List Bytes} (h : ls' <:+ ls) :
    (textOf ls').length ≤ (textOf ls).length := by
  obtain ⟨u, rfl⟩ := h
  rw [textOf, textOf, List.flatMap_append, List.length_append]
  exact Nat.le_add_left _ _

/-- The loop goes on with the line behind. -/
theorem proceed_goes (h : Follows answers counted turns ls) (hcmds : r.cmds = pre ++ textOf ls)
    (hj : r.j + 1 = pre.length) (h99 : r.flag99 = false) (hfuel : (textOf ls).length ≤ fuel)
    (hstored : List.Forall₂ (Stored pre) r.recips recips)
    (hroom : r.recips.length + ls.countP counts ≤ counted) :
    proceed answers counted fuel (es, .goes r) =
      (interpret answers starts turns false r.flagforwardonly r.calls recips ls).after es := by
  have hpre : pre ≠ [] := fun hnil => by
    rw [hnil] at hj
    exact absurd hj (Nat.succ_ne_zero _)
  have hrun : { r with i := r.j + 1, j := r.j + 1 } =
      (⟨pre ++ textOf ls, pre.length, pre.length, r.recips, false, r.flagforwardonly, r.calls⟩ :
        Run) := by
    rw [← hcmds, ← hj, ← h99]
  rw [proceed, if_neg (by rw [h99]; exact Bool.false_ne_true), hrun,
    h pre fuel r.recips recips r.flagforwardonly r.calls hfuel hstored hroom, decide_eq_false hpre]

theorem proceed_append (es : List Event) (b : List Event × Step) :
    proceed answers counted fuel (es ++ b.1, b.2) = (proceed answers counted fuel b).after es := by
  obtain ⟨es', code | _ | r'⟩ := b
  · rfl
  · rfl
  · rw [proceed, proceed]
    split_ifs
    · rfl
    · rw [Outcome.after, Outcome.after, Outcome.after, List.append_assoc]

/-- A branch that is taken. -/
theorem proceed_branch {x : Byte} {i : Nat} {label : Bytes} {missing : Bool}
    (h : Follows answers counted turns (behind starts label ls))
    (hcmds : r.cmds = pre ++ x :: textOf ls) (hj : r.j = pre.length)
    (htaken : (missing || r.flag99) = true) (hls : ∀ l ∈ ls, (10 : Byte) ∉ l)
    (hlabel : labelOf ((pre ++ 10 :: textOf ls).drop i) = label)
    (hfuel : (textOf ls).length ≤ fuel)
    (hstored : List.Forall₂ (Stored pre) r.recips recips)
    (hroom : r.recips.length + ls.countP counts ≤ counted) :
    proceed answers counted fuel (branch r i missing) =
      (interpret answers starts turns false r.flagforwardonly r.calls recips
        (behind starts label ls)).after [.goto (textOf (behind starts label ls)).length] := by
  have hset : r.cmds.set r.j 10 = pre ++ 10 :: textOf ls := by rw [hcmds, hj, set_middle]
  obtain ⟨q, hq, htext, hpre⟩ := @findLabel_eq pre (pre ++ 10 :: textOf ls).length i label ls hls
    (fun m hm => by rw [prefix_labelOf hm, hlabel]) (Nat.le_add_right _ _)
  have hsuffix := behind_suffix starts label ls
  have hleft : (pre ++ 10 :: textOf ls).length - q.length =
      (textOf (behind starts label ls)).length := by
    rw [htext, List.length_append, Nat.add_sub_cancel_left]
  rw [branch, if_pos htaken, hset, hj]
  dsimp only
  rw [hq, hleft]
  exact @proceed_goes answers counted turns q (behind starts label ls) _ fuel recips
    [.goto (textOf (behind starts label ls)).length] h htext hq rfl
    ((textOf_suffix hsuffix).trans hfuel)
    (hstored.imp fun _ _ ha => ha.mono ((List.prefix_append _ _).trans hpre))
    (le_trans (Nat.add_le_add_left (hsuffix.sublist.countP_le) _) hroom)

/-- An address is on a line that is counted. -/
theorem read_forward {a : Bytes} (h : read t = .forward a) :
    t ≠ [] ∧ t.headD 0 ∉ ([37, 35, 46, 47, 124] : Bytes) ∧
      (if t.headD 0 = 38 then a = cstr t.tail else a = cstr t) := by
  rw [read] at h
  dsimp only at h
  split_ifs at h with h0 h37 h35 h46 h47 h124 hf h63 h43 hl h38
  all_goals first
    | exact absurd h Instruction.noConfusion
    | injection h with ha
  · refine ⟨fun hnil => h0 (by rw [hnil]; rfl), ?_, ?_⟩
    · simp_all
    · rw [if_pos h38, ha]
  · refine ⟨fun hnil => h0 (by rw [hnil]; rfl), ?_, ?_⟩
    · simp_all
    · rw [if_neg h38, ha]

theorem counts_trim (ht : l.rdropWhile isBlank ≠ [])
    (h : (l.rdropWhile isBlank).headD 0 ∉ ([37, 35, 46, 47, 124] : Bytes)) : counts l = true := by
  obtain ⟨c, t, hct⟩ := List.exists_cons_of_ne_nil ht
  obtain ⟨v, hv⟩ := List.rdropWhile_prefix isBlank l
  rw [hct] at hv h
  rw [counts, ← hv]
  exact decide_eq_true h

/-! A line that was cut: in front of the next one, and in front of its newline. -/

theorem text_next (pre t rest : Bytes) (m : Nat) :
    pre ++ t ++ 0 :: (List.replicate m 0 ++ rest) =
      (pre ++ t ++ 0 :: List.replicate m 0) ++ rest := by
  simp

theorem text_last (pre t rest : Bytes) (m : Nat) :
    pre ++ t ++ 0 :: (List.replicate m 0 ++ rest) =
      (pre ++ t ++ List.replicate m 0) ++ 0 :: rest := by
  rw [← List.cons_append, ← List.replicate_succ, List.replicate_succ']
  simp

theorem length_next (pre t : Bytes) (m : Nat) :
    pre.length + (t.length + m) + 1 = (pre ++ t ++ 0 :: List.replicate m 0).length := by
  simp only [List.length_append, List.length_cons, List.length_replicate]
  omega

theorem length_last (pre t : Bytes) (m : Nat) :
    pre.length + (t.length + m) = (pre ++ t ++ List.replicate m 0).length := by
  simp only [List.length_append, List.length_replicate]
  omega

theorem labelOf_drop (ht : t ≠ []) (m : Nat) :
    labelOf ((pre ++ t ++ List.replicate m 0 ++ 10 :: rest).drop (pre.length + 1)) =
      labelOf t.tail := by
  obtain ⟨c, t, rfl⟩ := List.exists_cons_of_ne_nil ht
  have hdrop : (pre ++ c :: t ++ List.replicate m 0 ++ 10 :: rest).drop (pre.length + 1) =
      t ++ (List.replicate m 0 ++ 10 :: rest) := by
    rw [← List.drop_drop, List.append_assoc, List.append_assoc, List.drop_left]
    rfl
  rw [hdrop]
  cases m with
  | zero => exact labelOf_stop rfl
  | succ m => exact labelOf_stop rfl

variable {offs : List Nat} {m : Nat}

/-- A branch from a line that was cut. -/
theorem Follows.branch {i : Nat} {missing flag99 : Bool}
    (h : ∀ ls', ls' <:+ ls → Follows answers counted turns ls') (ht : t ≠ [])
    (htaken : (missing || flag99) = true) (hls : ∀ l ∈ ls, (10 : Byte) ∉ l)
    (hfuel : (textOf ls).length ≤ fuel) (hstored : List.Forall₂ (Stored pre) offs recips)
    (hroom : offs.length + ls.countP counts ≤ counted) :
    proceed answers counted fuel (branch
        ⟨pre ++ t ++ 0 :: (List.replicate m 0 ++ textOf ls), i,
          pre.length + (t.length + m), offs, flag99, only, n⟩ (pre.length + 1) missing) =
      (interpret answers starts turns false only n recips
        (behind starts (labelOf t.tail) ls)).after
          [.goto (textOf (behind starts (labelOf t.tail) ls)).length] := by
  refine proceed_branch (h _ (behind_suffix _ _ _)) (text_last pre t (textOf ls) m)
    (length_last pre t m) htaken hls (labelOf_drop ht m) hfuel (hstored.imp fun _ _ ha => ?_) hroom
  refine ha.mono ?_
  rw [List.append_assoc]
  exact List.prefix_append _ _

theorem read_label {label : Bytes} {prog : Option Bytes} (h : read t = .branch label prog) :
    t ≠ [] ∧ labelOf t.tail = label := by
  rw [read] at h
  dsimp only at h
  split_ifs at h with h0
  all_goals first
    | exact absurd h Instruction.noConfusion
    | injection h with hlabel _
      exact ⟨fun hnil => h0 (by rw [hnil]; rfl), hlabel⟩

/-- A program in front of which a blank was cut off. -/
theorem read_branch {label prog : Bytes} (htrim : t.rdropWhile isBlank = t)
    (h : read t = .branch label (some prog)) :
    ∃ t', t' ≠ [] ∧ t'.length = t.length ∧ labelOf t'.tail = label ∧
      ∀ pre z : Bytes, (pre ++ t ++ z).set
        (pre.length + 1 + (t.tail.takeWhile fun b => !isBlank b).length) 0 = pre ++ t' ++ z := by
  obtain ⟨ht, hlabel⟩ := read_label h
  have hprog : (t.tail.dropWhile fun b => !isBlank b) ≠ [] := fun hnil => by
    rw [read, hnil] at h
    dsimp only at h
    split_ifs at h <;> simp_all
  obtain ⟨b, v, hb, -, htail⟩ := (branch_program ht htrim).resolve_left hprog
  obtain ⟨c, t, rfl⟩ := List.exists_cons_of_ne_nil ht
  rw [List.tail_cons] at htail hlabel ⊢
  generalize t.takeWhile (fun b => !isBlank b) = w at htail ⊢
  subst htail
  have hstop : isStop b = true := by
    rw [isBlank, Bool.or_eq_true] at hb
    rcases hb with hb | hb
    · rw [eq_of_beq hb]; rfl
    · rw [eq_of_beq hb]; rfl
  refine ⟨c :: (w ++ 0 :: v), List.cons_ne_nil _ _, by simp, ?_, fun pre z => ?_⟩
  · rw [← hlabel, List.tail_cons, labelOf_stop rfl, labelOf_stop hstop]
  · have hpos : pre.length + 1 + w.length = (pre ++ c :: w).length := by
      rw [List.length_append, List.length_cons]
      omega
    have hlist : pre ++ c :: (w ++ b :: v) ++ z = (pre ++ c :: w) ++ b :: (v ++ z) := by simp
    rw [hlist, hpos, set_middle]
    simp

/-- **One line** of the text. -/
theorem Follows.step (ht : t = l.rdropWhile isBlank)
    (hls : ∀ l ∈ ls, (10 : Byte) ∉ l)
    (h : ∀ ls', ls' <:+ ls → Follows answers counted turns ls')
    (hfuel : (textOf ls).length ≤ fuel) (hstored : List.Forall₂ (Stored pre) offs recips)
    (hroom : offs.length + (l :: ls).countP counts ≤ counted) :
    proceed answers counted fuel (command answers counted (pre.length + t.length)
        ⟨pre ++ t ++ 0 :: (List.replicate m 0 ++ textOf ls), pre.length,
          pre.length + (t.length + m), offs, false, only, n⟩) =
      interpret answers starts (turns + 1) (decide (pre = [])) only n recips (l :: ls) := by
  have htrim : t.rdropWhile isBlank = t := by rw [ht, List.rdropWhile_idempotent]
  have hnext := fun t => text_next pre t (textOf ls) m
  have hpos := fun t => length_next pre t m
  have hkept : ∀ t, List.Forall₂ (Stored (pre ++ t ++ 0 :: List.replicate m 0)) offs recips := by
    intro t
    refine hstored.imp fun _ _ ha => ha.mono ?_
    rw [List.append_assoc]
    exact List.prefix_append _ _
  have hrest : offs.length + ls.countP counts ≤ counted :=
    (Nat.add_le_add_left ((List.sublist_cons_self l ls).countP_le) _).trans hroom
  have hfollows := h ls List.suffix_rfl
  rw [command_eq rfl rfl htrim, interpret, ← ht]
  dsimp only
  by_cases hguard : (only && (read t).guarded) = true
  · rw [if_pos hguard, if_pos hguard]
    rfl
  rw [if_neg hguard, if_neg hguard]
  cases hread : read t with
  | blank =>
      dsimp only
      by_cases hnil : pre = []
      · rw [if_neg (by rw [hnil]; exact fun h => h rfl), if_pos (by rw [hnil]; rfl)]
        rfl
      · rw [if_pos fun h => hnil (List.length_eq_zero_iff.mp h), if_neg (by simpa using hnil)]
        exact proceed_goes hfollows (hnext t) (hpos t) rfl hfuel (hkept t) hrest
  | nothing =>
      exact proceed_goes hfollows (hnext t) (hpos t) rfl hfuel (hkept t) hrest
  | forwardOnly =>
      exact proceed_goes hfollows (hnext t) (hpos t) rfl hfuel (hkept t) hrest
  | forward a =>
      obtain ⟨hne, hspecial, ha⟩ := read_forward hread
      have hcounted : counts l = true := counts_trim (by rwa [← ht]) (by rwa [← ht])
      rw [List.countP_cons_of_pos hcounted] at hroom
      have hnew : Stored (pre ++ t ++ 0 :: List.replicate m 0)
          (if t.headD 0 = 38 then pre.length + 1 else pre.length) a := by
        split_ifs at ha ⊢ with h38
        · obtain ⟨c, t, rfl⟩ := List.exists_cons_of_ne_nil hne
          have := stored_cstr (pre ++ [c]) t (List.replicate m 0)
          rw [List.length_append, List.length_singleton] at this
          rw [ha]
          simpa using this
        · rw [ha]
          exact stored_cstr pre t _
      dsimp only
      rw [if_pos (show offs.length < counted by omega)]
      refine proceed_goes hfollows (hnext t) (hpos t) rfl hfuel
        (List.rel_append (hkept t) (.cons hnew .nil)) ?_
      rw [List.length_append, List.length_singleton]
      omega
  | call e =>
      dsimp only
      rw [call]
      dsimp only
      cases e.next (answers n) with
      | goOn => exact proceed_goes hfollows (hnext t) (hpos t) rfl hfuel (hkept t) hrest
      | flag99 =>
          dsimp only
          rw [proceed, if_pos rfl, hnext t, forwards_eq (hkept t)]
      | dies code => rfl
  | branch label prog =>
      cases prog with
      | none =>
          obtain ⟨hne, rfl⟩ := read_label hread
          exact Follows.branch h hne rfl hls hfuel hstored hrest
      | some prog =>
          obtain ⟨t', hne, hlen, rfl, hset⟩ := read_branch htrim hread
          dsimp only
          rw [hset, call]
          dsimp only [Event.next]
          cases exitcode (answers n) with
          | goOn =>
              exact proceed_goes hfollows (hnext t') (by rw [← hlen]; exact hpos t') rfl hfuel (hkept t')
                hrest
          | flag99 =>
              dsimp only
              rw [proceed_append, ← hlen, Follows.branch h hne rfl hls hfuel hstored hrest]
          | dies code => rfl

/-- The loop is at the end of the text. -/
theorem Follows.nil : Follows answers counted turns [] := by
  intro pre fuel offs recips only n _ hstored _
  have hend : loop answers counted fuel
      ⟨pre ++ textOf [], pre.length, pre.length, offs, false, only, n⟩ = ⟨[], .forwards recips⟩ := by
    cases fuel with
    | zero => rw [loop, forwards_eq hstored]
    | succ fuel =>
        have hlt : ¬ pre.length < (pre ++ textOf []).length := by simp [textOf]
        rw [loop, if_neg hlt, forwards_eq hstored]
  rw [hend]
  cases turns <;> rfl

/-- **The lines** of the text. -/
theorem follows (hls : ∀ l ∈ ls, (10 : Byte) ∉ l) (hturns : ls.length ≤ turns) :
    Follows answers counted turns ls := by
  induction turns generalizing ls with
  | zero =>
      rw [List.length_eq_zero_iff.mp (Nat.le_zero.mp hturns)]
      exact Follows.nil
  | succ turns ih =>
      cases ls with
      | nil => exact Follows.nil
      | cons l ls =>
          intro pre fuel offs recips only n hfuel hstored hroom
          have hls' := fun x hx => hls x (List.mem_cons_of_mem l hx)
          have hle := (List.rdropWhile_prefix isBlank l).length_le
          rw [textOf_cons, List.length_append, List.length_cons] at hfuel
          rw [loop_line (hls l List.mem_cons_self) (by omega)]
          have hstep := @Follows.step answers counted turns n only pre l (l.rdropWhile isBlank) ls
            (fuel - (l.length + 1)) recips offs (l.length - (l.rdropWhile isBlank).length) rfl hls'
            (fun ls' hsuffix => ih (fun x hx => hls' x (hsuffix.subset hx))
              (hsuffix.length_le.trans (Nat.le_of_succ_le_succ hturns)))
            (by omega) hstored hroom
          rwa [Nat.add_sub_cancel' hle] at hstep

end

/-! ## The whole text -/

/-- The text that is left for the interpreter ends with a newline. -/
theorem prepare_lines (text aliasempty : Bytes) (cutable : Bool) :
    textOf (fields 10 (prepare text aliasempty cutable).1) =
      (prepare text aliasempty cutable).1 := by
  have hline : ∀ s : Bytes, textOf (fields 10 (s ++ [10])) = s ++ [10] := flatMap_fields
  rw [prepare]
  dsimp only
  generalize (if text = [] then (aliasempty, false) else (text, cutable)).1 = s
  split_ifs with hlast
  · obtain ⟨s', rfl⟩ := List.getLast?_eq_some_iff.mp hlast
    exact hline s'
  · exact hline s

/-- **The code** is the interpreter that takes the first label with which the one it looks for
begins. -/
theorem qmail_local_eq (answers : Nat → Option Nat) (text aliasempty : Bytes) (cutable : Bool) :
    qmail_local answers text aliasempty cutable =
      interpret answers starts (fields 10 (prepare text aliasempty cutable).1).length true
        (prepare text aliasempty cutable).2 0 []
          (fields 10 (prepare text aliasempty cutable).1) := by
  rw [qmail_local]
  have htext := prepare_lines text aliasempty cutable
  generalize (prepare text aliasempty cutable).1 = cmds at htext ⊢
  have hls : ∀ l ∈ fields 10 cmds, (10 : Byte) ∉ l := fun l hl => notMem_of_mem_fields hl
  have hcount := @countLoop_eq (textOf (fields 10 cmds)).length 0 [] (fields 10 cmds) hls rfl
  have hloop := @follows answers (countLoop cmds cmds.length 0 0 0) (fields 10 cmds).length
    (fields 10 cmds) hls le_rfl [] cmds.length [] [] (prepare text aliasempty cutable).2 0
  rw [List.nil_append, htext, Nat.zero_add] at hcount
  rw [List.nil_append, htext] at hloop
  refine (hloop le_rfl .nil ?_).trans rfl
  rw [List.length_nil, Nat.zero_add]
  exact hcount.ge

end IndimailMta.Local
