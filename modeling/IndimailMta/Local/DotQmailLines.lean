import IndimailMta.Lib.Lines
import IndimailMta.Local.DotQmail

/-!
# A `.qmail` file is executed as it is written

The loops over the text come to what the reference reads off its lines, but for one thing: a label is
compared as far as the line goes that has it. So the branch goes on behind the first label that the
one it looks for begins with.
-/

namespace IndimailMta.Local

open IndimailMta Lines

/-! ## Loops over the text -/

section
variable {pre w rest l t u s : Bytes} {turns stop i j k : Nat} {x : Byte} {p : Byte → Bool}

/-- A loop goes over bytes without the property, up to one that has it, or to its end. -/
theorem seek_eq (hw : ∀ b ∈ w, p b = false) (hturns : w.length < turns)
    (hend : (stop = pre.length + w.length) ∨
      ∃ x r, rest = x :: r ∧ p x = true ∧ pre.length + w.length < stop) :
    seek p (pre ++ w ++ rest) stop turns pre.length = pre.length + w.length := by
  induction w generalizing pre turns with
  | nil =>
      obtain ⟨turns, rfl⟩ : ∃ n, turns = n + 1 := ⟨turns - 1, by omega⟩
      rw [seek, List.append_nil]
      rcases hend with rfl | ⟨x, r, rfl, hx, hlt⟩
      · rw [if_neg (by simp)]
        rfl
      · rw [if_pos (show pre.length < stop from hlt), getD_middle, if_pos hx]
        rfl
  | cons b w ih =>
      obtain ⟨turns, rfl⟩ : ∃ n, turns = n + 1 := ⟨turns - 1, by omega⟩
      have hb : p b = false := hw b List.mem_cons_self
      have hlt : pre.length < stop := by
        rcases hend with rfl | ⟨x, r, -, -, hlt⟩
        · rw [List.length_cons]
          omega
        · rw [List.length_cons] at hlt
          omega
      have hget : (pre ++ b :: w ++ rest).getD pre.length 0 = b := by
        rw [List.append_assoc, List.cons_append, getD_middle]
      have hih := @ih (pre ++ [b]) turns (fun y hy => hw y (List.mem_cons_of_mem _ hy))
        (Nat.lt_of_succ_lt_succ hturns) (by
          simp only [List.length_append, List.length_cons, List.length_nil] at hend ⊢
          rcases hend with h | ⟨x, r, h1, h2, h3⟩
          · exact .inl (by omega)
          · exact .inr ⟨x, r, h1, h2, by omega⟩)
      rw [seek, if_pos hlt, hget, hb, if_neg Bool.false_ne_true]
      simp only [List.append_assoc, List.nil_append, List.length_append, List.length_singleton,
        List.cons_append] at hih ⊢
      rw [hih, List.length_cons]
      omega

/-- Trailing blanks are overwritten. -/
theorem trim_eq (pre l rest : Bytes) :
    trim pre.length (pre.length + l.length) (pre ++ l ++ rest) =
      (pre.length + (l.rdropWhile isBlank).length,
        pre ++ l.rdropWhile isBlank ++
          (List.replicate (l.length - (l.rdropWhile isBlank).length) 0 ++ rest)) := by
  induction l using List.reverseRecOn generalizing rest with
  | nil =>
      have h : trim pre.length pre.length (pre ++ rest) = (pre.length, pre ++ rest) := by
        cases hpre : pre.length with
        | zero => rfl
        | succ n => rw [trim, if_neg fun h => absurd h.1 (Nat.lt_irrefl _)]
      simpa using h
  | append_singleton l b ih =>
      have hlen : pre.length + (l ++ [b]).length = pre.length + l.length + 1 := by
        rw [List.length_append, List.length_singleton, Nat.add_assoc]
      have hmid : pre ++ (l ++ [b]) ++ rest = (pre ++ l) ++ b :: rest := by simp
      have hget : ((pre ++ l) ++ b :: rest).getD (pre.length + l.length) 0 = b := by
        rw [← List.length_append, getD_middle]
      rw [hlen, hmid, trim, hget]
      by_cases hb : isBlank b = true
      · have hb' : b = 32 ∨ b = 9 := by simpa [isBlank] using hb
        have hset : ((pre ++ l) ++ b :: rest).set (pre.length + l.length) 0 =
            pre ++ l ++ 0 :: rest := by
          rw [← List.length_append, set_middle]
        have hle : (l.rdropWhile isBlank).length ≤ l.length :=
          (List.rdropWhile_prefix isBlank l).length_le
        rw [if_pos ⟨by omega, hb'⟩, hset, ih (0 :: rest), List.rdropWhile_concat_pos _ _ _ hb,
          List.length_append, List.length_singleton, Nat.sub_add_comm hle, List.replicate_succ']
        simp
      · have hb' : ¬ (b = 32 ∨ b = 9) := by simpa [isBlank] using hb
        rw [if_neg fun h => hb' h.2, List.rdropWhile_concat_neg _ _ _ hb]
        simp
        omega

/-- Two texts are equal up to a length, if the second has no NUL there. -/
theorem equaln_eq (hu : 0 ∉ u) (s t : Bytes) :
    equaln u.length s (u ++ t) = decide (u <+: s) := by
  induction u generalizing s with
  | nil => simp [equaln]
  | cons b u ih =>
      have hb : b ≠ 0 := fun h => hu (by rw [h]; exact List.mem_cons_self)
      rw [List.length_cons, List.cons_append, equaln, List.headD_cons, List.tail_cons]
      cases s with
      | nil =>
          rw [List.headD_nil, if_neg (Ne.symm hb)]
          simp
      | cons c s =>
          rw [List.headD_cons, List.tail_cons]
          by_cases hc : c = b
          · rw [if_pos hc, if_neg (by rw [hc]; exact hb), ih fun h => hu (List.mem_cons_of_mem _ h)]
            simp [List.cons_prefix_cons, hc]
          · rw [if_neg hc]
            simp [List.cons_prefix_cons, Ne.symm hc]

theorem textOf_cons (l : Bytes) (ls : List Bytes) : textOf (l :: ls) = l ++ 10 :: textOf ls := by
  rw [textOf, List.flatMap_cons, List.append_assoc]
  rfl

/-- The search for a label goes over what is left of a line. -/
theorem findLabel_skip (hw : 10 ∉ w) (hturns : w.length ≤ turns) :
    findLabel (pre ++ w ++ 10 :: rest) i turns pre.length =
      findLabel (pre ++ w ++ 10 :: rest) i (turns - w.length) (pre.length + w.length) := by
  induction w generalizing pre turns with
  | nil => rfl
  | cons b w ih =>
      obtain ⟨turns, rfl⟩ : ∃ n, turns = n + 1 := ⟨turns - 1, by
        rw [List.length_cons] at hturns
        omega⟩
      have hb : b ≠ 10 := fun h => hw (by rw [h]; exact List.mem_cons_self)
      have hget : (pre ++ b :: w ++ 10 :: rest).getD pre.length 0 = b := by
        rw [List.append_assoc, List.cons_append, getD_middle]
      have hlt : pre.length + 1 < (pre ++ b :: w ++ 10 :: rest).length := by
        simp only [List.length_append, List.length_cons]
        omega
      have hih := @ih (pre ++ [b]) turns (fun h => hw (List.mem_cons_of_mem _ h))
        (Nat.le_of_succ_le_succ hturns)
      rw [findLabel, if_pos hlt, hget, if_neg fun h => hb h.1]
      simp only [List.append_assoc, List.nil_append, List.length_append, List.length_singleton,
        List.cons_append] at hih ⊢
      rw [hih, List.length_cons, Nat.add_sub_add_right]
      congr 1
      omega

/-- A label that is as long as the line goes that has it. -/
def starts (found label : Bytes) : Bool := decide (found <+: label)

def isStop (b : Byte) : Bool := b == 0 || b == 9 || b == 10 || b == 32

theorem labelOf_stops {m : Bytes} {b : Byte} (hb : b ∈ labelOf m) : isStop b = false := by
  have := List.mem_takeWhile_imp hb
  simpa [isStop] using this

theorem labelOf_append (m : Bytes) : ∃ r, m = labelOf m ++ r ∧ ∀ x ∈ r.head?, isStop x = true := by
  refine ⟨m.dropWhile fun b => !isStop b, (List.takeWhile_append_dropWhile).symm, fun x hx => ?_⟩
  have := List.head?_dropWhile_not (fun b => !isStop b) m
  rw [Option.mem_def.mp hx] at this
  simpa using this

/-- The search at the newline in front of a line with a label: it ends at the newline of that line,
or goes on there. -/
theorem findLabel_label {m cmds : Bytes} (hm : (10 : Byte) ∉ m)
    (hcmds : cmds = pre ++ 10 :: (58 :: m ++ 10 :: rest)) (hturns : m.length ≤ turns) :
    ∃ turns', turns - m.length ≤ turns' ∧ findLabel cmds i (turns + 1) pre.length =
      if labelOf m <+: cmds.drop i then pre.length + 1 + (m.length + 1)
      else findLabel cmds i turns' (pre.length + 1 + (m.length + 1)) := by
  obtain ⟨r, hr, hstop⟩ := labelOf_append m
  have hr10 : (10 : Byte) ∉ r := fun h => hm (hr ▸ List.mem_append_right _ h)
  have hmlen : m.length = (labelOf m).length + r.length := by
    conv_lhs => rw [hr, List.length_append]
  have hpos : pre.length + 2 = (pre ++ [10, 58]).length := by simp
  have hpos' : pre.length + 2 + (labelOf m).length = (pre ++ [10, 58] ++ labelOf m).length := by
    rw [List.length_append, ← hpos]
  have hcut : cmds = (pre ++ [10, 58]) ++ labelOf m ++ (r ++ 10 :: rest) := by
    rw [hcmds]
    conv_lhs => rw [hr]
    simp
  have hlen : cmds.length = pre.length + 2 + (labelOf m).length + (r.length + 1 + rest.length) := by
    rw [hcut, List.length_append, ← hpos', List.length_append, List.length_cons]
    omega
  have hget : cmds.getD pre.length 0 = 10 := by
    rw [hcmds]
    exact getD_middle _ _ _
  have hget' : cmds.getD (pre.length + 1) 0 = 58 := by
    have hmid := getD_middle (pre ++ [10]) (m ++ 10 :: rest) 58
    rw [List.length_append, List.length_singleton] at hmid
    rw [hcmds, ← hmid]
    simp
  -- the label, and how it compares
  have hseek : seek (fun b => b == 0 || b == 9 || b == 10 || b == 32) cmds cmds.length cmds.length
      (pre.length + 2) = pre.length + 2 + (labelOf m).length := by
    have hend : ∃ x s, r ++ 10 :: rest = x :: s ∧ isStop x = true ∧
        (pre ++ [10, 58]).length + (labelOf m).length < cmds.length := by
      rw [← hpos, hlen]
      cases r with
      | nil => exact ⟨10, rest, rfl, rfl, by omega⟩
      | cons x r => exact ⟨x, r ++ 10 :: rest, rfl, hstop x rfl, by omega⟩
    have h := @seek_eq (pre ++ [10, 58]) (labelOf m) (r ++ 10 :: rest) cmds.length cmds.length
      isStop (fun b hb => labelOf_stops hb) (by omega) (.inr hend)
    rw [← hcut, ← hpos] at h
    exact h
  have hdrop : cmds.drop (pre.length + 2) = labelOf m ++ (r ++ 10 :: rest) := by
    rw [hpos, hcut, List.append_assoc, List.drop_left]
  have hequal : equaln (labelOf m).length (cmds.drop i) (labelOf m ++ (r ++ 10 :: rest)) =
      decide (labelOf m <+: cmds.drop i) :=
    equaln_eq (fun h0 => absurd (labelOf_stops h0) (by decide)) _ _
  refine ⟨turns - r.length, by omega, ?_⟩
  rw [findLabel, if_pos (by omega), if_pos ⟨hget, hget'⟩]
  dsimp only
  rw [hseek, Nat.add_sub_cancel_left, hdrop, hequal]
  rw [← List.append_assoc] at hcut
  by_cases hstarts : labelOf m <+: cmds.drop i
  · rw [if_pos (decide_eq_true hstarts), if_pos hstarts]
    have hnl := @seek_eq (pre ++ [10, 58] ++ labelOf m) r (10 :: rest) cmds.length cmds.length
      (· == 10) (fun b hb => beq_eq_false_iff_ne.mpr fun h => hr10 (h ▸ hb)) (by omega)
      (.inr ⟨10, rest, rfl, rfl, by omega⟩)
    rw [← hcut, ← hpos'] at hnl
    rw [hnl]
    omega
  · rw [if_neg (by simpa using hstarts), if_neg hstarts]
    have hskip := @findLabel_skip (pre ++ [10, 58] ++ labelOf m) r rest turns i hr10 (by omega)
    rw [← hcut, ← hpos'] at hskip
    have hback : pre.length + 2 + (labelOf m).length - 1 + 1 =
        pre.length + 2 + (labelOf m).length := by omega
    rw [hback, hskip]
    congr 1
    omega

/-- The search at the newline in front of another line goes on at the newline of that line. -/
theorem findLabel_other {l cmds : Bytes} (hl : (10 : Byte) ∉ l) (hcolon : l.head? ≠ some 58)
    (hcmds : cmds = pre ++ 10 :: (l ++ 10 :: rest)) (hturns : l.length ≤ turns) :
    findLabel cmds i (turns + 1) pre.length =
      findLabel cmds i (turns - l.length) (pre.length + 1 + l.length) := by
  have hpos : pre.length + 1 = (pre ++ [10]).length := by simp
  have hcut : cmds = (pre ++ [10]) ++ l ++ 10 :: rest := by simp [hcmds]
  have hget : cmds.getD (pre.length + 1) 0 ≠ 58 := by
    rw [hcut, hpos, List.append_assoc]
    cases l with
    | nil =>
        rw [List.nil_append, getD_middle]
        decide
    | cons b m =>
        rw [List.cons_append, getD_middle]
        exact fun hb => hcolon (by rw [hb]; rfl)
  have hskip := @findLabel_skip (pre ++ [10]) l rest turns i hl hturns
  rw [← hcut, ← hpos] at hskip
  rw [findLabel, if_pos, if_neg fun h => hget h.2, hskip]
  rw [hcut, List.length_append, List.length_append, ← hpos, List.length_cons]
  omega

/-- **The search for a label** ends at the newline of the line that has it, or at the last one. -/
theorem findLabel_eq {label : Bytes} {ls : List Bytes} (hls : ∀ l ∈ ls, (10 : Byte) ∉ l)
    (hagree : ∀ m : Bytes, (∀ b ∈ m, isStop b = false) →
      (m <+: (pre ++ 10 :: textOf ls).drop i ↔ m <+: label))
    (hturns : (pre ++ 10 :: textOf ls).length ≤ turns + pre.length) :
    ∃ q, findLabel (pre ++ 10 :: textOf ls) i turns pre.length + 1 = q.length ∧
      pre ++ 10 :: textOf ls = q ++ textOf (behind starts label ls) ∧ pre ++ [10] <+: q := by
  induction ls generalizing pre turns with
  | nil =>
      have hlen : (pre ++ 10 :: textOf []).length = pre.length + 1 := by
        rw [List.length_append]
        rfl
      obtain ⟨turns, rfl⟩ : ∃ n, turns = n + 1 := ⟨turns - 1, by omega⟩
      refine ⟨pre ++ [10], ?_, ?_, List.prefix_rfl⟩
      · rw [findLabel, if_neg (by rw [hlen]; exact Nat.lt_irrefl _), List.length_append,
          List.length_singleton]
      · rw [behind, List.append_assoc]
        rfl
  | cons l ls ih =>
      have hl := hls l List.mem_cons_self
      have hlen : (pre ++ 10 :: textOf (l :: ls)).length =
          pre.length + 1 + (l.length + 1 + (textOf ls).length) := by
        rw [textOf_cons]
        simp only [List.length_append, List.length_cons]
        omega
      obtain ⟨turns, rfl⟩ : ∃ n, turns = n + 1 := ⟨turns - 1, by omega⟩
      -- the lines behind this one
      have hnext : ∀ turns', (textOf ls).length + 1 ≤ turns' →
          ∃ q, findLabel (pre ++ 10 :: textOf (l :: ls)) i turns' (pre.length + 1 + l.length) + 1 =
              q.length ∧
            pre ++ 10 :: textOf (l :: ls) = q ++ textOf (behind starts label ls) ∧
              pre ++ [10] <+: q := by
        intro turns' hturns'
        have heq : pre ++ 10 :: textOf (l :: ls) = (pre ++ 10 :: l) ++ 10 :: textOf ls := by
          rw [textOf_cons, List.append_assoc, List.cons_append]
        have hpos : pre.length + 1 + l.length = (pre ++ 10 :: l).length := by
          rw [List.length_append, List.length_cons]
          omega
        obtain ⟨q, h1, h2, h3⟩ := @ih (pre ++ 10 :: l) turns'
          (fun x hx => hls x (List.mem_cons_of_mem _ hx))
          (fun m hm => by rw [← heq]; exact hagree m hm)
          (by rw [List.length_append, List.length_cons]; omega)
        rw [heq, hpos]
        refine ⟨q, h1, h2, List.IsPrefix.trans ?_ h3⟩
        rw [List.append_assoc, List.cons_append]
        exact (List.prefix_append_right_inj pre).mpr ⟨l ++ [10], rfl⟩
      have hcmds : pre ++ 10 :: textOf (l :: ls) = pre ++ 10 :: (l ++ 10 :: textOf ls) := by
        rw [textOf_cons]
      rw [behind]
      by_cases hcolon : l.head? = some 58
      · obtain ⟨m, rfl⟩ : ∃ m, l = 58 :: m := ⟨l.tail, (List.cons_head?_tail hcolon).symm⟩
        have hm : (10 : Byte) ∉ m := fun h => hl (List.mem_cons_of_mem _ h)
        rw [List.length_cons] at hlen
        obtain ⟨turns', hturns', hfind⟩ := @findLabel_label pre (textOf ls) turns i m _ hm hcmds
          (by omega)
        have hstarts : labelOf m <+: (pre ++ 10 :: textOf ((58 :: m) :: ls)).drop i ↔
            starts (labelOf m) label = true := by
          rw [hagree _ fun b hb => labelOf_stops hb, starts, decide_eq_true_iff]
        rw [hfind]
        by_cases h : starts (labelOf m) label = true
        · rw [if_pos (hstarts.mpr h), if_pos ⟨rfl, h⟩]
          refine ⟨pre ++ 10 :: (58 :: m) ++ [10], ?_, ?_, ?_⟩
          · simp only [List.length_append, List.length_cons, List.length_nil]
            omega
          · rw [textOf_cons]
            simp
          · rw [List.append_assoc]
            exact (List.prefix_append_right_inj pre).mpr ⟨58 :: m ++ [10], rfl⟩
        · rw [if_neg fun hs => h (hstarts.mp hs), if_neg fun hs => h hs.2]
          exact hnext turns' (by omega)
      · rw [findLabel_other hl hcolon hcmds (by omega), if_neg fun h => hcolon h.1]
        exact hnext _ (by omega)

end

/-! ## One line -/

section
variable {pre t z : Bytes} {r : Run} {answers : Nat → Option Nat} {counted : Nat}

theorem cstr_zero (t z : Bytes) : cstr (t ++ 0 :: z) = cstr t := by
  induction t with
  | nil => rfl
  | cons b t ih =>
      rw [List.cons_append, cstr, cstr]
      by_cases hb : b = 0
      · rw [hb]
        rfl
      · rw [List.takeWhile_cons_of_pos (by simpa using hb),
          List.takeWhile_cons_of_pos (by simpa using hb)]
        exact congrArg (b :: ·) ih

theorem getD_head (pre t z : Bytes) : (pre ++ t ++ 0 :: z).getD pre.length 0 = t.headD 0 := by
  cases t with
  | nil => rw [List.append_nil, getD_middle]; rfl
  | cons c t => rw [List.append_assoc, List.cons_append, getD_middle]; rfl

theorem drop_tail (pre t z : Bytes) (ht : t ≠ []) :
    (pre ++ t ++ 0 :: z).drop (pre.length + 1) = t.tail ++ 0 :: z := by
  obtain ⟨c, t, rfl⟩ := List.exists_cons_of_ne_nil ht
  rw [← List.drop_drop, List.append_assoc, List.drop_left]
  rfl

theorem getD_last (pre t z : Bytes) (ht : t ≠ []) :
    (pre ++ t ++ 0 :: z).getD (pre.length + t.length - 1) 0 = 47 ↔ t.getLast? = some 47 := by
  obtain ⟨s, b, rfl⟩ := (List.eq_nil_or_concat' t).resolve_left ht
  have hpos : pre.length + (s ++ [b]).length - 1 = (pre ++ s).length := by
    rw [List.length_append, List.length_append, List.length_singleton]
    omega
  have hlist : pre ++ (s ++ [b]) ++ 0 :: z = pre ++ s ++ b :: 0 :: z := by simp
  rw [hpos, hlist, getD_middle, List.getLast?_concat, Option.some_inj]

/-- The argument of a branch. -/
theorem branch_program (ht : t ≠ []) (htrim : t.rdropWhile isBlank = t) :
    (t.tail.dropWhile fun b => !isBlank b) = [] ∨
      ∃ b v, isBlank b = true ∧ v.dropWhile isBlank ≠ [] ∧
        t.tail = t.tail.takeWhile (fun b => !isBlank b) ++ b :: v := by
  cases hdrop : t.tail.dropWhile fun b => !isBlank b with
  | nil => exact .inl rfl
  | cons b v =>
      refine .inr ⟨b, v, ?_, fun hv => ?_, ?_⟩
      · have := List.head?_dropWhile_not (fun b => !isBlank b) t.tail
        rw [hdrop] at this
        simpa using this
      · have hb : isBlank b = true := by
          have := List.head?_dropWhile_not (fun b => !isBlank b) t.tail
          rw [hdrop] at this
          simpa using this
        have hall : ∀ x ∈ b :: v, isBlank x = true :=
          List.forall_mem_cons.mpr ⟨hb, List.dropWhile_eq_nil_iff.mp hv⟩
        have hsuffix : b :: v <:+ t := by
          rw [← hdrop]
          exact (List.dropWhile_suffix _).trans (List.tail_suffix t)
        obtain ⟨w, hw⟩ := hsuffix
        have hlast := List.rdropWhile_eq_self_iff.mp htrim ht
        have hmem : t.getLast ht ∈ b :: v := by
          have : t.getLast? = (b :: v).getLast? := by
            rw [← hw, List.getLast?_append_of_ne_nil _ (List.cons_ne_nil _ _)]
          rw [List.getLast?_eq_some_getLast ht,
            List.getLast?_eq_some_getLast (List.cons_ne_nil b v)] at this
          rw [Option.some.inj this]
          exact List.getLast_mem _
        exact hlast (hall _ hmem)
      · rw [← hdrop, List.takeWhile_append_dropWhile]

/-- Where the first blank behind a `?` is. -/
theorem seek_blank (hcmds : r.cmds = pre ++ t ++ 0 :: z) (ht : t ≠ []) :
    seek isBlank r.cmds (pre.length + t.length) r.cmds.length (pre.length + 1) =
      pre.length + 1 + (t.tail.takeWhile fun b => !isBlank b).length := by
  obtain ⟨c, t, rfl⟩ := List.exists_cons_of_ne_nil ht
  have hsplit := (List.takeWhile_append_dropWhile (p := fun b => !isBlank b) (l := t)).symm
  have hlist : r.cmds = (pre ++ [c]) ++ t.takeWhile (fun b => !isBlank b) ++
      ((t.dropWhile fun b => !isBlank b) ++ 0 :: z) := by
    rw [hcmds]
    simp only [List.append_assoc, List.cons_append, List.nil_append]
    rw [← List.append_assoc (List.takeWhile _ t), ← hsplit]
  have hlen : (c :: t).length = 1 + ((t.takeWhile fun b => !isBlank b).length +
      (t.dropWhile fun b => !isBlank b).length) := by
    rw [← List.length_append, ← hsplit, List.length_cons, Nat.add_comm]
  have hpos : pre.length + 1 = (pre ++ [c]).length := by simp
  have htotal : r.cmds.length = pre.length + (c :: t).length + 1 + z.length := by
    rw [hcmds]
    simp only [List.length_append, List.length_cons]
    omega
  rw [List.tail_cons, hlist, hpos]
  refine seek_eq (fun b hb => ?_) ?_ ?_
  · simpa using List.mem_takeWhile_imp hb
  · rw [← hlist, htotal]
    omega
  · rw [← hpos]
    cases hdrop : t.dropWhile fun b => !isBlank b with
    | nil =>
        rw [hdrop, List.length_nil] at hlen
        exact .inl (by omega)
    | cons b v =>
        have hpositive : (b :: v).length = v.length + 1 := rfl
        rw [hdrop] at hlen
        have hb := List.head?_dropWhile_not (fun b => !isBlank b) t
        rw [hdrop] at hb
        exact .inr ⟨b, v ++ 0 :: z, rfl, by simpa using hb, by omega⟩

/-- Where the program behind a label is. -/
theorem seek_program {w v : Bytes} {b c : Byte} {stop turns : Nat} (hv : v.dropWhile isBlank ≠ [])
    (hstop : stop = pre.length + 1 + w.length + 1 + v.length) (hturns : v.length < turns) :
    ∃ l < stop, seek (fun b => !isBlank b)
        ((pre ++ c :: w ++ b :: v ++ 0 :: z).set (pre.length + 1 + w.length) 0) stop turns
        (pre.length + 1 + w.length + 1) = l ∧
      cstr (((pre ++ c :: w ++ b :: v ++ 0 :: z).set (pre.length + 1 + w.length) 0).drop l) =
        cstr (v.dropWhile isBlank) := by
  have hsplit := (List.takeWhile_append_dropWhile (p := isBlank) (l := v)).symm
  have hset : (pre ++ c :: w ++ b :: v ++ 0 :: z).set (pre.length + 1 + w.length) 0 =
      (pre ++ c :: w ++ [0]) ++ v.takeWhile isBlank ++ (v.dropWhile isBlank ++ 0 :: z) := by
    have hpos : pre.length + 1 + w.length = (pre ++ c :: w).length := by
      rw [List.length_append, List.length_cons]
      omega
    rw [hpos, List.append_assoc, List.cons_append, set_middle]
    simp only [List.append_assoc, List.cons_append, List.nil_append]
    rw [← List.append_assoc (List.takeWhile _ v), ← hsplit]
  have hpos : pre.length + 1 + w.length + 1 = (pre ++ c :: w ++ [0]).length := by
    simp only [List.length_append, List.length_cons, List.length_nil]
    omega
  have hlen : v.length = (v.takeWhile isBlank).length + (v.dropWhile isBlank).length := by
    rw [← List.length_append, ← hsplit]
  have hpositive := List.length_pos_of_ne_nil hv
  have hseek := @seek_eq (pre ++ c :: w ++ [0]) (v.takeWhile isBlank)
    (v.dropWhile isBlank ++ 0 :: z) turns stop (fun b => !isBlank b)
    (fun x hx => by simpa using List.mem_takeWhile_imp hx) (by omega)
    (.inr (by
      obtain ⟨x, y, hxy⟩ := List.exists_cons_of_ne_nil hv
      have hx := List.head?_dropWhile_not isBlank v
      rw [hxy] at hx
      exact ⟨x, y ++ 0 :: z, by rw [hxy]; rfl, by simpa using hx, by rw [← hpos]; omega⟩))
  refine ⟨pre.length + 1 + w.length + 1 + (v.takeWhile isBlank).length, by omega, ?_, ?_⟩
  · rw [hset, hpos, hseek]
  · rw [hset, hpos, ← List.length_append, List.drop_left, cstr_zero]

/-- **A line** is executed as it is read. -/
theorem command_eq (hcmds : r.cmds = pre ++ t ++ 0 :: z) (hi : r.i = pre.length)
    (htrim : t.rdropWhile isBlank = t) :
    command answers counted (pre.length + t.length) r =
      if r.flagforwardonly && (read t).guarded then ([], .dies 111)
      else
        match read t with
        | .blank => if r.i ≠ 0 then ([], .goes r) else ([], .dies 111)
        | .nothing => ([], .goes r)
        | .forwardOnly => ([], .goes { r with flagforwardonly := true })
        | .call e => call answers r e
        | .forward _ =>
            if r.recips.length < counted then
              ([], .goes { r with recips := r.recips ++
                [if t.headD 0 = 38 then r.i + 1 else r.i] })
            else ([], .overflows)
        | .branch _ none => branch r (r.i + 1) true
        | .branch _ (some prog) =>
            match call answers { r with
              cmds := r.cmds.set
                (pre.length + 1 + (t.tail.takeWhile fun b => !isBlank b).length) 0 }
              (.mailprogram prog) with
            | (es, .goes r) =>
                let b := branch r (pre.length + 1) false
                (es ++ b.1, b.2)
            | ended => ended := by
  by_cases ht : t = []
  · subst ht
    have hc : r.cmds.getD r.i 0 = 0 := by rw [hcmds, hi, getD_head]; rfl
    rw [command]
    dsimp only
    rw [if_pos hc]
    simp [read, Instruction.guarded]
  have hc : r.cmds.getD r.i 0 = t.headD 0 := by rw [hcmds, hi, getD_head]
  have hdrop0 : cstr (r.cmds.drop r.i) = cstr t := by
    rw [hcmds, hi, List.append_assoc, List.drop_left, cstr_zero]
  have hdrop1 : cstr (r.cmds.drop (r.i + 1)) = cstr t.tail := by
    rw [hcmds, hi, drop_tail _ _ _ ht, cstr_zero]
  have hlast : r.cmds.getD (pre.length + t.length - 1) 0 = 47 ↔ t.getLast? = some 47 := by
    rw [hcmds]
    exact getD_last _ _ _ ht
  rw [command, read]
  dsimp only
  rw [hc, hdrop0, hdrop1]
  generalize t.headD 0 = c
  by_cases h0 : c = 0
  · rw [if_pos h0, if_pos h0]
    simp [Instruction.guarded]
  rw [if_neg h0, if_neg h0]
  by_cases h37 : c = 37
  · rw [if_pos h37, if_pos h37]
    simp [Instruction.guarded]
  rw [if_neg h37, if_neg h37]
  by_cases h35 : c = 35 ∨ c = 58
  · rw [if_pos h35, if_pos h35]
    simp [Instruction.guarded]
  rw [if_neg h35, if_neg h35]
  by_cases h46 : c = 46 ∨ c = 47
  · rw [if_pos h46, if_pos h46]
    by_cases h47 : t.getLast? = some 47
    · rw [if_pos h47, if_pos (hlast.mpr h47)]
      simp [Instruction.guarded]
    · rw [if_neg h47, if_neg fun h => h47 (hlast.mp h)]
      simp [Instruction.guarded]
  rw [if_neg h46, if_neg h46]
  by_cases h124 : c = 124
  · rw [if_pos h124, if_pos h124]
    split_ifs <;> simp_all [Instruction.guarded]
  rw [if_neg h124, if_neg h124]
  by_cases h63 : c = 63
  · rw [if_pos h63, if_pos h63]
    rw [hi]
    have hseek := seek_blank hcmds ht
    rcases branch_program ht htrim with hnone | ⟨b, v, hb, hv, htail⟩
    · have hlt : ¬ pre.length + 1 + (t.tail.takeWhile fun b => !isBlank b).length <
          pre.length + t.length := by
        rw [List.takeWhile_eq_self_iff.mpr (by simpa using List.dropWhile_eq_nil_iff.mp hnone),
          List.length_tail]
        omega
      rw [hseek, if_neg hlt, hnone]
      simp [Instruction.guarded]
    · generalize hw : t.tail.takeWhile (fun b => !isBlank b) = w at hseek htail ⊢
      obtain ⟨c', hcons⟩ : ∃ c', t = c' :: (w ++ b :: v) := by
        obtain ⟨c', t', rfl⟩ := List.exists_cons_of_ne_nil ht
        exact ⟨c', congrArg (c' :: ·) htail⟩
      have hlen : t.length = 1 + (w.length + (v.length + 1)) := by
        rw [hcons]
        simp only [List.length_append, List.length_cons]
        omega
      have hlist : r.cmds = pre ++ c' :: w ++ b :: v ++ 0 :: z := by
        rw [hcmds, hcons]
        simp
      have htotal : r.cmds.length = pre.length + t.length + 1 + z.length := by
        rw [hcmds]
        simp only [List.length_append, List.length_cons]
        omega
      obtain ⟨l, hl, hl1, hl2⟩ := @seek_program pre z w v b c' (pre.length + t.length)
        r.cmds.length hv (by omega) (by omega)
      have hdrop : (t.tail.dropWhile fun b => !isBlank b).dropWhile isBlank =
          v.dropWhile isBlank := by
        have : t.tail.dropWhile (fun b => !isBlank b) = b :: v := by
          have h := List.takeWhile_append_dropWhile (p := fun b => !isBlank b) (l := t.tail)
          rw [hw] at h
          exact List.append_cancel_left (h.trans htail)
        rw [this, List.dropWhile_cons_of_pos hb]
      rw [← hlist] at hl1 hl2
      rw [hseek, if_pos (by omega), List.length_set, hl1, if_pos hl, hl2, hdrop, if_neg hv]
      dsimp only [Instruction.guarded]
      generalize call answers _ _ = called
      obtain ⟨es, code | _ | r'⟩ := called <;> cases r.flagforwardonly <;> rfl
  rw [if_neg h63, if_neg h63]
  by_cases h43 : c = 43
  · rw [if_pos h43, if_pos h43]
    split_ifs <;> simp_all [Instruction.guarded]
  rw [if_neg h43, if_neg h43]
  by_cases h38 : c = 38
  · rw [if_pos h38]
    simp [Instruction.guarded, h38]
  · rw [if_neg h38]
    simp [Instruction.guarded, h38]

end

end IndimailMta.Local
