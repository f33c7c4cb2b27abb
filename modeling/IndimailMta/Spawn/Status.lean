import IndimailMta.Base
import IndimailMta.Lib.Lines

/-!
# What `qmail-rspawn` reports

`qmail-remote` writes records, each with a NUL at its end: one for the recipient, which begins
with `r`, `h` or `s`, and one for the message, which begins with `K`, `Z` or `D`.
`report_SPAWN` makes a status text of them, whatever the program wrote.

The text has one status letter and no NUL, and it says `K` only where the records do. What it
is made of lies in the output of the program unless the record after the recipient's has no
NUL: that record is copied up to the NUL that is found behind the output.
-/

namespace IndimailMta.Spawn

open IndimailMta Lines

/-- What `wait_crashed` and `wait_exitcode` say of a wait status. -/
structure WaitStatus where
  crashed : Bool
  exitcode : Nat
  deriving DecidableEq, Repr

/-- `K`, `Z` and `D`. -/
def isStatus (c : Byte) : Bool := c = 75 || c = 90 || c = 68

/-! ## `report_SPAWN` -/

/-- The C string at place `i` of the output, if its NUL is in the output. -/
def stringAt (s : Bytes) (i : Nat) : Option Bytes :=
  if 0 ∈ s.drop i then some (cstr (s.drop i)) else none

/-- The loop that finds `result`: at byte `k`, in the record that begins at `j`. No value where
a byte outside the output is read. -/
def resultFrom (s : Bytes) : Nat → Nat → Nat → Option Int
  | 0, _, _ => some (-1)
  | left + 1, k, j => do
      if (← s[k]?) = 0 then
        let c ← s[j]?
        if c = 75 then some 1
        else if c = 90 then some 0
        else if c = 68 then some (-1)
        else resultFrom s left (k + 1) (k + 1)
      else resultFrom s left (k + 1) j

/-- The loop that copies the text: at byte `k`. -/
def textFrom (s : Bytes) (result orr : Int) : Nat → Nat → Option Bytes
  | 0, _ => some []
  | left + 1, k => do
      if (← s[k]?) = 0 then
        let text ← stringAt s 1
        if result ≤ orr ∧ k + 1 < s.length then
          if isStatus (← s[k + 1]?) then
            return text ++ (← stringAt s (k + 2))
          else return text
        else return text
      else textFrom s result orr left (k + 1)

def orrOf (result : Int) (c : Byte) : Int :=
  if c = 115 then 0 else if c = 104 then -1 else result

def letterOf (orr : Int) : Bytes :=
  if orr = 1 then [75] else if orr = 0 then [90] else if orr = -1 then [68] else []

/-- `report_SPAWN`. No value where a byte outside the `len` bytes is read. -/
def report_SPAWN (wstat : WaitStatus) (s : Bytes) : Option Bytes :=
  if wstat.crashed then some (asc "Zqmail-remote crashed.\n")
  else if wstat.exitcode = 111 then some (asc "ZUnable to run qmail-remote.\n")
  else if wstat.exitcode ≠ 0 then some (asc "DUnable to run qmail-remote.\n")
  else if s.length = 0 then some (asc "Zqmail-remote produced no output.\n")
  else do
    let result ← resultFrom s s.length 0 0
    let orr := orrOf result (← s[0]?)
    let text ← textFrom s result orr (s.length - 1) 1
    return letterOf orr ++ text

/-! ## The verdict -/

/-- The letter of the first record that begins with a status letter. -/
def verdict (s : Bytes) : Option Byte := ((fields 0 s).filterMap List.head?).find? isStatus

def valueOf : Option Byte → Int
  | some c => if c = 75 then 1 else if c = 90 then 0 else -1
  | none => -1

theorem valueOf_eq_one {v : Option Byte} : valueOf v = 1 ↔ v = some 75 := by
  cases v with
  | none => simp [valueOf]
  | some c =>
      rw [valueOf, Option.some.injEq]
      split
      · rename_i h
        simp [h]
      · rename_i h
        split <;> simp [h]

theorem valueOf_cases (v : Option Byte) : valueOf v = 1 ∨ valueOf v = 0 ∨ valueOf v = -1 := by
  cases v with
  | none => exact Or.inr (Or.inr rfl)
  | some c =>
      rw [valueOf]
      split
      · exact Or.inl rfl
      · split
        · exact Or.inr (Or.inl rfl)
        · exact Or.inr (Or.inr rfl)

theorem verdict_append {r t : Bytes} (h : 0 ∉ r) :
    verdict (r ++ 0 :: t) = (r.head?.filter isStatus).or (verdict t) := by
  rw [verdict, fields_append h, List.filterMap_cons, verdict]
  cases r with
  | nil => rfl
  | cons c r =>
      simp only [List.head?_cons, List.find?_cons, Option.filter]
      cases isStatus c with
      | true => rfl
      | false => rfl

theorem verdict_of_notMem {r : Bytes} (h : 0 ∉ r) : verdict r = none := by
  rw [verdict, fields_eq_nil h]
  rfl

/-- The loop reads the records one after the other. -/
theorem resultFrom_eq (pre : Bytes) {r : Bytes} (rest : Bytes) (h : 0 ∉ r) :
    resultFrom (pre ++ r ++ rest) rest.length (pre.length + r.length) pre.length =
      some (valueOf (verdict (r ++ rest))) := by
  induction rest generalizing pre r with
  | nil =>
      rw [List.append_nil, List.append_nil, verdict_of_notMem h]
      rfl
  | cons b rest ih =>
      have hk : (pre ++ r ++ b :: rest)[pre.length + r.length]? = some b := by
        rw [← List.length_append, List.getElem?_append_right (Nat.le_refl _), Nat.sub_self]
        rfl
      rw [List.length_cons, resultFrom, hk]
      simp only [Option.bind_eq_bind, Option.bind_some]
      split
      · -- the record ends here
        rename_i hb
        subst hb
        have hnext := ih (pre ++ r ++ [0]) (r := []) (by simp)
        simp only [List.append_nil, List.append_assoc, List.singleton_append, List.length_append,
          List.length_singleton, List.length_nil, Nat.add_zero, List.nil_append] at hnext
        have hj : (pre ++ r ++ 0 :: rest)[pre.length]? = (r ++ 0 :: rest)[0]? := by
          rw [List.append_assoc, List.getElem?_append_right (Nat.le_refl _), Nat.sub_self]
        rw [hj, verdict_append h]
        cases r with
        | nil =>
            simp only [List.nil_append, List.getElem?_cons_zero, Option.bind_some, List.head?_nil]
            rw [if_neg (by decide), if_neg (by decide), if_neg (by decide)]
            simpa using hnext
        | cons c r =>
            simp only [List.cons_append, List.getElem?_cons_zero, Option.bind_some,
              List.head?_cons, Option.filter, isStatus]
            by_cases hK : c = 75
            · simp [hK, valueOf]
            by_cases hZ : c = 90
            · simp [hZ, valueOf]
            by_cases hD : c = 68
            · simp [hD, valueOf]
            rw [if_neg hK, if_neg hZ, if_neg hD]
            simp only [hK, hZ, hD, decide_false, Bool.or_false, Bool.false_eq_true, if_false,
              Option.none_or]
            rw [List.append_assoc, List.cons_append, Nat.add_assoc]
            exact hnext
      · rename_i hb
        have hnext := ih pre (r := r ++ [b]) (by
          simp only [List.mem_append, List.mem_singleton, not_or]
          exact ⟨h, fun he => hb he.symm⟩)
        simpa [List.append_assoc, Nat.add_assoc] using hnext

theorem result_eq (s : Bytes) : resultFrom s s.length 0 0 = some (valueOf (verdict s)) := by
  have h := resultFrom_eq [] (r := []) s (by simp)
  simpa using h

/-! ## The text -/

/-- The text of an output whose first record is followed by `t`, and is `a` without its first
byte. -/
def textOf (result orr : Int) (a t : Bytes) : Option Bytes :=
  if result ≤ orr then
    match t with
    | [] => some a
    | c :: t => if isStatus c then (if 0 ∈ t then some (a ++ cstr t) else none) else some a
  else some a

theorem stringAt_one {x : Byte} {a t : Bytes} (h : 0 ∉ a) :
    stringAt (x :: (a ++ 0 :: t)) 1 = some a := by
  rw [stringAt, List.drop_succ_cons, List.drop_zero, if_pos (by simp), cstr_append t h]

/-- The loop stops at the NUL of the first record. -/
theorem textFrom_eq {x : Byte} {a t : Bytes} {result orr : Int} (pre : Bytes) :
    ∀ {rest : Bytes}, 0 ∉ rest → a = pre ++ rest → 0 ∉ a →
      textFrom (x :: (a ++ 0 :: t)) result orr (rest.length + (t.length + 1)) (pre.length + 1) =
        textOf result orr a t := by
  intro rest
  induction rest generalizing pre with
  | nil =>
      intro _ ha h0
      rw [List.append_nil] at ha
      subst ha
      -- at the NUL of the first record: `t` begins with the status of the second one, if any
      have hk : (x :: (a ++ 0 :: t))[a.length + 1]? = some 0 := by
        rw [List.getElem?_cons_succ, List.getElem?_append_right (Nat.le_refl _), Nat.sub_self]
        rfl
      have hk1 : (x :: (a ++ 0 :: t))[a.length + 1 + 1]? = t[0]? := by
        rw [List.getElem?_cons_succ, List.getElem?_append_right (Nat.le_add_right _ 1),
          Nat.add_sub_cancel_left, List.getElem?_cons_succ]
      have hdrop : (x :: (a ++ 0 :: t)).drop (a.length + 1 + 2) = t.drop 1 := by
        rw [show a.length + 1 + 2 = a.length + 2 + 1 by omega, List.drop_succ_cons,
          List.drop_append, List.drop_eq_nil_of_le (by omega), List.nil_append,
          Nat.add_sub_cancel_left, List.drop_succ_cons]
      rw [List.length_nil, Nat.zero_add, textFrom, hk, hk1, stringAt_one h0, stringAt, hdrop]
      simp only [Option.bind_eq_bind, Option.bind_some, if_true, List.length_cons,
        List.length_append]
      cases t with
      | nil =>
          rw [textOf, if_neg (by simp)]
          split <;> rfl
      | cons c t =>
          rw [textOf]
          by_cases hr : result ≤ orr
          · rw [if_pos ⟨hr, by simp⟩, if_pos hr]
            simp only [List.getElem?_cons_zero, Option.bind_some, List.drop_succ_cons,
              List.drop_zero]
            by_cases hc : isStatus c = true
            · rw [if_pos hc]
              by_cases hz : 0 ∈ t
              · simp [hc, hz]
              · simp [hc, hz]
            · simp [hc]
          · rw [if_neg (fun h => hr h.1), if_neg hr]
            rfl
  | cons b rest ih =>
      intro hrest ha h0
      simp only [List.mem_cons, not_or] at hrest
      have hk : (x :: (a ++ 0 :: t))[pre.length + 1]? = some b := by
        rw [List.getElem?_cons_succ, ha, List.append_assoc,
          List.getElem?_append_right (Nat.le_refl _), Nat.sub_self]
        rfl
      have hnext := ih (pre ++ [b]) hrest.2 (by rw [ha]; simp) h0
      rw [List.length_append, List.length_singleton] at hnext
      rw [List.length_cons, show rest.length + 1 + (t.length + 1) = rest.length + (t.length + 1) + 1
        by omega, textFrom, hk]
      simp only [Option.bind_eq_bind, Option.bind_some]
      rw [if_neg (Ne.symm hrest.1)]
      exact hnext

theorem textFrom_one {x : Byte} {a t : Bytes} {result orr : Int} (h : 0 ∉ a) :
    textFrom (x :: (a ++ 0 :: t)) result orr (a ++ 0 :: t).length 1 = textOf result orr a t := by
  rw [List.length_append, List.length_cons]
  exact textFrom_eq [] h rfl h

/-- Without a NUL behind the first byte there is no text. -/
theorem textFrom_of_notMem {x : Byte} {result orr : Int} (a : Bytes) :
    ∀ {rest : Bytes}, 0 ∉ rest →
      textFrom (x :: (a ++ rest)) result orr rest.length (a.length + 1) = some [] := by
  intro rest
  induction rest generalizing a with
  | nil => exact fun _ => rfl
  | cons b rest ih =>
      intro h
      simp only [List.mem_cons, not_or] at h
      have hk : (x :: (a ++ b :: rest))[a.length + 1]? = some b := by
        rw [List.getElem?_cons_succ, List.getElem?_append_right (Nat.le_refl _), Nat.sub_self]
        rfl
      have hnext := ih (a ++ [b]) h.2
      rw [List.append_assoc, List.singleton_append, List.length_append,
        List.length_singleton] at hnext
      rw [List.length_cons, textFrom, hk]
      simp only [Option.bind_eq_bind, Option.bind_some]
      rw [if_neg (Ne.symm h.1)]
      exact hnext

/-! ## One well-formed status -/

/-- What is to hold of a report: it is made of bytes of the output, it is a text that begins with
a status letter, and it begins with `K` only if the program exited 0, the first record that
begins with a status letter begins with `K`, and the recipient's record begins neither with `s`
nor with `h`. -/
structure OneStatus (wstat : WaitStatus) (s : Bytes) (out : Option Bytes) : Prop where
  inside : out.isSome
  nulFree : ∀ text ∈ out, 0 ∉ text
  letter : ∀ text ∈ out, ∃ c ∈ text.head?, isStatus c
  delivered : ∀ text ∈ out, text.head? = some 75 →
    wstat.crashed = false ∧ wstat.exitcode = 0 ∧ verdict s = some 75 ∧
      s.head? ≠ some 115 ∧ s.head? ≠ some 104

/-- The record behind the first NUL that is not the first byte begins with a status letter and
has no NUL, and the program exited 0. -/
def Unended (wstat : WaitStatus) (s : Bytes) : Prop :=
  wstat.crashed = false ∧ wstat.exitcode = 0 ∧
    ∃ x a c t, s = x :: (a ++ 0 :: c :: t) ∧ 0 ∉ a ∧ isStatus c ∧ 0 ∉ t

variable {wstat : WaitStatus} {s : Bytes}

theorem letterOf_orrOf (v : Option Byte) (c : Byte) : ∃ l : Byte, isStatus l ∧
    letterOf (orrOf (valueOf v) c) = [l] ∧ (l = 75 → v = some 75 ∧ c ≠ 115 ∧ c ≠ 104) := by
  rw [orrOf]
  split
  · exact ⟨90, by decide, by decide, fun h => absurd h (by decide)⟩
  · rename_i hs
    split
    · exact ⟨68, by decide, by decide, fun h => absurd h (by decide)⟩
    · rename_i hh
      rcases valueOf_cases v with h | h | h
      · rw [h]
        exact ⟨75, by decide, by decide, fun _ => ⟨valueOf_eq_one.mp h, hs, hh⟩⟩
      · rw [h]
        exact ⟨90, by decide, by decide, fun h => absurd h (by decide)⟩
      · rw [h]
        exact ⟨68, by decide, by decide, fun h => absurd h (by decide)⟩

/-- The report on an output that is not empty, of a program that exited 0. -/
theorem report_cons (hw : wstat.crashed = false) (he : wstat.exitcode = 0) (x : Byte)
    (s : Bytes) : report_SPAWN wstat (x :: s) =
      (textFrom (x :: s) (valueOf (verdict (x :: s))) (orrOf (valueOf (verdict (x :: s))) x)
        s.length 1).map (letterOf (orrOf (valueOf (verdict (x :: s))) x) ++ ·) := by
  rw [report_SPAWN, hw, he, result_eq]
  rw [Option.map_eq_bind]
  rfl

/-- A status letter and a text of the output are a well-formed status. -/
theorem oneStatus_of_text (hw : wstat.crashed = false) (he : wstat.exitcode = 0) {x : Byte}
    {text : Bytes} (h0 : 0 ∉ text) :
    OneStatus wstat (x :: s)
      ((some text).map (letterOf (orrOf (valueOf (verdict (x :: s))) x) ++ ·)) := by
  obtain ⟨l, hl, hletter, hK⟩ := letterOf_orrOf (verdict (x :: s)) x
  rw [hletter, Option.map_some, List.singleton_append]
  constructor
  · rfl
  · rintro _ ⟨⟩
    rw [List.mem_cons, not_or]
    refine ⟨?_, h0⟩
    rintro rfl
    exact absurd hl (by decide)
  · rintro _ ⟨⟩
    exact ⟨l, rfl, hl⟩
  · rintro _ ⟨⟩ hhead
    rw [List.head?_cons, Option.some.injEq] at hhead
    obtain ⟨hv, hs, hh⟩ := hK hhead
    refine ⟨hw, he, hv, ?_, ?_⟩
    · simpa using hs
    · simpa using hh

/-- The fixed texts are well-formed statuses. -/
theorem oneStatus_fixed {text : Bytes} (h0 : 0 ∉ text) (hl : ∃ c ∈ text.head?, isStatus c)
    (hK : text.head? ≠ some 75) : OneStatus wstat s (some text) := by
  constructor
  · rfl
  · rintro _ ⟨⟩
    exact h0
  · rintro _ ⟨⟩
    exact hl
  · rintro _ ⟨⟩ hhead
    exact absurd hhead hK

/-- Before a record without a NUL the recipient's record has not lowered the verdict. -/
theorem valueOf_le_orrOf {x c : Byte} {a t : Bytes} (ha : 0 ∉ a) (hc : isStatus c) (ht : 0 ∉ t) :
    valueOf (verdict (x :: (a ++ 0 :: c :: t))) ≤
      orrOf (valueOf (verdict (x :: (a ++ 0 :: c :: t)))) x := by
  have hv : x = 115 ∨ x = 104 → valueOf (verdict (x :: (a ++ 0 :: c :: t))) = -1 := by
    intro hx
    have hxa : (0 : Byte) ∉ x :: a := by
      rw [List.mem_cons, not_or]
      refine ⟨?_, ha⟩
      rcases hx with rfl | rfl <;> decide
    have hct : (0 : Byte) ∉ c :: t := by
      rw [List.mem_cons, not_or]
      refine ⟨?_, ht⟩
      rintro rfl
      exact absurd hc (by decide)
    -- neither of the two records gives a verdict
    rw [← List.cons_append, verdict_append hxa, verdict_of_notMem hct]
    rcases hx with rfl | rfl <;> rfl
  rw [orrOf]
  split
  · rename_i hs
    rw [hv (Or.inl hs)]
    decide
  · split
    · rename_i hh
      exact Int.le_of_eq (hv (Or.inr hh))
    · exact Int.le_refl _

/-- **The report is one well-formed status**, and is made of bytes of the output, unless the
record behind the recipient's has no NUL. -/
theorem report_oneStatus_iff (wstat : WaitStatus) (s : Bytes) :
    OneStatus wstat s (report_SPAWN wstat s) ↔ ¬ Unended wstat s := by
  constructor
  · rintro h ⟨hw, he, x, a, c, t, rfl, ha, hc, ht⟩
    -- the text is looked for behind the output
    have hnone := report_cons hw he x (a ++ 0 :: c :: t)
    rw [textFrom_one ha, textOf, if_pos (valueOf_le_orrOf ha hc ht)] at hnone
    simp only [hc, if_true, if_neg ht] at hnone
    have hin := h.inside
    rw [hnone] at hin
    exact absurd hin Bool.false_ne_true
  · intro h
    rw [report_SPAWN]
    by_cases hw : wstat.crashed = true
    · rw [if_pos hw]
      exact oneStatus_fixed (by decide) (by decide) (by decide)
    by_cases h111 : wstat.exitcode = 111
    · rw [if_neg hw, if_pos h111]
      exact oneStatus_fixed (by decide) (by decide) (by decide)
    by_cases he : wstat.exitcode = 0
    swap
    · rw [if_neg hw, if_neg h111, if_pos he]
      exact oneStatus_fixed (by decide) (by decide) (by decide)
    have hw' : wstat.crashed = false := by simpa using hw
    rcases s with _ | ⟨x, s⟩
    · rw [if_neg hw, if_neg h111, if_neg (not_not.mpr he), if_pos List.length_nil]
      exact oneStatus_fixed (by decide) (by decide) (by decide)
    have hrep := report_cons hw' he x s
    rw [report_SPAWN] at hrep
    rw [hrep]
    by_cases h0 : 0 ∈ s
    · -- the recipient's record ends
      obtain ⟨a, t, rfl, ha⟩ := List.eq_append_cons_of_mem h0
      rw [textFrom_one ha, textOf.eq_def]
      split
      · cases t with
        | nil => exact oneStatus_of_text hw' he ha
        | cons c t =>
            simp only
            split
            · rename_i hc
              -- the next record is copied, and has a NUL
              have ht : 0 ∈ t := by
                by_contra ht
                exact h ⟨hw', he, x, a, c, t, rfl, ha, hc, ht⟩
              rw [if_pos ht]
              apply oneStatus_of_text hw' he
              rw [List.mem_append, not_or]
              exact ⟨ha, nul_notMem_cstr t⟩
            · exact oneStatus_of_text hw' he ha
      · exact oneStatus_of_text hw' he ha
    · -- there is no NUL behind the first byte, and no text
      rw [show textFrom (x :: s) _ _ s.length 1 = some [] from textFrom_of_notMem [] h0]
      exact oneStatus_of_text hw' he (by simp)

/-- An output whose second record has no NUL. -/
theorem report_reads_on : ¬ ∀ wstat s, OneStatus wstat s (report_SPAWN wstat s) := by
  intro h
  have hin := (h ⟨false, 0⟩ (asc "r" ++ [0] ++ asc "K")).inside
  exact absurd hin (by decide)

end IndimailMta.Spawn
