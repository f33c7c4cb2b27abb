import IndimailMta.Base
import IndimailMta.Lib.Lines
import IndimailMta.Lib.Rounding
import IndimailMta.Lib.Run
import Mathlib.Algebra.Order.Field.Rat
import Mathlib.Algebra.Order.Ring.Cast
import Mathlib.Tactic.Linarith

/-!
# Delivery rates

A rate definition file has four fields, each with a NUL at its end: the rate expression, the
number of deliveries, the time of the first and that of the last. `is_rate_ok` reads them, lets a
delivery through or not, and then writes them anew over the old ones, without cutting off what is
left behind.

A delivery is let through if the ones before it do not exceed the rate. In the second of the
first delivery there is no rate to compute, and all are let through; from the next second on
their number is bounded by the rate, or by the number of those. The rate of the deliveries is a
quotient of two `float`s, so the bound holds up to the error of that quotient.
-/

namespace IndimailMta.Rate

open IndimailMta Lines Run

/-! ## `is_rate_ok` -/

/-- The error of a quotient of `float`s: 24 bits, two conversions and a division. -/
def slack : ℚ := 4 / 2 ^ 24

/-- What is outside: the numerals, `get_rate`, `RATELIMIT_INTERVAL`, and the quotient
`(float) c / (float) d`. -/
structure Env where
  nm : Ulongs
  get_rate : Bytes → Option ℚ
  rate_int : Int
  fdiv : Nat → Int → ℚ
  fdiv_near : ∀ (c : Nat) (d : Int), c < 2 ^ 64 → 0 < d → d < 2 ^ 64 →
    |fdiv c d - c / d| ≤ c / d * slack

/-- A rate definition file: every field has its NUL. -/
structure RateFile where
  content : Bytes
  mtime : Nat
  ended : content.getLast? = some 0

/-- A call, at a time that is a `datetime_sec`. -/
structure Call where
  now : Nat
  rate_exp : Option Bytes
  now_lt : now < 2 ^ 63

inductive Answer where
  | error
  | exceeded
  | fine
  deriving DecidableEq, Repr

variable (env : Env)

/-- An `unsigned long` as a `datetime_sec`. -/
def datetime (n : Nat) : Int := if n < 2 ^ 63 then n else (n : Int) - 2 ^ 64

def scan (field : Bytes) : Nat := (env.nm.scanUlong (field ++ [0])).2

/-- The second field. -/
def email_count (fs : List Bytes) (reset : Bool) : Nat :=
  if reset then 0 else (fs[1]?.map (scan env)).getD 0

/-- The third field, as it is kept in the file. -/
def stime (fs : List Bytes) (reset : Bool) (now : Nat) : Nat :=
  if reset then now else (fs[2]?.map (scan env)).getD now

/-- The rate that is computed at the fourth field. -/
def cur_rate (fs : List Bytes) (reset : Bool) (now : Nat) : ℚ :=
  if reset ∨ fs.length < 4 then 0
  else if (now : Int) = datetime (stime env fs reset now) then 0
  else env.fdiv (email_count env fs reset) ((now : Int) - datetime (stime env fs reset now))

def reset (f : RateFile) (now : Nat) : Bool := env.rate_int < (now : Int) - f.mtime

def force (rate_exp : Option Bytes) : Bool := rate_exp = some (asc "-1")

/-- The rate of the argument is asked for, though that of the file is the one that counts. -/
def badExp (rate_exp : Option Bytes) : Bool :=
  !force rate_exp && rate_exp.any fun e => (env.get_rate e).isNone

/-- What is written: four fields. -/
def record (rate_expr : Bytes) (count stime now : Nat) : Bytes :=
  rate_expr ++ [0] ++ env.nm.fmtUlong count ++ [0] ++ env.nm.fmtUlong stime ++ [0] ++
    env.nm.fmtUlong now ++ [0]

theorem record_ended (rate_expr : Bytes) (count stime now : Nat) (old : Bytes)
    (h : old.getLast? = some 0) :
    (record env rate_expr count stime now ++
      old.drop (record env rate_expr count stime now).length).getLast? = some 0 := by
  by_cases hd : old.drop (record env rate_expr count stime now).length = []
  · rw [hd, List.append_nil, record, List.getLast?_append]
    rfl
  · rw [List.getLast?_append_of_ne_nil _ hd, List.getLast?_drop, if_neg, h]
    intro hle
    exact hd (List.drop_eq_nil_of_le hle)

/-- The fields are written over the old ones. -/
def rewrite (f : RateFile) (rate_expr : Bytes) (count stime now : Nat) : RateFile where
  content := record env rate_expr count stime now ++
    f.content.drop (record env rate_expr count stime now).length
  mtime := now
  ended := record_ended env rate_expr count stime now f.content f.ended

/-- `is_rate_ok`, for a file that exists. -/
def is_rate_ok (f : RateFile) (l : Call) : Answer × RateFile :=
  let fs := fields 0 f.content
  let r := reset env f l.now
  if badExp env l.rate_exp then (.error, f)
  else
    match (fs[0]?).bind env.get_rate with
    | none => (.error, f)
    | some conf_rate =>
        if !force l.rate_exp ∧ 0 ≤ conf_rate ∧ conf_rate < cur_rate env fs r l.now then
          (.exceeded, f)
        else
          (.fine, rewrite env f (fs[0]?.getD []) ((email_count env fs r + 1) % 2 ^ 64)
            (stime env fs r l.now) l.now)

/-- The calls one after the other: the times of those that let a delivery through, and the file
that is left. -/
def run : RateFile → List Call → List Nat × RateFile
  | f, [] => ([], f)
  | f, l :: ls =>
      let r := is_rate_ok env f l
      let rest := run r.2 ls
      (if r.1 = .fine then l.now :: rest.1 else rest.1, rest.2)

/-- The configured rate. -/
def configured (f : RateFile) : Option ℚ := ((fields 0 f.content)[0]?).bind env.get_rate

/-- The recorded start time. -/
def started (f : RateFile) : Option Int :=
  ((fields 0 f.content)[2]?).map fun s => datetime (scan env s)

/-- How many times are from `s` to `t`. -/
def upTo (s t : Int) (times : List Nat) : Nat :=
  times.countP fun x : Nat => s ≤ (x : Int) ∧ (x : Int) ≤ t

/-- How many times are in the second `s`. -/
def during (s : Int) (times : List Nat) : Nat := times.countP fun x : Nat => (x : Int) = s

/-! ## The file -/

variable {env} {f : RateFile} {l : Call} {rate : ℚ}

theorem scan_fmt {n : Nat} (h : n < 2 ^ 64) : scan env (env.nm.fmtUlong n) = n := by
  rw [scan, env.nm.scan_fmt n [0] h (by simp [isDigit])]

/-- What was written is read again. -/
theorem fields_rewrite {e : Bytes} (he : 0 ∉ e) (count stime now : Nat) :
    ∃ rest, fields 0 (rewrite env f e count stime now).content =
      e :: env.nm.fmtUlong count :: env.nm.fmtUlong stime :: env.nm.fmtUlong now :: rest := by
  refine ⟨fields 0 (f.content.drop (record env e count stime now).length), ?_⟩
  have hcontent : (rewrite env f e count stime now).content =
      e ++ 0 :: (env.nm.fmtUlong count ++ 0 :: (env.nm.fmtUlong stime ++ 0 ::
        (env.nm.fmtUlong now ++ 0 ::
          f.content.drop (record env e count stime now).length))) := by
    simp [rewrite, record]
  rw [hcontent, fields_append he, fields_append (env.nm.nul_notMem_fmt count),
    fields_append (env.nm.nul_notMem_fmt stime), fields_append (env.nm.nul_notMem_fmt now)]

/-- A call that lets nothing through leaves the file. -/
theorem refused_unchanged (f : RateFile) (l : Call) (h : (is_rate_ok env f l).1 ≠ .fine) :
    (is_rate_ok env f l).2 = f := by
  unfold is_rate_ok at h ⊢
  by_cases hexp : badExp env l.rate_exp = true
  · simp [hexp]
  · simp only [hexp, if_false, Bool.false_eq_true] at h ⊢
    cases hconf : ((fields 0 f.content)[0]?).bind env.get_rate with
    | none => rfl
    | some conf_rate =>
        simp only [hconf] at h ⊢
        split
        · rfl
        · rename_i hrate
          rw [if_neg hrate] at h
          exact absurd rfl h

/-- A call that lets a delivery through. -/
theorem fine_cases (hconf : configured env f = some rate) (h0 : 0 ≤ rate)
    (hforce : force l.rate_exp = false) (h : (is_rate_ok env f l).1 = .fine) :
    ∃ e, (fields 0 f.content)[0]? = some e ∧ env.get_rate e = some rate ∧ 0 ∉ e ∧
      cur_rate env (fields 0 f.content) (reset env f l.now) l.now ≤ rate ∧
      (is_rate_ok env f l).2 = rewrite env f e
        ((email_count env (fields 0 f.content) (reset env f l.now) + 1) % 2 ^ 64)
        (stime env (fields 0 f.content) (reset env f l.now) l.now) l.now := by
  obtain ⟨e, he, hrate⟩ := Option.bind_eq_some_iff.mp hconf
  have hnul : 0 ∉ e := notMem_of_mem_fields (List.mem_of_getElem? he)
  refine ⟨e, he, hrate, hnul, ?_⟩
  unfold is_rate_ok at h ⊢
  rw [configured] at hconf
  by_cases hexp : badExp env l.rate_exp = true
  · simp [hexp] at h
  · simp only [hexp, if_false, Bool.false_eq_true, hconf] at h ⊢
    split at h
    · simp at h
    · rename_i hle
      rw [if_neg hle]
      refine ⟨?_, by rw [he]; rfl⟩
      simpa [hforce, h0] using hle

/-! ## The quotient -/

theorem slack_lt : slack < 1 := by norm_num [slack]

/-- A rate that is not above the configured one, as a bound of the count. -/
theorem count_le {c : Nat} {d : Int} (hc : c < 2 ^ 64) (hd : 0 < d) (hd' : d < 2 ^ 64)
    (h : env.fdiv c d ≤ rate) : (c : ℚ) ≤ rate / (1 - slack) * d := by
  have hnear := (abs_le.mp (env.fdiv_near c d hc hd hd')).1
  have hpos : (0 : ℚ) < d := Int.cast_pos.mpr hd
  have hroom : 0 < 1 - slack := sub_pos.mpr slack_lt
  have hquot : (c : ℚ) / d ≤ rate / (1 - slack) := by
    rw [le_div_iff₀ hroom]
    linarith
  exact (div_le_iff₀ hpos).mp hquot

theorem neg_le_datetime (n : Nat) (h : n < 2 ^ 64) : -2 ^ 63 ≤ datetime n := by
  rw [datetime]
  split <;> omega

/-! ## The runs -/

/-- What is kept of a file that was written in a run: `count` and `start` are in it, and `past`
are the times of the deliveries that were let through. -/
structure Written (env : Env) (rate : ℚ) (f : RateFile) (past : List Nat) (count start : Nat) :
    Prop where
  fields : ∃ e m rest, Lines.fields 0 f.content =
    e :: env.nm.fmtUlong count :: env.nm.fmtUlong start :: env.nm.fmtUlong m :: rest
  count_lt : count < 2 ^ 64
  start_lt : start < 2 ^ 64
  mtime : f.mtime ∈ past
  counted : (past.countP fun x : Nat => datetime start ≤ (x : Int)) ≤ count
  bounded : ∀ t : Int, datetime start < t →
    (upTo (datetime start) t past : ℚ) ≤
      max (during (datetime start) past : ℚ)
        (rate / (1 - slack) * (t - datetime start : Int) + 1)

/-- The file at some point of a run that began with `f₀`. -/
def Kept (env : Env) (rate : ℚ) (f₀ f : RateFile) (past : List Nat) : Prop :=
  configured env f = some rate ∧
    (past = [] ∧ f = f₀ ∨
      ∃ count start, Written env rate f past count start ∧
        count ≤ email_count env (fields 0 f₀.content) false + past.length)

section Counting

variable {s t : Int} {past : List Nat} {now c : Nat}

theorem upTo_cons : upTo s t (now :: past) =
    upTo s t past + if s ≤ now ∧ (now : Int) ≤ t then 1 else 0 := by
  rw [upTo, List.countP_cons, upTo]
  simp only [decide_eq_true_eq]

theorem during_cons :
    during s (now :: past) = during s past + if (now : Int) = s then 1 else 0 := by
  rw [during, List.countP_cons, during]
  simp only [decide_eq_true_eq]

theorem upTo_le (past : List Nat) : upTo s t past ≤ past.countP fun x : Nat => s ≤ (x : Int) := by
  apply List.countP_mono_left
  intro x _ hx
  simp only [decide_eq_true_eq] at hx ⊢
  exact hx.1

/-- Up to the second `s` itself there are only the deliveries of that second. -/
theorem upTo_eq_during (hst : s < t) (hpast : ∀ x ∈ past, (x : Int) ≤ s) :
    upTo s t past = during s past := by
  apply List.countP_congr
  intro x hx
  have hle := hpast x hx
  simp only [decide_eq_true_eq]
  omega

/-- One more delivery is let through. -/
theorem upTo_cons_le (h0 : 0 ≤ rate) (hst : s < t) (hpast : ∀ x ∈ past, x ≤ now)
    (hb : (upTo s t past : ℚ) ≤ max (during s past : ℚ) (rate * (t - s : Int) + 1))
    (hc : (past.countP fun x : Nat => s ≤ (x : Int)) ≤ c)
    (hrate : s < (now : Int) → (c : ℚ) ≤ rate * ((now : Int) - s : Int)) :
    (upTo s t (now :: past) : ℚ) ≤
      max (during s (now :: past) : ℚ) (rate * (t - s : Int) + 1) := by
  rw [upTo_cons, during_cons]
  by_cases hin : s ≤ now ∧ (now : Int) ≤ t
  · rw [if_pos hin]
    by_cases hs : (now : Int) = s
    · -- a delivery in the first second
      rw [if_pos hs, upTo_eq_during hst fun x hx => by have := hpast x hx; omega]
      exact le_max_left _ _
    · -- a later one: the rate of those before it was not above the configured one
      apply le_max_of_le_right
      have hle : (c : ℚ) ≤ rate * ((now : Int) - s : Int) := hrate (by omega)
      have hcount : (upTo s t past : ℚ) ≤ c :=
        Nat.cast_le.mpr ((upTo_le past).trans hc)
      have hmono : rate * ((now : Int) - s : Int) ≤ rate * (t - s : Int) := by
        apply mul_le_mul_of_nonneg_left _ h0
        rw [Int.cast_le]
        omega
      rw [Nat.cast_add, Nat.cast_one]
      linarith
  · -- it is not counted up to `t`
    rw [if_neg hin, Nat.add_zero]
    refine hb.trans (max_le_max ?_ (le_refl _))
    exact Nat.cast_le.mpr (Nat.le_add_right _ _)

end Counting

theorem configured_rewrite {e : Bytes} (he : 0 ∉ e) (hrate : env.get_rate e = some rate)
    (count stime now : Nat) : configured env (rewrite env f e count stime now) = some rate := by
  obtain ⟨rest, hfields⟩ := @fields_rewrite env f _ he count stime now
  rw [configured, hfields]
  exact hrate

/-- The first delivery of a run writes the file, whatever stood there. -/
theorem written_first {e : Bytes} {count start now : Nat} (h0 : 0 ≤ rate / (1 - slack)) (he : 0 ∉ e)
    (hcount : count + 1 < 2 ^ 64) (hstart : start < 2 ^ 64) :
    Written env rate (rewrite env f e (count + 1) start now) [now] (count + 1) start := by
  obtain ⟨rest, hfields⟩ := @fields_rewrite env f _ he (count + 1) start now
  refine ⟨⟨e, now, rest, hfields⟩, hcount, hstart, List.mem_cons_self, ?_, ?_⟩
  · rw [List.countP_cons, List.countP_nil]
    split <;> omega
  · intro t ht
    apply le_max_of_le_right
    have hone : upTo (datetime start) t [now] ≤ 1 := by
      rw [upTo_cons]
      split <;> simp [upTo]
    have hone' : (upTo (datetime start) t [now] : ℚ) ≤ 1 := by
      exact_mod_cast hone
    have hpos : (0 : ℚ) ≤ (t - datetime start : Int) := by
      apply Int.cast_nonneg
      omega
    have hmul := mul_nonneg h0 hpos
    linarith

/-- A later delivery finds the count and the start that were written. -/
theorem found_of_written {past : List Nat} {count start : Nat} (h : Written env rate f past count start)
    (now : Nat) : email_count env (fields 0 f.content) false = count ∧
      stime env (fields 0 f.content) false now = start := by
  obtain ⟨e, m, rest, hfields⟩ := h.fields
  constructor
  · rw [email_count, hfields]
    exact scan_fmt h.count_lt
  · rw [stime, hfields]
    exact scan_fmt h.start_lt

/-- It is let through where the rate of those before it is not above the configured one. -/
theorem written_later {past : List Nat} {count start : Nat} {e : Bytes}
    (h : Written env rate f past count start) (h0 : 0 ≤ rate / (1 - slack)) (he : 0 ∉ e)
    (hpast : ∀ x ∈ past, x ≤ l.now) (hcount : count + 1 < 2 ^ 64)
    (hcur : cur_rate env (fields 0 f.content) false l.now ≤ rate) :
    Written env rate (rewrite env f e (count + 1) start l.now) (l.now :: past) (count + 1) start := by
  obtain ⟨e', m, rest', hfields⟩ := h.fields
  obtain ⟨hemail, hstime⟩ := found_of_written h l.now
  rw [cur_rate, hemail, hstime, hfields] at hcur
  obtain ⟨rest, hfields'⟩ := @fields_rewrite env f _ he (count + 1) start l.now
  refine ⟨⟨e, l.now, rest, hfields'⟩, hcount, h.start_lt, List.mem_cons_self, ?_, ?_⟩
  · rw [List.countP_cons]
    have hc := h.counted
    split <;> omega
  · intro t ht
    apply upTo_cons_le h0 ht hpast (h.bounded t ht) h.counted
    intro hlt
    rw [if_neg (by simp), if_neg hlt.ne'] at hcur
    have hlow := neg_le_datetime start h.start_lt
    have hnow := l.now_lt
    exact count_le h.count_lt (by omega) (by omega) hcur

/-- One delivery is let through. -/
theorem Kept.step {f₀ : RateFile} {past : List Nat} (hk : Kept env rate f₀ f past) (h0 : 0 ≤ rate)
    (hforce : force l.rate_exp = false) (hpast : ∀ x ∈ past, x ≤ l.now)
    (hint : ∀ x ∈ past, (l.now : Int) - x ≤ env.rate_int)
    (hroom : email_count env (fields 0 f₀.content) false + past.length + 1 < 2 ^ 64)
    (hfine : (is_rate_ok env f l).1 = .fine) :
    Kept env rate f₀ (is_rate_ok env f l).2 (l.now :: past) := by
  obtain ⟨hconf, hk⟩ := hk
  obtain ⟨e, he, hrate, hnul, hcur, hfile⟩ := fine_cases hconf h0 hforce hfine
  have hslack : 0 ≤ rate / (1 - slack) := div_nonneg h0 (sub_nonneg.mpr slack_lt.le)
  rw [hfile]
  refine ⟨configured_rewrite hnul hrate _ _ _, Or.inr ?_⟩
  rcases hk with ⟨rfl, rfl⟩ | ⟨count, start, hw, hle⟩
  · -- the first delivery of the run
    have hcount : email_count env (fields 0 f.content) (reset env f l.now) ≤
        email_count env (fields 0 f.content) false := by
      rw [email_count]
      split
      · exact Nat.zero_le _
      · exact Nat.le_refl _
    have hstart : stime env (fields 0 f.content) (reset env f l.now) l.now < 2 ^ 64 := by
      have hnow := l.now_lt
      rw [stime]
      split
      · omega
      · cases (fields 0 f.content)[2]? with
        | none =>
            simp only [Option.map_none, Option.getD_none]
            omega
        | some x => exact env.nm.scan_lt _
    rw [List.length_nil] at hroom
    rw [Nat.mod_eq_of_lt (by omega), List.length_singleton]
    exact ⟨_, _, written_first hslack hnul (by omega) hstart, by omega⟩
  · -- the file was written in this run, and within the interval: its count and start go on
    have hreset : reset env f l.now = false := by
      have hm := hint f.mtime hw.mtime
      rw [reset, decide_eq_false_iff_not]
      omega
    rw [hreset] at hcur
    obtain ⟨hemail, hstime⟩ := found_of_written hw l.now
    rw [hreset, hemail, hstime, Nat.mod_eq_of_lt (by omega), List.length_cons]
    exact ⟨count + 1, start, written_later hw hslack hnul hpast (by omega) hcur, by omega⟩

theorem Kept.run {f₀ : RateFile} (h0 : 0 ≤ rate) : ∀ {ls : List Call} {f : RateFile}
    {past : List Nat}, Kept env rate f₀ f past → (∀ l ∈ ls, force l.rate_exp = false) →
      (∀ l ∈ ls, ∀ x ∈ past, x ≤ l.now ∧ (l.now : Int) - x ≤ env.rate_int) →
      (ls.Pairwise fun a b => a.now ≤ b.now ∧ (b.now : Int) - a.now ≤ env.rate_int) →
      email_count env (fields 0 f₀.content) false + past.length + ls.length < 2 ^ 64 →
      Kept env rate f₀ (Rate.run env f ls).2 ((Rate.run env f ls).1.reverse ++ past)
  | [], f, past, hk, _, _, _, _ => hk
  | l :: ls, f, past, hk, hforce, hpast, hclock, hroom => by
      rw [List.length_cons] at hroom
      obtain ⟨hlater, hclock'⟩ := List.pairwise_cons.mp hclock
      have hforce' : ∀ a ∈ ls, force a.rate_exp = false := fun a ha =>
        hforce a (List.mem_cons_of_mem l ha)
      have hpast' : ∀ a ∈ ls, ∀ x ∈ past, x ≤ a.now ∧ (a.now : Int) - x ≤ env.rate_int :=
        fun a ha => hpast a (List.mem_cons_of_mem l ha)
      rw [Rate.run]
      by_cases hfine : (is_rate_ok env f l).1 = .fine
      · have hl := hpast l List.mem_cons_self
        have hstep := hk.step h0 (hforce l List.mem_cons_self) (fun x hx => (hl x hx).1)
          (fun x hx => (hl x hx).2) (by omega) hfine
        simp only
        rw [if_pos hfine, List.reverse_cons, List.append_assoc, List.singleton_append]
        refine hstep.run h0 hforce' ?_ hclock' (by rw [List.length_cons]; omega)
        intro a ha x hx
        rcases List.mem_cons.mp hx with rfl | hx
        · exact hlater a ha
        · exact hpast' a ha x hx
      · -- the file is as it was, so the next call sees what this one saw
        simp only
        rw [if_neg hfine, refused_unchanged f l hfine]
        exact hk.run h0 hforce' hpast' hclock' (by omega)

theorem run_bounded {ls : List Call} (hconf : configured env f = some rate) (h0 : 0 ≤ rate)
    (hforce : ∀ l ∈ ls, force l.rate_exp = false)
    (hclock : ls.Pairwise fun a b => a.now ≤ b.now ∧ (b.now : Int) - a.now ≤ env.rate_int)
    (hroom : email_count env (fields 0 f.content) false + ls.length < 2 ^ 64) {s : Int}
    (hs : started env (run env f ls).2 = some s) {t : Int} (ht : s < t) :
    (upTo s t (run env f ls).1 : ℚ) ≤
      max (during s (run env f ls).1 : ℚ) (rate / (1 - slack) * (t - s : Int) + 1) := by
  have hk : Kept env rate f (run env f ls).2 ((run env f ls).1.reverse ++ []) :=
    Kept.run h0 ⟨hconf, Or.inl ⟨rfl, rfl⟩⟩ hforce (fun l _ x hx => absurd hx List.not_mem_nil)
      hclock (by rw [List.length_nil]; omega)
  rw [List.append_nil] at hk
  obtain ⟨-, ⟨hnil, -⟩ | ⟨count, start, hw, -⟩⟩ := hk
  · rw [List.reverse_eq_nil_iff.mp hnil]
    exact le_max_left _ _
  · obtain ⟨e, m, rest, hfields⟩ := hw.fields
    have hstart : datetime start = s := by
      rw [started, hfields] at hs
      simp only [List.getElem?_cons_succ, List.getElem?_cons_zero, Option.map_some,
        Option.some.injEq] at hs
      rwa [scan_fmt hw.start_lt] at hs
    have hb := hw.bounded t (hstart ▸ ht)
    rwa [hstart, upTo, during, List.countP_reverse, List.countP_reverse] at hb

/-- **Deliveries are bounded by the rate**, up to the error of the quotient, or by those of the
first second, and a call that lets nothing through leaves the file as it was. -/
theorem rate_bounds (env : Env) (f : RateFile) (ls : List Call) (rate : ℚ)
    (hconf : configured env f = some rate) (h0 : 0 ≤ rate)
    (hforce : ∀ l ∈ ls, force l.rate_exp = false)
    (hclock : ls.Pairwise fun a b => a.now ≤ b.now ∧ (b.now : Int) - a.now ≤ env.rate_int)
    (hroom : email_count env (fields 0 f.content) false + ls.length < 2 ^ 64) :
    (∀ s, started env (run env f ls).2 = some s → ∀ t : Int, s < t →
      (upTo s t (run env f ls).1 : ℚ) ≤
        max (during s (run env f ls).1 : ℚ) (rate / (1 - slack) * (t - s : Int) + 1)) ∧
    ∀ (g : RateFile) (l : Call), (is_rate_ok env g l).1 ≠ .fine → (is_rate_ok env g l).2 = g :=
  ⟨fun _ hs _ ht => run_bounded hconf h0 hforce hclock hroom hs ht, refused_unchanged⟩

/-! ## The first second, and the rounded rate -/

/-- Rates are `double`s. -/
def double (q : ℚ) : ℚ := Rounding.roundTo 53 q

theorem quotient_slack (c : Nat) (d : Int) (_ : c < 2 ^ 64) (hd : 0 < d) (_ : d < 2 ^ 64) :
    |Rounding.quotient 24 c d - c / d| ≤ c / d * slack :=
  Rounding.quotient_near (by decide) (Nat.cast_nonneg c) (Int.cast_pos.mpr hd)

/-- One expression, and `float`s of 24 bits. -/
def single (expr : Bytes) (rate : ℚ) : Env where
  nm := ulongs
  get_rate := fun e => if e = expr then some (double rate) else none
  rate_int := 86400
  fdiv := fun c d => Rounding.quotient 24 c d
  fdiv_near := quotient_slack

/-- A rate of one delivery in a minute. -/
def perMinute : Env := single (asc "1/60") (1 / 60)

def fresh : RateFile := ⟨asc "1/60" ++ [0], 1000, by decide⟩

def at1000 : Call := ⟨1000, none, by decide⟩

/-- A rate between seven tenths and the `float` of seven tenths. -/
def sevenTenths : Env := single (asc "0.69999999") (69999999 / 100000000)

def sevenTenthsFile : RateFile := ⟨asc "0.69999999" ++ [0], 1000, by decide⟩

def tenSeconds : List Call :=
  [at1000, ⟨1002, none, by decide⟩, ⟨1003, none, by decide⟩, ⟨1005, none, by decide⟩,
    ⟨1006, none, by decide⟩, ⟨1008, none, by decide⟩, ⟨1009, none, by decide⟩,
    ⟨1010, none, by decide⟩]

/-- Three deliveries in the second in which the first is let through; and eight in ten seconds,
one in the first of them, where the rate is that the eighth is refused. -/
theorem bound_exceeded :
    (¬ ∀ (env : Env) (f : RateFile) (ls : List Call) (rate : ℚ),
      configured env f = some rate → 0 ≤ rate →
        (ls.Pairwise fun a b => a.now ≤ b.now ∧ (b.now : Int) - a.now ≤ env.rate_int) →
        ∀ s, started env (run env f ls).2 = some s → ∀ t : Int, s ≤ t →
          (upTo s t (run env f ls).1 : ℚ) ≤ rate * (t - s : Int) + 1) ∧
    upTo 1000 1010 (run sevenTenths sevenTenthsFile tenSeconds).1 = 8 ∧
    during 1000 (run sevenTenths sevenTenthsFile tenSeconds).1 = 1 ∧
    double (69999999 / 100000000) * ((1010 : Int) - 1000 : Int) + 1 < 8 := by
  refine ⟨?_, by decide +kernel, by decide +kernel, by decide +kernel⟩
  intro h
  have hb := h perMinute fresh [at1000, at1000, at1000] (double (1 / 60)) (by decide +kernel)
    (by decide +kernel) (by decide) 1000 (by decide +kernel) 1000 (by decide)
  have hthree : upTo 1000 1000 (run perMinute fresh [at1000, at1000, at1000]).1 = 3 := by
    decide +kernel
  rw [hthree] at hb
  norm_num at hb

/-- Two of them are refused. -/
def twoMinutes : List Call :=
  [at1000, ⟨1060, none, by decide⟩, ⟨1061, none, by decide⟩, ⟨1062, none, by decide⟩,
    ⟨1121, none, by decide⟩]

theorem rate_bounds_twoMinutes :
    (run perMinute fresh twoMinutes).1 = [1000, 1061, 1121] ∧
    (upTo 1000 1121 (run perMinute fresh twoMinutes).1 : ℚ) ≤
      max (during 1000 (run perMinute fresh twoMinutes).1 : ℚ)
        (double (1 / 60) / (1 - slack) * ((1121 : Int) - 1000 : Int) + 1) :=
  ⟨by decide +kernel,
    (rate_bounds perMinute fresh twoMinutes (double (1 / 60)) (by decide +kernel)
      (by decide +kernel) (by decide) (by decide) (by decide +kernel)).1 1000 (by decide +kernel)
        1121 (by decide)⟩

end IndimailMta.Rate
