import IndimailMta.RateFiles
import Mathlib.Data.Nat.Digits.Defs

/-!
# What rate files stand for

The record that a rate file stands for, and what each writer is meant to make of it. In a run
whose calls meet `Sound` the file stands for the record in every state, and the readers find its
expression, its number and its times.
-/

namespace IndimailMta.RateFiles

open IndimailMta Lines Run Rate

/-- What a rate file stands for. -/
structure Rec where
  expr : Bytes
  count : Nat
  start : Nat
  last : Nat
  mtime : Nat
  plain : 0 ∉ expr
  count_lt : count < 2 ^ 64
  start_lt : start < 2 ^ 64
  last_lt : last < 2 ^ 64

variable (env : Env)

/-- The file has the record's fields. -/
structure Stands (f : File) (r : Rec) : Prop where
  fields : ∃ rest, getlns f.content =
    r.expr :: env.nm.fmtUlong r.count :: env.nm.fmtUlong r.start :: env.nm.fmtUlong r.last :: rest
  mtime : f.mtime = r.mtime

/-! ## What is meant -/

namespace Rec

/-- The count starts again. -/
def again (r : Rec) (now : Nat) : Bool := env.rate_int < (now : Int) - r.mtime

def rate (r : Rec) (now : Nat) : ℚ :=
  if r.again env now = true ∨ (now : Int) = datetime r.start then 0
  else env.fdiv r.count ((now : Int) - datetime r.start)

/-- One more delivery. -/
def counted (r : Rec) (l : Call) : Rec where
  expr := r.expr
  count := ((if r.again env l.now then 0 else r.count) + 1) % 2 ^ 64
  start := if r.again env l.now then l.now else r.start
  last := l.now
  mtime := l.now
  plain := r.plain
  count_lt := Nat.mod_lt _ (by decide)
  start_lt := by
    have hnow := l.now_lt
    have hstart := r.start_lt
    split <;> omega
  last_lt := by
    have hnow := l.now_lt
    omega

def rated (r : Rec) (l : Call) : Int × Rec :=
  match env.get_rate r.expr with
  | none => (-1, r)
  | some q =>
      if badExp env.toEnv l.rate_exp then (-1, r)
      else if ¬ force l.rate_exp ∧ 0 ≤ q ∧ q < r.rate env l.now then (0, r)
      else (1, r.counted env l)

/-- What `drate` shows of it. -/
def shown (r : Rec) (now : Nat) : List Shown :=
  [.conf r.expr, .count (env.nm.fmtUlong r.count), .start r.start, .updated r.last,
    .rate r.count ((now : Int) - datetime r.start)]

end Rec

/-- A single number in place of the expression, where it is asked for. -/
def meantExpr (u : Update) (e : Bytes) : Bytes :=
  if u.consolidate then cstr (env.fmt_double ((env.get_rate e).getD 0)) else e

variable {env} {u : Update} {e : Bytes}

theorem plain_newExpr (he : 0 ∉ e) : 0 ∉ newExpr u e := by
  have harg : ∀ d : Bytes, 0 ∉ d → 0 ∉ u.rate_expr.getD d := by
    intro d hd
    cases h : u.rate_expr with
    | none => exact hd
    | some x => exact u.plain x h
  rw [newExpr]
  split
  · rw [List.mem_append, not_or]
    exact ⟨he, harg [] List.not_mem_nil⟩
  · exact harg e he

theorem plain_meantExpr (he : 0 ∉ e) : 0 ∉ meantExpr env u e := by
  rw [meantExpr]
  split
  · exact nul_notMem_cstr _
  · exact he

theorem Update.now_lt' (u : Update) : u.now < 2 ^ 64 := by
  have hnow := u.now_lt
  omega

variable (env)

/-- A new record. -/
def fresh (e : Bytes) (he : 0 ∉ e) (count now : Nat) (hc : count < 2 ^ 64) (hn : now < 2 ^ 64) :
    Rec where
  expr := e
  count := count
  start := now
  last := now
  mtime := now
  plain := he
  count_lt := hc
  start_lt := hn
  last_lt := hn

/-- The record with another expression, and with no deliveries where the count starts again. -/
def Rec.updated (r : Rec) (u : Update) : Rec :=
  if u.reset_mode then
    fresh (meantExpr env u (newExpr u r.expr)) (plain_meantExpr (plain_newExpr r.plain)) 0 u.now
      (by decide) u.now_lt'
  else
    { r with
      expr := meantExpr env u (newExpr u r.expr)
      mtime := u.now
      plain := plain_meantExpr (plain_newExpr r.plain) }

/-- What `is_rate_ok` is meant to do. -/
def rated (meant : Option Rec) (l : Call) : Int × Option Rec :=
  match meant with
  | some r => ((r.rated env l).1, some (r.rated env l).2)
  | none =>
      match given l with
      | none => (-1, none)
      | some e =>
          if (env.get_rate e).isNone then (-1, none)
          else
            (1, some (fresh (cstr e) (nul_notMem_cstr e) 1 l.now (by decide)
              (l.now_lt.trans (by decide))))

/-- What `update_mode` is meant to do. -/
def updated (meant : Option Rec) (u : Update) : Option Rec :=
  match meant with
  | some r => some (r.updated env u)
  | none =>
      if u.reset_mode ∨ ¬ env.check_domain then none
      else
        some (fresh (meantExpr env u (newExpr u [])) (plain_meantExpr
          (plain_newExpr List.not_mem_nil)) 0 u.now (by decide) u.now_lt')

/-! ## Runs -/

inductive Op where
  | rated (l : Call) (_rate_expr : Bytes)
  | update (u : Update)

/-- The file, and the record that it is meant to stand for. -/
structure World where
  disk : Option File
  meant : Option Rec

def nothing : World := ⟨none, none⟩

def step (w : World) : Op → World
  | .rated l left => ⟨(is_rate_ok env w.disk l left).2, (rated env w.meant l).2⟩
  | .update u => ⟨(update_mode env w.disk u).or w.disk, updated env w.meant u⟩

def machine : Machine World Op where
  init w := w = nothing
  step w op := some (step env w op)

/-- The start time and the time of the last update that are put into the buffers. -/
def times (disk : Option File) (u : Update) : Nat × Nat :=
  match disk with
  | none => (u.now, u.now)
  | some f =>
      if u.reset_mode then (u.now, u.now)
      else
        (((getlns f.content)[2]?.map (scan env.toEnv)).getD 0,
          ((getlns f.content)[3]?.map (scan env.toEnv)).getD 0)

/-- The old expression. -/
def oldExpr (disk : Option File) : Bytes :=
  (disk.bind fun f => (getlns f.content).head?).getD []

/-- There is a NUL in the memory where the text of the last update ends, that text is not the
shorter one, and what is to be a number has a value; and a domain without a file is not given an
expression by `is_rate_ok`. -/
def Sound (w : World) : Op → Prop
  | .rated l _ => w.disk = none → given l = none
  | .update u =>
      u.etime.bytes[(env.nm.fmtUlong (times env w.disk u).2).length]? = some 0 ∧
      (env.nm.fmtUlong (times env w.disk u).1).length ≤
        (env.nm.fmtUlong (times env w.disk u).2).length ∧
      (u.consolidate = true → (env.get_rate (newExpr u (oldExpr w.disk))).isSome = true)

/-- The file stands for the record. -/
def Agree (w : World) : Prop :=
  match w.disk, w.meant with
  | none, none => True
  | some f, some r => Stands env f r
  | _, _ => False

/-! ## Texts in buffers -/

variable {env} {b : Buffer} {n : Nat} {t : Texts}

/-- The text of a number, with its NUL. -/
def Holds (nm : Ulongs) (b : Buffer) (n : Nat) : Prop :=
  ∃ rest, b.bytes = nm.fmtUlong n ++ 0 :: rest

theorem Holds.cstr {nm : Ulongs} (h : Holds nm b n) : cstr b.bytes = nm.fmtUlong n := by
  obtain ⟨rest, hb⟩ := h
  rw [hb]
  exact cstr_append rest (nm.nul_notMem_fmt n)

/-- A NUL further back does no harm. -/
theorem Holds.nul {nm : Ulongs} (h : Holds nm b n) {i : Nat}
    (hi : (nm.fmtUlong n).length ≤ i) : Holds nm (b.nul i) n := by
  obtain ⟨rest, hb⟩ := h
  have hset : (b.nul i).bytes =
      nm.fmtUlong n ++ (0 :: rest).set (i - (nm.fmtUlong n).length) 0 := by
    rw [Buffer.bytes_nul, hb, List.set_append_right _ _ hi]
  cases hk : i - (nm.fmtUlong n).length with
  | zero =>
      rw [hk] at hset
      exact ⟨rest, hset⟩
  | succ k =>
      rw [hk] at hset
      exact ⟨rest.set k 0, hset⟩

/-- The texts are shorter than the buffers. -/
theorem length_fmt_lt (nm : Ulongs) (h : n < 2 ^ 64) : (nm.fmtUlong n).length < 40 := by
  have hle : (Nat.toDigits 10 n).length ≤ 20 :=
    Nat.toDigits_length 10 n 20 (by decide) (h.trans (by decide))
  rw [nm.fmt_eq, decimalText, List.length_map]
  omega

theorem holds_fmt_nul (nm : Ulongs) (b : Buffer) (h : n < 2 ^ 64) :
    Holds nm ((b.fmt_ulong nm n).nul (nm.fmtUlong n).length) n := by
  have hroom := b.room
  have hlen := length_fmt_lt nm h
  cases hdrop : b.bytes.drop (nm.fmtUlong n).length with
  | nil =>
      have hle := List.drop_eq_nil_iff.mp hdrop
      omega
  | cons x rest =>
      refine ⟨rest, ?_⟩
      rw [Buffer.bytes_nul, Buffer.bytes_fmt_ulong, hdrop]
      exact set_middle _ _ _ _

/-- A text whose NUL was there before. -/
theorem holds_fmt (nm : Ulongs) (b : Buffer) (h : b.bytes[(nm.fmtUlong n).length]? = some 0) :
    Holds nm (b.fmt_ulong nm n) n := by
  refine ⟨b.bytes.drop ((nm.fmtUlong n).length + 1), ?_⟩
  obtain ⟨hlt, hx⟩ := List.getElem?_eq_some_iff.mp h
  rw [Buffer.bytes_fmt_ulong, List.drop_eq_getElem_cons hlt, hx]

/-- The three texts, where the last was ended before and is not the shorter one. -/
structure Ended (nm : Ulongs) (t : Texts) (count start last : Nat) : Prop where
  ecount : Holds nm t.ecount count
  stime : Holds nm t.stime start
  etime : Holds nm t.etime last

theorem ended_put {count start last : Nat} (hc : count < 2 ^ 64) (hs : start < 2 ^ 64)
    (hnul : t.etime.bytes[(env.nm.fmtUlong last).length]? = some 0)
    (hlen : (env.nm.fmtUlong start).length ≤ (env.nm.fmtUlong last).length) :
    Ended env.nm (putEnd env (putStart env (putCount env t count) start) last) count start last where
  ecount := holds_fmt_nul env.nm t.ecount hc
  stime := (holds_fmt_nul env.nm t.stime hs).nul hlen
  etime := holds_fmt env.nm t.etime hnul

/-! ## The fields of what is written -/

variable {f : File} {r : Rec} {l : Call}

theorem getlns_append {s : Bytes} (t : Bytes) (h : 0 ∉ s) :
    getlns (s ++ 0 :: t) = s :: getlns t := by
  rw [getlns, lines_append h, List.map_cons, List.dropLast_concat]
  rfl

/-- Four fields, and what is behind them. -/
theorem getlns_four {a b c d : Bytes} (rest : Bytes) (ha : 0 ∉ a) (hb : 0 ∉ b) (hc : 0 ∉ c)
    (hd : 0 ∉ d) :
    getlns (a ++ [0] ++ b ++ [0] ++ c ++ [0] ++ d ++ [0] ++ rest) =
      a :: b :: c :: d :: getlns rest := by
  have hcut : a ++ [0] ++ b ++ [0] ++ c ++ [0] ++ d ++ [0] ++ rest =
      a ++ 0 :: (b ++ 0 :: (c ++ 0 :: (d ++ 0 :: rest))) := by
    simp
  rw [hcut, getlns_append _ ha, getlns_append _ hb, getlns_append _ hc, getlns_append _ hd]

theorem getlns_written {e : Bytes} (he : 0 ∉ e) (count stime now : Nat) :
    ∃ rest, getlns (written env f e count stime now).content =
      e :: env.nm.fmtUlong count :: env.nm.fmtUlong stime :: env.nm.fmtUlong now :: rest := by
  refine ⟨getlns (f.content.drop (record env.toEnv e count stime now).length), ?_⟩
  rw [written, ← getlns_four (f.content.drop (record env.toEnv e count stime now).length) he
    (env.nm.nul_notMem_fmt count) (env.nm.nul_notMem_fmt stime) (env.nm.nul_notMem_fmt now)]
  rfl

/-- The file of texts that are ended stands for their record. -/
theorem stands_writeTexts (hplain : 0 ∉ r.expr) (hexpr : outExpr env u t.rexpr = r.expr)
    (ht : Ended env.nm t r.count r.start r.last) (hm : r.mtime = u.now) :
    Stands env (writeTexts env u t) r where
  fields := by
    have hcut := getlns_four [] hplain (env.nm.nul_notMem_fmt r.count)
      (env.nm.nul_notMem_fmt r.start) (env.nm.nul_notMem_fmt r.last)
    rw [List.append_nil] at hcut
    refine ⟨getlns [], ?_⟩
    rw [writeTexts, hexpr, ht.ecount.cstr, ht.stime.cstr, ht.etime.cstr]
    exact hcut
  mtime := hm.symm

/-! ## `is_rate_ok` on a file that stands for a record -/

theorem Stands.email_count (h : Stands env f r) (again : Bool) :
    email_count env.toEnv (getlns f.content) again = if again then 0 else r.count := by
  obtain ⟨rest, hfs⟩ := h.fields
  rw [Rate.email_count, hfs]
  cases again with
  | true => rfl
  | false => exact scan_fmt r.count_lt

theorem Stands.stime (h : Stands env f r) (again : Bool) (now : Nat) :
    stime env.toEnv (getlns f.content) again now = if again then now else r.start := by
  obtain ⟨rest, hfs⟩ := h.fields
  rw [Rate.stime, hfs]
  cases again with
  | true => rfl
  | false => exact scan_fmt r.start_lt

theorem Stands.cur_rate (h : Stands env f r) (now : Nat) :
    cur_rate env.toEnv (getlns f.content) (r.again env now) now = r.rate env now := by
  have hlen : ¬ (getlns f.content).length < 4 := by
    obtain ⟨rest, hfs⟩ := h.fields
    rw [hfs]
    simp
  rw [Rate.cur_rate, Rec.rate, h.email_count, h.stime]
  cases hagain : r.again env now with
  | true => simp
  | false =>
      simp only [Bool.false_eq_true, hlen, or_self, if_false, false_or]

/-- `is_rate_ok` answers as the record says, and leaves a file that stands for its record. -/
theorem Stands.is_rate_ok (h : Stands env f r) (l : Call) (left : Bytes) :
    ∃ f', is_rate_ok env (some f) l left = ((r.rated env l).1, some f') ∧
      Stands env f' (r.rated env l).2 := by
  have hhead : (getlns f.content).head? = some r.expr := by
    obtain ⟨rest, hfs⟩ := h.fields
    rw [hfs]
    rfl
  have hagain : decide (env.rate_int < (l.now : Int) - f.mtime) = r.again env l.now := by
    rw [h.mtime]
    rfl
  rw [RateFiles.is_rate_ok, Rec.rated]
  simp only [hagain, hhead, Option.any_some, Option.getD_some]
  cases hq : env.get_rate r.expr with
  | none => exact ⟨f, by simp, h⟩
  | some q =>
      dsimp only
      by_cases hbad : badExp env.toEnv l.rate_exp = true
      · exact ⟨f, by simp [hbad], by simpa [hbad] using h⟩
      · have hexc : exceeded env (getlns f.content) (r.again env l.now) l ↔
            ¬ force l.rate_exp ∧ 0 ≤ q ∧ q < r.rate env l.now := by
          rw [exceeded, hhead, h.cur_rate]
          simp [hq]
        by_cases hx : ¬ force l.rate_exp ∧ 0 ≤ q ∧ q < r.rate env l.now
        · have hx' := hexc.mpr hx
          refine ⟨f, ?_, ?_⟩
          · rw [if_neg (by simp [hbad]), if_pos hx', if_neg hbad, if_pos hx]
          · rw [if_neg hbad, if_pos hx]
            exact h
        · have hx' := fun hc => hx (hexc.mp hc)
          rw [if_neg (by simp [hbad]), if_neg hx', if_neg hbad, if_neg hx]
          refine ⟨_, rfl, ?_, rfl⟩
          rw [h.email_count, h.stime]
          exact getlns_written r.plain _ _ _

/-! ## `update_mode` on a file that stands for a record -/

/-- From the fifth line on nothing is read. -/
theorem readLines_five (n : Nat) (ls : List Bytes) : readLines env u (n + 5) ls t = t := by
  induction ls generalizing n with
  | nil => rfl
  | cons line ls ih =>
      rw [readLines]
      split
      · rfl
      · exact ih (n + 1)

/-- Where the count starts again, only the first line is read. -/
theorem readLines_reset (hreset : u.reset_mode = true) (a : Bytes) (ls : List Bytes) :
    readLines env u 1 (a :: ls) t = { t with rexpr := t.rexpr ++ newExpr u a } := by
  rw [readLines, if_neg (by simp), readLine]
  cases ls with
  | nil => rfl
  | cons b ls => rw [readLines, if_pos ⟨by decide, hreset⟩]

theorem readLines_four (hreset : u.reset_mode = false) (a b c d : Bytes) (ls : List Bytes) :
    readLines env u 1 (a :: b :: c :: d :: ls) t =
      putEnd env (putStart env (putCount env { t with rexpr := t.rexpr ++ newExpr u a }
        (scan env.toEnv b)) (scan env.toEnv c)) (scan env.toEnv d) := by
  have hgo : ∀ n : Nat, ¬ (1 < n ∧ u.reset_mode = true) := fun n hn => by
    rw [hreset] at hn
    exact Bool.false_ne_true hn.2
  rw [readLines, if_neg (hgo _), readLines, if_neg (hgo _), readLines, if_neg (hgo _), readLines,
    if_neg (hgo _)]
  exact readLines_five 0 ls

/-- A number that is asked for is the same whatever was in memory, if it has a value. -/
theorem outExpr_eq {e : Bytes}
    (h : u.consolidate = true → (env.get_rate e).isSome = true) :
    outExpr env u e = meantExpr env u e := by
  rw [outExpr, meantExpr]
  cases hc : u.consolidate with
  | false => rfl
  | true =>
      obtain ⟨q, hq⟩ := Option.isSome_iff_exists.mp (h hc)
      rw [hq]
      rfl

theorem Stands.update_mode (h : Stands env f r)
    (hs : Sound env ⟨some f, some r⟩ (.update u)) :
    ∃ f', update_mode env (some f) u = some f' ∧ Stands env f' (r.updated env u) := by
  obtain ⟨rest, hfs⟩ := h.fields
  obtain ⟨hnul, hlen, hval⟩ := hs
  have hold : oldExpr (some f) = r.expr := by
    rw [oldExpr, Option.bind_some, hfs]
    rfl
  rw [hold] at hval
  have hplain : 0 ∉ newExpr u r.expr := plain_newExpr r.plain
  refine ⟨_, rfl, ?_⟩
  rw [hfs]
  cases hreset : u.reset_mode with
  | true =>
      rw [if_pos rfl, readLines_reset hreset, Rec.updated, if_pos hreset]
      simp only [times, hreset, if_true] at hnul hlen
      have hend : Ended env.nm (anew env u (memory u)) 0 u.now u.now :=
        ended_put (by decide) u.now_lt' hnul hlen
      exact stands_writeTexts (plain_meantExpr hplain) (outExpr_eq hval)
        ⟨hend.ecount, hend.stime, hend.etime⟩ rfl
  | false =>
      rw [if_neg Bool.false_ne_true, readLines_four hreset, Rec.updated,
        if_neg (by simp [hreset]), scan_fmt r.count_lt, scan_fmt r.start_lt, scan_fmt r.last_lt]
      have htimes : times env (some f) u = (r.start, r.last) := by
        rw [times, hreset, if_neg Bool.false_ne_true, hfs]
        exact Prod.ext (scan_fmt r.start_lt) (scan_fmt r.last_lt)
      rw [htimes] at hnul hlen
      exact stands_writeTexts (plain_meantExpr hplain) (outExpr_eq hval)
        (ended_put r.count_lt r.start_lt hnul hlen) rfl

/-- A file that is made. -/
theorem update_mode_none (hs : Sound env ⟨none, none⟩ (.update u)) :
    Agree env (step env nothing (.update u)) := by
  obtain ⟨hnul, hlen, hval⟩ := hs
  have hplain : 0 ∉ newExpr u [] := plain_newExpr List.not_mem_nil
  have hexpr : u.rate_expr.getD [] = newExpr u [] := by
    rw [newExpr]
    split <;> rfl
  rw [step, nothing, RateFiles.update_mode, updated]
  by_cases hend : u.reset_mode = true ∨ ¬ env.check_domain = true
  · rw [if_pos hend, if_pos hend]
    exact trivial
  · rw [if_neg hend, if_neg hend]
    apply stands_writeTexts (plain_meantExpr hplain)
    · rw [hexpr]
      exact outExpr_eq hval
    · exact ended_put (by decide) u.now_lt' hnul hlen
    · rfl

/-! ## `do_display` of a file that stands for a record -/

theorem showLines_five (now n : Nat) (ls : List Bytes) (s : Seen) :
    showLines env now (n + 5) ls s = [] := by
  induction ls generalizing n s with
  | nil => rfl
  | cons line ls ih =>
      rw [showLines]
      exact ih (n + 1) s

theorem Stands.do_display (h : Stands env f r) (now : Nat) :
    do_display env f now = r.shown env now := by
  obtain ⟨rest, hfs⟩ := h.fields
  rw [RateFiles.do_display, hfs]
  simp only [showLines, showLine, showLines_five, scan_fmt r.count_lt, scan_fmt r.start_lt,
    scan_fmt r.last_lt]
  rfl

/-! ## What a run keeps -/

/-- One call. -/
theorem Agree.step {w : World} {op : Op} (h : Agree env w) (hs : Sound env w op) :
    Agree env (step env w op) := by
  obtain ⟨disk, meant⟩ := w
  cases disk with
  | none =>
      cases meant with
      | some r => exact h.elim
      | none =>
          cases op with
          | rated l left =>
              rw [RateFiles.step, RateFiles.is_rate_ok, rated, hs rfl]
              exact trivial
          | update u => exact update_mode_none hs
  | some f =>
      cases meant with
      | none => exact h.elim
      | some r =>
          have hstands : Stands env f r := h
          cases op with
          | rated l left =>
              obtain ⟨f', hf, hr⟩ := hstands.is_rate_ok l left
              rw [RateFiles.step, hf]
              exact hr
          | update u =>
              obtain ⟨f', hf, hr⟩ := hstands.update_mode hs
              rw [RateFiles.step, hf]
              exact hr

/-- **The rule for runs.** -/
theorem agree_of_run {ops : List Op} {w : World}
    (hs : (machine env).Meets (Sound env) nothing ops)
    (he : (machine env).exec nothing ops = some w) : Agree env w := by
  have hstep : ∀ s op s', Agree env s → Sound env s op → (machine env).step s op = some s' →
      Agree env s' := by
    intro s op s' hi hc hstep
    rw [← Option.some.inj hstep]
    exact Agree.step hi hc
  have hstart : Agree env nothing := trivial
  exact Machine.exec_invariant hstep hstart hs he

/-- In a run whose calls are all `Sound`, the file has the fields of the record that the calls
meant to leave, and `is_rate_ok` and `do_display` find that record. -/
theorem rate_files_mean_the_same (env : Env) (ops : List Op) (w : World)
    (hs : (machine env).Meets (Sound env) nothing ops)
    (he : (machine env).exec nothing ops = some w) :
    (w.disk = none ↔ w.meant = none) ∧
    ∀ f ∈ w.disk, ∀ r ∈ w.meant, Stands env f r ∧
      (∀ now, do_display env f now = r.shown env now) ∧
      ∀ l left, (is_rate_ok env (some f) l left).1 = (r.rated env l).1 := by
  have h := agree_of_run hs he
  obtain ⟨disk, meant⟩ := w
  cases disk with
  | none =>
      cases meant with
      | none => exact ⟨by simp, fun f hf => nomatch hf⟩
      | some r => exact h.elim
  | some f =>
      cases meant with
      | none => exact h.elim
      | some r =>
          refine ⟨by simp, ?_⟩
          intro f' hf r' hr
          cases hf
          cases hr
          refine ⟨h, Stands.do_display h, ?_⟩
          intro l left
          obtain ⟨f', hf', -⟩ := Stands.is_rate_ok h l left
          rw [hf']

/-! ## A domain without a file -/

/-- `perMinute`, for a domain that is well formed. -/
def minutes : Env where
  toEnv := perMinute
  check_domain := true
  fmt_double _ := [48]
  nul_notMem_double _ := by decide

/-- A buffer with nothing but NULs. -/
def zeros : Buffer := ⟨List.replicate 40 0, by decide⟩

def perMinuteAt (now : Nat) (h : now < 2 ^ 63) : Call := ⟨now, some (asc "1/60"), h⟩

/-- The second call writes five fields, of which the second is empty. -/
theorem expression_shifts_the_fields : ¬ ∀ (env : Env) (ops : List Op) (w : World),
    (machine env).exec nothing ops = some w → ∀ l left, (is_rate_ok env w.disk l left).1 = 1 →
      ∀ f ∈ (is_rate_ok env w.disk l left).2, ∃ r, Stands env f r := by
  intro h
  obtain ⟨r, hr⟩ := h minutes [.rated (perMinuteAt 1000 (by decide)) []] _ rfl
    (perMinuteAt 1001 (by decide)) [] (by decide +kernel) _ rfl
  obtain ⟨rest, hfs⟩ := hr.fields
  have hsecond : (getlns (asc "1/60" ++ [0, 0] ++ asc "1" ++ [0] ++ asc "1001" ++ [0] ++
      asc "1001" ++ [0]))[1]? = some [] := by decide +kernel
  have hcount : some [] = some (minutes.nm.fmtUlong r.count) := by
    rw [← hsecond]
    exact congrArg (fun x : List Bytes => x[1]?) hfs
  exact minutes.nm.fmt_ne_nil r.count (Option.some.inj hcount).symm

theorem newFile_now : 1000 < 2 ^ 63 := by decide

/-- A new file, in memory that was NULs. -/
def newFile : Update where
  now := 1000
  rate_expr := some (asc "1/60")
  reset_mode := false
  consolidate := false
  incr := false
  ecount := zeros
  stime := zeros
  etime := zeros
  rate := 0
  now_lt := newFile_now
  plain := by decide
  asked := by decide

theorem rate_files_mean_the_same_new :
    ∃ f ∈ (step minutes (step minutes nothing (.update newFile)) (.rated at1000 [])).disk,
      ∃ r ∈ (step minutes (step minutes nothing (.update newFile)) (.rated at1000 [])).meant,
        Stands minutes f r := by
  obtain ⟨-, h⟩ := rate_files_mean_the_same minutes [.update newFile, .rated at1000 []] _
    ⟨⟨by decide +kernel, by decide +kernel, nofun⟩, fun _ _ => ⟨fun _ => rfl, fun _ _ => trivial⟩⟩
    rfl
  obtain ⟨f, hf⟩ := Option.isSome_iff_exists.mp (show (step minutes (step minutes nothing
    (.update newFile)) (.rated at1000 [])).disk.isSome = true by decide +kernel)
  obtain ⟨r, hr⟩ := Option.isSome_iff_exists.mp (show (step minutes (step minutes nothing
    (.update newFile)) (.rated at1000 [])).meant.isSome = true by decide +kernel)
  exact ⟨f, hf, r, hr, (h f hf r hr).1⟩

end IndimailMta.RateFiles
