import IndimailMta.Rate

/-!
# Rate files

Two programs write rate files, and `is_rate_ok` and `drate` read them. `drate` makes a file, puts
another rate expression into it, adds to the expression, starts the count again, or puts a single
number in place of the expression; `is_rate_ok` counts a delivery. What the file stands for is a
record of an expression, a number and two times, and every writer is meant to leave the file of the
record that it makes of the one it finds.

The writers keep the numbers as texts in buffers. `drate` puts the NUL that is to end the text of
the last update into the buffer of the start time, and `is_rate_ok`, given an expression for a
domain without a file, makes a file without a field.
-/

namespace IndimailMta.RateFiles

open IndimailMta Lines Run Rate

/-- What is outside: `check_domain`, and the text of a `double`. -/
structure Env extends Rate.Env where
  check_domain : Bool
  fmt_double : ℚ → Bytes
  nul_notMem_double : ∀ q, 0 ∉ fmt_double q

structure File where
  content : Bytes
  mtime : Nat
  deriving DecidableEq

variable (env : Env)

/-- The lines, as `getln` reads them, each with one byte less. -/
def getlns (content : Bytes) : List Bytes := (lines 0 content).map List.dropLast

/-! ## `is_rate_ok` -/

/-- The expression of the argument: `-1` is none. -/
def given (l : Call) : Option Bytes := if force l.rate_exp then none else l.rate_exp

def exceeded (fs : List Bytes) (r : Bool) (l : Call) : Prop :=
  ¬ force l.rate_exp ∧
    ∃ conf_rate ∈ (fs.head?).bind env.get_rate, 0 ≤ conf_rate ∧
      conf_rate < cur_rate env.toEnv fs r l.now

instance (fs : List Bytes) (r : Bool) (l : Call) : Decidable (exceeded env fs r l) :=
  match h : (fs.head?).bind env.get_rate with
  | none => isFalse fun hx => by
      obtain ⟨-, q, hq, -⟩ := hx
      rw [h] at hq
      exact nomatch hq
  | some q =>
      decidable_of_iff
        (¬ force l.rate_exp ∧ 0 ≤ q ∧ q < cur_rate env.toEnv fs r l.now) (by
          rw [exceeded, h]
          simp)

/-- The fields are written over what is there. -/
def written (f : File) (expr : Bytes) (count stime now : Nat) : File where
  content := record env.toEnv expr count stime now ++
    f.content.drop (record env.toEnv expr count stime now).length
  mtime := now

/-- `is_rate_ok`; `_rate_expr` is what an earlier call left. -/
def is_rate_ok (disk : Option File) (l : Call) (_rate_expr : Bytes) : Int × Option File :=
  match disk with
  | none =>
      match given l with
      | none => (-1, none)
      | some e => (if (env.get_rate e).isNone then -1 else 2, some ⟨[], l.now⟩)
  | some f =>
      let fs := getlns f.content
      let r : Bool := env.rate_int < (l.now : Int) - f.mtime
      if badExp env.toEnv l.rate_exp ∨ fs.head?.any fun e => (env.get_rate e).isNone then
        (-1, some f)
      else if exceeded env fs r l then (0, some f)
      else
        (1, some (written env f
          (fs.head?.getD (((given l).map fun e => e ++ [0]).getD _rate_expr))
          ((email_count env.toEnv fs r + 1) % 2 ^ 64) (stime env.toEnv fs r l.now) l.now))

/-- The file that is left, as one that may be without NULs. -/
def File.of (f : RateFile) : File := ⟨f.content, f.mtime⟩

def code : Answer → Int
  | .error => -1
  | .exceeded => 0
  | .fine => 1

variable {env} in
/-- On a file whose fields are all ended, and that is not empty, it is `Rate.is_rate_ok`. -/
theorem is_rate_ok_of (f : RateFile) (l : Call) (left : Bytes) :
    is_rate_ok env (some (File.of f)) l left =
      (code (Rate.is_rate_ok env.toEnv f l).1, some (File.of (Rate.is_rate_ok env.toEnv f l).2)) := by
  have hlns : getlns f.content = fields 0 f.content := by
    obtain ⟨s, hs⟩ := List.getLast?_eq_some_iff.mp f.ended
    rw [getlns, hs]
    exact map_dropLast_lines s
  have hne : fields 0 f.content ≠ [] := by
    obtain ⟨s, hs⟩ := List.getLast?_eq_some_iff.mp f.ended
    intro hnil
    have hput := flatMap_fields (z := (0 : Byte)) s
    rw [← hs, hnil] at hput
    rw [← hput] at hs
    simp at hs
  obtain ⟨e, rest, hfs⟩ := List.exists_cons_of_ne_nil hne
  have hreset : decide (env.rate_int < (l.now : Int) - (File.of f).mtime) =
      reset env.toEnv f l.now := rfl
  have hcontent : (File.of f).content = f.content := rfl
  rw [is_rate_ok, Rate.is_rate_ok]
  simp only [hreset, hcontent, hlns, hfs, List.head?_cons, Option.any_some,
    List.getElem?_cons_zero, Option.bind_some, Option.getD_some]
  by_cases hbad : badExp env.toEnv l.rate_exp = true
  · rw [if_pos (Or.inl hbad), if_pos hbad]
    rfl
  · rw [if_neg hbad]
    cases hq : env.get_rate e with
    | none =>
        simp only [Option.isNone_none, or_true, if_true]
        rfl
    | some q =>
        simp only [Option.isNone_some, hbad, Bool.false_eq_true, or_self, if_false]
        have hx : exceeded env (e :: rest) (reset env.toEnv f l.now) l ↔
            (!force l.rate_exp) = true ∧ 0 ≤ q ∧
              q < cur_rate env.toEnv (e :: rest) (reset env.toEnv f l.now) l.now := by
          rw [exceeded, List.head?_cons, Option.bind_some, hq]
          simp
        by_cases hexc : exceeded env (e :: rest) (reset env.toEnv f l.now) l
        · rw [if_pos hexc, if_pos (hx.mp hexc)]
          rfl
        · rw [if_neg hexc, if_neg fun h => hexc (hx.mpr h)]
          rfl

/-! ## `update_mode` -/

/-- A `char[FMT_ULONG]`, and what is behind it. -/
structure Buffer where
  bytes : Bytes
  room : 40 ≤ bytes.length

namespace Buffer

def fmt_ulong (nm : Ulongs) (b : Buffer) (n : Nat) : Buffer where
  bytes := nm.fmtUlong n ++ b.bytes.drop (nm.fmtUlong n).length
  room := by
    have hroom := b.room
    rw [List.length_append, List.length_drop]
    omega

def nul (b : Buffer) (i : Nat) : Buffer where
  bytes := b.bytes.set i 0
  room := by
    rw [List.length_set]
    exact b.room

@[simp] theorem bytes_fmt_ulong (nm : Ulongs) (b : Buffer) (n : Nat) :
    (b.fmt_ulong nm n).bytes = nm.fmtUlong n ++ b.bytes.drop (nm.fmtUlong n).length := rfl

@[simp] theorem bytes_nul (b : Buffer) (i : Nat) : (b.nul i).bytes = b.bytes.set i 0 := rfl

end Buffer

/-- A call of `update_mode`, and what was in memory before. -/
structure Update where
  now : Nat
  rate_expr : Option Bytes
  reset_mode : Bool
  consolidate : Bool
  incr : Bool
  ecount : Buffer
  stime : Buffer
  etime : Buffer
  rate : ℚ
  now_lt : now < 2 ^ 63
  plain : ∀ e ∈ rate_expr, (0 : Byte) ∉ e
  asked : reset_mode = false ∨ incr = true → rate_expr.isSome = true

/-- The texts that are written. -/
structure Texts where
  rexpr : Bytes
  ecount : Buffer
  stime : Buffer
  etime : Buffer

/-- The text of the end time, and the NUL that is put behind the start time. -/
def putEnd (t : Texts) (endtime : Nat) : Texts :=
  { t with
    etime := t.etime.fmt_ulong env.nm endtime
    stime := t.stime.nul (env.nm.fmtUlong endtime).length }

def putStart (t : Texts) (starttime : Nat) : Texts :=
  { t with
    stime := (t.stime.fmt_ulong env.nm starttime).nul (env.nm.fmtUlong starttime).length }

def putCount (t : Texts) (email_count : Nat) : Texts :=
  { t with
    ecount := (t.ecount.fmt_ulong env.nm email_count).nul (env.nm.fmtUlong email_count).length }

/-- What the buffers hold when the count starts again. -/
def anew (u : Update) (t : Texts) : Texts :=
  putEnd env (putStart env (putCount env t 0) u.now) u.now

def memory (u : Update) : Texts := ⟨[], u.ecount, u.stime, u.etime⟩

/-- The expression that is put in place of `old`. -/
def newExpr (u : Update) (old : Bytes) : Bytes :=
  if u.incr then old ++ u.rate_expr.getD [] else u.rate_expr.getD old

def readLine (u : Update) (line_no : Nat) (line : Bytes) (t : Texts) : Texts :=
  match line_no with
  | 1 => { t with rexpr := t.rexpr ++ newExpr u line }
  | 2 => putCount env t (scan env.toEnv line)
  | 3 => putStart env t (scan env.toEnv line)
  | 4 => putEnd env t (scan env.toEnv line)
  | _ => t

def readLines (u : Update) : Nat → List Bytes → Texts → Texts
  | _, [], t => t
  | line_no, line :: rest, t =>
      if 1 < line_no ∧ u.reset_mode then t
      else readLines u (line_no + 1) rest (readLine env u line_no line t)

/-- The first field that is written. -/
def outExpr (u : Update) (rexpr : Bytes) : Bytes :=
  if u.consolidate then cstr (env.fmt_double ((env.get_rate rexpr).getD u.rate)) else rexpr

def writeTexts (u : Update) (t : Texts) : File where
  content := outExpr env u t.rexpr ++ [0] ++ cstr t.ecount.bytes ++ [0] ++ cstr t.stime.bytes ++
    [0] ++ cstr t.etime.bytes ++ [0]
  mtime := u.now

/-- `update_mode`: the file that is written, or none where it ends before. -/
def update_mode (disk : Option File) (u : Update) : Option File :=
  match disk with
  | none =>
      if u.reset_mode ∨ ¬ env.check_domain then none
      else some (writeTexts env u (anew env u { memory u with rexpr := u.rate_expr.getD [] }))
  | some f =>
      some (writeTexts env u (readLines env u 1 (getlns f.content)
        (if u.reset_mode then anew env u (memory u) else memory u)))

/-! ## `do_display` -/

/-- What is printed of a line. -/
inductive Shown where
  | conf (expr : Bytes)
  | count (text : Bytes)
  | start (t : Nat)
  | updated (t : Nat)
  | rate (email_count : Nat) (secs : Int)
  deriving DecidableEq

/-- The variables that the lines set. -/
structure Seen where
  email_count : Nat
  starttime : Nat

def showLine (now line_no : Nat) (line : Bytes) (s : Seen) : Seen × List Shown :=
  match line_no with
  | 1 => (s, [.conf line])
  | 2 => ({ s with email_count := scan env.toEnv line }, [.count line])
  | 3 => ({ s with starttime := scan env.toEnv line }, [.start (scan env.toEnv line)])
  | 4 => (s, [.updated (scan env.toEnv line),
      .rate s.email_count ((now : Int) - datetime s.starttime)])
  | _ => (s, [])

def showLines (now : Nat) : Nat → List Bytes → Seen → List Shown
  | _, [], _ => []
  | line_no, line :: rest, s =>
      (showLine env now line_no line s).2 ++
        showLines now (line_no + 1) rest (showLine env now line_no line s).1

def do_display (f : File) (now : Nat) : List Shown :=
  showLines env now 1 (getlns f.content) ⟨0, 0⟩

end IndimailMta.RateFiles
