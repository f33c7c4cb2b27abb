import Mathlib.Data.List.DropRight
import IndimailMta.Base

/-!
# The interpreter of `.qmail`

`qmail-local` goes over the text once and puts a NUL where a line or its trailing blanks end, so that
the rest of a line is the argument of what it asks for. A line with `?` runs a program and may go on
behind a line with a label, which it looks for from its own newline.

Addresses are kept as pointers into the text until the last line, in an array for as many of them as
a scan over the text has counted.
-/

namespace IndimailMta.Local

open IndimailMta

/-! ## What is done -/

/-- What a line asks for; or where a branch goes on: the length of the text that is left. -/
inductive Event where
  | envdir (dir : Bytes)
  | maildir (fn : Bytes)
  | mailfile (fn : Bytes)
  | mailprogram (prog : Bytes)
  | filterit (cmd : Bytes)
  | goto (left : Nat)
  deriving DecidableEq, Repr

inductive Next where
  | goOn
  | flag99
  | dies (code : Nat)
  deriving DecidableEq, Repr

/-- What the exit code of a program means; no code is one that crashed or was not run. -/
def exitcode : Option Nat → Next
  | none => .dies 111
  | some code =>
      if code ∈ [100, 64, 65, 70, 76, 77, 78, 112] then .dies 100
      else if code = 0 then .goOn
      else if code = 99 then .flag99
      else .dies 111

/-- What comes of an event: the result is that of `envdir`, the exit code of the child, or the code
`mailfile` exits with. -/
def Event.next : Event → Option Nat → Next
  | .mailprogram _, r => exitcode r
  | .filterit _, some 0 => .goOn
  | .filterit _, some 100 => .dies 100
  | .filterit _, some 99 => .flag99
  | .filterit _, _ => .dies 111
  | .envdir _, some 0 => .goOn
  | .envdir _, _ => .dies 111
  | .maildir _, some 0 => .goOn
  | .maildir _, some 5 => .dies 100
  | .maildir _, _ => .dies 111
  | .mailfile _, some 0 => .goOn
  | .mailfile _, some code => .dies code
  | .mailfile _, none => .dies 111
  | .goto _, _ => .goOn

/-- How the interpreter ends: it exits, it has stored more addresses than it has room for, or it
passes addresses to `mailforward`. -/
inductive Final where
  | dies (code : Nat)
  | overflows
  | forwards (recips : List Bytes)
  deriving DecidableEq, Repr

structure Outcome where
  events : List Event
  final : Final
  deriving DecidableEq, Repr

def Outcome.after (es : List Event) (o : Outcome) : Outcome := { o with events := es ++ o.events }

/-! ## The code -/

/-- The bytes of the text that are left for the interpreter. -/
def prepare (cmds aliasempty : Bytes) (cutable : Bool) : Bytes × Bool :=
  let r := if cmds = [] then (aliasempty, false) else (cmds, cutable)
  (if r.1.getLast? = some 10 then r.1 else r.1 ++ [10], r.2)

/-- The first scan. -/
def countLoop (cmds : Bytes) : Nat → Nat → Nat → Nat → Nat
  | 0, _, _, numforward => numforward
  | turns + 1, i, j, numforward =>
      if cmds.getD j 0 = 10 then
        countLoop cmds turns (j + 1) (j + 1)
          (if cmds.getD i 0 ∈ [37, 35, 46, 47, 124] then numforward else numforward + 1)
      else countLoop cmds turns i (j + 1) numforward

/-- The loop that takes trailing blanks off. -/
def trim (i : Nat) : Nat → Bytes → Nat × Bytes
  | 0, cmds => (0, cmds)
  | k + 1, cmds =>
      if i < k + 1 ∧ (cmds.getD k 0 = 32 ∨ cmds.getD k 0 = 9) then trim i k (cmds.set k 0)
      else (k + 1, cmds)

/-- A loop over `l` up to `stop` that is left at the first byte with a property. -/
def seek (p : Byte → Bool) (cmds : Bytes) (stop : Nat) : Nat → Nat → Nat
  | 0, l => l
  | turns + 1, l =>
      if l < stop then if p (cmds.getD l 0) then l else seek p cmds stop turns (l + 1) else l

def isBlank (b : Byte) : Bool := b == 32 || b == 9

/-- `str_diffn` of two texts is 0. -/
def equaln : Nat → Bytes → Bytes → Bool
  | 0, _, _ => true
  | n + 1, s, t =>
      if s.headD 0 = t.headD 0 then if s.headD 0 = 0 then true else equaln n s.tail t.tail
      else false

/-- The loop that looks for a label: where it leaves `j`. -/
def findLabel (cmds : Bytes) (i : Nat) : Nat → Nat → Nat
  | 0, j => j
  | turns + 1, j =>
      if j + 1 < cmds.length then
        if cmds.getD j 0 = 10 ∧ cmds.getD (j + 1) 0 = 58 then
          let l := j + 2
          let j := seek (fun b => b == 0 || b == 9 || b == 10 || b == 32) cmds cmds.length
            cmds.length l
          if equaln (j - l) (cmds.drop i) (cmds.drop l) then
            seek (· == 10) cmds cmds.length cmds.length j
          else findLabel cmds i turns (j - 1 + 1)
        else findLabel cmds i turns (j + 1)
      else j

structure Run where
  cmds : Bytes
  i : Nat
  j : Nat
  recips : List Nat
  flag99 : Bool
  flagforwardonly : Bool
  calls : Nat
  deriving DecidableEq, Repr

inductive Step where
  | dies (code : Nat)
  | overflows
  | goes (r : Run)

/-- A call, and what it returns. -/
def call (answers : Nat → Option Nat) (r : Run) (e : Event) : List Event × Step :=
  match e.next (answers r.calls) with
  | .goOn => ([e], .goes { r with calls := r.calls + 1 })
  | .flag99 => ([e], .goes { r with calls := r.calls + 1, flag99 := true })
  | .dies code => ([e], .dies code)

/-- The end of the case `?`: `missing` is `l == k`. -/
def branch (r : Run) (i : Nat) (missing : Bool) : List Event × Step :=
  if missing || r.flag99 then
    let cmds := r.cmds.set r.j 10
    let j := findLabel cmds i cmds.length r.j
    ([.goto (cmds.length - (j + 1))], .goes { r with cmds := cmds, j := j, flag99 := false })
  else ([], .goes r)

/-- The `switch` over the first byte of a line, which ends at `k`. -/
def command (answers : Nat → Option Nat) (counted k : Nat) (r : Run) : List Event × Step :=
  let c := r.cmds.getD r.i 0
  if c = 0 then if r.i ≠ 0 then ([], .goes r) else ([], .dies 111)
  else if c = 37 then
    call answers r (.envdir ((cstr (r.cmds.drop (r.i + 1))).dropWhile isBlank))
  else if c = 35 ∨ c = 58 then ([], .goes r)
  else if c = 46 ∨ c = 47 then
    if r.flagforwardonly then ([], .dies 111)
    else if r.cmds.getD (k - 1) 0 = 47 then call answers r (.maildir (cstr (r.cmds.drop r.i)))
    else call answers r (.mailfile (cstr (r.cmds.drop r.i)))
  else if c = 124 then
    if r.flagforwardonly then ([], .dies 111)
    else
      let x := (cstr (r.cmds.drop (r.i + 1))).dropWhile isBlank
      if asc "filterit " <+: x then call answers r (.filterit x)
      else call answers r (.mailprogram (cstr (r.cmds.drop (r.i + 1))))
  else if c = 63 then
    let i := r.i + 1
    let l := seek isBlank r.cmds k r.cmds.length i
    if l < k then
      let r := { r with cmds := r.cmds.set l 0 }
      let l := seek (fun b => !isBlank b) r.cmds k r.cmds.length (l + 1)
      if l < k then
        if r.flagforwardonly then ([], .dies 111)
        else
          match call answers r (.mailprogram (cstr (r.cmds.drop l))) with
          | (es, .goes r) =>
              let b := branch r i false
              (es ++ b.1, b.2)
          | ended => ended
      else branch r i true
    else branch r i true
  else if c = 43 then
    if cstr (r.cmds.drop (r.i + 1)) = asc "list" then ([], .goes { r with flagforwardonly := true })
    else ([], .goes r)
  else
    let i := if c = 38 then r.i + 1 else r.i
    if r.recips.length < counted then ([], .goes { r with recips := r.recips ++ [i] })
    else ([], .overflows)

/-- What is done at a newline. -/
def line (answers : Nat → Option Nat) (counted : Nat) (r : Run) : List Event × Step :=
  let q := trim r.i r.j (r.cmds.set r.j 0)
  command answers counted q.1 { r with cmds := q.2 }

/-- The loop over `j`, and the call of `mailforward`. -/
def loop (answers : Nat → Option Nat) (counted : Nat) : Nat → Run → Outcome
  | 0, r => ⟨[], .forwards (r.recips.map fun i => cstr (r.cmds.drop i))⟩
  | turns + 1, r =>
      if r.j < r.cmds.length then
        if r.cmds.getD r.j 0 = 10 then
          match line answers counted r with
          | (es, .dies code) => ⟨es, .dies code⟩
          | (es, .overflows) => ⟨es, .overflows⟩
          | (es, .goes r) =>
              let r := { r with i := r.j + 1, j := r.j + 1 }
              if r.flag99 then ⟨es, .forwards (r.recips.map fun i => cstr (r.cmds.drop i))⟩
              else (loop answers counted turns r).after es
        else loop answers counted turns { r with j := r.j + 1 }
      else ⟨[], .forwards (r.recips.map fun i => cstr (r.cmds.drop i))⟩

def qmail_local (answers : Nat → Option Nat) (text aliasempty : Bytes) (cutable : Bool) : Outcome :=
  let p := prepare text aliasempty cutable
  loop answers (countLoop p.1 p.1.length 0 0 0) p.1.length ⟨p.1, 0, 0, [], false, p.2, 0⟩

/-! ## The reference -/

/-- What a line says. -/
inductive Instruction where
  | blank
  | nothing
  | call (e : Event)
  | branch (label : Bytes) (prog : Option Bytes)
  | forwardOnly
  | forward (addr : Bytes)
  deriving DecidableEq, Repr

/-- The label at the beginning of a text. -/
def labelOf (s : Bytes) : Bytes := s.takeWhile fun b => !(b == 0 || b == 9 || b == 10 || b == 32)

/-- The instruction of a line without its trailing blanks. -/
def read (t : Bytes) : Instruction :=
  let c := t.headD 0
  let arg := (cstr t.tail).dropWhile isBlank
  if c = 0 then .blank
  else if c = 37 then .call (.envdir arg)
  else if c = 35 ∨ c = 58 then .nothing
  else if c = 46 ∨ c = 47 then
    if t.getLast? = some 47 then .call (.maildir (cstr t)) else .call (.mailfile (cstr t))
  else if c = 124 then
    if asc "filterit " <+: arg then .call (.filterit arg) else .call (.mailprogram (cstr t.tail))
  else if c = 63 then
    let prog := (t.tail.dropWhile fun b => !isBlank b).dropWhile isBlank
    .branch (labelOf t.tail) (if prog = [] then none else some (cstr prog))
  else if c = 43 then if cstr t.tail = asc "list" then .forwardOnly else .nothing
  else if c = 38 then .forward (cstr t.tail)
  else .forward (cstr t)

/-- A delivery that `+list` forbids. -/
def Instruction.guarded : Instruction → Bool
  | .call (.envdir _) => false
  | .call _ => true
  | .branch _ (some _) => true
  | _ => false

/-- The lines behind the first one whose label agrees with `label`. -/
def behind (agrees : Bytes → Bytes → Bool) (label : Bytes) : List Bytes → List Bytes
  | [] => []
  | l :: ls =>
      if l.head? = some 58 ∧ agrees (labelOf l.tail) label then ls else behind agrees label ls

def textOf (ls : List Bytes) : Bytes := ls.flatMap fun l => l ++ [10]

/-- The interpreter: how labels are compared, whether it is at the first line, whether `+list` was
seen, the number of calls so far, the addresses so far, and the lines to come. -/
def interpret (answers : Nat → Option Nat) (agrees : Bytes → Bytes → Bool) :
    Nat → Bool → Bool → Nat → List Bytes → List Bytes → Outcome
  | 0, _, _, _, recips, _ => ⟨[], .forwards recips⟩
  | _ + 1, _, _, _, recips, [] => ⟨[], .forwards recips⟩
  | turns + 1, first, only, n, recips, l :: ls =>
      let next := interpret answers agrees turns false
      let goto := fun (n : Nat) (label : Bytes) =>
        (next only n recips (behind agrees label ls)).after
          [.goto (textOf (behind agrees label ls)).length]
      let inst := read (l.rdropWhile isBlank)
      if only && inst.guarded then ⟨[], .dies 111⟩
      else
        match inst with
        | .blank => if first then ⟨[], .dies 111⟩ else next only n recips ls
        | .nothing => next only n recips ls
        | .forwardOnly => next true n recips ls
        | .forward addr => next only n (recips ++ [addr]) ls
        | .call e =>
            match e.next (answers n) with
            | .goOn => (next only (n + 1) recips ls).after [e]
            | .flag99 => ⟨[e], .forwards recips⟩
            | .dies code => ⟨[e], .dies code⟩
        | .branch label none => goto n label
        | .branch label (some prog) =>
            match exitcode (answers n) with
            | .goOn => (next only (n + 1) recips ls).after [.mailprogram prog]
            | .flag99 => (goto (n + 1) label).after [.mailprogram prog]
            | .dies code => ⟨[.mailprogram prog], .dies code⟩

/-- **The reference**: a branch goes on behind the first later line with the same label. -/
def reference (answers : Nat → Option Nat) (cutable : Bool) (ls : List Bytes) : Outcome :=
  interpret answers (fun a b => a == b) ls.length true cutable 0 [] ls

end IndimailMta.Local
