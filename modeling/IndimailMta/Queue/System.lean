import IndimailMta.Base
import IndimailMta.Lib.Exits

/-!
# The system calls of qmail-queue

qmail-queue works on four names of one message number. What the system answers to
a call is not determined by the program: a call can fail, a call that changes a
directory can fail after the change (the directory could not be synced), and a
signal can come before it. `answers` lists the answers to come; every property is
for every list.
-/

namespace IndimailMta.Queue

open IndimailMta Exits

/-- The names qmail-queue uses: `pid/` with a sequence number, and `mess/`, `intd/`, `todo/`
with the message number. -/
inductive Name where
  | pid (seq : Nat)
  | mess
  | intd
  | todo
  deriving DecidableEq, Repr

/-- An operation on a name, or on the file behind it. -/
inductive FileOp where
  | openExcl (n : Name)
  | link (old new : Name)
  | unlink (n : Name)
  | seekTrunc (n : Name)
  deriving DecidableEq, Repr

/-- The operation takes away `mess/id` or `intd/id`, or what is in it. -/
def FileOp.destroys : FileOp → Bool
  | .unlink .mess => true
  | .unlink .intd => true
  | .seekTrunc .mess => true
  | .seekTrunc .intd => true
  | _ => false

/-- What the system answers to a call. -/
inductive Answer where
  | ok
  | fails
  /-- The call is done, and then the sync of the directory fails. -/
  | late
  /-- SIGALRM comes first. -/
  | alarm
  /-- A signal that means a bug comes first. -/
  | bug
  deriving DecidableEq, Repr

/-- The names that exist, what was written to the two files, what cleanup would remove, and a
history of the operations that were done (newest first). -/
structure World where
  answers : List Answer := []
  exist : Name → Bool := fun _ => false
  mess : Bytes := []
  intd : Bytes := []
  flagmademess : Bool := false
  flagmadeintd : Bool := false
  trace : List FileOp := []

/-- What the environment sets for every call: custom errors, and the sync of directories. -/
structure Mode where
  qm_custom_err : Bool := false
  use_syncdir : Bool := false

def QQ_ENVELOPE_TOO_LONG : Nat := 11

def QQ_VIRUS_IN_MSG : Nat := 33

def QQ_OUT_OF_MEMORY : Nat := 51

def QQ_TIMEOUT : Nat := 52

def QQ_WRITE_ERR : Nat := 53

def QQ_READ_ERR : Nat := 54

def QQ_CONFIG_ERR : Nat := 55

def QQ_CHDIR : Nat := 61

def QQ_MESS_FILE : Nat := 62

def QQ_FSYNC_ERR : Nat := 64

def QQ_INTD_FILE : Nat := 65

def QQ_LINK_TODO_INTD : Nat := 66

def QQ_LINK_MESS_PID : Nat := 67

def QQ_PID_FILE : Nat := 70

def QQ_QHPSI_TEMP_ERR : Nat := 77

def QQ_ENVELOPE_FMT_ERR : Nat := 79

def QQ_INTERNAL_BUG : Nat := 81

def QQ_REMOVE_PID_ERR : Nat := 83

def QQ_CUSTOM_ERR : Nat := 88

def QQ_FORK_ERR : Nat := 121

def QQ_WAITPID_SURPRISE : Nat := 122

def QQ_CRASHED : Nat := 123

/-- A part of qmail-queue: it returns, or the process exits with a code. -/
abbrev QQ (α : Type) : Type := Prog World Nat α

/-! ## Calls -/

/-- The next answer. -/
def World.next (w : World) : Answer × World :=
  match w.answers with
  | [] => (.ok, w)
  | a :: rest => (a, { w with answers := rest })

/-- A signal handler dies with `e` and does not clean up; a custom error that cannot be
written has a code of its own. -/
def handler (k : Mode) (e : Nat) (w : World) : Nat × World :=
  if k.qm_custom_err then
    match w.next with
    | (.ok, w) => (QQ_CUSTOM_ERR, w)
    | (_, w) => (QQ_WRITE_ERR, w)
  else (e, w)

/-- The answer to a call, unless a signal comes first. -/
def ask (k : Mode) : QQ Answer := fun w =>
  match w.next with
  | (.alarm, w) => (.error (handler k QQ_TIMEOUT w).1, (handler k QQ_TIMEOUT w).2)
  | (.bug, w) => (.error (handler k QQ_INTERNAL_BUG w).1, (handler k QQ_INTERNAL_BUG w).2)
  | (a, w) => (.ok a, w)

/-- A call that changes no name: whether it works. -/
def attempt (k : Mode) : QQ Bool := do
  let a ← ask k
  pure (a = .ok)

/-- Whether the system would do the operation. -/
def World.possible (w : World) : FileOp → Bool
  | .openExcl n => !w.exist n
  | .link old new => w.exist old && !w.exist new
  | .unlink n => w.exist n
  | .seekTrunc _ => true

/-- The operation, done. -/
def World.apply (w : World) (op : FileOp) : World :=
  { w with
    trace := op :: w.trace
    exist := match op with
      | .openExcl n => Function.update w.exist n true
      | .link _ new => Function.update w.exist new true
      | .unlink n => Function.update w.exist n false
      | .seekTrunc _ => w.exist
    mess := if op = .seekTrunc .mess then [] else w.mess
    intd := if op = .seekTrunc .intd then [] else w.intd }

/-- A call on a name, through the replacements of `open`, `link` and `unlink` that sync the
directory. -/
def call (k : Mode) (op : FileOp) : QQ Bool := do
  let a ← ask k
  let w ← read
  if ¬ w.possible op then pure false
  else
    match a with
    | .ok => do update (·.apply op); pure true
    | .late => do update (·.apply op); pure (!k.use_syncdir)
    | _ => pure false

/-! ## Exits -/

/-- `seek_trunc` and `unlink`; `cleanup` ignores whether they work. -/
def discard (k : Mode) (n : Name) : QQ Unit := do
  let _ ← call k (.seekTrunc n)
  let _ ← call k (.unlink n)

/-- `cleanup`. -/
def cleanup (k : Mode) : QQ Unit := do
  let w ← read
  when w.flagmadeintd (discard k .intd)
  when w.flagmademess (discard k .mess)

/-- `die`. -/
def die {α : Type} (k : Mode) (e : Nat) (do_cleanup : Bool) : QQ α := do
  when do_cleanup (cleanup k)
  if k.qm_custom_err then
    if ← attempt k then exit QQ_CUSTOM_ERR else exit QQ_WRITE_ERR
  else exit e

/-- A call without which qmail-queue dies. -/
def orDie (k : Mode) (e : Nat) (do_cleanup : Bool) : QQ Unit := do
  let ok ← attempt k
  when (ok = false) (die k e do_cleanup)

end IndimailMta.Queue
