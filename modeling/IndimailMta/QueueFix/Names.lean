import IndimailMta.Base
import IndimailMta.Lib.Moves
import IndimailMta.Lib.Run

/-!
# queue-fix: names and strays

What `queue-fix` does after it has checked the directories: it gives every file in `mess` the
name of its inode, and the files of the other directories that have its old name the new one
(`fix_names`), and then removes the files for which there is none in `mess` (`find_strays`).

`readdir` may return what comes into a directory while it is read, and what has gone; a visit of
a directory comes with the names that are returned.
-/

namespace IndimailMta.QueueFix

open IndimailMta Moves Run

/-! ## Files -/

inductive Dir
  | mess
  | info
  | locals
  | remote
  | intd
  | todo
  | bounce
  deriving DecidableEq, Repr

structure File where
  ino : Nat
  content : Bytes
  deriving DecidableEq, Repr

/-- A subdirectory, if the file is in one, and a name. -/
abbrev Place := Option Nat × Bytes

/-- The files of the queue. -/
abbrev Fs := Dir → Place → Option File

structure Conf where
  split : Nat
  bigtodo : Bool
  split_pos : 0 < split

variable (c : Conf) (nm : Numerals)

/-- Does the directory have subdirectories? -/
def Conf.isSplit : Dir → Bool
  | .bounce => false
  | .intd => c.bigtodo
  | .todo => c.bigtodo
  | _ => true

/-- Where a directory has the files of subdirectory `i`. -/
def Conf.slot (d : Dir) (i : Nat) : Option Nat := if c.isSplit d then some i else none

/-- `queue-fix` ends with an error: a call fails, or there is a file of an earlier run. -/
inductive Failure
  | call
  | rerun
  deriving DecidableEq, Repr

/-! ## `rename_mess` -/

/-- Does the path of a place go through a file that is no directory? -/
def blocked (fs : Fs) (d : Dir) (q : Place) : Bool :=
  match q.1 with
  | some i => !c.isSplit d && (fs d (none, nm.fmtUlong i)).isSome
  | none => false

/-- `access(path, F_OK)`; only that there is no such file is no error. -/
def access (fs : Fs) (d : Dir) (q : Place) : Except Failure Bool :=
  if blocked c nm fs d q then .error .call else .ok (fs d q).isSome

/-- `rename(a, b)`; that there is no file `a` is no error. -/
def rename (d : Dir) (a b : Place) (fs : Fs) : Except Failure Fs :=
  if blocked c nm fs d a then .error .call
  else .ok fun e => if e = d then move (fs d) a b else fs e

def tmp : Bytes := asc ".tmp"

def rename_mess (d : Dir) (part new_part : Option Nat) (old_filename new_filename : Bytes)
    (fs : Fs) : Except Failure Fs := do
  if ← access c nm fs d (new_part, new_filename) then
    if ← access c nm fs d (new_part, new_filename ++ tmp) then .error .rerun
    else rename c nm d (part, old_filename) (new_part, new_filename ++ tmp) fs
  else rename c nm d (part, old_filename) (new_part, new_filename) fs

/-! ## `fix_part` -/

/-- `scan_int`. -/
def scanInt (s : Bytes) : Int := int32 (nm.scanUlong s).2

/-- The directories whose files `fix_part` renames, in this order; it takes all of them but
`bounce` to have subdirectories. -/
def renamed : List Dir := [.mess, .info, .locals, .remote, .intd, .todo, .bounce]

def fixSlot (d : Dir) (i : Nat) : Option Nat := if d = .bounce then none else some i

/-- One name, in the loop of `fix_part`. -/
def fixName (part_num : Nat) (name : Bytes) (fs : Fs) : Except Failure Fs :=
  if name.head? = some 46 then .ok fs
  else
    match fs .mess (some part_num, name) with
    | none => .error .call
    | some st =>
        let old_inode := scanInt nm name
        let correct_part_num := st.ino % c.split
        if st.ino = unsignedLong old_inode ∧ part_num = correct_part_num then .ok fs
        else
          renamed.foldlM (fun fs d => rename_mess c nm d (fixSlot d part_num)
            (fixSlot d correct_part_num) name (nm.fmtUlong st.ino) fs) fs

/-! ## `clean_tmp` -/

/-- One name, in the loop of `clean_tmp`. -/
def cleanName (d : Dir) (part : Option Nat) (name : Bytes) (fs : Fs) : Except Failure Fs :=
  if name.head? = some 46 then .ok fs
  else if 4 < name.length ∧ name.drop (name.length - 4) = tmp then
    rename_mess c nm d part part name (name.take (name.length - 4)) fs
  else .ok fs

/-! ## `check_strays` -/

/-- Is there a file of that name in `mess`, in the subdirectory that is its number modulo
`split`? -/
def hasMess (fs : Fs) (name : Bytes) : Bool :=
  let part := (scanInt nm name).tmod c.split
  decide (0 ≤ part) && (fs .mess (some part.toNat, name)).isSome

/-- One name, in the loop of `check_strays`. -/
def strayName (d : Dir) (part : Option Nat) (name : Bytes) (fs : Fs) : Except Failure Fs :=
  if name.head? = some 46 then .ok fs
  else if hasMess c nm fs name then .ok fs
  else if (fs d (part, name)).isNone then .error .call
  else .ok fun e q => if e = d ∧ q = (part, name) then none else fs e q

/-! ## The run -/

/-- A directory is read from its beginning to its end. -/
inductive Visit
  | fix (part : Nat)
  | clean (d : Dir) (part : Option Nat)
  | stray (d : Dir) (part : Option Nat)
  deriving DecidableEq, Repr

/-- The directory that is read. -/
def Visit.reads : Visit → Dir × Option Nat
  | .fix i => (.mess, some i)
  | .clean d s => (d, s)
  | .stray d s => (d, s)

def Visit.name : Visit → Bytes → Fs → Except Failure Fs
  | .fix i => fixName c nm i
  | .clean d s => cleanName c nm d s
  | .stray d s => strayName c nm d s

/-- The directories in the order in which they are read: `fix_names`, and `find_strays`. -/
def visits : List Visit :=
  (List.range c.split).map Visit.fix ++
    (List.range c.split).flatMap (fun i =>
      [.clean .mess (some i), .clean .info (some i), .clean .locals (some i),
        .clean .remote (some i), .clean .intd (c.slot .intd i), .clean .todo (c.slot .todo i)]) ++
    [.clean .bounce none] ++
    [Dir.info, Dir.locals, Dir.remote].flatMap
      (fun d => (List.range c.split).map fun i => .stray d (some i)) ++
    [Dir.todo, Dir.intd].flatMap (fun d =>
      if c.bigtodo then (List.range c.split).map fun i => .stray d (some i) else [.stray d none]) ++
    [.stray .bounce none]

/-- A visit, with the names `readdir` returns. -/
abbrev Label := Visit × List Bytes

/-- `queue-fix`, a directory at a time. -/
def machine : Machine Fs Label where
  init _ := True
  step fs l := (l.2.foldlM (fun fs name => l.1.name c nm name fs) fs).toOption

/-- `readdir` returns at least the names that are there when it begins. -/
def Reads (fs : Fs) (l : Label) : Prop :=
  ∀ name, fs l.1.reads.1 (l.1.reads.2, name) ≠ none → name ∈ l.2

end IndimailMta.QueueFix
