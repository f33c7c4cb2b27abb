import IndimailMta.Multilog.State
import IndimailMta.Lib.Calls
import IndimailMta.Lib.Directory

/-!
# The files of a log directory

`multilog` writes to the file `current` of a log directory. When that is full it is renamed to
`previous`, and `previous`, or what a processor makes of it, gets a name of its own: a time stamp and a
code. A program that starts finds what the one before it has left.

A program may be killed before any system call, and in an outage the files lose some of what was not
synced. A call that fails changes nothing and is made again; it is left out here, but for calls that fail
because of the files that are there. Nobody else uses the directory, and the file `lock` is left out.
-/

namespace IndimailMta.Multilog.Disk

open IndimailMta Exits Calls Directories

/-! ## Names -/

/-- `str_diff` of `s` and `t` is negative. -/
def before : Bytes → Bytes → Bool
  | _, [] => false
  | [], _ :: _ => true
  | ch :: s, x :: t => if ch = x then before s t else ch.toNat < x.toNat

/-- The names that `filesfit` looks at. -/
def isOld (name : Bytes) : Bool := name.head? = some 64 && 25 ≤ name.length

/-- The first loop of `filesfit`: `fn` at its end. -/
def smallest (names : List Bytes) : Bytes :=
  names.foldl (fun fn name => if before name fn then name.take 25 else fn) (asc "@z")

def current : Bytes := asc "current"
def previous : Bytes := asc "previous"
def processed : Bytes := asc "processed"
def state : Bytes := asc "state"
def newstate : Bytes := asc "newstate"

/-! ## Files -/

/-- A file, and how many of its bytes are safe. -/
structure File where
  text : Bytes
  synced : Nat
  mode : Nat
  deriving DecidableEq, Repr

/-- `st_mode & 0100`. -/
def File.executable (f : File) : Bool := f.mode &&& 0o100 ≠ 0

/-- The order in which `readdir` gives the names of a directory. -/
structure Listing where
  readdir : List Bytes → List Bytes
  perm : ∀ names, (readdir names).Perm names

/-- `struct cyclog`, as the script sets it, and `f_sync`. A processor makes an output and a new state of
a file and a state. -/
structure Cyclog where
  num : Nat
  size : Nat
  processor : Option (Bytes → Bytes → Bytes × Bytes)
  f_sync : Bool
  two_le_num : 2 ≤ num

/-- The directory and the variables of `struct cyclog`. `clock` has the time stamps to come, as long as
the clock goes; `runs` the runs of the processor to come: `none` is one that works, and one that fails
leaves something in `processed` and `newstate`. `written` is what has been written to the log. -/
structure Site where
  dir : Dir Bytes File
  fdcurrent : Nat
  bytes : Nat
  clock : List Bytes
  runs : List (Option (Bytes × Bytes))
  written : Bytes

/-- A new directory. -/
def Site.start (clock : List Bytes) (runs : List (Option (Bytes × Bytes))) : Site where
  dir := Dir.empty ⟨[], 0, 0⟩
  fdcurrent := 0
  bytes := 0
  clock := clock
  runs := runs
  written := []

/-! ## System calls -/

/-- `stat`: the links of the file, and the file. -/
def stat (file : Bytes) : Task Site (Option (Nat × File)) :=
  ask fun s => (s.dir.ino file).map fun i => (s.dir.nlink i, s.dir.node i)

def unlink (file : Bytes) : Task Site Bool :=
  call fun s => ((s.dir.ino file).isSome, { s with dir := s.dir.unlink file })

def rename (old new : Bytes) : Task Site Bool :=
  call fun s =>
    match s.dir.rename old new with
    | none => (false, s)
    | some dir => (true, { s with dir := dir })

/-- The descriptor is the number of the file. -/
def open_append (file : Bytes) : Task Site Nat :=
  call fun s =>
    let dir := s.dir.create file ⟨[], 0, 0o600⟩
    ((dir.ino file).getD 0, { s with dir := dir })

def open_trunc (file : Bytes) : Task Site Nat :=
  call fun s =>
    let dir := s.dir.create file ⟨[], 0, 0o644⟩
    let fd := (dir.ino file).getD 0
    (fd, { s with dir := dir.modify fd fun f => { f with text := [], synced := 0 } })

/-- Open a file and read it. -/
def open_read (file : Bytes) : Task Site (Option Bytes) := ask fun s => (s.dir.file file).map File.text

def onFile (fd : Nat) (f : File → File) : Task Site Unit :=
  perform fun s => { s with dir := s.dir.modify fd f }

def fsync (fd : Nat) : Task Site Unit := onFile fd fun f => { f with synced := f.text.length }

def fchmod (fd mode : Nat) : Task Site Unit := onFile fd fun f => { f with mode := mode }

def chmod (file : Bytes) (mode : Nat) : Task Site Bool :=
  call fun s =>
    match s.dir.ino file with
    | none => (false, s)
    | some i => (true, { s with dir := s.dir.modify i fun f => { f with mode := mode } })

/-- A time stamp, and `link`. If the clock has stopped, the program is killed before it goes on. -/
def linkStamp (file : Bytes) (code : Byte) : Task Site Bool := do
  match ← look Site.clock with
  | [] => exit ()
  | stamp :: clock =>
      call fun s =>
        match s.dir.link file (stamp ++ [46, code]) with
        | none => (false, { s with clock := clock })
        | some dir => (true, { s with dir := dir, clock := clock })

variable (sys : Listing) (d : Cyclog)

/-! ## Old log files -/

def filesfit : Task Site Bool := do
  let names ← ask fun s => (sys.readdir s.dir.names).filter isOld
  if names.length < d.num then pure true
  else
    match names.find? fun name => (smallest names).isPrefixOf name with
    | none => pure false
    | some name =>
        let _ ← unlink name
        pure false

def finish (file : Bytes) (code : Byte) : Task Site Unit := do
  match ← stat file with
  | none => pure ()
  | some (st_nlink, _) =>
      when (st_nlink = 1) (until_ (linkStamp file code))
      until_ (unlink file)
      until_ (filesfit sys d)

/-! ## A file that is full -/

/-- `startprocessor` in a child, and whether it works. -/
def startprocessor (processor : Bytes → Bytes → Bytes × Bytes) : Task Site Bool := do
  match ← open_read previous with
  | none => pure false
  | some input =>
      let out ← open_trunc processed
      match ← open_read state with
      | none => pure false
      | some st =>
          let new ← open_trunc newstate
          call fun s =>
            let result := (s.runs.head?.getD none).getD (processor input st)
            (s.runs.head?.getD none = none, { s with
              dir := (s.dir.modify out fun f => { f with text := result.1 }).modify new
                fun f => { f with text := result.2 }
              runs := s.runs.tail })

def fullcurrent : Task Site Unit := do
  let fd ← look Site.fdcurrent
  when (d.f_sync = true) (fsync fd)
  until_ (rename current previous)
  let fd ← open_append current
  assign fun s => { s with fdcurrent := fd, bytes := 0 }
  fchmod fd 0o644
  until_ (chmod previous 0o744)
  match d.processor with
  | none => finish sys d previous 115
  | some processor =>
      until_ (startprocessor processor)
      let fd ← open_append processed
      when (d.f_sync = true) (fsync fd)
      fchmod fd 0o744
      let fd ← open_append newstate
      when (d.f_sync = true) (fsync fd)
      until_ (unlink previous)
      until_ (rename newstate state)
      finish sys d processed 115

/-- What `c_write` passes to `write`. -/
def cutLen (bytes : Nat) (buf : Bytes) : Nat :=
  let len := if 0 < d.size ∧ d.size - bytes ≤ buf.length then d.size - bytes else buf.length
  if 0 < d.size ∧ d.size - 2000 ≤ bytes + len then
    let w := byteRchr (buf.take len) 10
    if w < len then w + 1 else len
  else len

/-- `took` says how many bytes the write takes. -/
def c_write (buf : Bytes) (took : List Nat) : Task Site Nat := do
  let bytes ← look Site.bytes
  when (0 < d.size ∧ d.size ≤ bytes) (fullcurrent sys d)
  let bytes ← look Site.bytes
  let w := write (cutLen d bytes buf) took
  let b := buf.take w
  perform fun s => { s with
    dir := s.dir.modify s.fdcurrent fun f => { f with text := f.text ++ b }
    written := s.written ++ b }
  assign fun s => { s with bytes := s.bytes + w }
  let bytes ← look Site.bytes
  when (0 < d.size ∧ d.size - 2000 ≤ bytes ∧ b.getLast? = some 10) (fullcurrent sys d)
  pure w

/-! ## The program -/

def restart : Task Site Unit := do
  let st ← stat current
  if st.any fun st => st.2.executable then
    let fd ← open_append current
    fchmod fd 0o644
    assign fun s => { s with fdcurrent := fd, bytes := (st.elim 0 fun st => st.2.text.length) }
  else
    let _ ← unlink state
    let _ ← unlink newstate
    let st ← stat processed
    if st.any fun st => st.2.executable then
      let _ ← unlink previous
      finish sys d processed 115
    else
      let _ ← unlink processed
      finish sys d previous 117
    finish sys d current 117
    let _ ← open_trunc state
    let fd ← open_append current
    fchmod fd 0o644
    assign fun s => { s with fdcurrent := fd, bytes := 0 }

/-- `c_quit`, for a log that is flushed. -/
def c_quit : Task Site Unit := do
  let fd ← look Site.fdcurrent
  when (d.f_sync = true) (fsync fd)
  fchmod fd 0o744

/-- What comes from the input: something to write, or SIGALRM. -/
inductive Op where
  | write (buf : Bytes) (took : List Nat)
  | alarm
  deriving DecidableEq, Repr

def step : Op → Task Site Unit
  | .write buf took => do
      let _ ← c_write sys d buf took
      pure ()
  | .alarm => do
      let bytes ← look Site.bytes
      when (0 < bytes) (fullcurrent sys d)

def performAll : List Op → Task Site Unit
  | [] => pure ()
  | op :: ops => do
      step sys d op
      performAll ops

def main (ops : List Op) : Task Site Unit := do
  restart sys d
  performAll sys d ops
  c_quit d

/-- One start of the program: what it has to do, how many calls it makes until it is killed, and how much
every file keeps in an outage, if there is one. -/
structure Session where
  d : Cyclog
  ops : List Op
  calls : Nat
  keeps : Option (Nat → Nat)

/-- An outage: a file keeps what was synced, and perhaps some more. -/
def outage (keeps : Nat → Nat) (s : Site) : Site :=
  { s with dir := s.dir.change fun i f => { f with text := f.text.take (max f.synced (keeps i)) } }

def session (s : Site) (x : Session) : Site :=
  let s := (main sys x.d x.ops (s, x.calls)).2.1
  match x.keeps with
  | none => s
  | some keeps => outage keeps s

def sessions (xs : List Session) (s : Site) : Site := xs.foldl (session sys) s

end IndimailMta.Multilog.Disk
