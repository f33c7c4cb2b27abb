import IndimailMta.Base

/-!
# multilog

`multilog` reads lines and writes those that its script selects to log directories. A directory has
the file `current`; when that is full it is renamed, handed to a processor if there is one, and kept
under a name of its own.

What the reads give, and how much of its buffer a write takes, is not determined by the program, nor
is where a SIGALRM comes. The renaming and linking of files is tried until it works, and no file is
removed for their number. There are no other signals.
-/

namespace IndimailMta.Multilog

open IndimailMta

/-- `substdio_put`: what it hands to the operation, in how many calls, of what the buffer has and of
what it is given; and what the buffer has then. -/
structure Substdio where
  put : Bytes → Bytes → List Bytes × Bytes
  put_eq : ∀ held b, (put held b).1.flatten ++ (put held b).2 = held ++ b

/-- A buffer of 512 bytes. -/
def substdio : Substdio where
  put held b :=
    if held.length + b.length ≤ 512 then ([], held ++ b)
    else if b.length ≤ 512 then ([held], b)
    else ([held, b], [])
  put_eq held b := by
    split
    · rfl
    · split <;> simp

/-- What is outside: the library, what a processor makes of a file, the time stamps, and how many bytes
the writes to a log directory take, if they do not take all. -/
structure Env where
  ss : Substdio
  nm : Ulongs
  processed : Bytes → Bytes → Bytes
  timestamp : Nat → Bytes
  stamp_length : ∀ i, (timestamp i).length = 25
  stamp_line : ∀ i, (10 : Byte) ∉ timestamp i
  writes : Nat → List Nat

/-- `struct cyclog`. `files` are the files that are finished, the oldest first. -/
structure Cyclog where
  buf : Bytes := []
  current : Bytes := []
  size : Nat
  processor : Option Bytes
  flagselected : Bool := false
  files : List Bytes := []
  writes : List Nat
  deriving DecidableEq, Repr

def Cyclog.bytes (d : Cyclog) : Nat := d.current.length

variable (env : Env)

/-! ## A log directory -/

def fullcurrent (d : Cyclog) : Cyclog :=
  { d with
    current := []
    files := d.files ++
      [match d.processor with
        | none => d.current
        | some p => env.processed p d.current] }

/-- What `c_write` passes to write: at most what fits, and up to a newline near the end of the file. -/
def cutLen (d : Cyclog) (buf : Bytes) : Nat :=
  let len := if 0 < d.size ∧ d.size - d.bytes ≤ buf.length then d.size - d.bytes else buf.length
  if 0 < d.size ∧ d.size - 2000 ≤ d.bytes + len then
    let w := byteRchr (buf.take len) 10
    if w < len then w + 1 else len
  else len

/-- A write takes some of the bytes. -/
def write (len : Nat) : List Nat → Nat
  | [] => len
  | n :: _ => min (n + 1) len

def c_write (d : Cyclog) (buf : Bytes) : Nat × Cyclog :=
  let d := if 0 < d.size ∧ d.size ≤ d.bytes then fullcurrent env d else d
  let w := write (cutLen d buf) d.writes
  let d := { d with current := d.current ++ buf.take w, writes := d.writes.tail }
  if 0 < d.size ∧ d.size - 2000 ≤ d.bytes ∧ (buf.take w).getLast? = some 10 then (w, fullcurrent env d)
  else (w, d)

/-- The loop of `allwrite`: each call takes a byte at least. -/
def allwriteLoop : Nat → Cyclog → Bytes → Cyclog
  | 0, d, _ => d
  | n + 1, d, buf =>
      if buf = [] then d
      else
        let r := c_write env d buf
        allwriteLoop n r.2 (buf.drop r.1)

def allwrite (d : Cyclog) (buf : Bytes) : Cyclog := allwriteLoop env buf.length d buf

def flush (d : Cyclog) : Cyclog := if d.buf = [] then d else allwrite env { d with buf := [] } d.buf

def put (d : Cyclog) (b : Bytes) : Cyclog :=
  let r := env.ss.put d.buf b
  r.1.foldl (allwrite env) { d with buf := r.2 }

/-! ## The script -/

def isDir (action : Bytes) : Bool := action.head? = some 46 || action.head? = some 47

/-- `match`. -/
def match_ : Bytes → Bytes → Bool
  | [], buf => buf.isEmpty
  | ch :: pattern, buf =>
      if ch = 42 then
        match pattern with
        | [] => true
        | c :: _ => buf.any (· = c) && match_ pattern (buf.dropWhile (· ≠ c))
      else
        match buf with
        | [] => false
        | b :: rest => if b ≠ ch then false else match_ pattern rest

/-- The size of an `s` action. -/
def scanSize (action : Bytes) : Nat :=
  let size := (env.nm.scanUlong action.tail).2
  let size := if 0 < size ∧ size < 4096 then 4096 else size
  if 16777215 < size then 16777215 else size

/-- The loop of `c_init` over the script. -/
def initLoop : List Bytes → Nat → Option Bytes → Nat → List Cyclog
  | [], _, _, _ => []
  | action :: script, size, processor, j =>
      if action.head? = some 115 then initLoop script (scanSize env action) processor j
      else if action.head? = some 33 then initLoop script size (some action.tail) j
      else if isDir action then
        { size := size, processor := processor, writes := env.writes j } ::
          initLoop script size processor (j + 1)
      else initLoop script size processor j

/-- `c_init`, for directories that are new. -/
def c_init (script : List Bytes) : List Cyclog := initLoop env script (2 ^ 64 - 1) none 0

/-- The loop of `doit` over the script. -/
def selectLoop (line : Bytes) : List Bytes → Bool → List Cyclog → List Cyclog
  | [], _, ds => ds
  | action :: script, flagselected, ds =>
      if action.head? = some 43 then
        selectLoop line script (flagselected || match_ action.tail line) ds
      else if action.head? = some 45 then
        selectLoop line script (flagselected && !match_ action.tail line) ds
      else if isDir action then
        match ds with
        | [] => []
        | d :: ds => { d with flagselected := flagselected } :: selectLoop line script flagselected ds
      else selectLoop line script flagselected ds

/-! ## The input -/

/-- One read: its bytes, which may be none if it was interrupted, and whether SIGALRM came. -/
structure Read where
  bytes : Bytes
  alarm : Bool
  deriving DecidableEq, Repr

/-- What `substdio_get` meets: a byte, or that it has to read. -/
inductive Event where
  | read (alarm : Bool)
  | byte (ch : Byte)
  deriving DecidableEq, Repr

/-- The reads, and the one that finds nothing. -/
def events (reads : List Read) : List Event :=
  (reads.flatMap fun r => .read r.alarm :: r.bytes.map .byte) ++ [.read false]

structure State where
  logs : List Cyclog
  flagforcerotate : Bool := false
  stamps : Nat := 0
  deriving DecidableEq, Repr

/-- What `flushread` does with a log directory before it reads. -/
def rotate (force : Bool) (d : Cyclog) : Cyclog :=
  let d := flush env d
  if force ∧ 0 < d.bytes then fullcurrent env d else d

/-- `flushread`, with the read. -/
def flushread (alarm : Bool) (s : State) : State :=
  { s with logs := s.logs.map (rotate env s.flagforcerotate), flagforcerotate := alarm }

/-- What is written to every directory that is selected. -/
def putSelected (b : Bytes) (s : State) : State :=
  { s with logs := s.logs.map fun d => if d.flagselected then put env d b else d }

/-- How the loop over the bytes of a line ends. -/
inductive Stop where
  | newline
  | full
  | eof
  deriving DecidableEq, Repr

/-- The loop over the bytes of a line, up to 1000. -/
def readLine (flagtimestamp : Bool) : List Event → State → Bytes → Bytes × Stop × List Event × State
  | [], s, line => (line, if line.length < 1000 then .eof else .full, [], s)
  | .read alarm :: es, s, line =>
      if line.length < 1000 then readLine flagtimestamp es (flushread env alarm s) line
      else (line, .full, .read alarm :: es, s)
  | .byte ch :: es, s, line =>
      if line.length < 1000 then
        let stamped := line = [] ∧ flagtimestamp = true
        let text := if stamped then env.timestamp s.stamps ++ [32] else line
        let s := { s with stamps := if stamped then s.stamps + 1 else s.stamps }
        if ch = 10 then (text, .newline, es, s) else readLine flagtimestamp es s (text ++ [ch])
      else (line, .full, .byte ch :: es, s)

/-- The loop over what is left of a long line; whether the input ended. -/
def readRest : List Event → State → Bool × List Event × State
  | [], s => (true, [], s)
  | .read alarm :: es, s => readRest es (flushread env alarm s)
  | .byte ch :: es, s => if ch = 10 then (false, es, s) else readRest es (putSelected env [ch] s)

/-- The loop of `doit`, for so many lines. -/
def doitLoop (script : List Bytes) (flagtimestamp : Bool) : Nat → List Event → State → State
  | 0, _, s => s
  | n + 1, es, s =>
      let r := readLine env flagtimestamp es s []
      if r.2.1 = .eof ∧ r.1 = [] then r.2.2.2
      else
        let s := { r.2.2.2 with logs := selectLoop r.1 script true r.2.2.2.logs }
        let s := putSelected env r.1 s
        let q := if r.2.1 = .full then readRest env r.2.2.1 s else (r.2.1 = .eof, r.2.2.1, s)
        let s := putSelected env [10] q.2.2
        if q.1 then s else doitLoop script flagtimestamp n q.2.1 s

/-- `flagtimestamp`. -/
def isStamped (script : List Bytes) : Bool := (script.head?.bind List.head?) = some 116

def doit (script : List Bytes) (reads : List Read) (s : State) : State :=
  doitLoop env script (isStamped script) ((events reads).length + 1) (events reads) s

def c_quit (s : State) : State := { s with logs := s.logs.map (flush env) }

def main (script : List Bytes) (reads : List Read) : List Cyclog :=
  (c_quit env (doit env script reads { logs := c_init env script })).logs

end IndimailMta.Multilog
