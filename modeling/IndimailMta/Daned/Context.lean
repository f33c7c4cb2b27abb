import IndimailMta.Daned.Store
import IndimailMta.Lib.Lines

/-!
# The context file

What `qmail-daned` saves of its records when it is told to stop, and what it makes of the file
when it starts. A record is a line; its data stand in it as they are, after their length.

The clock does not move while the file is written or read, and what is written reaches the
file.
-/

namespace IndimailMta.Daned

open IndimailMta Links Lines

variable (c : Conf) (nm : Numerals)

/-! ## `save_context` -/

/-- What is written of a record before its data. -/
def contextHead (e : Entry) : Bytes :=
  e.domain ++ 0 :: e.status :: 0 :: (nm.fmtUlong (unsignedLong e.timestamp) ++
    0 :: (nm.fmtUlong (unsignedLong e.datalen) ++ [0]))

/-- `write_file(context_fd, ptr->data, ptr->datalen)`; `none` where there is nothing at that
address to write. -/
def writeData (e : Entry) : Except Stop (Option Bytes) :=
  if e.datalen = 0 then .ok (some [])
  else
    match e.data with
    | none => .ok none
    | some d =>
        if 0 ≤ e.datalen ∧ e.datalen ≤ d.length then .ok (some (d.take e.datalen.toNat))
        else .error .overread

/-- The loop over the list; it ends where a write fails. -/
def saveLoop (now : Int) (σ : Store) : Nat → Ptr → Except Stop Bytes
  | _, none => .ok []
  | 0, some _ => .error .endless
  | k + 1, some a => do
      let n ← σ.read (some a)
      if unsignedLong n.val.timestamp < c.horizon now then saveLoop now σ k n.next
      else
        match ← writeData n.val with
        | none => .ok (contextHead nm n.val)
        | some d => do
            let rest ← saveLoop now σ k n.next
            .ok (contextHead nm n.val ++ d ++ 10 :: rest)

/-- `save_context`: without a record the file stays as it is. -/
def save_context (now : Int) (σ : Store) (file : Bytes) : Except Stop Bytes :=
  if σ.dane_count = 0 then .ok file else saveLoop c nm now σ σ.fresh σ.head

/-! ## `load_context` -/

/-- The string at `cptr`, and what is after its NUL. -/
def string (cptr : Bytes) : Except Stop (Bytes × Bytes) :=
  match field 0 cptr with
  | none => .error .overread
  | some p => .ok p

/-- What a line has before the length of the data. -/
structure Saved where
  domain : Bytes
  dnstate : Byte
  timestamp : Int
  cptr : Bytes
  deriving DecidableEq, Repr

/-- A line is taken apart. -/
def parseLine (line : Bytes) : Except Stop Saved := do
  let (domain, cptr) ← string (line ++ [0])
  match cptr with
  | dnstate :: _ :: cptr => do
      let (timestamp, cptr) ← string cptr
      .ok ⟨domain, dnstate, time_t (nm.scanUlong timestamp).2, cptr⟩
  | _ => .error .overread

/-- A record is added for a line; `mem` is what is in the memory `malloc` returns. -/
def loadRecord (mem : Addr → Node Entry) (x : Saved) (σ : Store) : Except Stop Store := do
  let n := mem σ.fresh
  let (a, σ) ← σ.link { n with val := { n.val with timestamp := x.timestamp } }
  let σ := { σ with dane_count := σ.dane_count + 1 }
  let (len, cptr) ← string x.cptr
  let datalen := int32 (nm.scanUlong len).2
  let σ ← σ.assign (some a) fun e => { e with datalen := datalen }
  if datalen < 0 then .error .nomem
  else if (cptr.length : Int) < datalen then .error .overread
  else
    let σ ← σ.assign (some a) fun e => { e with data := some (cptr.take datalen.toNat) }
    let σ ← σ.assign (some a) fun e => { e with domain := x.domain, status := x.dnstate }
    σ.create_hash c (some a)

/-- The loop over the lines; records that are expired are left out where that is logged. -/
def loadLoop (cur_time : Int) (mem : Addr → Node Entry) : List Bytes → Store → Except Stop Store
  | [], σ => .ok σ
  | line :: rest, σ => do
      let x ← parseLine nm line
      if 1 < c.verbose ∧ unsignedLong x.timestamp < c.horizon cur_time then
        loadLoop cur_time mem rest σ
      else
        let σ ← loadRecord c nm mem x σ
        loadLoop cur_time mem rest σ

/-- `load_context`, of a program that starts. -/
def load_context (cur_time : Int) (mem : Addr → Node Entry) (file : Bytes) : Except Stop Store :=
  loadLoop c nm cur_time mem (lines 10 file) {}

/-! ## The store and its file -/

/-- The store, and the context file; a file that is not there is like an empty one. -/
structure System where
  store : Store := {}
  file : Bytes := []

/-- What happens to the store: a record is added and hashed, with what `save` holds; records
are expired (`SIGUSR2`); the hash is created again; the program ends on `SIGTERM` at a time
`saved` and starts again at a time `now`. `mem` is what is in the memory of new records. -/
inductive Label
  | add (domain : Bytes) (status : Byte) (save : Bytes) (now : Int) (mem : Node Entry)
  | expire (now : Int)
  | rehash
  | restart (saved now : Int) (mem : Addr → Node Entry)

def step (s : System) : Label → Except Stop System
  | .add domain status save now mem => do
      let (a, σ) ← s.store.add_record mem now domain status
      let σ ← σ.copySave save (some a)
      let σ ← σ.create_hash c (some a)
      .ok { s with store := σ }
  | .expire now => do
      let σ ← s.store.expire_records c now
      .ok { s with store := σ }
  | .rehash => do
      let σ ← s.store.create_hash c none
      .ok { s with store := σ }
  | .restart saved now mem => do
      let file ← save_context c nm saved s.store s.file
      let σ ← load_context c nm now mem file
      .ok { store := σ, file := file }

end IndimailMta.Daned
