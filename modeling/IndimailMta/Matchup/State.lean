import IndimailMta.Base
import IndimailMta.Lib.Keyed
import IndimailMta.Lib.Lines
import IndimailMta.Lib.StringPool
import IndimailMta.Lib.Transducer

/-!
# matchup

`matchup` reads the log of qmail-send and writes one line for each delivery and for each message that
ended. What it knows of the messages and of the deliveries that are open is in arrays, with texts as
offsets into `pool`; at the end of the log it is written to descriptor 5, as log lines.

The arrays with one index are one list of records here. A record that was just added has zeros where
the arrays have what was there; `info` and `starting` write all of it. There is memory, and every
line is written.
-/

namespace IndimailMta.Matchup

open IndimailMta Keyed StringPool SwapRemove Transducer

/-- A message: `msg`, `bytes`, `qp`, `uid`, `numk`, `numd`, `numz`, `sender` and `birth` at an index.
A text is an offset, or the text itself. -/
structure Msg (τ : Type) where
  msg : Nat
  bytes : Nat
  qp : Nat
  uid : Nat
  numk : Nat
  numd : Nat
  numz : Nat
  sender : τ
  birth : τ
  deriving DecidableEq, Repr, Inhabited

/-- A delivery: `del`, `qid`, `dmsg`, `dchan`, `drecip` and `dstart` at an index. -/
structure Del (τ : Type) where
  del : Nat
  qid : Nat
  dmsg : Nat
  dchan : τ
  drecip : τ
  dstart : τ
  deriving DecidableEq, Repr, Inhabited

def Msg.map {τ υ : Type} (g : τ → υ) (m : Msg τ) : Msg υ :=
  ⟨m.msg, m.bytes, m.qp, m.uid, m.numk, m.numd, m.numz, g m.sender, g m.birth⟩

def Del.map {τ υ : Type} (g : τ → υ) (d : Del τ) : Del υ :=
  ⟨d.del, d.qid, d.dmsg, g d.dchan, g d.drecip, g d.dstart⟩

/-- What a delivery is known by. -/
def Del.key {τ : Type} (d : Del τ) : Nat × Nat := (d.del, d.qid)

/-- The variables of the program. -/
structure State where
  pool : Bytes := []
  poolbytes : UInt32 := 0
  msgs : List (Msg Nat) := []
  dels : List (Del Nat) := []
  deriving DecidableEq, Repr

/-- `pool.s + off`. -/
def str (pool : Bytes) (off : Nat) : Bytes := text 0 pool off

/-- What a text counts for in `poolbytes`. -/
def State.size (s : State) (off : Nat) : UInt32 := UInt32.ofNat ((str s.pool off).length + 1)

def msg_find (m : Nat) (s : State) : Option Nat := find Msg.msg m s.msgs

def msg_add (m : Nat) (s : State) : Nat × State :=
  match msg_find m s with
  | some i => (i, s)
  | none => (s.msgs.length, { s with msgs := s.msgs ++ [⟨m, 0, 0, 0, 0, 0, 0, 0, 0⟩] })

def msg_kill (i : Nat) (s : State) : State :=
  let m := s.msgs.getD i default
  { s with
    poolbytes := s.poolbytes - s.size m.sender - s.size m.birth
    msgs := swapRemove s.msgs i }

def del_find (d : Nat × Nat) (s : State) : Option Nat := find Del.key d s.dels

def del_add (d : Nat × Nat) (s : State) : Nat × State :=
  match del_find d s with
  | some i => (i, s)
  | none => (s.dels.length, { s with dels := s.dels ++ [⟨d.1, d.2, 0, 0, 0, 0⟩] })

def del_kill (i : Nat) (s : State) : State :=
  let d := s.dels.getD i default
  { s with
    poolbytes := s.poolbytes - s.size d.dchan - s.size d.drecip - s.size d.dstart
    dels := swapRemove s.dels i }

/-! ## `garbage` -/

/-- The loop over the messages, which fills `pool2`. -/
def garbageMsgs (pool : Bytes) : List (Msg Nat) → Bytes → List (Msg Nat) × Bytes
  | [], pool2 => ([], pool2)
  | m :: rest, pool2 =>
      let poolBirth := add 0 pool2 (str pool m.birth)
      let poolSender := add 0 poolBirth (str pool m.sender)
      let r := garbageMsgs pool rest poolSender
      ({ m with birth := pool2.length, sender := poolBirth.length } :: r.1, r.2)

/-- The loop over the deliveries. -/
def garbageDels (pool : Bytes) : List (Del Nat) → Bytes → List (Del Nat) × Bytes
  | [], pool2 => ([], pool2)
  | d :: rest, pool2 =>
      let poolStart := add 0 pool2 (str pool d.dstart)
      let poolChan := add 0 poolStart (str pool d.dchan)
      let poolRecip := add 0 poolChan (str pool d.drecip)
      let r := garbageDels pool rest poolRecip
      ({ d with dstart := pool2.length, dchan := poolStart.length, drecip := poolChan.length } :: r.1,
        r.2)

def garbage (s : State) : State :=
  if UInt32.ofNat s.pool.length - s.poolbytes < s.poolbytes + 4096 then s
  else
    let m := garbageMsgs s.pool s.msgs []
    let d := garbageDels s.pool s.dels m.2
    ⟨d.2, UInt32.ofNat d.2.length, m.1, d.1⟩

/-! ## Times -/

/-- The digit that a byte is. -/
def digit (c : Byte) : Option Nat :=
  if 48 ≤ c ∧ c ≤ 57 then some (c.toNat - 48)
  else if 97 ≤ c ∧ c ≤ 102 then some (c.toNat - 97 + 10)
  else none

/-- The loop of `tai64nunix`: `seconds` and `nanoseconds`. -/
def taiLoop : Bytes → Nat × Nat → Nat × Nat
  | [], r => r
  | c :: s, r =>
      match digit c with
      | none => r
      | some u => taiLoop s ((r.1 * 16 + r.2 / 2 ^ 28) % 2 ^ 64, r.2 % 2 ^ 28 * 16 + u)

variable (nm : Ulongs)

/-- `fmt_uint0` with 9 places. -/
def fmt_uint0 (u : Nat) : Bytes :=
  List.replicate (9 - (nm.fmtUlong u).length) 48 ++ nm.fmtUlong u

def tai64nunix (s : Bytes) : Bytes :=
  if s.head? ≠ some 64 then s
  else
    let r := taiLoop s.tail (0, 0)
    nm.fmtUlong ((r.1 + 2 ^ 64 - 4611686018427387914) % 2 ^ 64) ++ 46 :: fmt_uint0 nm r.2

/-! ## A line -/

/-- `case_lowers(pool.s + off)`. -/
def case_lowers (pool : Bytes) (off : Nat) : Bytes :=
  pool.take off ++ caseLower (str pool off) ++ (pool.drop off).drop (str pool off).length

/-- The loop that puts NULs into a line. -/
def blanked (line : Bytes) : Bytes := line.map fun ch => if ch = 10 ∨ ch = 32 ∨ ch = 9 then 0 else ch

/-- The texts at `line.s + field[i]`, for so many fields. -/
def fields : Nat → Bytes → List Bytes
  | 0, _ => []
  | n + 1, s =>
      let s := s.dropWhile (· = 0)
      s.takeWhile (· ≠ 0) :: fields n (s.dropWhile (· ≠ 0))

/-- `line.s + field[i]`. -/
def field (line : Bytes) (i : Nat) : Bytes := (fields 20 (blanked line)).getD i []

/-- `scan_ulong(s, &u)`: `u`. -/
def scan (s : Bytes) : Nat := (nm.scanUlong s).2

/-- The conversion of a queue number to `int`, and back. -/
def queue (q : Nat) : Nat := unsignedLong (int32 q)

/-- The numbers of a delivery, as in `1.5:`, and the message. -/
def delNumber (s : Bytes) : Nat × Nat :=
  let i := (nm.scanUlong s).1
  (scan nm s, queue (if (s.drop i).head? = some 46 then scan nm (s.drop (i + 1)) else 0))

/-- `while (numdel > 0) del_kill(0)`. -/
def killAll : Nat → State → State
  | 0, s => s
  | n + 1, s => killAll n (del_kill 0 s)

def clear (s : State) : State := garbage (killAll s.dels.length s)

def starting (line : Bytes) (s : State) : State :=
  let d := delNumber nm (field line 3)
  let m := scan nm (field line 5)
  let (dpos, s) := del_add d s
  let dstart := s.pool.length
  let pool := add 0 s.pool (tai64nunix nm (field line 0))
  let dchan := pool.length
  let pool := add 0 pool (field line 7)
  let drecip := pool.length
  let pool := case_lowers (add 0 pool (field line 8)) drecip
  { s with
    pool := pool
    poolbytes := s.poolbytes + UInt32.ofNat (pool.length - dstart)
    dels := s.dels.set dpos ⟨d.1, d.2, m, dchan, drecip, dstart⟩ }

/-- `numk`, `numd` or `numz`. -/
inductive Count where
  | k
  | d
  | z
  deriving DecidableEq, Repr

def Msg.count {τ : Type} (m : Msg τ) : Option Count → Msg τ
  | none => m
  | some .k => { m with numk := (m.numk + 1) % 2 ^ 64 }
  | some .d => { m with numd := (m.numd + 1) % 2 ^ 64 }
  | some .z => { m with numz := (m.numz + 1) % 2 ^ 64 }

/-- How a delivery ended: what is counted, `result` and `reason`. -/
def report (line : Bytes) : Option Count × Bytes × Bytes :=
  if (asc "succ").isPrefixOf (field line 3) then (some .k, asc "d k ", field line 4)
  else if (asc "fail").isPrefixOf (field line 3) then (some .d, asc "d d ", field line 4)
  else if (asc "defer").isPrefixOf (field line 3) then (some .z, asc "d z ", field line 4)
  else if (asc "report").isPrefixOf (field line 3) then (some .z, asc "d z ", asc "report_mangled")
  else (none, asc "?", [])

/-- The line that is written for a delivery. -/
def deliveryLine (m : Option (Msg Bytes)) (d : Del Bytes) (line : Bytes) : Bytes :=
  let result := (report line).2.1
  let reason := (report line).2.2
  let now := tai64nunix nm (field line 0)
  match m with
  | some m =>
      result ++ m.birth ++ [32] ++ d.dstart ++ [32] ++ now ++ [32] ++ nm.fmtUlong m.bytes ++ [32] ++
        m.sender ++ [32] ++ d.dchan ++ [46] ++ d.drecip ++ [32] ++ nm.fmtUlong m.qp ++ [32] ++
        nm.fmtUlong m.uid ++ [32] ++ reason ++ [10]
  | none =>
      result ++ d.dstart ++ [32] ++ d.dstart ++ [32] ++ now ++ asc " 0 ? " ++ d.dchan ++ [46] ++
        d.drecip ++ asc " ? ? " ++ reason ++ [10]

def delivery (line : Bytes) (s : State) : State × Bytes :=
  match del_find (delNumber nm (field line 2)) s with
  | none => (s, [])
  | some dpos =>
      let d := s.dels.getD dpos default
      match msg_find d.dmsg s with
      | some mpos =>
          let s := { s with msgs := s.msgs.modify mpos fun m => m.count (report line).1 }
          let m := s.msgs.getD mpos default
          (garbage (del_kill dpos s),
            deliveryLine nm (some (m.map (str s.pool))) (d.map (str s.pool)) line)
      | none =>
          (garbage (del_kill dpos s), deliveryLine nm none (d.map (str s.pool)) line)

def newmsg (line : Bytes) (s : State) : State :=
  match msg_find (scan nm (field line 3)) s with
  | none => s
  | some mpos => garbage (msg_kill mpos s)

/-- The line that is written for a message. -/
def msgLine (m : Msg Bytes) (line : Bytes) : Bytes :=
  asc "m " ++ m.birth ++ [32] ++ tai64nunix nm (field line 0) ++ [32] ++ nm.fmtUlong m.bytes ++
    [32] ++ nm.fmtUlong m.numk ++ [32] ++ nm.fmtUlong m.numd ++ [32] ++ nm.fmtUlong m.numz ++ [32] ++
    m.sender ++ [32] ++ nm.fmtUlong m.qp ++ [32] ++ nm.fmtUlong m.uid ++ [10]

def endmsg (line : Bytes) (s : State) : State × Bytes :=
  match msg_find (scan nm (field line 3)) s with
  | none => (s, [])
  | some mpos =>
      (garbage (msg_kill mpos s), msgLine nm ((s.msgs.getD mpos default).map (str s.pool)) line)

def info (line : Bytes) (s : State) : State :=
  let m := scan nm (field line 3)
  let (mpos, s) := msg_add m s
  let birth := s.pool.length
  let pool := add 0 s.pool (tai64nunix nm (field line 0))
  let sender := pool.length
  let pool := case_lowers (add 0 pool (field line 7)) sender
  { s with
    pool := pool
    poolbytes := s.poolbytes + UInt32.ofNat (pool.length - birth)
    msgs := s.msgs.set mpos ⟨m, scan nm (field line 5), scan nm (field line 9),
      scan nm (field line 11), 0, 0, 0, sender, birth⟩ }

def extra (line : Bytes) (s : State) : State :=
  match msg_find (scan nm (field line 2)) s with
  | none => s
  | some mpos =>
      { s with
        msgs := s.msgs.modify mpos fun m =>
          { m with
            numk := scan nm (field line 3)
            numz := scan nm (field line 4)
            numd := scan nm (field line 5) } }

/-! ## `pending` -/

def pendingMsg (m : Msg Bytes) : Bytes :=
  m.birth ++ asc " info msg " ++ nm.fmtUlong m.msg ++ asc ": bytes " ++ nm.fmtUlong m.bytes ++
    asc " from " ++ m.sender ++ asc " qp " ++ nm.fmtUlong m.qp ++ asc " uid " ++ nm.fmtUlong m.uid ++
    [10] ++
  m.birth ++ asc " extra " ++ nm.fmtUlong m.msg ++ [32] ++ nm.fmtUlong m.numk ++ [32] ++
    nm.fmtUlong m.numz ++ [32] ++ nm.fmtUlong m.numd ++ [10]

def pendingDel (d : Del Bytes) : Bytes :=
  d.dstart ++ asc " starting delivery " ++ nm.fmtUlong d.del ++ asc ": msg " ++ nm.fmtUlong d.dmsg ++
    asc " to " ++ d.dchan ++ [32] ++ d.drecip ++ [10]

/-- `pending`; `line` is what is left of the log behind its last newline. -/
def pending (s : State) (line : Bytes) : Bytes :=
  (s.msgs.flatMap fun m => pendingMsg nm (m.map (str s.pool))) ++
    (s.dels.flatMap fun d => pendingDel nm (d.map (str s.pool))) ++ line

/-! ## `main` -/

/-- What is done with a line. -/
inductive Call where
  | skip
  | starting
  | delivery
  | newmsg
  | endmsg
  | clear
  | info
  | extra
  | copy
  | unknown
  deriving DecidableEq, Repr

/-- The comparisons of `main`, in their order. -/
def call (line : Bytes) : Call :=
  let f := field line
  if f 1 = asc "status:" then .skip
  else if f 1 = asc "starting" then .starting
  else if f 1 = asc "delivery" then .delivery
  else if f 1 = asc "new" then .newmsg
  else if f 1 = asc "end" then .endmsg
  else if (asc "ratelimit=").isPrefixOf (f 4) then .skip
  else if f 4 = asc "conf" ∧ (asc "split=").isPrefixOf (f 5) then .skip
  else if f 5 = asc "got" then .skip
  else if f 5 = asc "has" ∧ f 6 = asc "shutdown" then .skip
  else if f 2 = asc "qscheduler:" ∧ f 7 = asc "started" then .skip
  else if f 2 = asc "qscheduler:" ∧ f 7 = asc "killed" then .skip
  else if f 2 = asc "qscheduler:" ∧ f 5 = asc "static" then .skip
  else if f 2 = asc "qscheduler:" ∧ f 5 = asc "dynamic" then .skip
  else if f 2 = asc "qscheduler:" ∧ f 3 = asc "issue" then .skip
  else if f 2 = asc "qscheduler:" ∧ f 3 = asc "average" then .skip
  else if f 2 = asc "todo-proc:" ∧ f 4 = asc "Resetting" then .skip
  else if f 2 = asc "todo-proc:" ∧ (asc "subdir=").isPrefixOf (f 4) then .skip
  else if f 2 = asc "qscheduler:" ∧ f 5 = asc "exiting" then .clear
  else if f 2 = asc "slowq-send:" ∧ f 6 = asc "exiting" then .clear
  else if f 2 = asc "qmta-send:" ∧ f 6 = asc "exiting" then .clear
  else if f 2 = asc "qmta-send:" ∧ f 6 = asc "quitting..." then .clear
  else if f 1 = asc "info" then .info
  else if f 1 = asc "extra" then .extra
  else if f 1 = asc "running" then .clear
  else if f 1 = asc "exiting" then .clear
  else if f 1 = asc "number" then .skip
  else if f 1 = asc "local:" then .skip
  else if f 1 = asc "remote:" then .skip
  else if f 1 = asc "qscheduler:" then .skip
  else if f 1 = asc "warning:" then .copy
  else if f 1 = asc "alert:" then .copy
  else .unknown

/-- A line, with its newline, and what is written to descriptor 1. -/
def step (s : State) (line : Bytes) : State × Bytes :=
  match call line with
  | .skip => (s, [])
  | .starting => (starting nm line s, [])
  | .delivery => delivery nm line s
  | .newmsg => (newmsg nm line s, [])
  | .endmsg => endmsg nm line s
  | .clear => (clear s, [])
  | .info => (info nm line s, [])
  | .extra => (extra nm line s, [])
  | .copy => (s, line)
  | .unknown => (s, asc "? " ++ line)

/-- The lines of a log that have their newline. -/
def lines (log : Bytes) : List Bytes := (Lines.fields 10 log).map (· ++ [10])

/-- The loop of `main`. -/
def run (log : Bytes) : State × Bytes := feed (step nm) {} (lines log)

/-- What `main` writes to descriptor 1, and to descriptor 5. -/
def main (log : Bytes) : Bytes × Bytes :=
  ((run nm log).2, pending nm (run nm log).1 (Lines.rest 10 log))

end IndimailMta.Matchup
