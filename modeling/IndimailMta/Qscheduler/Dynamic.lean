import IndimailMta.Lib.Run
import Mathlib.Algebra.GroupWithZero.Nat
import Mathlib.Data.Int.Notation
import Mathlib.Logic.Function.Basic

/-!
# qscheduler: dynamic mode

qscheduler runs one qmail-send for every queue. The senders report their load; where it is high
the scheduler adds a queue, for which it may have to run queue-fix, and where it is low it
removes the highest queues that are empty. A signal handler collects the exits of children and
starts the sender that died again. It works on the same table as the main program, and may come
between any two of its steps.

`queue_table` and `shm_queue` are allocated memory: `tableLen` and `shmLen` are the numbers of
their elements, and a step that uses an element past the end has no further meaning (`fault`).
Allocation, and the calls that create and open the queues and the shared memory, succeed.
-/

namespace IndimailMta.Qscheduler

open Run Function

/-- `qtab`. -/
structure Qtab where
  pid : Int
  queueNo : Nat
  load : Nat
  deriving DecidableEq, Repr

/-- How a child ended: `WIFEXITED` or `WIFSIGNALED`. -/
inductive Ended
  | exited (code : Nat)
  | signaled (sig : Nat)
  deriving DecidableEq, Repr

/-- What a child of the scheduler was started for. -/
inductive Job
  | send (queue : Nat)
  | fix
  deriving DecidableEq, Repr

/-- A child whose exit was not collected. -/
structure Child where
  pid : Int
  job : Job
  ended : Option Ended
  deriving DecidableEq, Repr

/-- The scheduler is no longer there: it used memory that is not its own, or called `die`. -/
inductive Halt
  | fault
  | died
  deriving DecidableEq, Repr

/-- Where the main program is in `dynamic_queue`. -/
inductive Pc
  | boot (i : Nat)
  | booted (i : Nat) (pid : Int)
  | idle
  | access
  | fixing (pid : Int)
  | grow
  | count
  | init
  | ipc
  | check
  | fork
  | started (pid : Int)
  | publish
  | shrink (i : Nat)
  | realloc (i : Nat) (r : Int)
  | kill (i : Nat) (r : Int)
  | removed (i : Nat) (r : Int)
  deriving DecidableEq, Repr

structure Config where
  qmax : Nat
  threshold : Nat
  keepQcount : Bool
  nqueue : Bool

structure State where
  queueTable : Nat → Qtab
  tableLen : Nat
  shmLen : Nat
  qcount : Nat
  qconf : Nat
  killed : Int
  /-- The two integers in the shared memory, and the control file `qcount`. -/
  shm : Nat × Nat
  control : Nat
  children : List Child
  pc : Pc
  halt : Option Halt

def State.fault (s : State) : State := { s with halt := some .fault }

/-- `die(1)`. -/
def State.die (s : State) : State := { s with halt := some .died }

/-! ## Children -/

/-- `fork`, and what the kernel gives to the new process. -/
def State.forkChild (pid : Int) (job : Job) (s : State) : Option State :=
  if 0 < pid ∧ ∀ ch ∈ s.children, ch.pid ≠ pid then
    some { s with children := ⟨pid, job, none⟩ :: s.children }
  else none

/-- The exit of a child is collected. -/
def State.drop (pid : Int) (s : State) : State :=
  { s with children := s.children.filter fun ch => ch.pid ≠ pid }

/-- A child ends. -/
def State.endChild (pid : Int) (e : Ended) (s : State) : Option State :=
  if s.children.any fun ch => ch.pid = pid && ch.ended.isNone then
    some { s with
      children := s.children.map fun ch => if ch.pid = pid then { ch with ended := some e } else ch }
  else none

/-- `check_send()`: a sender that runs holds `lock/sendmutex` of its queue. -/
def State.checkSend (q : Nat) (s : State) : Bool :=
  s.children.any fun ch => ch.job = .send q && ch.ended.isNone

/-- The assignments at the end of `start_send()`. -/
def State.record (q : Nat) (pid : Int) (s : State) : State :=
  if q < s.tableLen then
    { s with queueTable := update s.queueTable q { s.queueTable q with pid := pid, load := 0 } }
  else s.fault

/-- The search for a pid, from 0 to `qcount`. -/
def State.locate (pid : Int) (s : State) : Option Nat :=
  (List.range (s.qcount + 1)).find? fun i => (s.queueTable i).pid = pid

/-- `start_send(-1, pid)`. `new` is what `fork` returns. -/
def State.restart (pid new : Int) (s : State) : Option State :=
  match s.locate pid with
  | none => some s.die
  | some q =>
    if s.checkSend q then some s.die
    else (s.forkChild new (.send q)).map (State.record q new)

/-- `sigchld()`, with the children `wait_nohang` returns and what `fork` returns after each. It
goes on as long as there is a child that ended. -/
def sigchld : List (Int × Int) → State → Option State
  | [], s => if s.children.any fun ch => ch.ended.isSome then none else some s
  | (pid, new) :: as, s =>
    match (s.children.find? fun ch => ch.pid = pid).bind Child.ended with
    | none => none
    | some e =>
      let s := s.drop pid
      if s.tableLen ≤ s.qcount then some s.fault
      else if s.locate pid = none then some s.die
      else if pid = s.killed then sigchld as { s with killed := 0 }
      else if e = .exited 0 then sigchld as s
      else (s.restart pid new).bind fun s => if s.halt.isSome then some s else sigchld as s

/-! ## The main program -/

/-- `alloc_re()` from `m` elements to `n`; `mem` is what new memory holds. -/
def State.allocRe (m n : Nat) (mem : Nat → Qtab) (s : State) : State :=
  { s with queueTable := fun i => if i < m then s.queueTable i else mem i, tableLen := n }

/-- `write_queue2shm(1)`. -/
def State.writeQueue2shm (s : State) : State :=
  { s with shm := (s.qcount, s.qconf), control := s.qcount }

/-- `total_load`, an `unsigned int`. -/
def State.totalLoad (s : State) : Nat :=
  ((List.range s.qcount).map fun k => (s.queueTable (k + 1)).load).sum % 2 ^ 32

/-- A message of a sender was received. -/
def message (c : Config) (queueNo load : Nat) (s : State) : State :=
  if c.keepQcount then s
  else if queueNo < s.tableLen then
    let s := { s with
      queueTable := update s.queueTable queueNo { s.queueTable queueNo with load := load } }
    if s.tableLen ≤ s.qcount then s.fault
    else if 2 * s.qcount * c.threshold % 2 ^ 32 < s.totalLoad ∧ s.qcount < c.qmax then
      { s with pc := .access }
    else { s with pc := .shrink s.qcount }
  else s.fault

/-- What `access` says of the directory of the next queue. Where there is none queue-fix is
started, under the pid that `fork` returns. -/
inductive Access
  | found
  | absent (fix : Int)
  | error

inductive Label
  | message (queueNo load : Nat)
  | access (r : Access)
  | wait
  | alloc (mem : Nat → Qtab)
  | fork (pid : Int)
  | empty (b : Bool)
  | tick
  | ended (pid : Int) (e : Ended)
  | sigchld (answers : List (Int × Int))

/-- `wait_pid` in `queue_fix()`, and what is made of the exit. -/
def waitFix (pid : Int) (s : State) : Option State :=
  match s.children.find? fun ch => ch.pid = pid with
  | none => some s.die
  | some ch =>
    match ch.ended with
    | none => none
    | some (.exited 0) => some { s.drop pid with pc := .grow }
    | some _ => some (s.drop pid).die

/-- The steps for which the system has nothing to answer. -/
def tick (c : Config) (s : State) : Option State :=
  match s.pc with
  | .boot i =>
    if s.qcount < i then some { s with pc := .idle }
    else if i = 0 ∧ c.nqueue = false then some { s with pc := .boot 1 }
    else if s.checkSend i then some s.die
    else none
  | .booted i pid => some { s.record i pid with pc := .boot (i + 1) }
  | .count =>
    some { s with
      qcount := s.qcount + 1
      qconf := if s.qconf < s.qcount + 1 then s.qconf + 1 else s.qconf
      pc := .init }
  | .init =>
    if s.qcount < s.tableLen then
      some { s with
        queueTable := update s.queueTable s.qcount ⟨-1, s.qcount, 0⟩
        pc := .ipc }
    else some s.fault
  | .ipc => if s.shmLen < s.qcount then some s.fault else some { s with pc := .check }
  | .check =>
    if s.checkSend s.qcount then some { s with qcount := s.qcount - 1, pc := .idle }
    else some { s with pc := .fork }
  | .started pid => some { s.record s.qcount pid with pc := .publish }
  | .publish => some { s.writeQueue2shm with pc := .idle }
  | .shrink i => if 1 < i then none else some { s with pc := .idle }
  | .kill i r =>
    if r = -1 ∨ ∃ ch ∈ s.children, ch.pid = r then some { s with pc := .removed i r }
    else some { s with qcount := s.qcount + 1, pc := .shrink (i - 1) }
  | .removed i r => some { State.writeQueue2shm { s with killed := r } with pc := .shrink (i - 1) }
  | _ => none

def step (c : Config) (s : State) (l : Label) : Option State :=
  if s.halt.isSome then none
  else
    match l, s.pc with
    | .ended pid e, _ => s.endChild pid e
    | .sigchld as, _ => sigchld as s
    | .tick, _ => tick c s
    | .message q n, .idle => some (message c q n s)
    | .access .found, .access => some { s with pc := .grow }
    | .access (.absent fix), .access =>
      (s.forkChild fix .fix).map fun s => { s with pc := .fixing fix }
    | .access .error, .access => some { s with pc := .idle }
    | .wait, .fixing pid => waitFix pid s
    | .alloc mem, .grow => some { s.allocRe (s.qcount + 1) (s.qcount + 2) mem with pc := .count }
    | .fork pid, .boot i =>
      if s.qcount < i ∨ i = 0 ∧ c.nqueue = false ∨ s.checkSend i then none
      else (s.forkChild pid (.send i)).map fun s => { s with pc := .booted i pid }
    | .fork pid, .fork =>
      (s.forkChild pid (.send s.qcount)).map fun s => { s with pc := .started pid }
    | .empty b, .shrink i =>
      if i ≤ 1 then none
      else if b then
        if i < s.tableLen then
          some { s with
            queueTable := update s.queueTable i { s.queueTable i with pid := -1 }
            qcount := s.qcount - 1
            pc := .realloc i (s.queueTable i).pid }
        else some s.fault
      else some { s with pc := .idle }
    | .alloc mem, .realloc i r =>
      some { s.allocRe (s.qcount + 1) (s.qcount + 2) mem with pc := .kill i r }
    | _, _ => none

/-- `dynamic_queue()` when the table is allocated, before the first sender is started. -/
def initial (qcount qconf control : Nat) : State :=
  { queueTable := fun i => ⟨-1, i, 0⟩, tableLen := qcount + 1, shmLen := qcount
    qcount := qcount, qconf := qconf, killed := 0, shm := (qcount, qconf), control := control
    children := [], pc := .boot 0, halt := none }

def machine (c : Config) : Machine State Label where
  init s := ∃ qcount qconf control, s = initial qcount qconf control
  step := step c

end IndimailMta.Qscheduler
