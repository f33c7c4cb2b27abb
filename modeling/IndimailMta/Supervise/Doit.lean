import IndimailMta.Base
import IndimailMta.Lib.Descriptors
import IndimailMta.Lib.Run

/-!
# supervise: the loop of `doit`

supervise starts a service, collects its exit status, starts it again where it is wanted up,
and takes commands from the fifo `supervise/control`. What it knows it shows in the file
`supervise/status` and by holding the fifos `supervise/up` and `supervise/dn` open.

One round of the loop is one step of the machine: from `iopause` to the next `iopause`, or to
the return of `doit`. What the system answers in the round is the label. The service is not run
in subreaper mode, has no `wait` file, and supervise gets no SIGTERM.
-/

namespace IndimailMta.Supervise

open IndimailMta Descriptors Run

/-- What a descriptor of supervise is open on. -/
inductive File
  | up
  | dn
  | other
  deriving DecidableEq, Repr

/-- The second argument of `./run`. -/
inductive How
  | autoStartup
  | manualRestart
  | abnormalStartup
  | systemFailure
  | manualStartup
  | oneTimeStartup
  deriving DecidableEq, Repr

/-- The cases of the `switch` over a byte of `supervise/control`. -/
inductive Command
  | group
  | restart
  | down
  | up
  | once
  | signal (sig : Int)
  | pause
  | cont
  | exit
  | unknown
  deriving DecidableEq, Repr

def SIGHUP : Int := 1
def SIGINT : Int := 2
def SIGQUIT : Int := 3
def SIGKILL : Int := 9
def SIGUSR1 : Int := 10
def SIGUSR2 : Int := 12
def SIGALRM : Int := 14
def SIGTERM : Int := 15
def SIGCONT : Int := 18
def SIGSTOP : Int := 19

def command (ch : Byte) : Command :=
  match Char.ofNat ch.toNat with
  | 'G' => .group
  | 'r' => .restart
  | 'd' => .down
  | 'u' => .up
  | 'o' => .once
  | 'a' => .signal SIGALRM
  | 'h' => .signal SIGHUP
  | 'k' => .signal SIGKILL
  | 't' => .signal SIGTERM
  | 'i' => .signal SIGINT
  | 'q' => .signal SIGQUIT
  | 'U' => .signal SIGUSR1
  | '1' => .signal SIGUSR1
  | '2' => .signal SIGUSR2
  | 'p' => .pause
  | 'c' => .cont
  | 'x' => .exit
  | _ => .unknown

/-- What happened, as an observer of supervise would write it down. A command stands with the
value `childpid` had when it was read. -/
inductive Event
  | byte (cmd : Command) (pid : Nat)
  | started (pid : Nat) (how : How)
  | reaped (pid : Nat)
  | closed (file : File) (live : Bool)
  deriving DecidableEq, Repr

/-! ## The status -/

/-- `status[12..17]` and `status[20]`: the pid, the paused flag, the wanted direction, and
whether the pid is that of the service. -/
structure Status where
  pid : Bytes
  paused : Byte
  want : Byte
  up : Byte
  deriving DecidableEq, Repr

def packPid (pid : Nat) : Bytes :=
  [UInt8.ofNat pid, UInt8.ofNat (pid / 256), UInt8.ofNat (pid / 256 / 256),
    UInt8.ofNat (pid / 256 / 256 / 256)]

/-- How a reader of the status, `do_wait` among them, gets the pid back. -/
def unpackPid : Bytes → Nat
  | [a, b, c, d] => ((d.toNat * 256 + c.toNat) * 256 + b.toNat) * 256 + a.toNat
  | _ => 0

theorem unpackPid_packPid {pid : Nat} (h : pid < 2 ^ 32) : unpackPid (packPid pid) = pid := by
  simp only [packPid, unpackPid, UInt8.toNat_ofNat']
  omega

/-- `pidchange()`, without the time stamp. -/
def pidchange (pid : Nat) (up : Byte) (st : Status) : Status :=
  { st with pid := packPid pid, up := up }

/-- `status[17]`. -/
def wantByte (flagwantxx flagwantup : Bool) : Byte :=
  if flagwantxx then if flagwantup then 117 else 100 else 0

/-! ## The state -/

/-- A signal that was sent, to a process or to its group. -/
structure Kill where
  group : Bool
  pid : Nat
  signal : Int
  deriving DecidableEq, Repr

/-- What does not change while supervise runs. -/
structure Config where
  svpid : Nat
  silent : Bool
  flagoneshot : Bool
  /-- SHUTDOWN_SIGNAL, or SIGTERM where it is not set. -/
  shutdownSignal : Int

/-- The variables of supervise, the descriptors and the processes the kernel keeps for it, and
what happened, the latest first. A descriptor variable that is −1 in the source is `none`. -/
structure State where
  childpid : Nat
  fdup : Option Nat
  fddn : Option Nat
  flagexit : Bool
  flagwantxx : Bool
  flagwantup : Bool
  flagpaused : Bool
  flagfailed : Bool
  flagrestart : Bool
  g : Bool
  status : Status
  file : Status
  fds : Table File
  children : List Nat
  scripts : List Nat
  kills : List Kill
  log : List Event
  returned : Bool
  deriving DecidableEq

/-- `announce(0)`. -/
def State.announce (s : State) : State :=
  let st := { s.status with
    paused := if s.childpid ≠ 0 ∧ s.flagpaused then 1 else 0
    want := wantByte s.flagwantxx s.flagwantup }
  { s with status := st, file := st }

/-- `do_kill()`. -/
def State.doKill (prgrp : Bool) (siglist : List Int) (s : State) : State :=
  let sent := (siglist.takeWhile (· ≠ -1)).map fun sig => Kill.mk prgrp s.childpid sig
  { s with kills := s.kills ++ sent }

/-- `close()` of a descriptor that was opened on `file`. -/
def State.closeFd (fd : Option Nat) (file : File) (s : State) : State :=
  match fd with
  | none => { s with log := .closed file false :: s.log }
  | some n =>
    { s with
      fds := close s.fds n
      log := .closed file (decide ((n, file) ∈ s.fds)) :: s.log }

def State.openUp (s : State) : State :=
  if s.fdup = none then { s with fds := openOn s.fds .up, fdup := some (lowest s.fds) } else s

def State.openDn (s : State) : State :=
  if s.fddn = none then { s with fds := openOn s.fds .dn, fddn := some (lowest s.fds) } else s

def State.closeDn (s : State) : State :=
  if s.fddn = none then s else { s.closeFd s.fddn .dn with fddn := none }

/-! What is done with descriptors and the status does not end the loop. -/

@[simp] theorem returned_announce (s : State) : s.announce.returned = s.returned := rfl

@[simp] theorem returned_closeFd (s : State) (fd : Option Nat) (file : File) :
    (s.closeFd fd file).returned = s.returned := by
  unfold State.closeFd
  split <;> rfl

@[simp] theorem returned_openUp (s : State) : s.openUp.returned = s.returned := by
  unfold State.openUp
  split <;> rfl

@[simp] theorem returned_openDn (s : State) : s.openDn.returned = s.returned := by
  unfold State.openDn
  split <;> rfl

@[simp] theorem returned_closeDn (s : State) : s.closeDn.returned = s.returned := by
  unfold State.closeDn
  split
  · rfl
  · exact returned_closeFd s s.fddn .dn

/-! ## Processes -/

/-- A number the kernel can give to a new process. -/
def State.fresh (c : Config) (pid : Nat) (s : State) : Bool :=
  pid ≠ 0 && pid < 2 ^ 31 && pid ≠ c.svpid && pid ∉ s.children && pid ∉ s.scripts

/-- The exit status of `pid` is collected. There is none where `pid` is no child of supervise. -/
def State.collect (pid : Nat) (s : State) : Option State :=
  if pid = 0 then none
  else if pid ∈ s.children then
    some { s with children := s.children.erase pid, log := .reaped pid :: s.log }
  else if pid ∈ s.scripts then some { s with scripts := s.scripts.erase pid }
  else none

/-- What a script of the service does to supervise: whether it is there, what `fork` returns
for it (`none` for −1), and what `wait_nohang` collects after it. -/
structure Script where
  present : Bool
  fork : Option Nat
  nohang : Option Nat

/-- `tryaction()`. With a positive `waitflag` the script itself is waited for. -/
def tryaction (c : Config) (a : Script) (waitflag : Bool) (s : State) : Option State :=
  if !a.present then some s
  else
    match a.fork with
    | none => some s
    | some pid =>
      if !s.fresh c pid then none
      else if waitflag then some s
      else
        match a.nohang with
        | none => some { s with scripts := pid :: s.scripts }
        | some r => State.collect r { s with scripts := pid :: s.scripts }

/-- The end of `trystart()`, in the parent. -/
def started (c : Config) (how : How) (pid : Nat) (s : State) : State :=
  let s := State.openUp <| State.announce
    { s with
      flagpaused := false
      childpid := pid
      status := pidchange pid 1 s.status
      children := pid :: s.children
      log := .started pid how :: s.log }
  if !c.flagoneshot || !s.flagwantup then s.closeDn else s

@[simp] theorem returned_started (c : Config) (how : How) (pid : Nat) (s : State) :
    (started c how pid s).returned = s.returned := by
  unfold started
  dsimp only
  split <;> simp

/-- `trystart()`. `fork` is what `fork` returns, `none` for −1. -/
def trystart (c : Config) (how : How) (fork : Option Nat) (s : State) : Option State :=
  match fork with
  | none => some { s with flagfailed := true }
  | some pid => if s.fresh c pid then some (started c how pid s) else none

/-! ## One round -/

/-- What `waitpid` returns: 0, −1, −1 with EINTR, a child that stopped or went on, a child that
exited. -/
inductive WaitResult
  | nothing
  | error
  | intr
  | changed (pid : Nat)
  | exited (pid : Nat)

/-- What the system answers in one round. -/
structure Input where
  waits : List WaitResult
  post : Script
  alert : Script
  restart : Option Nat
  retry : Option Nat
  byte : Option Byte
  shutdown : Script
  start : Option Nat

/-- `postmortem()`. -/
def postmortem (c : Config) (i : Input) (s : State) : Option State :=
  if c.silent then some s else tryaction c i.post false s

/-- The restart on death. -/
def autostart (c : Config) (i : Input) (s : State) : Option State :=
  if s.flagwantxx && s.flagwantup then
    if s.flagrestart then trystart c .manualRestart i.restart { s with flagrestart := false }
    else (tryaction c i.alert true s).bind (trystart c .abnormalStartup i.restart)
  else some s

/-- The service exited. `fdup` is closed and keeps its value. -/
def died (c : Config) (i : Input) (s : State) : Option State :=
  (postmortem c i s).bind fun s =>
    let s := State.announce <| State.closeFd s.fdup .up
      { s with childpid := 0, status := pidchange c.svpid 0 s.status }
    if s.flagexit then some { s with returned := true } else autostart c i s

/-- The loop over `waitpid`. -/
def waits (c : Config) (i : Input) : List WaitResult → State → Option State
  | [], s => some s
  | .nothing :: _, s => some s
  | .error :: _, s => some s
  | .intr :: ws, s => waits c i ws s
  | .changed pid :: _, s => if pid ∈ s.children ∨ pid ∈ s.scripts then some s else none
  | .exited pid :: ws, s =>
    (s.collect pid).bind fun t => if pid = s.childpid then died c i t else waits c i ws t

/-- The start that is tried again after `fork` had failed. -/
def retry (c : Config) (i : Input) (s : State) : Option State :=
  if s.flagfailed && s.flagwantxx && s.flagwantup then
    trystart c .systemFailure i.retry { s with flagfailed := false }
  else some s

/-- `siglist` and `do_kill` of a signal command. -/
def signalChild (sig : Int) (s : State) : State :=
  if s.childpid ≠ 0 then { s.doKill s.g [sig] with g := false } else s

/-- The end of the service that `d` and `r` ask for. -/
def shutdownChild (c : Config) (i : Input) (s : State) : Option State :=
  (tryaction c i.shutdown false s).map fun s =>
    { s.doKill s.g [c.shutdownSignal, SIGCONT] with g := false, flagpaused := false }

/-- The `switch` over the byte that was read. -/
def obey (c : Config) (i : Input) (s : State) : Command → Option State
  | .group => some { s with g := true }
  | .restart =>
    let s := { s with flagwantxx := true, flagwantup := true }
    if s.childpid ≠ 0 then
      (shutdownChild c i s).map fun s => { s.announce with flagrestart := true }
    else trystart c .manualRestart i.start s.announce
  | .down =>
    let s := { s with flagwantxx := true, flagwantup := false }
    if s.childpid ≠ 0 then (shutdownChild c i s).map fun s => s.openDn.announce
    else some s.announce
  | .up =>
    let s := State.announce { s with flagwantxx := true, flagwantup := true }
    if s.childpid ≠ 0 then some s else trystart c .manualStartup i.start s
  | .once =>
    let s := State.announce { s with flagwantxx := false }
    if s.childpid ≠ 0 then some s else trystart c .oneTimeStartup i.start s
  | .signal sig => some (signalChild sig s)
  | .pause => some (signalChild SIGSTOP (State.announce { s with flagpaused := true }))
  | .cont => some (signalChild SIGCONT (State.announce { s with flagpaused := false }))
  | .exit => some (State.announce { s with flagexit := true })
  | .unknown => some s

/-- The byte from `supervise/control`, if there is one. -/
def control (c : Config) (i : Input) (s : State) : Option State :=
  match i.byte with
  | none => some s
  | some ch =>
    obey c i { s with log := .byte (command ch) s.childpid :: s.log } (command ch)

/-- The top of the loop. -/
def State.top (s : State) : State :=
  if s.flagexit && s.childpid = 0 then { s with returned := true } else s

/-- From `iopause` to `iopause`, or to the return of `doit`. -/
def round (c : Config) (i : Input) (s : State) : Option State :=
  (waits c i i.waits s).bind fun s =>
    if s.returned then some s
    else (retry c i s).bind fun s => (control c i s).map State.top

/-! ## The machine -/

/-- What `main` has done before its first start. `fds` are the descriptors it holds then, and
`down` tells whether the service has a file of that name. -/
def initial (c : Config) (fds : Table File) (down : Bool) : State :=
  let s : State := State.announce
    { childpid := 0, fdup := none, fddn := none
      flagexit := false, flagwantxx := true, flagwantup := !down && !c.flagoneshot
      flagpaused := false, flagfailed := false, flagrestart := false, g := false
      status := pidchange c.svpid 0 ⟨packPid 0, 0, 0, 0⟩, file := ⟨packPid 0, 0, 0, 0⟩
      fds := fds, children := [], scripts := [], kills := [], log := [], returned := false }
  if s.flagwantup then s else s.openDn

/-- The end of `main` and the begin of `doit`: at the first `iopause`. -/
def boot (c : Config) (fds : Table File) (down : Bool) (fork : Option Nat) : Option State :=
  let s := initial c fds down
  if !s.flagwantxx || s.flagwantup || c.flagoneshot then
    (trystart c .autoStartup fork s).map State.announce
  else some s.announce

/-- Every `fork` for the service succeeds. -/
def Input.ForksSucceed (i : Input) : Prop := i.restart ≠ none ∧ i.retry ≠ none ∧ i.start ≠ none

def machine (c : Config) (fds : Table File) : Machine State Input where
  init s := ∃ down, ∃ pid : Nat, boot c fds down (some pid) = some s
  step s i := if s.returned then none else round c i s

end IndimailMta.Supervise
