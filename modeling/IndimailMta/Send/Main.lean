import IndimailMta.Send.Pass
import IndimailMta.Lib.Run

/-!
# qmail-send as a machine

qmail-send reads its limits from the control files and from the spawners when it
starts, and from then on does what its main loop finds to do: commands are
written, reports and job lines are read, passes go on, controls are read again
after a SIGHUP. `sendMachine` is that program: a label names the function the
loop calls, with what it reads and what the system answers, and any order of
labels is a run. A restart keeps the files and nothing else; a stop in the middle of
a function is a run of it in which what was still to come fails, and then a restart.
-/

namespace IndimailMta.Send

open IndimailMta Prioq Run
open Function (update update_of_ne)

/-! ## Start-up -/

/-- What a start of qmail-send reads: the controls, and the limit each spawner
announces in two bytes. -/
structure StartConf where
  concurrency : Channel → Nat := fun c => match c with | .loc => 10 | .rem => 20
  announced : Channel → Byte × Byte := fun _ => (120, 0)
  holdjobs : Channel → Int := fun _ => 0
  lifetime : Int := 604800
  bouncelifetime : Int := 604800
  do_ratelimit : Bool := false
  mapvdoms : Bytes → Option Bytes := fun _ => none

/-- The limit the spawner of `c` announces. -/
def StartConf.limit (k : StartConf) (c : Channel) : Nat :=
  (k.announced c).1.toNat + (k.announced c).2.toNat * 256

/-- The state at the top of the main loop after a start: `concurrency` is cut to the
announced limit, and the slot and job arrays are allocated for it. -/
def startup (k : StartConf) (fs : Fs) (trace : List Event) : State :=
  let concurrency := fun c => min (k.concurrency c) (k.limit c)
  { fs := fs
    lifetime := k.lifetime
    bouncelifetime := k.bouncelifetime
    do_ratelimit := k.do_ratelimit
    numjobs := concurrency .loc + concurrency .rem
    slots := concurrency
    spawnlimit := k.limit
    concurrency := concurrency
    holdjobs := k.holdjobs
    mapvdoms := k.mapvdoms
    trace := trace }

/-! ## Controls -/

/-- The result of `control_readint`. -/
inductive ReadInt where
  | failed
  | absent
  | value (n : Int)
  deriving DecidableEq, Repr

/-- The variable after `control_readint`. -/
def ReadInt.store (r : ReadInt) (old : Nat) : Nat :=
  match r with
  | .value n => (unsignedInt n).toNat
  | _ => old

/-- What `regetcontrols` reads; `othersOk` stands for the controls that do not bear on
deliveries. -/
structure Controls where
  localsOk : Bool := true
  virtualdomains : Option (Bytes → Option Bytes) := some fun _ => none
  concurrencylocal : ReadInt := .absent
  concurrencyremote : ReadInt := .absent
  holdlocal : ReadInt := .absent
  holdremote : ReadInt := .absent
  othersOk : Bool := true

/-- Store a limit that was read. -/
def setConcurrency (c : Channel) (r : ReadInt) (s : State) : State :=
  { s with concurrency := update s.concurrency c (r.store (s.concurrency c)) }

/-- Hold the jobs of a channel, or run them. -/
def setHold (c : Channel) (r : ReadInt) (s : State) : State :=
  let new : Int := r.store 0
  if s.holdjobs c = new then s
  else { s with
    holdjobs := update s.holdjobs c new
    flagrunasap := if new = 0 then true else s.flagrunasap }

/-- `regetcontrols`: a control that cannot be read ends it, and leaves what was read
before. -/
def regetcontrols (o : Controls) (s : State) : State :=
  match o.localsOk, o.virtualdomains with
  | true, some vdoms =>
      if o.concurrencylocal = .failed then s
      else
        let s := setConcurrency .loc o.concurrencylocal s
        if o.concurrencyremote = .failed then s
        else
          let s := setConcurrency .rem o.concurrencyremote s
          if o.holdlocal = .failed ∨ o.holdremote = .failed ∨ ¬ o.othersOk then s
          else { setHold .rem o.holdremote (setHold .loc o.holdlocal s) with mapvdoms := vdoms }
  | _, _ => s

/-! ## Job lines -/

/-- `todo_del` on the text behind the `D`. The `delayed` field of the element is never
assigned there. -/
def todoDel (cfg : Config) (now : Int) (delayed : Bool) (line : Bytes) (s : State) : State :=
  match line with
  | [] => s
  | which :: rest =>
      let (len, id) := cfg.nm.scanUlong rest
      let pe : Elt := { id := id, dt := now, delayed := delayed }
      if len = 0 ∨ len ≠ rest.length then s
      else if which = 76 then s.pqchanInsert .loc pe
      else if which = 82 then s.pqchanInsert .rem pe
      else if which = 66 then (s.pqchanInsert .loc pe).pqchanInsert .rem pe
      else if which = 88 then s.pqdoneInsert pe
      else s

/-- `tododied`. -/
def tododied (s : State) : State := { s with flagexitsend := true, flagtodoalive := false }

/-- A complete line from todo-proc. -/
def todoLine (cfg : Config) (now : Int) (delayed : Bool) (line : Bytes) (s : State) : State :=
  match line.head? with
  | some 68 => if s.flagexitsend then s else todoDel cfg now delayed (cstr (line.drop 1)) s
  | some 88 => if s.flagexitsend then { s with flagtodoalive := false } else tododied s
  | _ => s

/-- One byte of `todo_do`. -/
def todoByte (cfg : Config) (now : Int) (delayed : Bool) (ch : Byte) (s : State) : State :=
  let r := lineByte 1 s.todoline ch
  r.2.foldl (fun s line => todoLine cfg now delayed line s) { s with todoline := r.1 }

/-! ## The machine -/

/-- One thing the main loop does. -/
inductive Label where
  /-- `recent = now()`. -/
  | clock (now : Int)
  /-- SIGALRM. -/
  | alarm
  /-- `flagrunasap` is acted on. -/
  | runasap
  /-- SIGHUP is acted on. -/
  | reread (o : Controls)
  /-- `comm_do`: the pipe of `c` takes `w` bytes. -/
  | comm (c : Channel) (w : Nat)
  /-- `spawndied`. -/
  | spawndied (c : Channel)
  /-- A byte of `del_dochan`. -/
  | report (o : ReportAnswers) (c : Channel) (ch : Byte)
  /-- A byte of `todo_do`; `delayed` is what the unassigned field holds. -/
  | todo (now : Int) (delayed : Bool) (ch : Byte)
  /-- `pqadd` from a scan of `info`. -/
  | pqadd (o : StatAnswers) (id : Nat)
  /-- `pass_dochan`. -/
  | pass (o : PassAnswers) (c : Channel)
  /-- `pass_do` on `pqfail`. -/
  | pqfail (o : StatAnswers)
  /-- `pass_do` on `pqdone`. -/
  | pqdone (o : DoneAnswers)
  /-- The program is stopped anywhere and started again. -/
  | restart (k : StartConf)

/-- The effect of a label. -/
def step (cfg : Config) (s : State) : Label → State
  | .clock now => { s with recent := now }
  | .alarm => { s with flagrunasap := true }
  | .runasap => if s.flagrunasap then pqrun { s with flagrunasap := false } else s
  | .reread o => regetcontrols o s
  | .comm c w =>
      if s.flagspawnalive c then { s with comm := update s.comm c ((s.comm c).flush w).1 } else s
  | .spawndied c => spawndied c s
  | .report o c ch => if s.flagspawnalive c then delByte o c ch s else s
  | .todo now delayed ch => if s.flagtodoalive then todoByte cfg now delayed ch s else s
  | .pqadd o id => pqadd o id s.do_ratelimit s
  | .pass o c => passDochan cfg o c s
  | .pqfail o => pqfailDo o s
  | .pqdone o => pqdoneDo o s
  | .restart k => startup k s.fs s.trace

/-- qmail-send, started on any queue. -/
def sendMachine (cfg : Config) : Machine State Label where
  init s := ∃ k fs, s = startup k fs []
  step s l := some (step cfg s l)

theorem meets_cons {cfg : Config} {cond : State → Label → Prop} {s : State} {l : Label}
    {ls : List Label} (hl : cond s l) (hls : (sendMachine cfg).Meets cond (step cfg s l) ls) :
    (sendMachine cfg).Meets cond s (l :: ls) :=
  ⟨hl, fun _ hs => Option.some.inj hs ▸ hls⟩

/-! ## A small queue -/

/-- A queue with two messages, each for one local recipient. -/
def twoMessages : Fs where
  mess := fun id => id == 1 || id == 2
  info := fun id => if id = 1 ∨ id = 2 then some (asc "Fs@x" ++ [0]) else none
  chan := fun c id =>
    if c = .loc ∧ (id = 1 ∨ id = 2) then { linked := true, bytes := asc "Tr@y" ++ [0] } else {}

/-- One local delivery at a time. -/
def oneSlot : StartConf where
  concurrency := fun _ => 1

def demoConfig : Config := ⟨decimal, 23⟩

/-- The first message is queued and its delivery started. -/
def startFirst : List Label := [.clock 100, .pqadd {} 1, .pass {} .loc]

end IndimailMta.Send
