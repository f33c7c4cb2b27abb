import IndimailMta.Send.State

/-!
# Queues and jobs

`pqadd` looks at the files of one message and queues it on the channels it has
recipients on; `job_open` and `job_close` count what holds a job. The last
`job_close` removes the channel file if the pass reached its end and no recipient
is left to do, and queues the message again otherwise.
-/

namespace IndimailMta.Send

open IndimailMta Prioq
open Function (update update_of_ne)

/-! ## Priority queues -/

/-- What the system answers while `pqadd` looks at a message: which `stat` fails for
another reason than a missing file, the modification times, and the clock. -/
structure StatAnswers where
  infoErr : Bool := false
  todoErr : Bool := false
  chanErr : Channel → Bool := fun _ => false
  mtime : Channel → Int := fun _ => 0
  now : Int := 0

def pqaddFail (o : StatAnswers) (id : Nat) (s : State) : State :=
  s.pqfailInsert { id := id, dt := o.now + SLEEP_SYSFAIL }

/-- A channel file was found: `recent` is set if it never was. -/
def pqaddClock (o : StatAnswers) (id : Nat) (c : Channel) (s : State) : State :=
  if (s.fs.chan c id).linked ∧ s.recent = 0 then { s with recent := o.now } else s

/-- The element `pqadd` queues on channel `c`, if the message has recipients there. -/
def pqaddChan (o : StatAnswers) (id : Nat) (delayedflag : Bool) (c : Channel) (s : State) :
    State :=
  if (s.fs.chan c id).linked then
    s.pqchanInsert c
      { id := id, dt := if delayedflag then s.recent else o.mtime c, delayed := delayedflag }
  else s

def pqadd (o : StatAnswers) (id : Nat) (delayedflag : Bool) (s : State) : State :=
  if o.infoErr then pqaddFail o id s
  else if (s.fs.info id).isNone then s
  else if o.todoErr then pqaddFail o id s
  else if s.fs.todo id then s
  else if o.chanErr .loc then pqaddFail o id s
  else
    let s := pqaddClock o id .loc s
    if o.chanErr .rem then pqaddFail o id s
    else
      let s := pqaddClock o id .rem s
      let s := pqaddChan o id delayedflag .rem (pqaddChan o id delayedflag .loc s)
      if (s.fs.chan .loc id).linked ∨ (s.fs.chan .rem id).linked then s
      else s.pqdoneInsert { id := id, dt := o.now }

/-- `pqrun`: everything queued is due now. -/
def pqrun (s : State) : State :=
  { s with pqchan := fun c => (s.pqchan c).map fun pe => { pe with dt := s.recent } }

def delayedJobCount (s : State) : Nat :=
  ((s.pqchan .loc).filter (·.delayed)).length + ((s.pqchan .rem).filter (·.delayed)).length

/-! ## Jobs -/

def jobAvail (s : State) : Option Nat :=
  (List.range s.numjobs).find? fun j => (s.jo j).refs == 0

def jobOpen (id : Nat) (c : Channel) (j : Nat) (s : State) : State :=
  s.setJob j { s.jo j with
    refs := 1, id := id, channel := c, numtodo := 0, flaghiteof := false }

/-- What the system answers to `job_close`: whether `unlink` can work, whether the
`stat` of the other channel's file fails, and the clock. -/
structure CloseAnswers where
  unlinkOk : Bool := true
  statErr : Bool := false
  now : Int := 0

def jobRequeue (jb : Job) (dt : Int) (s : State) : State :=
  s.pqchanInsert jb.channel { id := jb.id, dt := dt, delayed := s.do_ratelimit }

def unlinkChan (c : Channel) (id : Nat) (s : State) : State :=
  { s with fs := s.fs.setChan c id { s.fs.chan c id with linked := false } }.log (.unlink c id)

/-- The rest of `job_close` when nothing holds the job any more. -/
def jobFinish (o : CloseAnswers) (jb : Job) (s : State) : State :=
  if jb.flaghiteof ∧ jb.numtodo = 0 then
    if ¬ (o.unlinkOk ∧ (s.fs.chan jb.channel jb.id).linked) then
      jobRequeue jb (o.now + SLEEP_SYSFAIL) s
    else
      let s := unlinkChan jb.channel jb.id s
      if ¬ o.statErr ∧ (s.fs.chan jb.channel.other jb.id).linked then s
      else s.pqdoneInsert { id := jb.id, dt := o.now }
  else jobRequeue jb jb.retry s

def jobClose (o : CloseAnswers) (j : Nat) (s : State) : State :=
  let jb := { s.jo j with refs := (s.jo j).refs - 1 }
  let s := (s.setJob j jb).log (.jobClose j)
  if 0 < jb.refs then s else jobFinish o jb s

/-- An unused job is one nothing refers to, and its index is in the array. -/
theorem jobAvail_spec {s : State} {j : Nat} (h : jobAvail s = some j) :
    j < s.numjobs ∧ (s.jo j).refs = 0 := by
  have hmem := List.mem_of_find?_eq_some h
  have hrefs := List.find?_some h
  exact ⟨List.mem_range.mp hmem, by simpa using hrefs⟩

end IndimailMta.Send
