import IndimailMta.Send.Comm
import IndimailMta.Prioq
import Mathlib.Logic.Function.Basic

/-!
# The state of qmail-send

One record holds the static variables of qmail-send that the scheduling of
deliveries reads and writes, the files of the queue it acts on, and a history of
what it did. The variables keep the source's names; an array indexed by channel
is a function of the channel, and the job and slot arrays are functions of the
index together with the number of elements allocated for them (`numjobs`,
`slots`). Memory behind an array reads as unused elements.

What depends on the outside (the answer of a system call, the clock) is not in
the state: it is an argument of the function that asks for it.
-/

namespace IndimailMta.Send

open IndimailMta Prioq
open Function (update update_of_ne)

/-- The delivery channels; `CHANNELS` is 2. -/
inductive Channel where
  | loc
  | rem
  deriving DecidableEq, Repr

/-- The channel that is not `c`. -/
def Channel.other : Channel → Channel
  | .loc => .rem
  | .rem => .loc

/-- A function of two arguments with one value replaced. -/
def update₂ {α β γ : Type} [DecidableEq α] [DecidableEq β] (f : α → β → γ) (a : α) (b : β)
    (v : γ) : α → β → γ :=
  update f a (update (f a) b v)

section Update

variable {α β γ : Type} [DecidableEq α] [DecidableEq β] (f : α → β → γ) (v : γ)

@[simp] theorem update₂_self (a : α) (b : β) : update₂ f a b v a b = v := by
  simp [update₂]

theorem update₂_of_ne {a x : α} {b y : β} (h : ¬ (x = a ∧ y = b)) :
    update₂ f a b v x y = f x y := by
  by_cases hx : x = a
  · subst hx
    have hy : y ≠ b := fun hy => h ⟨rfl, hy⟩
    simp [update₂, update_of_ne hy]
  · simp [update₂, update_of_ne hx]

end Update

/-! ## The queue's files -/

/-- `local/id` or `remote/id`: whether the name exists, and the contents, which an
open descriptor can still read after the name is gone. -/
structure ChanFile where
  linked : Bool := false
  bytes : Bytes := []
  deriving DecidableEq, Repr

/-- The files qmail-send looks at, by message number. -/
structure Fs where
  mess : Nat → Bool := fun _ => false
  info : Nat → Option Bytes := fun _ => none
  todo : Nat → Bool := fun _ => false
  chan : Channel → Nat → ChanFile := fun _ _ => {}
  bounce : Nat → Bytes := fun _ => []

/-- Replace a channel file. -/
def Fs.setChan (fs : Fs) (c : Channel) (id : Nat) (f : ChanFile) : Fs :=
  { fs with chan := update₂ fs.chan c id f }

/-! ## Jobs, slots and passes -/

/-- `struct job`; a job with `refs = 0` is unused. -/
structure Job where
  id : Nat := 0
  refs : Int := 0
  channel : Channel := .loc
  numtodo : Int := 0
  flaghiteof : Bool := false
  flagdying : Bool := false
  retry : Int := 0
  sender : Bytes := []
  qqeh : Bytes := []
  envh : Bytes := []
  deriving DecidableEq, Repr

/-- `DEL`: a delivery slot. -/
structure Del where
  used : Bool := false
  j : Nat := 0
  delid : Nat := 0
  mpos : Nat := 0
  recip : Bytes := []
  deriving DecidableEq, Repr

/-- An open pass: the message, its job, the position of the next record, and the bytes
the descriptor has read ahead of it. -/
structure Pass where
  id : Nat
  j : Nat
  mpos : Nat := 0
  buf : Bytes := []
  deriving DecidableEq, Repr

/-! ## History -/

/-- What qmail-send did, as far as properties of its runs speak of it. -/
inductive Event where
  /-- `del[c][i]` was read; `del_init` had allocated `allocated` slots. -/
  | index (c : Channel) (i allocated : Nat)
  /-- A delivery was started in slot `i`. -/
  | start (c : Channel) (i id mpos : Nat)
  /-- A report of a started delivery was processed: its status byte and its text. -/
  | report (c : Channel) (kind : Byte) (id mpos : Nat) (text : Bytes)
  /-- The paragraph `text` was appended to `bounce/id` for a report. -/
  | addbounce (id : Nat) (report text : Bytes)
  /-- The record at `mpos` was marked done. -/
  | markdone (c : Channel) (id mpos : Nat)
  /-- `job_close` was called. -/
  | jobClose (j : Nat)
  /-- The channel file was removed. -/
  | unlink (c : Channel) (id : Nat)
  /-- The bounce was sent and `bounce/id` removed. -/
  | injectbounce (id : Nat)
  /-- `info/id` was removed. -/
  | unlinkInfo (id : Nat)
  /-- qmail-clean removed `mess/id`. -/
  | cleanMess (id : Nat)
  deriving DecidableEq, Repr

/-! ## The state -/

/-- `flagdetached`: attached, half detached (waiting for deliveries), detached. -/
inductive Detached where
  | attached
  | half
  | full
  deriving DecidableEq, Repr

/-- The variables of qmail-send, the files, and the history (newest event first). -/
structure State where
  fs : Fs := {}
  recent : Int := 0
  lifetime : Int := 604800
  bouncelifetime : Int := 604800
  do_ratelimit : Bool := false
  time_needed : Int := 0
  delayed_jobs : Nat := 0
  pqchan : Channel → Queue := fun _ => []
  pqdone : Queue := []
  pqfail : Queue := []
  numjobs : Nat := 0
  jo : Nat → Job := fun _ => {}
  /-- The number of slots `del_init` allocated. -/
  slots : Channel → Nat := fun _ => 0
  /-- The limit the spawner announced at start-up. -/
  spawnlimit : Channel → Nat := fun _ => 0
  concurrency : Channel → Nat := fun _ => 0
  concurrencyused : Channel → Nat := fun _ => 0
  holdjobs : Channel → Int := fun _ => 0
  flagspawnalive : Channel → Bool := fun _ => true
  del : Channel → Nat → Del := fun _ _ => {}
  masterdelid : Nat := 1
  comm : Channel → Comm := fun _ => {}
  dline : Channel → Bytes := fun _ => []
  pass : Channel → Option Pass := fun _ => none
  flagexitsend : Bool := false
  flagrunasap : Bool := false
  flagtodoalive : Bool := true
  flagdetached : Detached := .attached
  todoline : Bytes := []
  mapvdoms : Bytes → Option Bytes := fun _ => none
  trace : List Event := []

/-- What the build and the controls fix once: the numerals and the number of split
directories. -/
structure Config where
  nm : Numerals
  confSplit : Nat

def SLEEP_SYSFAIL : Int := 123

def SLEEP_FUZZ : Int := 1

namespace State

/-- Record an event. -/
def log (s : State) (e : Event) : State := { s with trace := e :: s.trace }

/-- Replace a job. -/
def setJob (s : State) (j : Nat) (jb : Job) : State := { s with jo := update s.jo j jb }

/-- Replace a slot. -/
def setDel (s : State) (c : Channel) (i : Nat) (d : Del) : State :=
  { s with del := update₂ s.del c i d }

/-- Add an element to `pqchan[c]`. -/
def pqchanInsert (s : State) (c : Channel) (pe : Elt) : State :=
  { s with pqchan := update s.pqchan c (Prioq.insert .min (s.pqchan c) pe) }

/-- Add an element to `pqdone`. -/
def pqdoneInsert (s : State) (pe : Elt) : State :=
  { s with pqdone := Prioq.insert .min s.pqdone pe }

/-- Add an element to `pqfail`. -/
def pqfailInsert (s : State) (pe : Elt) : State :=
  { s with pqfail := Prioq.insert .min s.pqfail pe }

end State

end IndimailMta.Send
