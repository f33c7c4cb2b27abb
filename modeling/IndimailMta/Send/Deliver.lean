import IndimailMta.Send.Jobs
import IndimailMta.Send.Bounce

/-!
# Deliveries

`del_start` takes the first free slot of a channel and writes a command;
`del_dochan` collects a report and settles the delivery in the slot it names:
a success or a failure marks the recipient's record, a failure is put into the
bounce first, and either way the slot is freed and the job closed once.
-/

namespace IndimailMta.Send

open IndimailMta Prioq
open Function (update update_of_ne)

/-! ## Slots -/

/-- `del_canexit`: no deliveries, except where nothing can be done about them. -/
def delCanexit (s : State) : Bool :=
  [Channel.loc, Channel.rem].all fun c =>
    !(s.flagspawnalive c && s.holdjobs c == 0 && s.concurrencyused c != 0)

def delAvail (c : Channel) (s : State) : Bool :=
  s.flagspawnalive c && (s.comm c).canwrite && s.holdjobs c == 0 &&
    decide (s.concurrencyused c < s.concurrency c)

def freeSlot (c : Channel) (s : State) : Option Nat :=
  (List.range (s.concurrency c)).find? fun i => !(s.del c i).used

/-- The slots that scan reads: up to the free one, or all below `concurrency`. -/
def scannedSlots (c : Channel) (s : State) : Nat :=
  match freeSlot c s with
  | some i => i + 1
  | none => s.concurrency c

def logIndex (c : Channel) (i : Nat) (s : State) : State := s.log (.index c i (s.slots c))

def logScan (c : Channel) (n : Nat) (s : State) : State :=
  (List.range n).foldl (fun s i => logIndex c i s) s

def takeSlot (c : Channel) (i j mpos : Nat) (recip : Bytes) (s : State) : State :=
  let jb := s.jo j
  let s := s.setDel c i ⟨true, j, s.masterdelid, mpos, recip⟩
  let s := s.setJob j { jb with refs := jb.refs + 1 }
  { s with
    masterdelid := s.masterdelid + 1
    concurrencyused := update s.concurrencyused c (s.concurrencyused c + 1) }.log
      (.start c i jb.id mpos)

def writeCommand (cfg : Config) (c : Channel) (i : Nat) (jb : Job) (recip : Bytes)
    (s : State) : State :=
  { s with comm := update s.comm c ((s.comm c).write cfg.nm cfg.confSplit
      ⟨i, jb.id, jb.sender, jb.qqeh, jb.envh, recip⟩) }

/-- `del_start`. -/
def delStart (cfg : Config) (j mpos : Nat) (recip : Bytes) (s : State) : State :=
  let jb := s.jo j
  let c := jb.channel
  if ¬ s.flagspawnalive c then s
  else if s.holdjobs c ≠ 0 then s
  else if ¬ (s.comm c).canwrite then s
  else
    match freeSlot c s with
    | none => logScan c (scannedSlots c s) s
    | some i =>
        writeCommand cfg c i jb recip
          (takeSlot c i j mpos recip (logScan c (scannedSlots c s) s))

/-! ## Reports -/

/-- What the system answers while a report is processed: whether the record can be
marked, and what `job_close` asks. -/
structure ReportAnswers where
  markOk : Bool := true
  close : CloseAnswers := {}

/-- `markdone`: it is not an error if the record cannot be marked. -/
def markdone (ok : Bool) (c : Channel) (id pos : Nat) (s : State) : State :=
  let f := s.fs.chan c id
  if ok ∧ f.linked then
    { s with fs := s.fs.setChan c id { f with bytes := f.bytes.set pos 68 } }.log
      (.markdone c id pos)
  else s

/-- `addbounce`: it sleeps until the paragraph is written. -/
def addbounce (id : Nat) (recip report : Bytes) (s : State) : State :=
  let text := bounceText s.mapvdoms recip report
  { s with fs := { s.fs with bounce := update s.fs.bounce id (s.fs.bounce id ++ text) } }.log
    (.addbounce id report text)

/-- The report with a deferral of a dying message turned into a failure. -/
def dyingReport (dline : Bytes) : Bytes :=
  (dline.set 2 68).dropLast ++
    asc "I'm not going to try again; this message has been in the queue too long.\n" ++ [0]

/-- The report that `del_dochan` acts on, for a delivery of job `jb`. -/
def effectiveReport (jb : Job) (dline : Bytes) : Bytes :=
  if dline.getD 2 0 = 90 ∧ jb.flagdying then dyingReport dline else dline

def decNumtodo (j : Nat) (s : State) : State :=
  s.setJob j { s.jo j with numtodo := (s.jo j).numtodo - 1 }

def settle (o : ReportAnswers) (c : Channel) (d : Del) (dline : Bytes) (s : State) : State :=
  let id := (s.jo d.j).id
  let s := s.log (.report c (dline.getD 2 0) id d.mpos (cstr (dline.drop 3)))
  if dline.getD 2 0 = 75 then decNumtodo d.j (markdone o.markOk c id d.mpos s)
  else if dline.getD 2 0 = 68 then
    decNumtodo d.j (markdone o.markOk c id d.mpos (addbounce id d.recip (cstr (dline.drop 3)) s))
  else s

def freeDel (c : Channel) (i : Nat) (s : State) : State :=
  { s.setDel c i { s.del c i with used := false } with
    concurrencyused := update s.concurrencyused c (s.concurrencyused c - 1) }

/-- A complete report on channel `c`. A slot number out of range, or of a slot that is not
used, is only warned about. -/
def delReport (o : ReportAnswers) (c : Channel) (dline : Bytes) (s : State) : State :=
  let delnum := reportDelnum dline
  if delnum < 0 ∨ (s.concurrency c : Int) ≤ delnum then s
  else
    let i := delnum.toNat
    let d := s.del c i
    let s := logIndex c i s
    if ¬ d.used then s
    else
      freeDel c i (jobClose o.close d.j (settle o c d (effectiveReport (s.jo d.j) dline) s))

def delByte (o : ReportAnswers) (c : Channel) (ch : Byte) (s : State) : State :=
  let r := reportByte (s.dline c) ch
  r.2.foldl (fun s dline => delReport o c dline s) { s with dline := update s.dline c r.1 }

/-- `del_dochan` on the bytes it read, with the answers at each byte. -/
def delDochan (c : Channel) (chunk : List (Byte × ReportAnswers)) (s : State) : State :=
  chunk.foldl (fun s b => delByte b.2 c b.1 s) s

def spawndied (c : Channel) (s : State) : State :=
  { s with
    flagspawnalive := update s.flagspawnalive c false, flagexitsend := true,
    flagtodoalive := false }

end IndimailMta.Send
