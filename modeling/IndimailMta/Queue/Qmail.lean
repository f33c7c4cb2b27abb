import IndimailMta.Queue.Success
import IndimailMta.Lib.OutStream

/-!
# Passing a message to qmail-queue

`qmail_put`, `qmail_from`, `qmail_to` and `qmail_close` write a message and its
envelope into two pipes, through one buffer. A call that fails sets `flagerr`, and
then nothing is written any more: the final NUL of the envelope is only sent when
no call failed, and qmail-queue takes every envelope without it for a failure. So
what qmail-queue queues is either everything that was passed or nothing.
-/

namespace IndimailMta.Queue

open IndimailMta Exits Output

/-! ## §1 qmail.c -/

/-- A call on a `struct qmail`. -/
inductive Call where
  | put (b : Bytes)
  | puts (s : Bytes)
  | sendFrom (s : Bytes)
  | sendTo (s : Bytes)
  | fail
  deriving DecidableEq, Repr

/-- `struct qmail`, what reached the message pipe and the envelope pipe before `ss` was set up
anew, and the results of the output calls (newest first). -/
structure Qmail (O : OutStream Byte) where
  ss : O.State
  onEnvelope : Bool := false
  fdm : Bytes := []
  fde : Bytes := []
  flagerr : Bool := false
  results : List Bool := []

variable {O : OutStream Byte}

/-- `qmail_open`: `s` says how the writes to come will go. -/
def qmailOpen (s : O.State) : Qmail O := { ss := O.fdbuf s }

/-- The bytes in the message pipe. -/
def Qmail.message (q : Qmail O) : Bytes := if q.onEnvelope then q.fdm else O.sent q.ss

/-- The bytes in the envelope pipe. -/
def Qmail.envelope (q : Qmail O) : Bytes :=
  if q.onEnvelope then q.fde ++ O.sent q.ss else q.fde

/-- The result of an output call. -/
def Qmail.after (q : Qmail O) (r : Bool × O.State) : Qmail O :=
  { q with ss := r.2, flagerr := q.flagerr || !r.1, results := r.1 :: q.results }

/-- `qmail_put`. -/
def qmailPut (b : Bytes) (q : Qmail O) : Qmail O :=
  if q.flagerr then q else q.after (O.put q.ss b)

/-- `qmail_puts`. -/
def qmailPuts (s : Bytes) (q : Qmail O) : Qmail O := qmailPut (cstr s) q

/-- `qmail_fail`. -/
def qmailFail (q : Qmail O) : Qmail O := { q with flagerr := true }

/-- `qmail_from`: the message pipe is closed, and the buffer set up for the envelope. -/
def qmailFrom (s : Bytes) (q : Qmail O) : Qmail O :=
  let q := q.after (O.flush q.ss)
  let q := { q with
    fdm := if q.onEnvelope then q.fdm else O.sent q.ss
    fde := if q.onEnvelope then q.fde ++ O.sent q.ss else q.fde
    onEnvelope := true, ss := O.fdbuf q.ss }
  qmailPut [0] (qmailPuts s (qmailPut [70] q))

/-- `qmail_to`. -/
def qmailTo (s : Bytes) (q : Qmail O) : Qmail O :=
  qmailPut [0] (qmailPuts s (qmailPut [84] q))

/-- `qmail_close`, up to the close of the envelope pipe. -/
def qmailClose (q : Qmail O) : Qmail O :=
  let q := qmailPut [0] q
  if q.flagerr then q else q.after (O.flush q.ss)

/-- What `qmail_close` returns by the exit code of qmail-queue: nothing, or a permanent or a
temporary error. -/
inductive Closed where
  | ok
  | permanent
  | temporary
  deriving DecidableEq, Repr

/-- `perm_error`. -/
def permError (code : Nat) : Bool := code == 115 || (11 ≤ code && code ≤ 40)

/-- The end of `qmail_close`. -/
def qmailClosed (q : Qmail O) (code : Nat) : Closed :=
  if code = 0 then if q.flagerr then .temporary else .ok
  else if permError code then .permanent else .temporary

/-- A call. -/
def Call.run (q : Qmail O) : Call → Qmail O
  | .put b => qmailPut b q
  | .puts s => qmailPuts s q
  | .sendFrom s => qmailFrom s q
  | .sendTo s => qmailTo s q
  | .fail => qmailFail q

/-- All calls of a list, and `qmail_close`. -/
def runCalls (s : O.State) (calls : List Call) : Qmail O :=
  qmailClose (calls.foldl Call.run (qmailOpen s))

/-! ## §2 Sessions -/

/-- A call that adds to the message. -/
inductive MessageCall where
  | put (b : Bytes)
  | puts (s : Bytes)
  | fail
  deriving DecidableEq, Repr

/-- A call that adds to the envelope; recipients can also come as ready records through
`qmail_put`, as qmail-smtpd passes them. -/
inductive EnvelopeCall where
  | sendTo (s : Bytes)
  | put (rs : List Bytes)
  | fail
  deriving DecidableEq, Repr

/-- The calls for one message, in order: the message, one `qmail_from`, the recipients. -/
structure Session where
  message : List MessageCall
  sender : Bytes
  envelope : List EnvelopeCall
  deriving DecidableEq, Repr

/-- The calls of a session. -/
def MessageCall.call : MessageCall → Call
  | .put b => .put b
  | .puts s => .puts s
  | .fail => .fail

/-- The calls of a session. -/
def EnvelopeCall.call : EnvelopeCall → Call
  | .sendTo s => .sendTo s
  | .put rs => .put ((rs.map cstr).flatMap recordOf)
  | .fail => .fail

def Session.calls (S : Session) : List Call :=
  S.message.map MessageCall.call ++ .sendFrom S.sender :: S.envelope.map EnvelopeCall.call

/-- What a call adds to the message. -/
def MessageCall.bytes : MessageCall → Bytes
  | .put b => b
  | .puts s => cstr s
  | .fail => []

/-- The recipients a call adds. -/
def EnvelopeCall.recipients : EnvelopeCall → List Bytes
  | .sendTo s => [cstr s]
  | .put rs => rs.map cstr
  | .fail => []

/-- The message that was passed. -/
def Session.body (S : Session) : Bytes := S.message.flatMap MessageCall.bytes

/-- The sender that was passed. -/
def Session.from_ (S : Session) : Bytes := cstr S.sender

/-- The recipients that were passed, in order. -/
def Session.recipients (S : Session) : List Bytes := S.envelope.flatMap EnvelopeCall.recipients

/-- `qmail_fail` was called, or an output call failed. -/
def Failed (calls : List Call) (q : Qmail O) : Prop := .fail ∈ calls ∨ false ∈ q.results

/-! ## §3 What reaches the pipes -/

/-- The message was `b` so far. -/
structure OnMessage (b : Bytes) (q : Qmail O) : Prop where
  onEnvelope : q.onEnvelope = false
  fde : q.fde = []
  held : q.flagerr = false → O.held q.ss = b

/-- The message was `b`, and the envelope is `e` so far. -/
structure OnEnvelope (b e : Bytes) (q : Qmail O) : Prop where
  onEnvelope : q.onEnvelope = true
  fde : q.fde = []
  fdm : q.flagerr = false → q.fdm = b
  held : q.flagerr = false → O.held q.ss = e
  sent : O.sent q.ss <+: e

theorem OnMessage.put {b : Bytes} {q : Qmail O} (h : OnMessage b q) (x : Bytes) :
    OnMessage (b ++ x) (qmailPut x q) := by
  unfold qmailPut
  split
  · rename_i herr
    exact ⟨h.onEnvelope, h.fde, fun hno => by simp [herr] at hno⟩
  · rename_i herr
    refine ⟨h.onEnvelope, h.fde, fun hno => ?_⟩
    simp only [Qmail.after, Bool.or_eq_false_iff, Bool.not_eq_false'] at hno
    rw [← h.held hno.1]
    exact O.held_put q.ss x hno.2

theorem OnMessage.failed {b : Bytes} {q : Qmail O} (h : OnMessage b q) (b' : Bytes) :
    OnMessage b' (qmailFail q) :=
  ⟨h.onEnvelope, h.fde, fun hno => by simp [qmailFail] at hno⟩

theorem OnEnvelope.put {b e : Bytes} {q : Qmail O} (h : OnEnvelope b e q) (x : Bytes) :
    OnEnvelope b (e ++ x) (qmailPut x q) := by
  unfold qmailPut
  split
  · rename_i herr
    exact ⟨h.onEnvelope, h.fde, h.fdm, fun hno => by simp [herr] at hno,
      h.sent.trans (List.prefix_append e x)⟩
  · rename_i herr
    have herr : q.flagerr = false := by simpa using herr
    refine ⟨h.onEnvelope, h.fde, fun _ => h.fdm herr, fun hno => ?_, ?_⟩
    · simp only [Qmail.after, Bool.or_eq_false_iff, Bool.not_eq_false'] at hno
      rw [← h.held herr]
      exact O.held_put q.ss x hno.2
    · rw [← h.held herr]
      cases hr : (O.put q.ss x).1 with
      | true =>
          rw [← O.held_put q.ss x hr]
          exact O.sent_le _
      | false => exact (O.sent_le _).trans (O.put_fails q.ss x hr).1

theorem OnEnvelope.failed {b e e' : Bytes} {q : Qmail O} (h : OnEnvelope b e q)
    (he : e <+: e') : OnEnvelope b e' (qmailFail q) :=
  ⟨h.onEnvelope, h.fde, fun hno => by simp [qmailFail] at hno,
    fun hno => by simp [qmailFail] at hno, h.sent.trans he⟩

/-- The message pipe is closed. -/
theorem OnMessage.sendFrom {b : Bytes} {q : Qmail O} (h : OnMessage b q) (s : Bytes) :
    OnEnvelope b (senderRecord (cstr s)) (qmailFrom s q) := by
  have hstart : OnEnvelope b [] { q.after (O.flush q.ss) with
      fdm := O.sent (O.flush q.ss).2, fde := q.fde, onEnvelope := true
      ss := O.fdbuf (O.flush q.ss).2 } := by
    refine ⟨rfl, h.fde, fun hno => ?_, fun _ => O.held_fdbuf _, ?_⟩
    · simp only [Qmail.after, Bool.or_eq_false_iff, Bool.not_eq_false'] at hno
      rw [← h.held hno.1]
      exact O.sent_flush q.ss hno.2
    · simp [O.sent_fdbuf]
  have hrun := ((hstart.put [70]).put (cstr s)).put [0]
  simpa [qmailFrom, qmailPuts, Qmail.after, h.onEnvelope, senderRecord] using hrun

theorem OnEnvelope.sendTo {b e : Bytes} {q : Qmail O} (h : OnEnvelope b e q) (s : Bytes) :
    OnEnvelope b (e ++ recordOf (cstr s)) (qmailTo s q) := by
  have hrun := ((h.put [84]).put (cstr s)).put [0]
  simpa [qmailTo, qmailPuts, recordOf, List.append_assoc] using hrun

/-- `flagerr` says whether `qmail_fail` was called (`called`) or an output call failed. -/
def Marked (called : Prop) (q : Qmail O) : Prop := q.flagerr = true ↔ called ∨ false ∈ q.results

theorem Marked.after {called : Prop} {q : Qmail O} (h : Marked called q) (r : Bool × O.State) :
    Marked called (q.after r) := by
  simp only [Marked, Qmail.after, Bool.or_eq_true, Bool.not_eq_true', List.mem_cons, h.eq]
  constructor
  · rintro ((hc | hm) | hr)
    · exact .inl hc
    · exact .inr (.inr hm)
    · exact .inr (.inl hr.symm)
  · rintro (hc | hr | hm)
    · exact .inl (.inl hc)
    · exact .inr hr.symm
    · exact .inl (.inr hm)

theorem Marked.put {called : Prop} {q : Qmail O} (h : Marked called q) (x : Bytes) :
    Marked called (qmailPut x q) := by
  unfold qmailPut
  split
  · exact h
  · exact h.after _

theorem Marked.sendFrom {called : Prop} {q : Qmail O} (h : Marked called q) (s : Bytes) :
    Marked called (qmailFrom s q) := by
  have hflush := h.after (O.flush q.ss)
  have hstart : ∀ m e b (t : O.State), Marked (O := O) called { q.after (O.flush q.ss) with
    fdm := m, fde := e, onEnvelope := b, ss := t } := fun m e b t => hflush
  exact (((hstart _ _ _ _).put [70]).put (cstr s)).put [0]

theorem Marked.fail {called : Prop} {q : Qmail O} (h : called) : Marked called (qmailFail q) :=
  ⟨fun _ => .inl h, fun _ => rfl⟩

theorem Marked.close {called : Prop} {q : Qmail O} (h : Marked called q) :
    Marked called (qmailClose q) := by
  unfold qmailClose
  simp only
  split
  · exact h.put [0]
  · exact (h.put [0]).after _

/-- **`flagerr` is set exactly when a call failed.** -/
theorem flagerr_iff (s : O.State) (calls : List Call) :
    (runCalls s calls).flagerr = true ↔ Failed calls (runCalls s calls) := by
  have hrun : ∀ (cs done : List Call) (q : Qmail O), Marked (.fail ∈ done) q →
      Marked (.fail ∈ done ++ cs) (cs.foldl Call.run q) := by
    intro cs
    induction cs with
    | nil => intro done q h; simpa using h
    | cons c cs ih =>
        intro done q h
        have hc : Marked (.fail ∈ done ++ [c]) (Call.run q c) := by
          by_cases hfail : c = .fail
          · subst hfail
            exact Marked.fail (by simp)
          · have h' : Marked (.fail ∈ done ++ [c]) q := by
              have hne : Call.fail ≠ c := fun he => hfail he.symm
              simpa [Marked, hne] using h
            cases c with
            | put x => exact h'.put x
            | puts x => exact h'.put (cstr x)
            | sendFrom x => exact h'.sendFrom x
            | sendTo x => exact ((h'.put [84]).put (cstr x)).put [0]
            | fail => exact absurd rfl hfail
        have htail := ih (done ++ [c]) _ hc
        rwa [List.append_assoc] at htail
  have hopen : Marked (.fail ∈ ([] : List Call)) (qmailOpen s) := by simp [Marked, qmailOpen]
  exact (hrun calls [] _ hopen).close

theorem prefix_of_ne {p e : Bytes} {x : Byte} (h : p <+: e ++ [x]) (hne : p ≠ e ++ [x]) :
    p <+: e := by
  rcases List.prefix_concat_iff.mp h with he | he
  · exact absurd he hne
  · exact he

/-- **The final NUL is only sent when nothing failed.** -/
theorem OnEnvelope.close {b e : Bytes} {q : Qmail O} (h : OnEnvelope b e q) :
    ((qmailClose q).flagerr = true → (qmailClose q).envelope <+: e) ∧
      ((qmailClose q).flagerr = false →
        (qmailClose q).message = b ∧ (qmailClose q).envelope = e ++ [0]) := by
  have hput := h.put [0]
  by_cases herr : q.flagerr = true
  · have hsame : qmailClose q = q := by simp [qmailClose, qmailPut, herr]
    rw [hsame]
    refine ⟨fun _ => ?_, fun hno => by simp [herr] at hno⟩
    simpa [Qmail.envelope, h.onEnvelope, h.fde] using h.sent
  · have herr : q.flagerr = false := by simpa using herr
    have hafter : qmailPut [0] q = q.after (O.put q.ss [0]) := by simp [qmailPut, herr]
    cases hr : (O.put q.ss [0]).1 with
    | false =>
        have hflag : (qmailPut [0] q).flagerr = true := by simp [hafter, Qmail.after, hr]
        have hsame : qmailClose q = qmailPut [0] q := by simp [qmailClose, hflag]
        obtain ⟨hle, hne⟩ := O.put_fails q.ss [0] hr
        rw [h.held herr] at hle hne
        rw [hsame]
        refine ⟨fun _ => ?_, fun hno => by simp [hflag] at hno⟩
        rw [Qmail.envelope, hput.onEnvelope, if_pos rfl, hput.fde, List.nil_append, hafter]
        exact (O.sent_le _).trans (prefix_of_ne hle hne)
    | true =>
        have hflag : (qmailPut [0] q).flagerr = false := by simp [hafter, Qmail.after, hr, herr]
        have hheld := hput.held hflag
        have hclose : qmailClose q = (qmailPut [0] q).after (O.flush (qmailPut [0] q).ss) := by
          simp [qmailClose, hflag]
        rw [hclose]
        refine ⟨fun hyes => ?_, fun hno => ?_⟩
        · have hf : (O.flush (qmailPut [0] q).ss).1 = false := by
            simpa [Qmail.after, hflag] using hyes
          obtain ⟨hle, hne⟩ := O.flush_fails _ hf
          rw [hheld] at hle hne
          simpa [Qmail.envelope, Qmail.after, hput.onEnvelope, hput.fde] using prefix_of_ne hle hne
        · have hf : (O.flush (qmailPut [0] q).ss).1 = true := by
            simpa [Qmail.after, hflag] using hno
          have hsent := O.sent_flush _ hf
          rw [hheld] at hsent
          refine ⟨?_, by simp [Qmail.envelope, Qmail.after, hput.onEnvelope, hput.fde, hsent]⟩
          simpa [Qmail.message, Qmail.after, hput.onEnvelope] using hput.fdm hflag

/-- **What a session puts into the pipes.** -/
theorem session_pipes (s : O.State) (S : Session) {q : Qmail O} (hq : runCalls s S.calls = q) :
    (q.flagerr = true →
      q.envelope <+: senderRecord S.from_ ++ S.recipients.flatMap recordOf) ∧
    (q.flagerr = false → q.message = S.body ∧
      q.envelope = senderRecord S.from_ ++ S.recipients.flatMap recordOf ++ [0]) := by
  have hmessage : ∀ (cs : List MessageCall) (b : Bytes) (p : Qmail O), OnMessage b p →
      OnMessage (b ++ cs.flatMap MessageCall.bytes)
        ((cs.map MessageCall.call).foldl Call.run p) := by
    intro cs
    induction cs with
    | nil => intro b p h; simpa using h
    | cons c cs ih =>
        intro b p h
        have hc : OnMessage (b ++ c.bytes) (Call.run p c.call) := by
          cases c with
          | put x => exact h.put x
          | puts x => exact h.put (cstr x)
          | fail => exact h.failed _
        simpa [List.append_assoc] using ih _ _ hc
  have henvelope : ∀ (cs : List EnvelopeCall) (e : Bytes) (p : Qmail O), OnEnvelope S.body e p →
      OnEnvelope S.body (e ++ (cs.flatMap EnvelopeCall.recipients).flatMap recordOf)
        ((cs.map EnvelopeCall.call).foldl Call.run p) := by
    intro cs
    induction cs with
    | nil => intro e p h; simpa using h
    | cons c cs ih =>
        intro e p h
        have hc : OnEnvelope S.body (e ++ c.recipients.flatMap recordOf) (Call.run p c.call) := by
          cases c with
          | sendTo x =>
              rw [EnvelopeCall.recipients, List.flatMap_singleton]
              exact h.sendTo x
          | put rs => exact h.put _
          | fail => exact h.failed (List.prefix_append e _)
        simpa [List.append_assoc] using ih _ _ hc
  have hopen : OnMessage [] (qmailOpen s) := ⟨rfl, rfl, fun _ => O.held_fdbuf s⟩
  have hbody := hmessage S.message [] _ hopen
  rw [List.nil_append] at hbody
  have hend := (henvelope S.envelope _ _ (hbody.sendFrom S.sender)).close
  have hcalls : runCalls s S.calls = qmailClose ((S.envelope.map EnvelopeCall.call).foldl Call.run
      (qmailFrom S.sender ((S.message.map MessageCall.call).foldl Call.run (qmailOpen s)))) := by
    rw [runCalls, Session.calls, List.foldl_append, List.foldl_cons]
    rfl
  rw [← hq, hcalls]
  exact hend

end IndimailMta.Queue
