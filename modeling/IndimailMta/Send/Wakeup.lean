import IndimailMta.Send.Writes
import IndimailMta.PrioqOrder
import Mathlib.Order.Bounds.Basic
import Mathlib.Data.Int.Order.Basic

/-!
# How long qmail-send sleeps

At the top of its loop qmail-send computes the timeout of `select` from the heads of its
queues, from the next cleanup, and from `time_needed`, which a throttled job leaves behind.
The queues are heaps in every state it reaches (`Heaps`), so a head is the earliest element.
What can be done, and when, is `Possible`; the times the loop looks at are `Looked`.
-/

namespace IndimailMta.Send

open IndimailMta Prioq Run
open Function (update update_of_ne update_self)

/-! ## The queues are heaps -/

/-- Every queue is in order. -/
structure Heaps (s : State) : Prop where
  chan : ∀ c, Ordered (s.pqchan c)
  done : Ordered s.pqdone
  fail : Ordered s.pqfail

variable {s t : State}

/-- What does not touch the queues keeps them. -/
theorem Heaps.same (h : Heaps s) (hc : t.pqchan = s.pqchan) (hd : t.pqdone = s.pqdone)
    (hf : t.pqfail = s.pqfail) : Heaps t :=
  ⟨hc ▸ h.chan, hd ▸ h.done, hf ▸ h.fail⟩

theorem Heaps.setChan (h : Heaps s) (c : Channel) {q : Queue} (hq : Ordered q) :
    Heaps { s with pqchan := update s.pqchan c q } := by
  refine ⟨fun d => ?_, h.done, h.fail⟩
  by_cases hd : d = c
  · subst hd
    show Ordered (update s.pqchan d q d)
    rw [update_self]
    exact hq
  · show Ordered (update s.pqchan c q d)
    rw [update_of_ne hd]
    exact h.chan d

theorem Heaps.pqchanInsert (h : Heaps s) (c : Channel) (pe : Elt) : Heaps (s.pqchanInsert c pe) :=
  h.setChan c ((h.chan c).insert pe)

theorem Heaps.pqdoneInsert (h : Heaps s) (pe : Elt) : Heaps (s.pqdoneInsert pe) :=
  ⟨h.chan, h.done.insert pe, h.fail⟩

theorem Heaps.pqfailInsert (h : Heaps s) (pe : Elt) : Heaps (s.pqfailInsert pe) :=
  ⟨h.chan, h.done, h.fail.insert pe⟩

theorem Heaps.pqrun (h : Heaps s) : Heaps (pqrun s) :=
  ⟨fun _ => ordered_map_dt _ _, h.done, h.fail⟩

theorem Heaps.pqaddChan (h : Heaps s) (o : StatAnswers) (id : Nat) (f : Bool) (c : Channel) :
    Heaps (pqaddChan o id f c s) := by
  unfold Send.pqaddChan
  split
  · exact h.pqchanInsert _ _
  · exact h

theorem Heaps.pqaddClock (h : Heaps s) (o : StatAnswers) (id : Nat) (c : Channel) :
    Heaps (pqaddClock o id c s) := by
  obtain ⟨r, hr⟩ := pqaddClock_writes s o id c
  rw [hr]
  exact h.same rfl rfl rfl

theorem Heaps.pqadd (h : Heaps s) (o : StatAnswers) (id : Nat) (f : Bool) :
    Heaps (pqadd o id f s) := by
  have hloc := h.pqaddClock o id .loc
  have hrem := hloc.pqaddClock o id .rem
  have hchan := (hrem.pqaddChan o id f .loc).pqaddChan o id f .rem
  unfold Send.pqadd
  split
  · exact h.pqfailInsert _
  split
  · exact h
  split
  · exact h.pqfailInsert _
  split
  · exact h
  split
  · exact h.pqfailInsert _
  simp only
  split
  · exact hloc.pqfailInsert _
  split
  · exact hchan
  · exact hchan.pqdoneInsert _

theorem Heaps.unlinkChan (h : Heaps s) (c : Channel) (id : Nat) : Heaps (unlinkChan c id s) :=
  h.same rfl rfl rfl

theorem Heaps.jobClose (h : Heaps s) (o : CloseAnswers) (j : Nat) : Heaps (jobClose o j s) := by
  unfold Send.jobClose
  simp only
  have h' : Heaps ((s.setJob j { s.jo j with refs := (s.jo j).refs - 1 }).log (.jobClose j)) :=
    h.same rfl rfl rfl
  split
  · exact h'
  · unfold jobFinish
    split
    · split
      · exact h'.pqchanInsert _ _
      · simp only
        split
        · exact h'.unlinkChan _ _
        · exact (h'.unlinkChan _ _).pqdoneInsert _
    · exact h'.pqchanInsert _ _

theorem Heaps.settle (h : Heaps s) (o : ReportAnswers) (c : Channel) (d : Del) (dline : Bytes) :
    Heaps (settle o c d dline s) := by
  obtain ⟨n, fs, es, -, hw⟩ := settle_writes s o c d dline
  rw [hw]
  exact h.same rfl rfl rfl

theorem Heaps.freeDel (h : Heaps s) (c : Channel) (i : Nat) : Heaps (freeDel c i s) :=
  h.same rfl rfl rfl

theorem Heaps.delReport (h : Heaps s) (o : ReportAnswers) (c : Channel) (dline : Bytes) :
    Heaps (delReport o c dline s) := by
  unfold Send.delReport
  simp only
  split
  · exact h
  · have hlog : Heaps (logIndex c (reportDelnum dline).toNat s) := h.same rfl rfl rfl
    split
    · exact hlog
    · exact ((hlog.settle o c _ _).jobClose o.close _).freeDel c _

theorem Heaps.todoDel (h : Heaps s) (cfg : Config) (now : Int) (f : Bool) (line : Bytes) :
    Heaps (todoDel cfg now f line s) := by
  unfold Send.todoDel
  split
  · exact h
  · simp only
    split
    · exact h
    split
    · exact h.pqchanInsert _ _
    split
    · exact h.pqchanInsert _ _
    split
    · exact (h.pqchanInsert _ _).pqchanInsert _ _
    split
    · exact h.pqdoneInsert _
    · exact h

theorem Heaps.todoByte (h : Heaps s) (cfg : Config) (now : Int) (f : Bool) (ch : Byte) :
    Heaps (todoByte cfg now f ch s) := by
  unfold Send.todoByte
  have hline : Heaps { s with todoline := (lineByte 1 s.todoline ch).1 } := h.same rfl rfl rfl
  rcases lineByte_cases 1 s.todoline ch with hl | ⟨l, -, hl⟩
  · simp only [hl, List.foldl_nil]
    exact hline
  · simp only [hl, List.foldl_cons, List.foldl_nil]
    unfold todoLine
    split
    · split
      · exact hline
      · exact hline.todoDel cfg now f _
    · split
      · exact hline.same rfl rfl rfl
      · exact hline.same rfl rfl rfl
    · exact hline

theorem Heaps.passOpen (h : Heaps s) (o : PassAnswers) (c : Channel) :
    Heaps (passOpen o c s) := by
  have hdel : Heaps (pqchanDel c s) := h.setChan c (h.chan c).del
  unfold Send.passOpen
  split
  · split
    · exact h
    · simp only
      split
      · exact hdel.pqchanInsert _ _
      · split
        · exact hdel.pqchanInsert _ _
        · exact hdel.same rfl rfl rfl
  · exact h

theorem Heaps.passEnd (h : Heaps s) (o : PassAnswers) (c : Channel) (j : Nat) :
    Heaps (passEnd o c j s) :=
  (h.jobClose o.close j).same rfl rfl rfl

theorem Heaps.passThrottled (h : Heaps s) (o : PassAnswers) (c : Channel) (j : Nat) (r : Int) :
    Heaps (passThrottled o c j r s) := by
  have hretry : ∀ w : Int, Heaps (({ s with time_needed := w } : State).setJob j
      { s.jo j with retry := s.recent + r }) := fun w => h.same rfl rfl rfl
  exact ((hretry _).passEnd o c j).same rfl rfl rfl

theorem Heaps.passDeliver (h : Heaps s) (cfg : Config) (o : PassAnswers) (p : Pass)
    (recip : Bytes) : Heaps (passDeliver cfg o p recip s) := by
  obtain ⟨w, hw⟩ := passDeliver_eq s cfg o p recip
  obtain ⟨jo, d, u, m, b, tr, hs⟩ := delStart_writes
    ({ s with
      delayed_jobs := w
      jo := update s.jo p.j { s.jo p.j with numtodo := (s.jo p.j).numtodo + 1 } } : State)
    cfg p.j p.mpos recip
  rw [hw, hs]
  exact h.same rfl rfl rfl

theorem Heaps.passNext (h : Heaps s) (cfg : Config) (o : PassAnswers) (c : Channel) (p : Pass) :
    Heaps (passNext cfg o c p s) := by
  rcases passNext_cases s cfg o c p with he | he | ⟨line, buf, _, he⟩ | ⟨r, he⟩ |
    ⟨line, buf, _, _, _, _, _, he⟩ | ⟨line, buf, _, _, he⟩
  · rwa [he]
  · rw [he]
    exact h.passEnd o c p.j
  · rw [he]
    exact (h.same (t := s.setJob _ _) rfl rfl rfl).passEnd o c p.j
  · rw [he]
    exact h.passThrottled o c p.j r
  · rw [he]
    exact (h.passDeliver cfg o p _).same rfl rfl rfl
  · rw [he]
    exact h.same rfl rfl rfl

theorem Heaps.messdone (h : Heaps s) (o : DoneAnswers) (id : Nat) : Heaps (messdone o id s) := by
  unfold Send.messdone
  split
  · rename_i t ht
    rcases messdoneStops_eq ht with rfl | rfl
    · exact h
    · exact h.pqdoneInsert _
  · split
    · exact h.pqdoneInsert _
    split
    · exact (h.same (t := injectbounce id s) rfl rfl rfl).pqdoneInsert _
    · have hinfo : Heaps (unlinkInfo id (injectbounce id s)) := h.same rfl rfl rfl
      unfold cleanMess
      split
      · exact hinfo.same rfl rfl rfl
      · exact hinfo.same rfl rfl rfl
      · exact hinfo

/-- **Every step keeps the queues in order.** -/
theorem Heaps.step (h : Heaps s) (cfg : Config) (l : Label) : Heaps (step cfg s l) := by
  cases l with
  | clock now => exact h.same rfl rfl rfl
  | alarm => exact h.same rfl rfl rfl
  | runasap =>
      simp only [Send.step]
      split
      · exact (h.same (t := { s with flagrunasap := false }) rfl rfl rfl).pqrun
      · exact h
  | reread o =>
      obtain ⟨k, a, m, hw⟩ := regetcontrols_writes s o
      rw [Send.step, hw]
      exact h.same rfl rfl rfl
  | comm c w =>
      simp only [Send.step]
      split
      · exact h.same rfl rfl rfl
      · exact h
  | spawndied c => exact h.same rfl rfl rfl
  | report o c ch =>
      simp only [Send.step]
      split
      · unfold delByte
        have hline : Heaps { s with dline := update s.dline c (reportByte (s.dline c) ch).1 } :=
          h.same rfl rfl rfl
        rcases lineByte_cases 2 (s.dline c) ch with hr | ⟨dline, -, hr⟩
        · simp only [reportByte, hr, List.foldl_nil]
          exact hline
        · simp only [reportByte, hr, List.foldl_cons, List.foldl_nil]
          exact hline.delReport o c dline
      · exact h
  | todo now delayed ch =>
      simp only [Send.step]
      split
      · exact h.todoByte cfg now delayed ch
      · exact h
  | pqadd o id => exact h.pqadd o id s.do_ratelimit
  | pass o c =>
      rw [Send.step]
      unfold passDochan
      split
      · exact h
      · simp only
        have hopen : Heaps (if (s.pass c).isNone then Send.passOpen o c s else s) := by
          split
          · exact h.passOpen o c
          · exact h
        split
        · exact hopen
        · exact hopen.passNext cfg o c _
  | pqfail o =>
      rw [Send.step]
      unfold pqfailDo
      split
      · split
        · have hdel : Heaps { s with pqfail := Prioq.del .min s.pqfail } :=
            ⟨h.chan, h.done, h.fail.del⟩
          exact hdel.pqadd o _ false
        · exact h
      · exact h
  | pqdone o =>
      rw [Send.step]
      unfold pqdoneDo
      split
      · split
        · have hdel : Heaps { s with pqdone := Prioq.del .min s.pqdone } :=
            ⟨h.chan, h.done.del, h.fail⟩
          exact hdel.messdone o _
        · exact h
      · exact h
  | restart k => exact ⟨fun _ => ordered_nil, ordered_nil, ordered_nil⟩

/-- The queues are heaps in every state of a run. -/
theorem heaps_of_run {cfg : Config} {ls : List Label} (hi : (sendMachine cfg).init s)
    (he : (sendMachine cfg).exec s ls = some t) : Heaps t := by
  refine (sendMachine cfg).exec_invariant_of_step (I := Heaps) ?_ ?_ he
  · intro s l s' h hs
    cases hs
    exact h.step cfg l
  · obtain ⟨k, fs, rfl⟩ := hi
    exact ⟨fun _ => ordered_nil, ordered_nil, ordered_nil⟩

/-! ## The timeout -/

/-- `SLEEP_FOREVER`. -/
def SLEEP_FOREVER : Int := 86400

/-- `*wakeup` once a time was looked at. -/
def noLater (wakeup t : Int) : Int := if t < wakeup then t else wakeup

/-- The head of `pqchan[c]`, where `pass_selprep` looks at it. -/
def chanSelprep (s : State) (wakeup : Int) (c : Channel) : Int :=
  match s.pass c, Prioq.get (s.pqchan c) with
  | none, some pe => if pe.delayed then wakeup else noLater wakeup pe.dt
  | _, _ => wakeup

/-- The head of a queue. -/
def headSelprep (q : Queue) (wakeup : Int) : Int :=
  match Prioq.get q with
  | some pe => noLater wakeup pe.dt
  | none => wakeup

/-- A pass is open and can go on. -/
def passReady (s : State) : Bool :=
  [Channel.loc, Channel.rem].any fun c => (s.pass c).isSome && delAvail c s

/-- `pass_selprep`. -/
def passSelprep (s : State) (wakeup : Int) : Int :=
  if s.flagexitsend then wakeup
  else if passReady s then 0
  else
    let wakeup :=
      if (jobAvail s).isSome then chanSelprep s (chanSelprep s wakeup .loc) .rem else wakeup
    headSelprep s.pqdone (headSelprep s.pqfail wakeup)

/-- `cleanup_selprep`. -/
def cleanupSelprep (flagcleanup : Bool) (cleanuptime wakeup : Int) : Int :=
  noLater (if flagcleanup then 0 else wakeup) cleanuptime

/-- `wakeup` at the start. -/
def wakeupBase (s : State) : Int :=
  if s.time_needed ≠ 0 then s.recent + s.time_needed else s.recent + SLEEP_FOREVER

/-- `wakeup` when the timeout is computed. -/
def wakeup (flagcleanup : Bool) (cleanuptime : Int) (s : State) : Int :=
  cleanupSelprep flagcleanup cleanuptime (passSelprep s (wakeupBase s))

/-- The timeout of `select`. -/
def selectTimeout (flagcleanup : Bool) (cleanuptime : Int) (s : State) : Int :=
  let wakeup := wakeup flagcleanup cleanuptime s
  if wakeup ≤ s.recent then (if s.time_needed ≠ 0 then s.time_needed else 0)
  else if s.time_needed ≠ 0 ∧ s.time_needed < wakeup - s.recent then s.time_needed + SLEEP_FUZZ
  else wakeup - s.recent + SLEEP_FUZZ

/-! ## What can be done, and what is looked at -/

/-- Some work is possible at the time `d`: a pass that is open can go on, a message is due for
which there is a job, or a message is done or was not found. -/
def Possible (s : State) (d : Int) : Prop :=
  ((∃ c, (s.pass c).isSome ∧ delAvail c s = true) ∧ d = 0) ∨
  (∃ c, s.pass c = none ∧ (jobAvail s).isSome ∧ ∃ e ∈ s.pqchan c, d = e.dt) ∨
  (∃ e ∈ s.pqdone, d = e.dt) ∨ ∃ e ∈ s.pqfail, d = e.dt

/-- A message at the head of its queue that waits for no pass and no job. -/
def Waiting (s : State) (c : Channel) (pe : Elt) : Prop :=
  s.pass c = none ∧ (jobAvail s).isSome ∧ Prioq.get (s.pqchan c) = some pe

/-- The loop looks at the time `t`. -/
def Looked (flagcleanup : Bool) (cleanuptime : Int) (s : State) (t : Int) : Prop :=
  t = cleanuptime ∨
  (flagcleanup = true ∧ t = 0) ∨
  (flagcleanup = false ∧ passReady s = true ∧ t = 0) ∨
  (flagcleanup = false ∧ passReady s = false ∧
    (t = wakeupBase s ∨ (∃ c pe, Waiting s c pe ∧ pe.delayed = false ∧ t = pe.dt) ∨
      (∃ pe, Prioq.get s.pqdone = some pe ∧ t = pe.dt) ∨
      ∃ pe, Prioq.get s.pqfail = some pe ∧ t = pe.dt))

theorem noLater_eq (w t : Int) : noLater w t = min t w := by
  unfold noLater
  split <;> omega

variable {P : Set Int} {w : Int}

theorem headSelprep_least (q : Queue) (h : IsLeast P w) :
    IsLeast {t | t ∈ P ∨ ∃ pe, Prioq.get q = some pe ∧ t = pe.dt} (headSelprep q w) := by
  unfold headSelprep
  cases hq : Prioq.get q with
  | none => simpa using h
  | some pe =>
      have hset : {t | t ∈ P ∨ ∃ e, some pe = some e ∧ t = e.dt} = insert pe.dt P := by
        ext t
        simp [or_comm]
      rw [hset]
      simp only [noLater_eq]
      exact h.insert pe.dt

theorem chanSelprep_least (c : Channel) (hjob : (jobAvail s).isSome) (h : IsLeast P w) :
    IsLeast {t | t ∈ P ∨ ∃ pe, Waiting s c pe ∧ pe.delayed = false ∧ t = pe.dt}
      (chanSelprep s w c) := by
  unfold chanSelprep Waiting
  cases hp : s.pass c with
  | some p => simpa using h
  | none =>
      cases hq : Prioq.get (s.pqchan c) with
      | none => simpa using h
      | some pe =>
          cases hd : pe.delayed with
          | true => simpa [hd] using h
          | false =>
              have hset : {t | t ∈ P ∨ ∃ e, (none = (none : Option Pass) ∧ (jobAvail s).isSome ∧
                  some pe = some e) ∧ e.delayed = false ∧ t = e.dt} = insert pe.dt P := by
                ext t
                simp [hjob, hd, or_comm]
              rw [hset]
              simp only [hd, Bool.false_eq_true, if_false, noLater_eq]
              exact h.insert pe.dt

theorem isLeast_self (a : Int) : IsLeast ({t | t = a} : Set Int) a :=
  ⟨rfl, fun _ ht => Int.le_of_eq (Eq.symm ht)⟩

/-- The heads of both channels. -/
theorem channels_least (s : State) :
    IsLeast {t | t = wakeupBase s ∨ ∃ c pe, Waiting s c pe ∧ pe.delayed = false ∧ t = pe.dt}
      (if (jobAvail s).isSome then chanSelprep s (chanSelprep s (wakeupBase s) .loc) .rem
        else wakeupBase s) := by
  cases hjob : (jobAvail s).isSome with
  | true =>
      have h := chanSelprep_least .rem hjob
        (chanSelprep_least .loc hjob (isLeast_self (wakeupBase s)))
      have hset : {t | t = wakeupBase s ∨
          ∃ c pe, Waiting s c pe ∧ pe.delayed = false ∧ t = pe.dt} =
          {t | t ∈ {t | t ∈ {t | t = wakeupBase s} ∨
            ∃ pe, Waiting s .loc pe ∧ pe.delayed = false ∧ t = pe.dt} ∨
            ∃ pe, Waiting s .rem pe ∧ pe.delayed = false ∧ t = pe.dt} := by
        ext t
        constructor
        · rintro (h | ⟨c, pe, h⟩)
          · exact Or.inl (Or.inl h)
          · cases c with
            | loc => exact Or.inl (Or.inr ⟨pe, h⟩)
            | rem => exact Or.inr ⟨pe, h⟩
        · rintro ((h | ⟨pe, h⟩) | ⟨pe, h⟩)
          · exact Or.inl h
          · exact Or.inr ⟨.loc, pe, h⟩
          · exact Or.inr ⟨.rem, pe, h⟩
      rw [hset]
      exact h
  | false =>
      have hset : {t | t = wakeupBase s ∨
          ∃ c pe, Waiting s c pe ∧ pe.delayed = false ∧ t = pe.dt} = {t | t = wakeupBase s} := by
        ext t
        simp [Waiting, hjob]
      rw [hset]
      exact isLeast_self _

/-- The times that are looked at where no pass can go on: those of the heads, one after the
other. -/
theorem looked_heads {cleanuptime : Int} (hready : passReady s = false) :
    {t | Looked false cleanuptime s t} = insert cleanuptime
      {t | t ∈ {t | t ∈ {t | t = wakeupBase s ∨
        ∃ c pe, Waiting s c pe ∧ pe.delayed = false ∧ t = pe.dt} ∨
        ∃ pe, Prioq.get s.pqfail = some pe ∧ t = pe.dt} ∨
        ∃ pe, Prioq.get s.pqdone = some pe ∧ t = pe.dt} := by
  ext t
  simp only [Looked, hready, Set.mem_ofPred_eq, Set.mem_insert_iff]
  simp only [Bool.false_eq_true, false_and, true_and, false_or]
  constructor
  · rintro (h | h | h | h | h)
    · exact Or.inl h
    · exact Or.inr (Or.inl (Or.inl (Or.inl h)))
    · exact Or.inr (Or.inl (Or.inl (Or.inr h)))
    · exact Or.inr (Or.inr h)
    · exact Or.inr (Or.inl (Or.inr h))
  · rintro (h | ((h | h) | h) | h)
    · exact Or.inl h
    · exact Or.inr (Or.inl h)
    · exact Or.inr (Or.inr (Or.inl h))
    · exact Or.inr (Or.inr (Or.inr (Or.inr h)))
    · exact Or.inr (Or.inr (Or.inr (Or.inl h)))

/-- **`wakeup` is the earliest time that is looked at.** -/
theorem wakeup_least (flagcleanup : Bool) (cleanuptime : Int) (hexit : s.flagexitsend = false) :
    IsLeast {t | Looked flagcleanup cleanuptime s t} (wakeup flagcleanup cleanuptime s) := by
  unfold wakeup cleanupSelprep
  rw [noLater_eq]
  cases flagcleanup with
  | true =>
      have hset : {t | Looked true cleanuptime s t} = insert cleanuptime {t | t = 0} := by
        ext t
        simp [Looked]
      rw [hset]
      exact (isLeast_self 0).insert cleanuptime
  | false =>
      simp only [Bool.false_eq_true, if_false, passSelprep, hexit]
      cases hready : passReady s with
      | true =>
          have hset : {t | Looked false cleanuptime s t} = insert cleanuptime {t | t = 0} := by
            ext t
            simp [Looked, hready]
          rw [hset]
          exact (isLeast_self 0).insert cleanuptime
      | false =>
          have h := headSelprep_least s.pqdone (headSelprep_least s.pqfail (channels_least s))
          rw [looked_heads hready]
          exact h.insert cleanuptime

/-! ## The timeout against the work -/

/-- Nothing that is possible is slept past. A throttled job does not hold the loop where it would
not sleep, and a message that is marked delayed is not due before all that is looked at. -/
structure NotMissed (flagcleanup : Bool) (cleanuptime : Int) (s : State) : Prop where
  /-- Where a time that is looked at has come, `time_needed` is no longer than the work waits. -/
  throttled : s.time_needed ≠ 0 → (∃ t, Looked flagcleanup cleanuptime s t ∧ t ≤ s.recent) →
    ∀ d, Possible s d → s.time_needed ≤ SLEEP_FUZZ + max 0 (d - s.recent)
  /-- Beside a delayed head, a time is looked at that has come or is no later. -/
  delayed : ∀ c pe, Waiting s c pe → pe.delayed = true →
    ∃ t, Looked flagcleanup cleanuptime s t ∧ t ≤ max s.recent pe.dt

/-- Where nothing that is looked at has come, all of it was looked at. -/
theorem looked_all {flagcleanup : Bool} {cleanuptime : Int} (hexit : s.flagexitsend = false)
    (hrecent : 0 ≤ s.recent) (hlt : s.recent < wakeup flagcleanup cleanuptime s) :
    flagcleanup = false ∧ passReady s = false := by
  obtain ⟨-, hleast⟩ := wakeup_least flagcleanup cleanuptime hexit
  cases hfc : flagcleanup with
  | true =>
      have h0 := hleast (Or.inr (Or.inl ⟨hfc, rfl⟩))
      omega
  | false =>
      cases hready : passReady s with
      | false => exact ⟨rfl, rfl⟩
      | true =>
          have h0 := hleast (Or.inr (Or.inr (Or.inl ⟨hfc, hready, rfl⟩)))
          omega

/-- `wakeup` is not behind the work, where no message that is marked delayed is before it. -/
theorem wakeup_le_possible {flagcleanup : Bool} {cleanuptime : Int} (hheaps : Heaps s)
    (hexit : s.flagexitsend = false) (hfc : flagcleanup = false) (hready : passReady s = false)
    (hdelayed : ∀ c pe, Waiting s c pe → pe.delayed = true →
      wakeup flagcleanup cleanuptime s ≤ pe.dt) {d : Int} (hd : Possible s d) :
    wakeup flagcleanup cleanuptime s ≤ d := by
  obtain ⟨-, hleast⟩ := wakeup_least flagcleanup cleanuptime hexit
  have hlook : ∀ t, (t = wakeupBase s ∨
      (∃ c pe, Waiting s c pe ∧ pe.delayed = false ∧ t = pe.dt) ∨
      (∃ pe, Prioq.get s.pqdone = some pe ∧ t = pe.dt) ∨
      ∃ pe, Prioq.get s.pqfail = some pe ∧ t = pe.dt) →
      wakeup flagcleanup cleanuptime s ≤ t :=
    fun t ht => hleast (Or.inr (Or.inr (Or.inr ⟨hfc, hready, ht⟩)))
  have hhead : ∀ q : Queue, ∀ e ∈ q, ∃ pe, Prioq.get q = some pe := by
    intro q e he
    cases q with
    | nil => cases he
    | cons pe q => exact ⟨pe, rfl⟩
  rcases hd with ⟨⟨c, hp, ha⟩, -⟩ | ⟨c, hp, hjob, e, he, rfl⟩ | ⟨e, he, rfl⟩ | ⟨e, he, rfl⟩
  · have hpass : passReady s = true := by
      rw [passReady, List.any_eq_true]
      exact ⟨c, by cases c <;> simp, by simp [hp, ha]⟩
    rw [hpass] at hready
    cases hready
  · obtain ⟨pe, hpe⟩ := hhead _ e he
    have hpd := (hheaps.chan c).get_le hpe e he
    cases hdel : pe.delayed with
    | false =>
        have := hlook pe.dt (Or.inr (Or.inl ⟨c, pe, ⟨hp, hjob, hpe⟩, hdel, rfl⟩))
        omega
    | true =>
        have := hdelayed c pe ⟨hp, hjob, hpe⟩ hdel
        omega
  · obtain ⟨pe, hpe⟩ := hhead _ e he
    have hpd := hheaps.done.get_le hpe e he
    have := hlook pe.dt (Or.inr (Or.inr (Or.inl ⟨pe, hpe, rfl⟩)))
    omega
  · obtain ⟨pe, hpe⟩ := hhead _ e he
    have hpd := hheaps.fail.get_le hpe e he
    have := hlook pe.dt (Or.inr (Or.inr (Or.inr ⟨pe, hpe, rfl⟩)))
    omega

/-- The timeout, with `wakeup` known to be no later than `time_needed` from now. -/
theorem selectTimeout_eq (flagcleanup : Bool) (cleanuptime : Int)
    (h : s.recent < wakeup flagcleanup cleanuptime s →
      wakeup flagcleanup cleanuptime s ≤ wakeupBase s) :
    selectTimeout flagcleanup cleanuptime s =
      if wakeup flagcleanup cleanuptime s ≤ s.recent then s.time_needed
      else wakeup flagcleanup cleanuptime s - s.recent + SLEEP_FUZZ := by
  unfold selectTimeout
  simp only
  split
  · split
    · rfl
    · rename_i h0
      omega
  · rename_i hlt
    rw [if_neg]
    rintro ⟨h0, hneed⟩
    have hle := h (by omega)
    rw [wakeupBase, if_pos h0] at hle
    omega

theorem select_iff (flagcleanup : Bool) (cleanuptime : Int) (hheaps : Heaps s)
    (hexit : s.flagexitsend = false) (hrecent : 0 ≤ s.recent) :
    (∀ d, Possible s d →
      selectTimeout flagcleanup cleanuptime s ≤ SLEEP_FUZZ + max 0 (d - s.recent)) ↔
      NotMissed flagcleanup cleanuptime s := by
  obtain ⟨hlooked, hleast⟩ := wakeup_least flagcleanup cleanuptime hexit
  have hfuzz : SLEEP_FUZZ = 1 := rfl
  have hbase : s.recent < wakeup flagcleanup cleanuptime s →
      wakeup flagcleanup cleanuptime s ≤ wakeupBase s := by
    intro hlt
    obtain ⟨hfc, hready⟩ := looked_all hexit hrecent hlt
    exact hleast (Or.inr (Or.inr (Or.inr ⟨hfc, hready, Or.inl rfl⟩)))
  rw [selectTimeout_eq flagcleanup cleanuptime hbase]
  by_cases hnear : wakeup flagcleanup cleanuptime s ≤ s.recent
  · rw [if_pos hnear]
    constructor
    · intro h
      exact ⟨fun _ _ => h, fun c pe _ _ => ⟨_, hlooked, by omega⟩⟩
    · rintro ⟨h, -⟩ d hd
      by_cases h0 : s.time_needed = 0
      · omega
      · exact h h0 ⟨_, hlooked, hnear⟩ d hd
  · rw [if_neg hnear]
    obtain ⟨hfc, hready⟩ := looked_all hexit hrecent (Int.not_le.mp hnear)
    constructor
    · intro h
      constructor
      · rintro - ⟨t, ht, hle⟩
        have := hleast ht
        omega
      · intro c pe hw hd
        have hp := h pe.dt (Or.inr (Or.inl ⟨c, hw.1, hw.2.1, pe, List.mem_of_mem_head? hw.2.2, rfl⟩))
        exact ⟨_, hlooked, by omega⟩
    · rintro ⟨-, hdelayed⟩ d hd
      have hbehind : ∀ c pe, Waiting s c pe → pe.delayed = true →
          wakeup flagcleanup cleanuptime s ≤ pe.dt := by
        intro c pe hw hdel
        obtain ⟨t, ht, hle⟩ := hdelayed c pe hw hdel
        have := hleast ht
        omega
      have hle := wakeup_le_possible hheaps hexit hfc hready hbehind hd
      omega

/-- **qmail-send does not sleep past due work just where nothing of it is missed**, in every state
of every run. The loop resets `time_needed` by itself, so it has any value here. -/
theorem select_prompt_iff {cfg : Config} {ls : List Label} {s₀ s : State} (time_needed : Int)
    (flagcleanup : Bool) (cleanuptime : Int) (hi : (sendMachine cfg).init s₀)
    (he : (sendMachine cfg).exec s₀ ls = some s) (hexit : s.flagexitsend = false)
    (hrecent : 0 ≤ s.recent) :
    (∀ d, Possible { s with time_needed := time_needed } d →
      selectTimeout flagcleanup cleanuptime { s with time_needed := time_needed }
        ≤ SLEEP_FUZZ + max 0 (d - s.recent)) ↔
      NotMissed flagcleanup cleanuptime { s with time_needed := time_needed } := by
  have hheaps : Heaps { s with time_needed := time_needed } := (heaps_of_run hi he).same rfl rfl rfl
  exact select_iff flagcleanup cleanuptime hheaps hexit hrecent

/-! ## Two messages, one of them throttled -/

/-- The first message is queued; nothing is throttled. -/
def openFirst : List Label := [.clock 100, .pqadd {} 1]

theorem select_prompt_first :
    ∃ s, (sendMachine demoConfig).exec (startup oneSlot twoMessages []) openFirst = some s ∧
      ((∀ d, Possible { s with time_needed := 0 } d →
        selectTimeout false 5000 { s with time_needed := 0 } ≤ SLEEP_FUZZ + max 0 (d - s.recent)) ↔
        NotMissed false 5000 { s with time_needed := 0 }) := by
  have hrun : ∃ s, (sendMachine demoConfig).exec (startup oneSlot twoMessages []) openFirst = some s ∧
      s.flagexitsend = false ∧ s.recent = 100 := ⟨_, rfl, rfl, rfl⟩
  obtain ⟨s, he, hexit, hrecent⟩ := hrun
  refine ⟨s, he, ?_⟩
  exact select_prompt_iff 0 false 5000 ⟨oneSlot, twoMessages, rfl⟩ he hexit (by omega)

/-- Both messages are queued, and the rate limit holds the first one back for an hour. -/
def throttleFirst : List Label :=
  [.clock 100, .pqadd {} 1, .pqadd {} 2, .pass { rate := .throttled 3600 } .loc]

/-- **qmail-send sleeps for the throttled message while another is due.** -/
theorem select_sleeps : ¬ ∀ (cfg : Config) (ls : List Label) (s₀ s : State),
    (sendMachine cfg).init s₀ → (sendMachine cfg).exec s₀ ls = some s → s.flagexitsend = false →
    ∀ flagcleanup cleanuptime d, Possible s d →
      selectTimeout flagcleanup cleanuptime s ≤ SLEEP_FUZZ + max 0 (d - s.recent) := by
  intro h
  obtain ⟨s, he, hexit, hjob, hpass, hq, hsleep⟩ : ∃ s,
      (sendMachine demoConfig).exec (startup oneSlot twoMessages []) throttleFirst = some s ∧
        s.flagexitsend = false ∧ (jobAvail s).isSome = true ∧ s.pass .loc = none ∧
        ((s.pqchan .loc).any fun e => e.dt = 0) = true ∧
        ¬ selectTimeout false 5000 s ≤ SLEEP_FUZZ + max 0 (0 - s.recent) :=
    ⟨_, rfl, rfl, rfl, rfl, by decide +kernel, by decide +kernel⟩
  obtain ⟨e, he0, hdt⟩ := List.any_eq_true.mp hq
  have hpossible : Possible s 0 :=
    Or.inr (Or.inl ⟨.loc, hpass, hjob, e, he0, (of_decide_eq_true hdt).symm⟩)
  exact hsleep (h demoConfig throttleFirst _ s ⟨oneSlot, twoMessages, rfl⟩ he hexit false 5000 0
    hpossible)

end IndimailMta.Send
