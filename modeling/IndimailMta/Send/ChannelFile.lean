import IndimailMta.Send.History
import IndimailMta.Send.Ledger

/-!
# When a channel file is removed

`job_close` removes `local/id` or `remote/id` when the pass has seen the end of
the file and `numtodo` is 0. Every function of qmail-send keeps the ledger of
recipients balanced, so when a file is removed every recipient it was written with
is finished: it was reported delivered, or its failure (or its deferral, the
message being too old) was put into the bounce before the record was marked.
-/

namespace IndimailMta.Send

open IndimailMta Prioq Run
open Function (update update_of_ne)

variable {orig : Channel → Nat → Bytes} {pend : Nat → Finset Nat}

/-- The ledger of a state, for channel files that were written as `orig`. -/
def State.Balanced (orig : Channel → Nat → Bytes) (s : State) : Prop :=
  ∃ pend, Ledger orig pend s.jo s.del s.pass s.fs.chan s.trace

/-! ## §1 Settling a report -/

section Functions

variable {s : State} {jo : Nat → Job} {del : Channel → Nat → Del}
  {pass : Channel → Option Pass}

theorem ledger_markdone (ok : Bool) {c : Channel} {id pos : Nat}
    (h : Ledger orig pend jo del pass s.fs.chan s.trace) (hT : (orig c id)[pos]? = some 84)
    (hf : Finished c id pos s.trace) :
    Ledger orig pend jo del pass (markdone ok c id pos s).fs.chan
      (markdone ok c id pos s).trace := by
  unfold markdone
  simp only
  split
  · have hlog := h.extend (l := [.markdone c id pos]) (fun e k hm => by simp at hm)
      (fun e k q hm => by
        simp only [List.mem_singleton, Event.markdone.injEq] at hm
        obtain ⟨rfl, rfl, rfl⟩ := hm
        exact hf.append _)
    exact hlog.mark hT (hf.append _) rfl
  · exact h

/-- **A success or a failure finishes the recipient in the slot, and then counts it.** -/
theorem ledger_settle {o : ReportAnswers} {c : Channel} {i : Nat} {dline : Bytes} {t : State}
    (ht : settle o c (s.del c i) dline s = t)
    (h : Ledger orig pend s.jo s.del s.pass s.fs.chan s.trace)
    (hused : (s.del c i).used = true) :
    t.del = s.del ∧ t.pass = s.pass ∧
      Ledger orig pend s.jo s.del s.pass t.fs.chan t.trace ∧
      (t.jo = s.jo ∨ t.jo = update s.jo (s.del c i).j
          { s.jo (s.del c i).j with numtodo := (s.jo (s.del c i).j).numtodo - 1 } ∧
        Finished c (s.jo (s.del c i).j).id (s.del c i).mpos t.trace) := by
  have hT := (h.slot c i hused).2
  obtain ⟨_, _, _, _, hw⟩ := settle_writes s o c (s.del c i) dline
  refine ⟨by rw [← ht, hw], by rw [← ht, hw], ?_⟩
  generalize s.del c i = d at hT ht
  have hlog := h.log (e := .report c (dline.getD 2 0) (s.jo d.j).id d.mpos (cstr (dline.drop 3)))
    (fun _ _ he => by simp at he) (fun _ _ _ he => by simp at he)
  -- marking and counting, in a state `u` in which the recipient is finished
  have hdone : ∀ u : State, u.jo = s.jo →
      Ledger orig pend s.jo s.del s.pass u.fs.chan u.trace →
      Finished c (s.jo d.j).id d.mpos u.trace →
      decNumtodo d.j (markdone o.markOk c (s.jo d.j).id d.mpos u) = t →
      Ledger orig pend s.jo s.del s.pass t.fs.chan t.trace ∧
        (t.jo = s.jo ∨ t.jo = update s.jo d.j
            { s.jo d.j with numtodo := (s.jo d.j).numtodo - 1 } ∧
          Finished c (s.jo d.j).id d.mpos t.trace) := by
    rintro u hjo hl hf rfl
    obtain ⟨fs, es, _, hm⟩ := markdone_writes u o.markOk c (s.jo d.j).id d.mpos
    refine ⟨ledger_markdone o.markOk hl hT hf, .inr ⟨?_, ?_⟩⟩
    · rw [hm, ← hjo]
      rfl
    · rw [hm]
      exact hf.append es
  unfold settle at ht
  simp only at ht
  split at ht
  · rename_i h75
    rw [h75] at hlog ht
    exact hdone (s.log (.report c 75 (s.jo d.j).id d.mpos (cstr (dline.drop 3)))) rfl hlog
      (.inl ⟨_, List.mem_cons_self⟩) ht
  split at ht
  · rename_i h68
    rw [h68] at hlog ht
    have hbounce := hlog.log (e := .addbounce (s.jo d.j).id (cstr (dline.drop 3))
        (bounceText s.mapvdoms d.recip (cstr (dline.drop 3))))
      (fun _ _ he => by simp at he) (fun _ _ _ he => by simp at he)
    refine hdone (addbounce (s.jo d.j).id d.recip (cstr (dline.drop 3))
      (s.log (.report c 68 (s.jo d.j).id d.mpos (cstr (dline.drop 3))))) rfl hbounce ?_ ht
    by_cases hm : Event.markdone c (s.jo d.j).id d.mpos ∈ s.trace
    · exact (h.marks c (s.jo d.j).id d.mpos hm).append [_, _]
    · exact .inr ⟨[], s.trace, s.mapvdoms, d.recip, _, rfl, hm⟩
  · subst ht
    exact ⟨hlog, .inl rfl⟩

/-- `job_close` may remove the channel file if all its recipients are finished. -/
theorem ledger_jobClose (o : CloseAnswers) {j : Nat}
    (h : Ledger orig pend jo del pass s.fs.chan s.trace)
    (hall : (s.jo j).flaghiteof = true → (s.jo j).numtodo = 0 →
      ∀ pos, TRecord (orig (s.jo j).channel (s.jo j).id) pos →
        Finished (s.jo j).channel (s.jo j).id pos s.trace) :
    Ledger orig pend jo del pass (jobClose o j s).fs.chan (jobClose o j s).trace := by
  have hlog := h.log (e := .jobClose j) (fun _ _ he => by simp at he)
    (fun _ _ _ he => by simp at he)
  obtain ⟨q, d, he | ⟨heof, h0, he⟩⟩ := jobClose_cases s o j
  · rw [he]
    exact hlog
  · rw [he]
    exact hlog.unlink (fun pos ht => (hall heof h0 pos ht).append [_]) rfl

/-- **A report in a used slot: whatever it says, the ledger stays balanced.** -/
theorem balanced_settled (o : ReportAnswers) {c : Channel} {i : Nat} (dline : Bytes)
    (hheld : s.Held) (h : s.Balanced orig) (hused : (s.del c i).used = true) :
    (freeDel c i (jobClose o.close (s.del c i).j
      (settle o c (s.del c i) dline s))).Balanced orig := by
  obtain ⟨pend, h⟩ := h
  have hchan := hheld.slot_fits c i hused
  generalize ht : settle o c (s.del c i) dline s = t
  obtain ⟨hdel, hpass, hl, hjo⟩ := ledger_settle ht h hused
  obtain ⟨q, d, fs, es, _, hj⟩ := jobClose_writes t o.close (s.del c i).j
  have hbal : ∀ pend', Ledger orig pend'
        (update t.jo (s.del c i).j
          { t.jo (s.del c i).j with refs := (t.jo (s.del c i).j).refs - 1 })
        (update₂ s.del c i { s.del c i with used := false }) s.pass
        (jobClose o.close (s.del c i).j t).fs.chan
        (jobClose o.close (s.del c i).j t).trace →
      (freeDel c i (jobClose o.close (s.del c i).j t)).Balanced orig := by
    intro pend' hl'
    refine ⟨pend', ?_⟩
    rw [← hdel, ← hpass] at hl'
    rw [← hdel] at hj ⊢
    rw [hj] at hl' ⊢
    exact hl'
  rcases hjo with hjo | ⟨hjo, hf⟩
  · have hclose := ledger_jobClose o.close hl (j := (s.del c i).j) (by
      rw [hjo]
      intro heof h0 pos hpos
      exact hl.all_finished (x := .slot c i) ⟨hused, rfl⟩ heof h0 hpos)
    refine hbal pend ?_
    rw [hjo]
    exact (hclose.dropSlot rfl).setJob ⟨rfl, rfl, rfl⟩ rfl
  · have hclose := ledger_jobClose o.close hl (j := (s.del c i).j) (by
      rw [hjo, Function.update_self]
      intro heof h0 pos hpos
      simp only [hchan] at heof h0 hpos ⊢
      exact hl.done_finished hheld hused hf heof h0 hpos)
    refine hbal (update pend (s.del c i).j ((pend (s.del c i).j).erase (s.del c i).mpos)) ?_
    rw [hjo, Function.update_self, Function.update_idem]
    refine hclose.doneSlot hheld hused rfl ?_ ⟨rfl, rfl, rfl⟩ rfl
    rw [hj]
    exact (hf.append [.jobClose (s.del c i).j]).append es

theorem balanced_delReport (o : ReportAnswers) (c : Channel) (dline : Bytes) (hheld : s.Held)
    (h : s.Balanced orig) : (delReport o c dline s).Balanced orig := by
  have hindex : ∀ i, (logIndex c i s).Balanced orig := by
    obtain ⟨pend, h⟩ := h
    exact fun i => ⟨pend, h.log (fun _ _ he => by simp at he) (fun _ _ _ he => by simp at he)⟩
  rcases delReport_cases s o c dline with ⟨_, he⟩ | ⟨_, _, _, he⟩ | ⟨_, _, hused, he⟩
  · rwa [he]
  · rw [he]
    exact hindex _
  · rw [he]
    exact balanced_settled (s := logIndex c _ s) o _ hheld (hindex _) hused

theorem balanced_delByte (o : ReportAnswers) (c : Channel) (ch : Byte) (hheld : s.Held)
    (h : s.Balanced orig) : (delByte o c ch s).Balanced orig := by
  unfold delByte
  rcases lineByte_cases 2 (s.dline c) ch with hr | ⟨l, _, hr⟩
  · simp only [reportByte, hr, List.foldl_nil]
    exact h
  · simp only [reportByte, hr, List.foldl_cons, List.foldl_nil]
    exact balanced_delReport o c l (by exact hheld) (by exact h)

/-! ## §2 Reading a record -/

/-- The end of a pass. -/
theorem balanced_passEnd (o : PassAnswers) {c : Channel} {p : Pass} {b : Job}
    (h : Ledger orig pend s.jo s.del s.pass s.fs.chan s.trace) (hheld : s.Held)
    (hp : s.pass c = some p) (hid : b.id = (s.jo p.j).id)
    (hchan : b.channel = (s.jo p.j).channel) (hn : b.numtodo = (s.jo p.j).numtodo)
    (hcov : b.flaghiteof = true → ∀ pos, TRecord (orig c p.id) pos →
      Finished c p.id pos s.trace ∨ pos ∈ pend p.j) :
    (passEnd o c p.j (s.setJob p.j b)).Balanced orig := by
  obtain ⟨hpid, hpc, _⟩ := hheld.pass_fits c p hp
  have hclose := ledger_jobClose (s := s.setJob p.j b) o.close (j := p.j) h (by
    simp only [State.setJob, Function.update_self]
    rw [hid, hchan, hpid, hpc, hn]
    intro heof h0 pos hpos
    have hcard := h.numtodo p.j (.pass c) ⟨p, hp, rfl⟩
    have hempty : pend p.j = ∅ := Finset.card_eq_zero.mp (by omega)
    rcases hcov heof pos hpos with hf | hm
    · exact hf
    · rw [hempty] at hm
      exact absurd hm (Finset.notMem_empty pos))
  obtain ⟨q, d, fs, es, _, hj⟩ := jobClose_writes (s.setJob p.j b) o.close p.j
  refine ⟨pend, ?_⟩
  rw [passEnd]
  rw [hj] at hclose ⊢
  simp only [State.setJob, Function.update_self, Function.update_idem]
  refine hclose.endPass hheld hp hid hchan hn fun heof pos hpos => ?_
  exact (hcov heof pos hpos).imp (fun hf => (hf.append [.jobClose p.j]).append es) (fun hm => hm)

/-- `del_start` for a pending recipient that no slot is for. -/
theorem ledger_delStart (cfg : Config) (j mpos : Nat) (recip : Bytes) {x : Holder}
    (h : Ledger orig pend s.jo s.del pass s.fs.chan s.trace) (hx : holds s.del pass j x)
    (hmem : mpos ∈ pend j)
    (hT : (orig (s.jo j).channel (s.jo j).id)[mpos]? = some 84)
    (hnew : ∀ k, (s.del (s.jo j).channel k).used = true → (s.del (s.jo j).channel k).j = j →
      (s.del (s.jo j).channel k).mpos ≠ mpos) :
    Ledger orig pend (delStart cfg j mpos recip s).jo (delStart cfg j mpos recip s).del pass
      (delStart cfg j mpos recip s).fs.chan (delStart cfg j mpos recip s).trace := by
  have hscan : ∀ n, Ledger orig pend s.jo s.del pass s.fs.chan
      (logScan (s.jo j).channel n s).trace := by
    intro n
    rw [logScan_eq]
    exact h.extend (fun e k hm => by simp at hm) (fun e k q hm => by simp at hm)
  rcases delStart_cases s cfg j mpos recip with he | ⟨_, he⟩ | ⟨i, hi, he⟩
  · rw [he]
    exact h
  · have hl := hscan (s.concurrency (s.jo j).channel)
    rw [he]
    rw [logScan_eq] at hl ⊢
    exact hl
  · have hl := hscan (i + 1)
    have hfree := (freeSlot_spec hi).2.1
    have hstart := (hl.takeSlot (d := ⟨true, j, s.masterdelid, mpos, recip⟩) hfree hx hmem hT
      hnew).setJob (j := j) (b := { s.jo j with refs := (s.jo j).refs + 1 }) ⟨rfl, rfl, rfl⟩ rfl
    have hstart := hstart.log (e := .start (s.jo j).channel i (s.jo j).id mpos)
      (fun _ _ he => by simp at he) (fun _ _ _ he => by simp at he)
    rw [he]
    rw [logScan_eq] at hstart ⊢
    exact hstart

/-- **One step of a pass keeps the ledger balanced.** -/
theorem balanced_passNext (cfg : Config) (o : PassAnswers) {c : Channel} {p : Pass}
    (hheld : s.Held) (h : s.Balanced orig) (hp : s.pass c = some p) :
    (passNext cfg o c p s).Balanced orig := by
  obtain ⟨pend, h⟩ := h
  obtain ⟨hpid, hpc, hnoteof⟩ := hheld.pass_fits c p hp
  obtain ⟨hb, hbuf, hbelow, hpast⟩ := h.passes c p hp
  obtain ⟨hlen, hfile⟩ := h.files c p.id
  rcases passNext_cases s cfg o c p with he | he | ⟨line, buf, hline, he⟩ | ⟨r, he⟩ |
    ⟨line, buf, _, _, _, hline, hT, he⟩ | ⟨line, buf, hline, hD, he⟩
  · rw [he]
    exact ⟨pend, h⟩
  · have hend := balanced_passEnd o h hheld hp (b := s.jo p.j) rfl rfl rfl
      (fun heof => by simp [hnoteof] at heof)
    rw [State.setJob, Function.update_eq_self] at hend
    rw [he]
    exact hend
  · rw [he]
    refine balanced_passEnd o h hheld hp rfl rfl rfl fun _ pos hpos => ?_
    have hnone := getln_end hbuf hfile hlen hline
    by_cases hlt : pos < p.mpos
    · exact hpast pos hpos hlt
    · obtain ⟨k, hk, hzero⟩ := hpos.complete
      exact absurd hzero (hnone k (by omega))
  · rw [he]
    exact balanced_passEnd (s := { s with time_needed := _ }) o h hheld hp rfl rfl rfl
      (fun heof => by simp [hnoteof] at heof)
  · -- a line that is to do: the position is pending until its slot takes it
    obtain ⟨n, hn, hzero, hnul, hrest, hTorig, _⟩ := getln_record hbuf hfile hline
    obtain ⟨w, hw⟩ := passDeliver_eq s cfg o p (cstr (line.drop 1))
    have htodo := h.todo hheld (q := { p with mpos := p.mpos + line.length, buf := buf })
      (b := { s.jo p.j with numtodo := (s.jo p.j).numtodo + 1 }) hp rfl rfl
      (.inr (by simpa [hn] using hzero)) hrest (by simp [hn])
      (fun pos hpos hle hlt => eq_of_boundary hnul hpos.boundary hle (by simpa [hn] using hlt))
      ⟨rfl, rfl, rfl⟩ rfl
    have hnew : ∀ k, (s.del c k).used = true → (s.del c k).j = p.j →
        (s.del c k).mpos ≠ p.mpos := by
      intro k hk hj hm
      have hmem := (h.slot c k hk).1
      rw [hj, hm] at hmem
      exact Nat.lt_irrefl _ (hbelow _ hmem)
    have hstart := ledger_delStart (s := { s with
        delayed_jobs := w
        jo := update s.jo p.j { s.jo p.j with numtodo := (s.jo p.j).numtodo + 1 } }) cfg
      p.j p.mpos (cstr (line.drop 1)) (x := .pass c) htodo
      ⟨_, Function.update_self _ _ _, rfl⟩
      (by rw [Function.update_self]; exact Finset.mem_insert_self _ _)
      (by
        simp only [Function.update_self, hpc, hpid]
        exact hTorig hT)
      (by
        simp only [Function.update_self, hpc]
        exact hnew)
    obtain ⟨jo, d, u, m, b, t, hd⟩ := delStart_writes { s with
        delayed_jobs := w
        jo := update s.jo p.j { s.jo p.j with numtodo := (s.jo p.j).numtodo + 1 } }
        cfg p.j p.mpos (cstr (line.drop 1))
    rw [he, hw]
    rw [hd] at hstart ⊢
    exact ⟨_, hstart⟩
  · -- a line that is done is passed over
    obtain ⟨n, hn, hzero, hnul, hrest, _, hdone⟩ := getln_record hbuf hfile hline
    have hnext := h.advance (q := { p with mpos := p.mpos + line.length, buf := buf }) hp rfl rfl
      (.inr (by simpa [hn] using hzero)) hrest (Nat.le_add_right _ _)
      (fun pos hpos hle hlt => by
        obtain rfl := eq_of_boundary hnul hpos.boundary hle (by simpa [hn] using hlt)
        exact .inl (hdone hD hpos.type))
    rw [he]
    exact ⟨pend, hnext⟩

theorem balanced_passOpen (o : PassAnswers) {c : Channel} (hheld : s.Held)
    (h : s.Balanced orig) : (passOpen o c s).Balanced orig := by
  obtain ⟨pend, h⟩ := h
  rcases passOpen_cases s o c with ⟨q, he⟩ | ⟨j, pe, info, hj, _, _, he⟩
  · rw [he]
    exact ⟨pend, h⟩
  · have hopen := fun (jb : Job) => h.openPass hheld (c := c) (p := { id := pe.id, j := j })
      (b := jb) (jobAvail_spec hj).2 rfl rfl
    rw [he]
    refine ⟨update pend j ∅, ?_⟩
    simp only [passJob, jobOpen, State.setJob, pqchanDel, Function.update_self,
      Function.update_idem]
    exact hopen _ rfl rfl

theorem balanced_passDochan (cfg : Config) (o : PassAnswers) (c : Channel) (hheld : s.Held)
    (h : s.Balanced orig) : (passDochan cfg o c s).Balanced orig := by
  rcases passDochan_cases s cfg o c with he | ⟨_, _, _, he⟩ | ⟨p, _, hnone, hp, he⟩ |
    ⟨p, _, hp, he⟩
  · rwa [he]
  · rw [he]
    exact balanced_passOpen o hheld h
  · rw [he]
    exact balanced_passNext cfg o (held_passOpen o hheld hnone) (balanced_passOpen o hheld h) hp
  · rw [he]
    exact balanced_passNext cfg o hheld h hp

/-! ## §3 Runs -/

theorem step_balanced (cfg : Config) (l : Label) (hheld : s.Held) (h : s.Balanced orig) :
    (step cfg s l).Balanced orig := by
  cases l with
  | clock now => exact h
  | alarm => exact h
  | runasap =>
      simp only [step]
      split
      · exact h
      · exact h
  | reread o =>
      obtain ⟨k, a, m, hw⟩ := regetcontrols_writes s o
      rw [step, hw]
      exact h
  | comm c w =>
      simp only [step]
      split
      · exact h
      · exact h
  | spawndied c => exact h
  | report o c ch =>
      simp only [step]
      split
      · exact balanced_delByte o c ch hheld h
      · exact h
  | todo now delayed ch =>
      simp only [step]
      split
      · obtain ⟨q, d, x, y, t, hw⟩ := todoByte_writes s cfg now delayed ch
        rw [hw]
        exact h
      · exact h
  | pqadd o id =>
      obtain ⟨r, q, d, f, hw⟩ := pqadd_writes s o id s.do_ratelimit
      rw [step, hw]
      exact h
  | pass o c => exact balanced_passDochan cfg o c hheld h
  | pqfail o =>
      obtain ⟨r, q, d, f, hw⟩ := pqfailDo_writes s o
      rw [step, hw]
      exact h
  | pqdone o =>
      obtain ⟨d, m, i, b, x, y, es, hes, hw⟩ := pqdoneDo_writes s o
      obtain ⟨pend, h⟩ := h
      rw [step, hw]
      exact ⟨pend, h.extend (fun c id hm => by simpa [Event.isDone] using hes _ hm)
        (fun c id pos hm => by simpa [Event.isDone] using hes _ hm)⟩
  | restart k =>
      obtain ⟨pend, h⟩ := h
      exact ⟨_, h.restart⟩

end Functions

theorem balanced_startup (k : StartConf) (fs : Fs) :
    (startup k fs []).Balanced fun c id => (fs.chan c id).bytes :=
  ⟨fun _ => ∅, {
    files := fun c id => ⟨rfl, Copy.self _ _⟩
    marks := fun _ _ _ hm => by simp [startup] at hm
    removed := fun _ _ newer older he => by simp [startup] at he
    numtodo := fun _ _ _ => rfl
    slot := fun _ _ hi => by simp [startup] at hi
    slot_inj := fun _ _ _ hi => by simp [startup] at hi
    passes := fun _ _ hp => by simp [startup] at hp
    eof := fun _ _ _ he => by simp [startup] at he }⟩

/-! ## §4 Removed files -/

/-- What `Finished` says, in terms of the files: a success was reported, or a failure, and while
the record still read `T` its paragraph was put behind what `bounce/id` held. -/
def FinishedInFiles (fs : Fs) (c : Channel) (id pos : Nat) (trace : List Event) : Prop :=
  (∃ text, Event.report c 75 id pos text ∈ trace) ∨
    ∃ newer older mapvdoms recip report,
      let text := bounceText mapvdoms recip report
      trace = newer ++ .addbounce id report text :: .report c 68 id pos report :: older ∧
      ((replay fs older).chan c id).bytes[pos]? = some 84 ∧
      (replay fs (.addbounce id report text :: .report c 68 id pos report :: older)).bounce id =
        (replay fs older).bounce id ++ text

/-- Whenever the name of a channel file went away, every recipient the file was written with had
been finished. -/
def RemovedFinishedInFiles (fs : Fs) (trace : List Event) : Prop :=
  ∀ c id newer e older, trace = newer ++ e :: older →
    ((replay fs older).chan c id).linked = true →
    ((replay fs (e :: older)).chan c id).linked = false →
    ∀ pos, TRecord (fs.chan c id).bytes pos → FinishedInFiles fs c id pos older

theorem Finished.inFiles {fs : Fs} {c : Channel} {id pos : Nat} {trace : List Event}
    (h : Finished c id pos trace) (ht : TRecord (fs.chan c id).bytes pos) :
    FinishedInFiles fs c id pos trace := by
  rcases h with hk | ⟨newer, older, m, recip, report, he, hm⟩
  · exact .inl hk
  · refine .inr ⟨newer, older, m, recip, report, he, ?_, ?_⟩
    · rw [replay_byte hm]
      exact ht.type
    · exact Function.update_self id _ _

theorem RemovedFinished.inFiles {fs : Fs} {trace : List Event}
    (h : RemovedFinished (fun c id => (fs.chan c id).bytes) trace) :
    RemovedFinishedInFiles fs trace := by
  intro c id newer e older he hlinked hgone pos ht
  obtain rfl := eq_unlink_of_act hlinked hgone
  exact (h c id newer older he pos ht).inFiles ht

/-- **In every run the files are those the run started with, as its history changed them, and a
channel file is removed only when every recipient it was written with is finished.** -/
theorem removed_only_finished {cfg : Config} {ls : List Label} {s t : State}
    (hi : (sendMachine cfg).init s) (he : (sendMachine cfg).exec s ls = some t) :
    t.fs = replay s.fs t.trace ∧ RemovedFinishedInFiles s.fs t.trace := by
  have hinv : t.Held ∧ t.Balanced (fun c id => (s.fs.chan c id).bytes) := by
    refine (sendMachine cfg).exec_invariant_of_step
      (I := fun u => u.Held ∧ u.Balanced (fun c id => (s.fs.chan c id).bytes)) ?_ ?_ he
    · intro u l u' h hu
      obtain rfl : step cfg u l = u' := Option.some.inj hu
      exact ⟨step_held cfg l h.1, step_balanced cfg l h.1 h.2⟩
    · obtain ⟨k, fs, rfl⟩ := hi
      exact ⟨held_startup, balanced_startup k fs⟩
  obtain ⟨pend, hledger⟩ := hinv.2
  exact ⟨run_replays hi he, hledger.removed.inFiles⟩

/-- The first message fails, and its pass comes to the end of the file. -/
def bouncedRun : List Label :=
  startFirst ++ [.comm .loc 100, .report {} .loc 0, .report {} .loc 0, .report {} .loc 68,
    .report {} .loc 110, .report {} .loc 111, .report {} .loc 0, .pass {} .loc]

theorem removed_only_finished_bouncedRun :
    ∃ t, (sendMachine demoConfig).exec (startup oneSlot twoMessages []) bouncedRun = some t ∧
      t.fs.chan .loc 1 = ⟨false, asc "Dr@y" ++ [0]⟩ ∧ t.fs.bounce 1 = asc "<r@y>:\nno\n\n" ∧
      t.fs = replay twoMessages t.trace ∧ RemovedFinishedInFiles twoMessages t.trace :=
  ⟨_, rfl, by decide +kernel, by decide +kernel,
    @removed_only_finished demoConfig bouncedRun _ _ ⟨oneSlot, twoMessages, rfl⟩ rfl⟩

end IndimailMta.Send
