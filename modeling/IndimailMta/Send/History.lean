import IndimailMta.Send.Writes

/-!
# The files behind the history

`Event.act` is what an event means for the files of the queue, and `replay` what a
whole history makes of the queue a run starts on. Every write of qmail-send logs
the event that describes it, so in every state of every run the files are the
replay of the history: what a theorem finds in the history was on the disk.
-/

namespace IndimailMta.Send

open IndimailMta Prioq Run
open Function (update update_of_ne)

/-! ## §1 What an event does to the files -/

/-- The files after an event. -/
def Event.act : Event → Fs → Fs
  | .markdone c id pos, fs =>
      fs.setChan c id { fs.chan c id with bytes := (fs.chan c id).bytes.set pos 68 }
  | .addbounce id _ text, fs =>
      { fs with bounce := update fs.bounce id (fs.bounce id ++ text) }
  | .unlink c id, fs => fs.setChan c id { fs.chan c id with linked := false }
  | .injectbounce id, fs => { fs with bounce := update fs.bounce id [] }
  | .unlinkInfo id, fs => { fs with info := update fs.info id none }
  | .cleanMess id, fs => { fs with mess := update fs.mess id false }
  | _, fs => fs

/-- The files a history leaves behind; its newest event stands first. -/
def replay (fs : Fs) (trace : List Event) : Fs := trace.foldr Event.act fs

section Replay

variable {fs : Fs} {c : Channel} {id pos : Nat}

theorem replay_cons (e : Event) (trace : List Event) :
    replay fs (e :: trace) = e.act (replay fs trace) := rfl

/-- Only the removal of a channel file takes its name away. -/
theorem eq_unlink_of_act {e : Event} (h : (fs.chan c id).linked = true)
    (h' : ((e.act fs).chan c id).linked = false) : e = .unlink c id := by
  cases e with
  | unlink d k =>
      by_cases hk : c = d ∧ id = k
      · rw [hk.1, hk.2]
      · simp only [Event.act, Fs.setChan, update₂_of_ne _ _ hk, h] at h'
        cases h'
  | markdone d k q =>
      by_cases hk : c = d ∧ id = k
      · obtain ⟨rfl, rfl⟩ := hk
        simp [Event.act, Fs.setChan, h] at h'
      · simp only [Event.act, Fs.setChan, update₂_of_ne _ _ hk, h] at h'
        cases h'
  | _ => simp [Event.act, h] at h'

/-- An event changes a byte of a channel file only by marking it. -/
theorem act_byte {e : Event} (h : e ≠ .markdone c id pos) :
    ((e.act fs).chan c id).bytes[pos]? = (fs.chan c id).bytes[pos]? := by
  cases e with
  | markdone d k q =>
      by_cases hk : c = d ∧ id = k
      · obtain ⟨rfl, rfl⟩ := hk
        have hq : q ≠ pos := fun hq => h (by rw [hq])
        simp [Event.act, Fs.setChan, List.getElem?_set_ne hq]
      · simp only [Event.act, Fs.setChan, update₂_of_ne _ _ hk]
  | unlink d k =>
      by_cases hk : c = d ∧ id = k
      · obtain ⟨rfl, rfl⟩ := hk
        simp [Event.act, Fs.setChan]
      · simp only [Event.act, Fs.setChan, update₂_of_ne _ _ hk]
  | _ => rfl

/-- Before a record is marked, its first byte is the one it was written with. -/
theorem replay_byte {trace : List Event} (h : Event.markdone c id pos ∉ trace) :
    ((replay fs trace).chan c id).bytes[pos]? = (fs.chan c id).bytes[pos]? := by
  induction trace with
  | nil => rfl
  | cons e trace ih =>
      obtain ⟨he, htrace⟩ := not_or.mp (mt List.mem_cons.mpr h)
      rw [replay_cons, act_byte (Ne.symm he), ih htrace]

end Replay

/-! ## §2 What each function logs -/

/-- The files are what the history says they are. -/
def State.Replays (fs : Fs) (s : State) : Prop := s.fs = replay fs s.trace

section Functions

variable {fs : Fs} {s t : State}

/-- Neither the files nor the history changed. -/
theorem State.Replays.same (h : s.Replays fs) (hfs : t.fs = s.fs) (ht : t.trace = s.trace) :
    t.Replays fs := by
  rw [Replays, hfs, ht]
  exact h

/-- An event was logged that says what was done to the files. -/
theorem State.Replays.log (h : s.Replays fs) {e : Event} (hfs : t.fs = e.act s.fs)
    (ht : t.trace = e :: s.trace) : t.Replays fs := by
  rw [Replays, hfs, ht, replay_cons, ← h]

theorem replays_jobClose (o : CloseAnswers) (j : Nat) (h : s.Replays fs) :
    (jobClose o j s).Replays fs := by
  have hlog : ((s.setJob j (s.jo j).closed).log (.jobClose j)).Replays fs := h.log rfl rfl
  obtain ⟨q, d, he | ⟨_, _, he⟩⟩ := jobClose_cases s o j
  · rw [he]
    exact hlog.same rfl rfl
  · rw [he]
    exact hlog.log (e := .unlink (s.jo j).channel (s.jo j).id) rfl rfl

theorem replays_markdone (ok : Bool) (c : Channel) (id pos : Nat) (h : s.Replays fs) :
    (markdone ok c id pos s).Replays fs := by
  unfold markdone
  simp only
  split
  · exact h.log (e := .markdone c id pos) rfl rfl
  · exact h

theorem replays_addbounce (id : Nat) (recip report : Bytes) (h : s.Replays fs) :
    (addbounce id recip report s).Replays fs :=
  h.log (e := .addbounce id report (bounceText s.mapvdoms recip report)) rfl rfl

theorem replays_settle (o : ReportAnswers) (c : Channel) (d : Del) (dline : Bytes)
    (h : s.Replays fs) : (settle o c d dline s).Replays fs := by
  have hlog : (s.log (.report c (dline.getD 2 0) (s.jo d.j).id d.mpos
    (cstr (dline.drop 3)))).Replays fs := h.log rfl rfl
  unfold settle
  simp only
  split
  · exact (replays_markdone o.markOk c _ d.mpos hlog).same rfl rfl
  split
  · exact (replays_markdone o.markOk c _ d.mpos
      (replays_addbounce _ d.recip (cstr (dline.drop 3)) hlog)).same rfl rfl
  · exact hlog

theorem replays_freeDel (c : Channel) (i : Nat) (h : s.Replays fs) : (freeDel c i s).Replays fs :=
  h.same rfl rfl

theorem replays_delReport (o : ReportAnswers) (c : Channel) (dline : Bytes) (h : s.Replays fs) :
    (delReport o c dline s).Replays fs := by
  have hindex : ∀ i, (logIndex c i s).Replays fs := fun i => h.log rfl rfl
  rcases delReport_cases s o c dline with ⟨_, he⟩ | ⟨_, _, _, he⟩ | ⟨_, _, _, he⟩
  · rwa [he]
  · rw [he]
    exact hindex _
  · rw [he]
    exact replays_freeDel c _ (replays_jobClose o.close _ (replays_settle o c _ _ (hindex _)))

theorem replays_delByte (o : ReportAnswers) (c : Channel) (ch : Byte) (h : s.Replays fs) :
    (delByte o c ch s).Replays fs := by
  unfold delByte
  rcases lineByte_cases 2 (s.dline c) ch with hr | ⟨l, _, hr⟩
  · simp only [reportByte, hr, List.foldl_nil]
    exact h.same rfl rfl
  · simp only [reportByte, hr, List.foldl_cons, List.foldl_nil]
    exact replays_delReport o c l (h.same rfl rfl)

theorem replays_logScan (c : Channel) (n : Nat) (h : s.Replays fs) :
    (logScan c n s).Replays fs := by
  unfold logScan
  induction n with
  | zero => exact h
  | succ n ih =>
      rw [List.range_succ, List.foldl_append]
      exact ih.log (e := .index c n _) rfl rfl

theorem replays_takeSlot (c : Channel) (i j mpos : Nat) (recip : Bytes) (h : s.Replays fs) :
    (takeSlot c i j mpos recip s).Replays fs :=
  h.log (e := .start c i (s.jo j).id mpos) rfl rfl

theorem replays_writeCommand (cfg : Config) (c : Channel) (i : Nat) (jb : Job) (recip : Bytes)
    (h : s.Replays fs) : (writeCommand cfg c i jb recip s).Replays fs :=
  h.same rfl rfl

theorem replays_delStart (cfg : Config) (j mpos : Nat) (recip : Bytes) (h : s.Replays fs) :
    (delStart cfg j mpos recip s).Replays fs := by
  rcases delStart_cases s cfg j mpos recip with he | ⟨_, he⟩ | ⟨i, _, he⟩
  · rwa [he]
  · rw [he]
    exact replays_logScan _ _ h
  · rw [he]
    exact replays_writeCommand cfg _ i _ recip
      (replays_takeSlot _ i j mpos recip (replays_logScan _ (i + 1) h))

theorem replays_passEnd (o : PassAnswers) (c : Channel) (j : Nat) (h : s.Replays fs) :
    (passEnd o c j s).Replays fs :=
  (replays_jobClose o.close j h).same rfl rfl

theorem replays_passNext (cfg : Config) (o : PassAnswers) (c : Channel) (p : Pass)
    (h : s.Replays fs) : (passNext cfg o c p s).Replays fs := by
  rcases passNext_cases s cfg o c p with he | he | ⟨line, buf, _, he⟩ | ⟨r, he⟩ |
    ⟨line, buf, _, _, _, _, _, he⟩ | ⟨line, buf, _, _, he⟩
  · rwa [he]
  · rw [he]
    exact replays_passEnd o c p.j h
  · rw [he]
    exact replays_passEnd o c p.j (h.same rfl rfl)
  · rw [he]
    exact (replays_passEnd o c p.j (s := State.setJob { s with time_needed := _ } p.j _)
      (h.same rfl rfl)).same rfl rfl
  · obtain ⟨w, hw⟩ := passDeliver_eq s cfg o p (cstr (line.drop 1))
    rw [he, hw]
    exact (replays_delStart cfg p.j p.mpos _ (s := { s with delayed_jobs := w, jo := _ })
      (h.same rfl rfl)).same rfl rfl
  · rw [he]
    exact h.same rfl rfl

theorem replays_passDochan (cfg : Config) (o : PassAnswers) (c : Channel) (h : s.Replays fs) :
    (passDochan cfg o c s).Replays fs := by
  have hopen : (passOpen o c s).Replays fs := by
    rcases passOpen_cases s o c with ⟨q, he⟩ | ⟨j, pe, info, _, _, _, he⟩
    · rw [he]
      exact h.same rfl rfl
    · rw [he]
      exact h.same rfl rfl
  rcases passDochan_cases s cfg o c with he | ⟨_, _, _, he⟩ | ⟨p, _, _, _, he⟩ | ⟨p, _, _, he⟩
  · rwa [he]
  · rwa [he]
  · rw [he]
    exact replays_passNext cfg o c p hopen
  · rw [he]
    exact replays_passNext cfg o c p h

theorem replays_messdone (o : DoneAnswers) (id : Nat) (h : s.Replays fs) :
    (messdone o id s).Replays fs := by
  have hbounce : (injectbounce id s).Replays fs := h.log (e := .injectbounce id) rfl rfl
  have hinfo : (unlinkInfo id (injectbounce id s)).Replays fs :=
    hbounce.log (e := .unlinkInfo id) rfl rfl
  unfold messdone
  split
  · rename_i t ht
    rcases messdoneStops_eq ht with rfl | rfl
    · exact h
    · exact h.same rfl rfl
  split
  · exact h.same rfl rfl
  split
  · exact hbounce.same rfl rfl
  · unfold cleanMess
    split
    · exact hinfo.same rfl rfl
    · exact hinfo.log (e := .cleanMess id) rfl rfl
    · exact hinfo

theorem replays_pqdoneDo (o : DoneAnswers) (h : s.Replays fs) : (pqdoneDo o s).Replays fs := by
  unfold pqdoneDo
  split
  · split
    · exact replays_messdone o _ (h.same rfl rfl)
    · exact h
  · exact h

/-! ## §3 Steps and runs -/

/-- **Every step of qmail-send logs what it does to the files.** -/
theorem step_replays (cfg : Config) (l : Label) (h : s.Replays fs) :
    (step cfg s l).Replays fs := by
  cases l with
  | clock now => exact h
  | alarm => exact h
  | runasap =>
      rw [step]
      split
      · exact h
      · exact h
  | reread o =>
      obtain ⟨_, _, _, hw⟩ := regetcontrols_writes s o
      rw [step, hw]
      exact h
  | comm c w =>
      rw [step]
      split
      · exact h
      · exact h
  | spawndied c => exact h
  | report o c ch =>
      rw [step]
      split
      · exact replays_delByte o c ch h
      · exact h
  | todo now delayed ch =>
      rw [step]
      split
      · obtain ⟨q, d, x, y, r, hw⟩ := todoByte_writes s cfg now delayed ch
        rw [hw]
        exact h
      · exact h
  | pqadd o id =>
      obtain ⟨r, q, d, f, hw⟩ := pqadd_writes s o id s.do_ratelimit
      rw [step, hw]
      exact h
  | pass o c => exact replays_passDochan cfg o c h
  | pqfail o =>
      obtain ⟨r, q, d, f, hw⟩ := pqfailDo_writes s o
      rw [step, hw]
      exact h
  | pqdone o => exact replays_pqdoneDo o h
  | restart k => exact h

end Functions

/-- **In every state of a run the files are those it started with, as its history changed
them.** -/
theorem run_replays {cfg : Config} {ls : List Label} {s t : State} (hi : (sendMachine cfg).init s)
    (he : (sendMachine cfg).exec s ls = some t) : t.Replays s.fs := by
  refine (sendMachine cfg).exec_invariant_of_step (I := State.Replays s.fs) ?_ ?_ he
  · intro u l u' h hu
    obtain rfl : step cfg u l = u' := Option.some.inj hu
    exact step_replays cfg l h
  · obtain ⟨k, fs, rfl⟩ := hi
    rfl

end IndimailMta.Send
