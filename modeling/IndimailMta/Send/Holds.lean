import IndimailMta.Send.Writes
import IndimailMta.Lib.Refcount

/-!
# What holds a job

A job is held by the pass that reads its channel file and by every delivery
started for it; `refs` counts the holders. `Held` says so, and says that what a
pass or a slot refers to is a job of its own channel. It is an invariant of every
run (`run_held`): a job is only opened when nothing holds it, a slot is only taken
when it is free, and every `job_close` goes with the end of one holder.
-/

namespace IndimailMta.Send

open IndimailMta Prioq Run
open Function (update update_of_ne)

/-! ## Holders -/

/-- What can hold a job. -/
inductive Holder where
  | pass (c : Channel)
  | slot (c : Channel) (i : Nat)
  deriving DecidableEq, Repr

/-- `h` holds job `j`. -/
def holds (del : Channel → Nat → Del) (pass : Channel → Option Pass) (j : Nat) : Holder → Prop
  | .pass c => ∃ p, pass c = some p ∧ p.j = j
  | .slot c i => (del c i).used = true ∧ (del c i).j = j

/-- What a job is, apart from its counters. -/
def Job.sameFile (jb jb' : Job) : Prop :=
  jb.id = jb'.id ∧ jb.channel = jb'.channel ∧ jb.flaghiteof = jb'.flaghiteof

/-- `refs` counts holders, and holders fit their job. -/
structure Held (jo : Nat → Job) (del : Channel → Nat → Del) (pass : Channel → Option Pass) :
    Prop where
  refs : Refcount.Counts (fun j => (jo j).refs) (holds del pass)
  pass_fits : ∀ c p, pass c = some p →
    (jo p.j).id = p.id ∧ (jo p.j).channel = c ∧ (jo p.j).flaghiteof = false
  slot_fits : ∀ c i, (del c i).used = true → (jo (del c i).j).channel = c

section Writes

variable {jo jo' : Nat → Job} {del : Channel → Nat → Del} {pass : Channel → Option Pass}

/-- Jobs whose files stay the same fit the passes and slots they fitted. -/
theorem Held.fits_of_sameFile (h : Held jo del pass) (hs : ∀ k, (jo' k).sameFile (jo k)) :
    (∀ c p, pass c = some p →
      (jo' p.j).id = p.id ∧ (jo' p.j).channel = c ∧ (jo' p.j).flaghiteof = false) ∧
    ∀ c i, (del c i).used = true → (jo' (del c i).j).channel = c := by
  refine ⟨fun c p hp => ?_, fun c i hi => ?_⟩
  · rw [(hs p.j).1, (hs p.j).2.1, (hs p.j).2.2]
    exact h.pass_fits c p hp
  · rw [(hs _).2.1]
    exact h.slot_fits c i hi

theorem sameFile_update {j : Nat} {jb : Job} (h : jb.sameFile (jo j)) (k : Nat) :
    (update jo j jb k).sameFile (jo k) := by
  by_cases hk : k = j
  · subst hk
    rwa [Function.update_self]
  · rw [update_of_ne hk]
    exact ⟨rfl, rfl, rfl⟩

/-- Fields of a job that do not bear on its holders. -/
theorem Held.setJob (h : Held jo del pass) {j : Nat} {jb : Job} (hs : jb.sameFile (jo j))
    (hrefs : jb.refs = (jo j).refs) : Held (update jo j jb) del pass := by
  obtain ⟨hp, hd⟩ := h.fits_of_sameFile (sameFile_update hs)
  refine ⟨h.refs.congr (fun k => ?_) (fun _ _ => Iff.rfl), hp, hd⟩
  by_cases hk : k = j
  · subst hk
    rw [Function.update_self, hrefs]
  · rw [update_of_ne hk]

/-- A free slot is given to a delivery of job `j`. -/
theorem Held.takeSlot (h : Held jo del pass) {c : Channel} {i j : Nat} {d : Del} {jb : Job}
    (hfree : (del c i).used = false) (hc : (jo j).channel = c)
    (hd : d.used = true ∧ d.j = j) (hs : jb.sameFile (jo j))
    (hrefs : jb.refs = (jo j).refs + 1) :
    Held (update jo j jb) (update₂ del c i d) pass := by
  have hnot : ¬ holds del pass j (.slot c i) := fun ⟨hu, _⟩ => by simp [hfree] at hu
  obtain ⟨hp, hd'⟩ := h.fits_of_sameFile (sameFile_update hs)
  refine ⟨h.refs.add hnot ?_ ?_ ?_, hp, fun e l hl => ?_⟩
  · simp only [Function.update_self, hrefs]
  · intro k hk
    rw [update_of_ne hk]
  · intro k y
    cases y with
    | pass e => simp [holds]
    | slot e l =>
        by_cases hel : e = c ∧ l = i
        · obtain ⟨rfl, rfl⟩ := hel
          simp [holds, hfree, hd.1, hd.2, eq_comm]
        · simp only [holds, update₂_of_ne del d hel, Holder.slot.injEq, hel, and_false, or_false]
  · by_cases hel : e = c ∧ l = i
    · obtain ⟨rfl, rfl⟩ := hel
      rw [update₂_self, hd.2, Function.update_self, hs.2.1, hc]
    · rw [update₂_of_ne del d hel] at hl ⊢
      exact hd' e l hl

/-- The delivery in a used slot ends, and its job is closed. -/
theorem Held.freeSlot (h : Held jo del pass) {c : Channel} {i : Nat} {d : Del} {b : Job}
    (hused : (del c i).used = true) (hd : d.used = false)
    (hs : b.sameFile (jo (del c i).j)) (hrefs : b.refs = (jo (del c i).j).refs - 1) :
    Held (update jo (del c i).j b) (update₂ del c i d) pass := by
  have hin : holds del pass (del c i).j (.slot c i) := ⟨hused, rfl⟩
  obtain ⟨hp, hd'⟩ := h.fits_of_sameFile (sameFile_update hs)
  refine ⟨h.refs.remove hin ?_ ?_ ?_, hp, fun e l hl => ?_⟩
  · simp only [Function.update_self, hrefs]
  · intro k hk
    rw [update_of_ne hk]
  · intro k y
    cases y with
    | pass e => simp [holds]
    | slot e l =>
        by_cases hel : e = c ∧ l = i
        · obtain ⟨rfl, rfl⟩ := hel
          simp only [holds, update₂_self, hd, Bool.false_eq_true, false_and, hused, true_and,
            and_true, false_iff, not_and, not_not]
          exact fun hk => hk.symm
        · simp only [holds, update₂_of_ne del d hel, Holder.slot.injEq, hel, and_false,
            not_false_eq_true, and_true]
  · have hel : ¬ (e = c ∧ l = i) := by
      rintro ⟨rfl, rfl⟩
      rw [update₂_self, hd] at hl
      exact absurd hl (by decide)
    rw [update₂_of_ne del d hel] at hl ⊢
    exact hd' e l hl

/-- A pass is opened with an unused job. -/
theorem Held.openPass (h : Held jo del pass) {c : Channel} {p : Pass} {jb : Job}
    (hnone : pass c = none) (hunused : (jo p.j).refs = 0) (hid : jb.id = p.id)
    (hc : jb.channel = c) (heof : jb.flaghiteof = false) (hrefs : jb.refs = 1) :
    Held (update jo p.j jb) del (update pass c (some p)) := by
  have hfree := h.refs.not_holds hunused
  have hne : ∀ e l, (del e l).used = true → (del e l).j ≠ p.j :=
    fun e l hl hj => hfree (.slot e l) ⟨hl, hj⟩
  refine ⟨h.refs.add (hfree (.pass c)) ?_ ?_ ?_, fun e q hq => ?_, fun e l hl => ?_⟩
  · simp only [Function.update_self, hrefs, hunused]
    rfl
  · intro k hk
    rw [update_of_ne hk]
  · intro k y
    cases y with
    | slot e l => simp [holds]
    | pass e =>
        by_cases he : e = c
        · subst he
          simp [holds, hnone, eq_comm]
        · simp [holds, he]
  · by_cases he : e = c
    · subst he
      rw [Function.update_self, Option.some.injEq] at hq
      subst hq
      rw [Function.update_self]
      exact ⟨hid, hc, heof⟩
    · rw [update_of_ne he] at hq
      have hj : q.j ≠ p.j := fun hj => hfree (.pass e) ⟨q, hq, hj⟩
      rw [update_of_ne hj]
      exact h.pass_fits e q hq
  · rw [update_of_ne (hne e l hl)]
    exact h.slot_fits e l hl

/-- A pass ends, and its job is closed; the job may have seen the end of the file. -/
theorem Held.endPass (h : Held jo del pass) {c : Channel} {p : Pass} {jb : Job}
    (hp : pass c = some p) (hc : jb.channel = (jo p.j).channel)
    (hrefs : jb.refs = (jo p.j).refs - 1) :
    Held (update jo p.j jb) del (update pass c none) := by
  have hin : holds del pass p.j (.pass c) := ⟨p, hp, rfl⟩
  have hchan := (h.pass_fits c p hp).2.1
  refine ⟨h.refs.remove hin ?_ ?_ ?_, fun e q hq => ?_, fun e l hl => ?_⟩
  · simp only [Function.update_self, hrefs]
  · intro k hk
    rw [update_of_ne hk]
  · intro k y
    cases y with
    | slot e l => simp [holds]
    | pass e =>
        by_cases he : e = c
        · subst he
          simp [holds, hp, eq_comm]
        · simp [holds, he]
  · by_cases he : e = c
    · subst he
      simp at hq
    · rw [update_of_ne he] at hq
      have hj : q.j ≠ p.j := by
        intro hj
        have hq' := (h.pass_fits e q hq).2.1
        rw [hj, hchan] at hq'
        exact he hq'.symm
      rw [update_of_ne hj]
      exact h.pass_fits e q hq
  · by_cases hj : (del e l).j = p.j
    · rw [hj, Function.update_self, hc, ← hj]
      exact h.slot_fits e l hl
    · rw [update_of_ne hj]
      exact h.slot_fits e l hl

/-- The pass goes on. -/
theorem Held.advance (h : Held jo del pass) {c : Channel} {p q : Pass} (hp : pass c = some p)
    (hid : q.id = p.id) (hj : q.j = p.j) : Held jo del (update pass c (some q)) := by
  refine ⟨h.refs.congr (fun _ => rfl) (fun k y => ?_), fun e r hr => ?_, h.slot_fits⟩
  · cases y with
    | slot e l => exact Iff.rfl
    | pass e =>
        by_cases he : e = c
        · subst he
          simp [holds, hp, hj]
        · simp [holds, update_of_ne he]
  · by_cases he : e = c
    · subst he
      rw [Function.update_self, Option.some.injEq] at hr
      subst hr
      rw [hid, hj]
      exact h.pass_fits e p hp
    · rw [update_of_ne he] at hr
      exact h.pass_fits e r hr

/-- Nothing is held at start-up. -/
theorem held_startup : Held (fun _ => {}) (fun _ _ => {}) (fun _ => none) where
  refs := Refcount.counts_zero (fun _ => rfl) (fun j x => by cases x <;> simp [holds])
  pass_fits := fun _ _ hp => by simp at hp
  slot_fits := fun _ _ hi => by simp at hi

end Writes

/-! ## Every function keeps it -/

/-- `Held`, of a state. -/
def State.Held (s : State) : Prop := Send.Held s.jo s.del s.pass

section Functions

variable {s : State}

theorem held_delStart (cfg : Config) (j mpos : Nat) (recip : Bytes) (h : s.Held) :
    (delStart cfg j mpos recip s).Held := by
  rcases delStart_cases s cfg j mpos recip with he | ⟨_, he⟩ | ⟨i, hi, he⟩
  · rwa [he]
  · rw [he, logScan_eq]
    exact h
  · have hfree := (freeSlot_spec hi).2.1
    have hsame : Job.sameFile { s.jo j with refs := (s.jo j).refs + 1 } (s.jo j) :=
      ⟨rfl, rfl, rfl⟩
    have hheld := h.takeSlot (d := ⟨true, j, s.masterdelid, mpos, recip⟩) hfree rfl ⟨rfl, rfl⟩
      hsame rfl
    rw [he, logScan_eq]
    simp only [State.Held, writeCommand, takeSlot, State.setDel, State.setJob, State.log]
    exact hheld

theorem held_delReport (o : ReportAnswers) (c : Channel) (dline : Bytes) (h : s.Held) :
    (delReport o c dline s).Held := by
  rcases delReport_cases s o c dline with ⟨_, he⟩ | ⟨_, _, _, he⟩ | ⟨_, _, hused, he⟩
  · rwa [he]
  · rw [he]
    exact h
  · generalize hi : (reportDelnum dline).toNat = i at hused he
    obtain ⟨n, fs, t, _, hs⟩ := settle_writes (logIndex c i s) o c (s.del c i)
      (effectiveReport (s.jo (s.del c i).j) dline)
    obtain ⟨q, d, fs', t', _, hj⟩ := jobClose_writes
      (settle o c (s.del c i) (effectiveReport (s.jo (s.del c i).j) dline) (logIndex c i s))
      o.close (s.del c i).j
    rw [he, hj, hs]
    have hfree := h.freeSlot (d := { s.del c i with used := false })
      (b := { s.jo (s.del c i).j with
        numtodo := n, refs := (s.jo (s.del c i).j).refs - 1 }) hused rfl ⟨rfl, rfl, rfl⟩ rfl
    simp only [State.Held, freeDel, State.setDel, logIndex, State.log, Function.update_self,
      Function.update_idem]
    exact hfree

theorem held_delByte (o : ReportAnswers) (c : Channel) (ch : Byte) (h : s.Held) :
    (delByte o c ch s).Held := by
  unfold delByte
  rcases lineByte_cases 2 (s.dline c) ch with hr | ⟨l, _, hr⟩
  · simp only [reportByte, hr, List.foldl_nil]
    exact h
  · simp only [reportByte, hr, List.foldl_cons, List.foldl_nil]
    exact held_delReport o c l (by exact h)

theorem held_passOpen (o : PassAnswers) {c : Channel} (h : s.Held) (hp : s.pass c = none) :
    (passOpen o c s).Held := by
  rcases passOpen_cases s o c with ⟨q, he⟩ | ⟨j, pe, info, hj, _, _, he⟩
  · rw [he]
    exact h
  · rw [he]
    have hunused := (jobAvail_spec hj).2
    simp only [State.Held, passJob, jobOpen, State.setJob, pqchanDel, Function.update_self,
      Function.update_idem]
    exact Send.Held.openPass (p := { id := pe.id, j := j }) h hp hunused rfl rfl rfl rfl

theorem held_passNext (cfg : Config) (o : PassAnswers) {c : Channel} {p : Pass} (h : s.Held)
    (hp : s.pass c = some p) : (passNext cfg o c p s).Held := by
  rcases passNext_cases s cfg o c p with he | he | ⟨line, buf, _, he⟩ | ⟨r, he⟩ |
    ⟨line, buf, _, _, _, _, _, he⟩ | ⟨line, buf, _, _, he⟩
  · rwa [he]
  · obtain ⟨q, d, fs, t, _, hw⟩ := passEnd_writes s o c p.j
    rw [he, hw]
    exact h.endPass hp rfl rfl
  · obtain ⟨q, d, fs, t, _, hw⟩ := passEnd_writes
      (s.setJob p.j { s.jo p.j with flaghiteof := true }) o c p.j
    rw [he, hw]
    simp only [State.Held, State.setJob, Function.update_self, Function.update_idem]
    exact Send.Held.endPass h hp rfl rfl
  · obtain ⟨q, d, fs, t, n, w, k, _, hw⟩ := passThrottled_writes s o c p.j r
    rw [he, hw]
    exact h.endPass hp rfl rfl
  · obtain ⟨w, hw⟩ := passDeliver_eq s cfg o p (cstr (line.drop 1))
    have hjob : State.Held { s with
        delayed_jobs := w
        jo := update s.jo p.j { s.jo p.j with numtodo := (s.jo p.j).numtodo + 1 } } :=
      h.setJob ⟨rfl, rfl, rfl⟩ rfl
    have hdel := held_delStart cfg p.j p.mpos (cstr (line.drop 1)) hjob
    have hpass : (delStart cfg p.j p.mpos (cstr (line.drop 1)) { s with
        delayed_jobs := w
        jo := update s.jo p.j { s.jo p.j with numtodo := (s.jo p.j).numtodo + 1 } }).pass c =
          some p := by
      obtain ⟨jo, d, u, m, b, t, hd⟩ := delStart_writes { s with
        delayed_jobs := w
        jo := update s.jo p.j { s.jo p.j with numtodo := (s.jo p.j).numtodo + 1 } }
        cfg p.j p.mpos (cstr (line.drop 1))
      rw [hd]
      exact hp
    rw [he, hw]
    exact Send.Held.advance hdel hpass rfl rfl
  · rw [he]
    exact h.advance hp rfl rfl

theorem held_passDochan (cfg : Config) (o : PassAnswers) (c : Channel) (h : s.Held) :
    (passDochan cfg o c s).Held := by
  rcases passDochan_cases s cfg o c with he | ⟨_, hp, _, he⟩ | ⟨p, _, hp, hp', he⟩ |
    ⟨p, _, hp, he⟩
  · rwa [he]
  · rw [he]
    exact held_passOpen o h hp
  · rw [he]
    exact held_passNext cfg o (held_passOpen o h hp) hp'
  · rw [he]
    exact held_passNext cfg o h hp

theorem step_held (cfg : Config) (l : Label) (h : s.Held) : (step cfg s l).Held := by
  cases l with
  | clock now => exact h
  | alarm => exact h
  | runasap =>
      simp only [step]
      split
      · exact h
      · exact h
  | reread o =>
      obtain ⟨k, a, m, hw⟩ := regetcontrols_writes s o
      rw [step, hw]
      exact h
  | comm c w =>
      simp only [step]
      split
      · exact h
      · exact h
  | spawndied c => exact h
  | report o c ch =>
      simp only [step]
      split
      · exact held_delByte o c ch h
      · exact h
  | todo now delayed ch =>
      simp only [step]
      split
      · obtain ⟨q, d, x, y, t, hw⟩ := todoByte_writes s cfg now delayed ch
        rw [hw]
        exact h
      · exact h
  | pqadd o id =>
      obtain ⟨r, q, d, f, hw⟩ := pqadd_writes s o id s.do_ratelimit
      rw [step, hw]
      exact h
  | pass o c => exact held_passDochan cfg o c h
  | pqfail o =>
      obtain ⟨r, q, d, f, hw⟩ := pqfailDo_writes s o
      rw [step, hw]
      exact h
  | pqdone o =>
      obtain ⟨d, m, i, b, x, y, es, _, hw⟩ := pqdoneDo_writes s o
      rw [step, hw]
      exact h
  | restart k => exact held_startup

end Functions

/-- **In every run, `refs` counts the holders of a job.** -/
theorem run_held {cfg : Config} {ls : List Label} {s t : State} (hi : (sendMachine cfg).init s)
    (he : (sendMachine cfg).exec s ls = some t) : t.Held := by
  refine (sendMachine cfg).exec_invariant_of_step (I := State.Held) ?_ ?_ he
  · intro s l s' h hs
    obtain rfl : step cfg s l = s' := Option.some.inj hs
    exact step_held cfg l h
  · obtain ⟨k, fs, rfl⟩ := hi
    exact held_startup

end IndimailMta.Send
