import IndimailMta.Send.Main

/-!
# What each function writes

A property of runs speaks of a few variables; most functions of qmail-send do not
touch them. The theorems here say once for each function which fields of the state
it can change, so that no later proof looks into a function it does not care about.
Functions that do one of several things have a theorem with one case for each.
-/

namespace IndimailMta.Send

open IndimailMta Prioq Run Machine
open Function (update update_of_ne)

variable (s : State)

/-! ## Queues -/

theorem pqaddClock_writes (o : StatAnswers) (id : Nat) (c : Channel) :
    ∃ r, pqaddClock o id c s = { s with recent := r } := by
  unfold pqaddClock
  split
  · exact ⟨o.now, rfl⟩
  · exact ⟨s.recent, rfl⟩

theorem pqaddChan_writes (o : StatAnswers) (id : Nat) (f : Bool) (c : Channel) :
    ∃ q, pqaddChan o id f c s = { s with pqchan := q } := by
  unfold pqaddChan
  split
  · exact ⟨_, rfl⟩
  · exact ⟨s.pqchan, rfl⟩

theorem pqadd_writes (o : StatAnswers) (id : Nat) (f : Bool) :
    ∃ r q d l, pqadd o id f s =
      { s with recent := r, pqchan := q, pqdone := d, pqfail := l } := by
  obtain ⟨r₁, h₁⟩ := pqaddClock_writes s o id .loc
  unfold pqadd
  split
  · exact ⟨_, _, _, _, rfl⟩
  split
  · exact ⟨_, _, _, _, rfl⟩
  split
  · exact ⟨_, _, _, _, rfl⟩
  split
  · exact ⟨_, _, _, _, rfl⟩
  split
  · exact ⟨_, _, _, _, rfl⟩
  simp only [h₁]
  split
  · exact ⟨r₁, s.pqchan, s.pqdone, _, rfl⟩
  obtain ⟨r₂, h₂⟩ := pqaddClock_writes { s with recent := r₁ } o id .rem
  simp only [h₂]
  obtain ⟨q₁, h₃⟩ := pqaddChan_writes { s with recent := r₂ } o id f .loc
  simp only [h₃]
  obtain ⟨q₂, h₄⟩ := pqaddChan_writes { s with recent := r₂, pqchan := q₁ } o id f .rem
  simp only [h₄]
  split
  · exact ⟨_, _, _, _, rfl⟩
  · exact ⟨_, _, _, _, rfl⟩

theorem pqfailDo_writes (o : StatAnswers) :
    ∃ r q d l, pqfailDo o s = { s with recent := r, pqchan := q, pqdone := d, pqfail := l } := by
  unfold pqfailDo
  split
  · rename_i pe _
    split
    · exact pqadd_writes { s with pqfail := Prioq.del .min s.pqfail } o pe.id false
    · exact ⟨_, _, _, _, rfl⟩
  · exact ⟨_, _, _, _, rfl⟩

theorem todoDel_writes (cfg : Config) (now : Int) (f : Bool) (line : Bytes) :
    ∃ q d, todoDel cfg now f line s = { s with pqchan := q, pqdone := d } := by
  unfold todoDel
  split
  · exact ⟨_, _, rfl⟩
  · simp only
    repeat' split
    all_goals exact ⟨_, _, rfl⟩

theorem todoLine_writes (cfg : Config) (now : Int) (f : Bool) (line : Bytes) :
    ∃ q d x y, todoLine cfg now f line s =
      { s with pqchan := q, pqdone := d, flagexitsend := x, flagtodoalive := y } := by
  unfold todoLine
  split
  · split
    · exact ⟨_, _, _, _, rfl⟩
    · obtain ⟨q, d, h⟩ := todoDel_writes s cfg now f (cstr (line.drop 1))
      exact ⟨q, d, _, _, h⟩
  · split
    · exact ⟨_, _, _, _, rfl⟩
    · exact ⟨_, _, _, _, rfl⟩
  · exact ⟨_, _, _, _, rfl⟩

/-- A byte completes at most one line. -/
theorem lineByte_cases (least : Nat) (line : Bytes) (ch : Byte) :
    (lineByte least line ch).2 = [] ∨
      ∃ l, (lineByte least line ch).1 = [] ∧ (lineByte least line ch).2 = [l] := by
  unfold lineByte
  simp only
  split
  · exact .inr ⟨_, rfl, rfl⟩
  · exact .inl rfl

theorem todoByte_writes (cfg : Config) (now : Int) (f : Bool) (ch : Byte) :
    ∃ q d x y t, todoByte cfg now f ch s =
      { s with
        pqchan := q, pqdone := d, flagexitsend := x, flagtodoalive := y, todoline := t } := by
  unfold todoByte
  rcases lineByte_cases 1 s.todoline ch with h | ⟨l, _, h⟩
  · simp only [h, List.foldl_nil]
    exact ⟨_, _, _, _, _, rfl⟩
  · simp only [h, List.foldl_cons, List.foldl_nil]
    obtain ⟨q, d, x, y, h'⟩ := todoLine_writes
      { s with todoline := (lineByte 1 s.todoline ch).1 } cfg now f l
    exact ⟨q, d, x, y, _, h'⟩

/-! ## Jobs -/

/-- The event is the removal of a channel file. -/
def Event.isUnlink : Event → Bool
  | .unlink _ _ => true
  | _ => false

/-- The event belongs to the settlement of a report. -/
def Event.isSettle : Event → Bool
  | .report _ _ _ _ _ => true
  | .addbounce _ _ _ => true
  | .markdone _ _ _ => true
  | _ => false

/-- The event belongs to the end of a message. -/
def Event.isDone : Event → Bool
  | .injectbounce _ => true
  | .unlinkInfo _ => true
  | .cleanMess _ => true
  | _ => false

/-- The last `job_close` puts the message into a queue, or removes the channel file first: a
pass saw the end of it and no recipient is left to do. -/
theorem jobFinish_cases (o : CloseAnswers) (jb : Job) :
    ∃ q d, jobFinish o jb s = { s with pqchan := q, pqdone := d } ∨
      (jb.flaghiteof = true ∧ jb.numtodo = 0 ∧
        jobFinish o jb s = { unlinkChan jb.channel jb.id s with pqchan := q, pqdone := d }) := by
  unfold jobFinish
  split
  · rename_i hdone
    split
    · exact ⟨_, _, .inl rfl⟩
    · simp only
      split
      · exact ⟨s.pqchan, s.pqdone, .inr ⟨hdone.1, hdone.2, rfl⟩⟩
      · exact ⟨s.pqchan, _, .inr ⟨hdone.1, hdone.2, rfl⟩⟩
  · exact ⟨_, _, .inl rfl⟩

/-- A job with one reference less. -/
def Job.closed (jb : Job) : Job := { jb with refs := jb.refs - 1 }

theorem jobClose_cases (o : CloseAnswers) (j : Nat) :
    ∃ q d, jobClose o j s =
        { (s.setJob j (s.jo j).closed).log (.jobClose j) with pqchan := q, pqdone := d } ∨
      ((s.jo j).flaghiteof = true ∧ (s.jo j).numtodo = 0 ∧ jobClose o j s =
        { unlinkChan (s.jo j).channel (s.jo j).id
            ((s.setJob j (s.jo j).closed).log (.jobClose j)) with
          pqchan := q, pqdone := d }) := by
  unfold jobClose
  simp only
  split
  · exact ⟨_, _, .inl rfl⟩
  · exact jobFinish_cases ((s.setJob j (s.jo j).closed).log (.jobClose j)) o (s.jo j).closed

theorem jobClose_writes (o : CloseAnswers) (j : Nat) :
    ∃ q d fs es, (∀ e ∈ es, e.isUnlink = true) ∧ jobClose o j s =
      { s with
        pqchan := q, pqdone := d, fs := fs, trace := es ++ .jobClose j :: s.trace
        jo := update s.jo j { s.jo j with refs := (s.jo j).refs - 1 } } := by
  obtain ⟨q, d, he | ⟨_, _, he⟩⟩ := jobClose_cases s o j
  · exact ⟨q, d, s.fs, [], by simp, he⟩
  · exact ⟨q, d, _, [.unlink (s.jo j).channel (s.jo j).id], by simp [Event.isUnlink], he⟩

/-! ## Deliveries -/

theorem logScan_eq (c : Channel) (n : Nat) :
    logScan c n s = { s with
      trace := (List.range n).reverse.map (fun i => .index c i (s.slots c)) ++ s.trace } := by
  induction n with
  | zero => rfl
  | succ n ih =>
      unfold logScan at ih ⊢
      rw [List.range_succ, List.foldl_append, ih]
      simp [logIndex, State.log]

/-- `del_start` does nothing, finds no slot, or takes the first free one. -/
theorem delStart_cases (cfg : Config) (j mpos : Nat) (recip : Bytes) :
    delStart cfg j mpos recip s = s ∨
    (freeSlot (s.jo j).channel s = none ∧
      delStart cfg j mpos recip s = logScan (s.jo j).channel (s.concurrency (s.jo j).channel) s) ∨
    ∃ i, freeSlot (s.jo j).channel s = some i ∧
      delStart cfg j mpos recip s = writeCommand cfg (s.jo j).channel i (s.jo j) recip
        (takeSlot (s.jo j).channel i j mpos recip (logScan (s.jo j).channel (i + 1) s)) := by
  unfold delStart
  simp only
  split
  · exact .inl rfl
  split
  · exact .inl rfl
  split
  · exact .inl rfl
  split
  · rename_i h
    exact .inr (.inl ⟨h, by rw [scannedSlots, h]⟩)
  · rename_i i h
    exact .inr (.inr ⟨i, h, by rw [scannedSlots, h]⟩)

theorem delStart_writes (cfg : Config) (j mpos : Nat) (recip : Bytes) :
    ∃ jo d u m b t, delStart cfg j mpos recip s =
      { s with
        jo := jo, del := d, concurrencyused := u, masterdelid := m, comm := b, trace := t } := by
  rcases delStart_cases s cfg j mpos recip with he | ⟨_, he⟩ | ⟨i, _, he⟩
  · exact ⟨_, _, _, _, _, _, he⟩
  · exact ⟨_, _, _, _, _, _, he.trans (logScan_eq s _ _)⟩
  · rw [logScan_eq] at he
    simp only [writeCommand, takeSlot, State.setDel, State.setJob, State.log] at he
    exact ⟨_, _, _, _, _, _, he⟩

theorem freeSlot_spec {s : State} {c : Channel} {i : Nat} (h : freeSlot c s = some i) :
    i < s.concurrency c ∧ (s.del c i).used = false ∧
      ∀ k < i, (s.del c k).used = true := by
  obtain ⟨hused, as, bs, hsplit, hbefore⟩ := List.find?_eq_some_iff_append.mp h
  have hlt := List.mem_range.mp (List.mem_of_find?_eq_some h)
  refine ⟨hlt, by simpa using hused, fun k hk => ?_⟩
  have hi : as.length = i := by
    have hget : (List.range (s.concurrency c))[as.length]? = some i := by
      rw [hsplit, List.getElem?_append_right (Nat.le_refl _), Nat.sub_self,
        List.getElem?_cons_zero]
    obtain ⟨hlen, hget⟩ := List.getElem?_eq_some_iff.mp hget
    rwa [List.getElem_range] at hget
  have hmem : k ∈ as := by
    have hk' : (List.range (s.concurrency c))[k]? = some k := by
      rw [List.getElem?_range (by omega)]
    rw [hsplit, List.getElem?_append_left (by omega)] at hk'
    exact List.mem_of_getElem? hk'
  simpa using hbefore k hmem

theorem markdone_writes (ok : Bool) (c : Channel) (id pos : Nat) :
    ∃ fs es, (∀ e ∈ es, e.isSettle = true) ∧
      markdone ok c id pos s = { s with fs := fs, trace := es ++ s.trace } := by
  unfold markdone
  simp only
  split
  · exact ⟨_, [.markdone c id pos], by simp [Event.isSettle], rfl⟩
  · exact ⟨_, [], by simp, rfl⟩

theorem settle_writes (o : ReportAnswers) (c : Channel) (d : Del) (dline : Bytes) :
    ∃ n fs es, (∀ e ∈ es, e.isSettle = true) ∧ settle o c d dline s =
      { s with
        fs := fs, trace := es ++ s.trace
        jo := update s.jo d.j { s.jo d.j with numtodo := n } } := by
  have hself : s.jo = update s.jo d.j { s.jo d.j with numtodo := (s.jo d.j).numtodo } :=
    (Function.update_eq_self d.j s.jo).symm
  let text := cstr (dline.drop 3)
  let report := Event.report c (dline.getD 2 0) (s.jo d.j).id d.mpos text
  let bounce := Event.addbounce (s.jo d.j).id text (bounceText s.mapvdoms d.recip text)
  unfold settle
  simp only
  split
  · obtain ⟨fs, es, hes, h⟩ := markdone_writes (s.log report) o.markOk c (s.jo d.j).id d.mpos
    rw [h]
    refine ⟨_, fs, es ++ [report], fun e he => ?_, by rw [List.append_assoc]; rfl⟩
    rcases List.mem_append.mp he with he | he
    · exact hes e he
    · rw [List.mem_singleton.mp he]
      rfl
  · split
    · obtain ⟨fs, es, hes, h⟩ := markdone_writes
        (addbounce (s.jo d.j).id d.recip (cstr (dline.drop 3)) (s.log report))
        o.markOk c (s.jo d.j).id d.mpos
      rw [h]
      refine ⟨_, fs, es ++ [bounce, report], fun e he => ?_, by rw [List.append_assoc]; rfl⟩
      rcases List.mem_append.mp he with he | he
      · exact hes e he
      · rcases List.mem_cons.mp he with rfl | he
        · rfl
        · rw [List.mem_singleton.mp he]
          rfl
    · refine ⟨(s.jo d.j).numtodo, s.fs, [report], by simp [report, Event.isSettle], ?_⟩
      rw [← hself]
      rfl

/-- `del_dochan` ignores a report, or settles and frees the used slot it names. -/
theorem delReport_cases (o : ReportAnswers) (c : Channel) (dline : Bytes) :
    ((reportDelnum dline < 0 ∨ (s.concurrency c : Int) ≤ reportDelnum dline) ∧
      delReport o c dline s = s) ∨
    (0 ≤ reportDelnum dline ∧ reportDelnum dline < s.concurrency c ∧
      (s.del c (reportDelnum dline).toNat).used = false ∧
      delReport o c dline s = logIndex c (reportDelnum dline).toNat s) ∨
    (0 ≤ reportDelnum dline ∧ reportDelnum dline < s.concurrency c ∧
      (s.del c (reportDelnum dline).toNat).used = true ∧
      delReport o c dline s =
        freeDel c (reportDelnum dline).toNat
          (jobClose o.close (s.del c (reportDelnum dline).toNat).j
            (settle o c (s.del c (reportDelnum dline).toNat)
              (effectiveReport (s.jo (s.del c (reportDelnum dline).toNat).j) dline)
              (logIndex c (reportDelnum dline).toNat s)))) := by
  unfold delReport
  simp only
  split
  · rename_i hrange
    exact .inl ⟨hrange, rfl⟩
  · rename_i hrange
    rw [not_or] at hrange
    split
    · rename_i hused
      exact .inr (.inl ⟨by omega, by omega, by simpa using hused, rfl⟩)
    · rename_i hused
      exact .inr (.inr ⟨by omega, by omega, by simpa using hused, rfl⟩)

/-- A report does not change whether the spawner is there. -/
theorem delByte_alive (o : ReportAnswers) (c : Channel) (ch : Byte) :
    (delByte o c ch s).flagspawnalive = s.flagspawnalive := by
  have hreport : ∀ (s : State) (dline : Bytes),
      (delReport o c dline s).flagspawnalive = s.flagspawnalive := by
    intro s dline
    rcases delReport_cases s o c dline with ⟨-, he⟩ | ⟨-, -, -, he⟩ | ⟨-, -, -, he⟩
    · rw [he]
    · rw [he]
      rfl
    · obtain ⟨n, fs, es, -, hs⟩ := settle_writes (logIndex c (reportDelnum dline).toNat s) o c
        (s.del c (reportDelnum dline).toNat)
        (effectiveReport (s.jo (s.del c (reportDelnum dline).toNat).j) dline)
      obtain ⟨q, d, fs', es', -, hj⟩ := jobClose_writes (settle o c
        (s.del c (reportDelnum dline).toNat)
        (effectiveReport (s.jo (s.del c (reportDelnum dline).toNat).j) dline)
        (logIndex c (reportDelnum dline).toNat s)) o.close (s.del c (reportDelnum dline).toNat).j
      rw [he, hj, hs]
      rfl
  unfold delByte
  rcases lineByte_cases 2 (s.dline c) ch with h | ⟨l, -, h⟩
  · simp only [reportByte, h, List.foldl_nil]
  · simp only [reportByte, h, List.foldl_cons, List.foldl_nil, hreport]

/-- A call of `del_dochan` is a run over the bytes it reads. -/
theorem exec_delDochan (cfg : Config) (c : Channel) (chunk : List (Byte × ReportAnswers))
    (h : s.flagspawnalive c = true) :
    (sendMachine cfg).exec s (chunk.map fun b => .report b.2 c b.1) =
      some (delDochan c chunk s) := by
  induction chunk generalizing s with
  | nil => rfl
  | cons b chunk ih =>
      have hstep : step cfg s (.report b.2 c b.1) = delByte b.2 c b.1 s := if_pos h
      have halive : (delByte b.2 c b.1 s).flagspawnalive c = true := by rw [delByte_alive, h]
      rw [List.map_cons, exec_cons]
      change (sendMachine cfg).exec (step cfg s (.report b.2 c b.1)) _ = _
      rw [hstep, ih _ halive]
      rfl

/-! ## Passes -/

/-- `pass_dochan` with no pass open changes the queue, or opens a pass with an unused job
for a message whose channel file is there. -/
theorem passOpen_cases (o : PassAnswers) (c : Channel) :
    (∃ q, passOpen o c s = { s with pqchan := q }) ∨
    ∃ j pe info, jobAvail s = some j ∧ Prioq.get (s.pqchan c) = some pe ∧
      (s.fs.chan c pe.id).linked = true ∧
      passOpen o c s = passJob o c pe j info (pqchanDel c s) := by
  unfold passOpen
  split
  · rename_i j pe hj hpe
    split
    · exact .inl ⟨_, rfl⟩
    · simp only
      split
      · exact .inl ⟨_, rfl⟩
      · rename_i hopen
        split
        · exact .inl ⟨_, rfl⟩
        · rename_i info _
          simp only [not_not] at hopen
          exact .inr ⟨j, pe, info, hj, hpe, hopen.2, rfl⟩
  · exact .inl ⟨_, rfl⟩

theorem passEnd_writes (o : PassAnswers) (c : Channel) (j : Nat) :
    ∃ q d fs es, (∀ e ∈ es, e.isUnlink = true) ∧ passEnd o c j s =
      { s with
        pqchan := q, pqdone := d, fs := fs, trace := es ++ .jobClose j :: s.trace
        jo := update s.jo j { s.jo j with refs := (s.jo j).refs - 1 }
        pass := update s.pass c none } := by
  obtain ⟨q, d, fs, es, hes, h⟩ := jobClose_writes s o.close j
  exact ⟨q, d, fs, es, hes, by rw [passEnd, h]⟩

theorem passThrottled_writes (o : PassAnswers) (c : Channel) (j : Nat) (r : Int) :
    ∃ q d fs es n w k, (∀ e ∈ es, e.isUnlink = true) ∧ passThrottled o c j r s =
      { s with
        pqchan := q, pqdone := d, fs := fs, trace := es ++ .jobClose j :: s.trace
        time_needed := n, delayed_jobs := w
        jo := update s.jo j { s.jo j with retry := k, refs := (s.jo j).refs - 1 }
        pass := update s.pass c none } := by
  unfold passThrottled
  simp only
  generalize (if r ≠ 0 ∧ (r < s.time_needed ∨ s.time_needed = 0) then r + SLEEP_FUZZ else 0) = n
  obtain ⟨q, d, fs, es, hes, h⟩ := passEnd_writes
    (State.setJob { s with time_needed := n } j { s.jo j with retry := s.recent + r }) o c j
  rw [h]
  simp only [State.setJob, Function.update_self, Function.update_idem]
  exact ⟨_, _, _, es, _, _, _, hes, rfl⟩

/-- One step of an open pass: nothing can be delivered now; the pass ends (a read error, an
unknown record, the end of the file, the rate limit); or it goes on, with or without a
delivery. -/
theorem passNext_cases (cfg : Config) (o : PassAnswers) (c : Channel) (p : Pass) :
    passNext cfg o c p s = s ∨
    passNext cfg o c p s = passEnd o c p.j s ∨
    (∃ line buf, getln o.ahead (s.fs.chan c p.id).bytes p = (line, false, buf) ∧
      passNext cfg o c p s =
        passEnd o c p.j (s.setJob p.j { s.jo p.j with flaghiteof := true })) ∨
    (∃ t, passNext cfg o c p s = passThrottled o c p.j t s) ∨
    (∃ line buf, delAvail c s = true ∧ o.readOk = true ∧ (∀ t, o.rate ≠ .throttled t) ∧
      getln o.ahead (s.fs.chan c p.id).bytes p = (line, true, buf) ∧ line.head? = some 84 ∧
      passNext cfg o c p s =
        passAdvance c p line buf (passDeliver cfg o p (cstr (line.drop 1)) s)) ∨
    (∃ line buf, getln o.ahead (s.fs.chan c p.id).bytes p = (line, true, buf) ∧
      line.head? = some 68 ∧ passNext cfg o c p s = passAdvance c p line buf s) := by
  unfold passNext
  split
  · exact .inl rfl
  rename_i havail
  split
  · exact .inr (.inl rfl)
  rename_i hread
  split
  · rename_i line buf hline
    exact .inr (.inr (.inl ⟨line, buf, hline, rfl⟩))
  rename_i line buf hline
  split
  · rename_i hT
    split
    · rename_i t _
      exact .inr (.inr (.inr (.inl ⟨t, rfl⟩)))
    · rename_i hrate
      exact .inr (.inr (.inr (.inr (.inl ⟨line, buf, by simpa using havail,
        by simpa using hread, fun t ht => hrate t ht, hline, hT, rfl⟩))))
  · split
    · rename_i hD
      exact .inr (.inr (.inr (.inr (.inr ⟨line, buf, hline, hD, rfl⟩))))
    · exact .inr (.inl rfl)

/-- What `passDeliver` does before it calls `del_start`. -/
theorem passDeliver_eq (cfg : Config) (o : PassAnswers) (p : Pass) (recip : Bytes) :
    ∃ w, passDeliver cfg o p recip s = delStart cfg p.j p.mpos recip
      { s with
        delayed_jobs := w
        jo := update s.jo p.j { s.jo p.j with numtodo := (s.jo p.j).numtodo + 1 } } := by
  unfold passDeliver
  simp only
  split
  · exact ⟨_, rfl⟩
  · exact ⟨_, rfl⟩

/-- `pass_dochan` may open a pass, and then takes one step of the open one. -/
theorem passDochan_cases (cfg : Config) (o : PassAnswers) (c : Channel) :
    passDochan cfg o c s = s ∨
    (s.flagexitsend = false ∧ s.pass c = none ∧ (passOpen o c s).pass c = none ∧
      passDochan cfg o c s = passOpen o c s) ∨
    (∃ p, s.flagexitsend = false ∧ s.pass c = none ∧ (passOpen o c s).pass c = some p ∧
      passDochan cfg o c s = passNext cfg o c p (passOpen o c s)) ∨
    (∃ p, s.flagexitsend = false ∧ s.pass c = some p ∧
      passDochan cfg o c s = passNext cfg o c p s) := by
  unfold passDochan
  split
  · exact .inl rfl
  rename_i hexit
  have hexit : s.flagexitsend = false := by simpa using hexit
  cases hp : s.pass c with
  | none =>
      simp only [Option.isNone_none, if_true]
      cases hp' : (passOpen o c s).pass c with
      | none => exact .inr (.inl ⟨hexit, trivial, rfl, rfl⟩)
      | some p => exact .inr (.inr (.inl ⟨p, hexit, trivial, rfl, rfl⟩))
  | some p =>
      simp only [Option.isNone_some, Bool.false_eq_true, if_false, hp]
      exact .inr (.inr (.inr ⟨p, hexit, rfl, rfl⟩))

theorem cleanMess_writes (clean : Option Bool) (id : Nat) :
    ∃ m x y es, (∀ e ∈ es, e.isDone = true) ∧ cleanMess clean id s =
      { s with
        fs := { s.fs with mess := m }, flagexitsend := x, flagtodoalive := y
        trace := es ++ s.trace } := by
  unfold cleanMess
  split
  · exact ⟨_, _, _, [], by simp, rfl⟩
  · exact ⟨_, _, _, [.cleanMess id], by simp [Event.isDone], rfl⟩
  · exact ⟨_, _, _, [], by simp, rfl⟩

theorem messdone_writes (o : DoneAnswers) (id : Nat) :
    ∃ d m i b x y es, (∀ e ∈ es, e.isDone = true) ∧ messdone o id s =
      { s with
        pqdone := d, fs := { s.fs with mess := m, info := i, bounce := b }
        flagexitsend := x, flagtodoalive := y, trace := es ++ s.trace } := by
  unfold messdone
  split
  · rename_i t ht
    rcases messdoneStops_eq ht with rfl | rfl
    · exact ⟨_, _, _, _, _, _, [], by simp, rfl⟩
    · exact ⟨_, _, _, _, _, _, [], by simp, rfl⟩
  · split
    · exact ⟨_, _, _, _, _, _, [], by simp, rfl⟩
    · split
      · exact ⟨_, _, _, _, _, _, [.injectbounce id], by simp [Event.isDone], rfl⟩
      · obtain ⟨m, x, y, es, hes, h⟩ :=
          cleanMess_writes (unlinkInfo id (injectbounce id s)) o.clean id
        refine ⟨s.pqdone, m, update s.fs.info id none, update s.fs.bounce id [], x, y,
          es ++ [.unlinkInfo id, .injectbounce id], fun e he => ?_, ?_⟩
        · rcases List.mem_append.mp he with he | he
          · exact hes e he
          · rcases List.mem_cons.mp he with rfl | he
            · rfl
            · rw [List.mem_singleton.mp he]
              rfl
        · rw [h, List.append_assoc]
          rfl

theorem pqdoneDo_writes (o : DoneAnswers) :
    ∃ d m i b x y es, (∀ e ∈ es, e.isDone = true) ∧ pqdoneDo o s =
      { s with
        pqdone := d, fs := { s.fs with mess := m, info := i, bounce := b }
        flagexitsend := x, flagtodoalive := y, trace := es ++ s.trace } := by
  unfold pqdoneDo
  split
  · rename_i pe _
    split
    · exact messdone_writes { s with pqdone := Prioq.del .min s.pqdone } o pe.id
    · exact ⟨_, _, _, _, _, _, [], by simp, rfl⟩
  · exact ⟨_, _, _, _, _, _, [], by simp, rfl⟩

/-! ## Controls -/

theorem setHold_writes (c : Channel) (r : ReadInt) :
    ∃ h a, setHold c r s = { s with holdjobs := h, flagrunasap := a } := by
  unfold setHold
  simp only
  split
  · exact ⟨_, _, rfl⟩
  · exact ⟨_, _, rfl⟩

/-- The number `regetcontrols` stores in `concurrency[c]`, if it gets that far. -/
def Controls.newLimit (o : Controls) (c : Channel) : Option Nat :=
  if o.localsOk ∧ o.virtualdomains.isSome then
    match c, o.concurrencylocal, o.concurrencyremote with
    | .loc, .value n, _ => some (unsignedInt n).toNat
    | .rem, .failed, _ => none
    | .rem, _, .value n => some (unsignedInt n).toNat
    | _, _, _ => none
  else none

theorem newLimit_of_not_read {o : Controls} (h : ¬ (o.localsOk ∧ o.virtualdomains.isSome))
    (c : Channel) : o.newLimit c = none := if_neg h

theorem regetcontrols_writes (o : Controls) :
    ∃ h a m, regetcontrols o s = { s with
      concurrency := fun c => (o.newLimit c).getD (s.concurrency c)
      holdjobs := h, flagrunasap := a, mapvdoms := m } := by
  unfold regetcontrols
  split
  · rename_i vdoms hlocals hvdoms
    have hread : o.localsOk ∧ o.virtualdomains.isSome := by simp [hlocals, hvdoms]
    have hlimit : ∀ (f : Channel → Nat), f .loc = (o.newLimit .loc).getD (s.concurrency .loc) →
        f .rem = (o.newLimit .rem).getD (s.concurrency .rem) →
        f = fun c => (o.newLimit c).getD (s.concurrency c) := by
      intro f hloc hrem
      funext c
      cases c
      · exact hloc
      · exact hrem
    split
    · rename_i hloc
      refine ⟨s.holdjobs, s.flagrunasap, s.mapvdoms, ?_⟩
      rw [← hlimit s.concurrency]
      · simp [Controls.newLimit, hread, hloc]
      · simp [Controls.newLimit, hread, hloc]
    · rename_i hloc
      have hset : (setConcurrency .loc o.concurrencylocal s).concurrency .loc =
          (o.newLimit .loc).getD (s.concurrency .loc) := by
        cases hcl : o.concurrencylocal <;>
          simp [setConcurrency, Controls.newLimit, hread, hcl, ReadInt.store] at hloc ⊢
      simp only
      split
      · rename_i hrem
        refine ⟨s.holdjobs, s.flagrunasap, s.mapvdoms, ?_⟩
        rw [← hlimit _ hset]
        · rfl
        · cases hcl : o.concurrencylocal <;>
            simp [setConcurrency, Controls.newLimit, hread, hcl, hrem]
      · rename_i hrem
        have hset' : (setConcurrency .rem o.concurrencyremote
            (setConcurrency .loc o.concurrencylocal s)).concurrency .rem =
              (o.newLimit .rem).getD (s.concurrency .rem) := by
          cases hcl : o.concurrencylocal <;> cases hcr : o.concurrencyremote <;>
            simp [setConcurrency, Controls.newLimit, hread, hcl, hcr, ReadInt.store] at hloc hrem ⊢
        have hset'' : (setConcurrency .rem o.concurrencyremote
            (setConcurrency .loc o.concurrencylocal s)).concurrency .loc =
              (o.newLimit .loc).getD (s.concurrency .loc) := by
          rw [← hset]
          simp [setConcurrency]
        split
        · refine ⟨s.holdjobs, s.flagrunasap, s.mapvdoms, ?_⟩
          rw [← hlimit _ hset'' hset']
          rfl
        · obtain ⟨h₁, a₁, e₁⟩ := setHold_writes (setConcurrency .rem o.concurrencyremote
            (setConcurrency .loc o.concurrencylocal s)) .loc o.holdlocal
          rw [e₁]
          obtain ⟨h₂, a₂, e₂⟩ := setHold_writes
            { setConcurrency .rem o.concurrencyremote
                (setConcurrency .loc o.concurrencylocal s) with
              holdjobs := h₁, flagrunasap := a₁ } .rem o.holdremote
          rw [e₂]
          refine ⟨h₂, a₂, vdoms, ?_⟩
          rw [← hlimit _ hset'' hset']
          rfl
  · rename_i hnot
    have hread : ¬ (o.localsOk ∧ o.virtualdomains.isSome) := by
      rintro ⟨hl, hv⟩
      obtain ⟨vdoms, hv⟩ := Option.isSome_iff_exists.mp hv
      exact hnot vdoms hl hv
    refine ⟨s.holdjobs, s.flagrunasap, s.mapvdoms, ?_⟩
    simp only [newLimit_of_not_read hread, Option.getD_none]

end IndimailMta.Send
