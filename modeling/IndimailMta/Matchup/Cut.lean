import IndimailMta.Matchup.Fit

/-!
# A log that is cut

What `matchup` knows at the end of the first part of a log is written as log lines, and read again in
front of the second part. It knows the same again, but for the queue of a delivery: a delivery of a
queue with a number is not found when it ends.
-/

namespace IndimailMta.Matchup

open IndimailMta Keyed Transducer

variable {nm : Ulongs} {line first second : Bytes} {t : Table} {k : Nat × Nat}

/-! ## Deliveries that are open -/

/-- Each number is there once. -/
structure Table.Keys (t : Table) : Prop where
  msgs : (t.msgs.map Msg.msg).Nodup
  dels : (t.dels.map Del.key).Nodup

def Table.Open (t : Table) (k : Nat × Nat) : Prop := k ∈ t.dels.map Del.key

instance (t : Table) (k : Nat × Nat) : Decidable (t.Open k) := inferInstanceAs (Decidable (_ ∈ _))

def Starts (nm : Ulongs) (k : Nat × Nat) (line : Bytes) : Prop :=
  call line = .starting ∧ delNumber nm (field line 3) = k

/-- A delivery ends with its line, and when qmail-send starts or ends. -/
def Ends (nm : Ulongs) (k : Nat × Nat) (line : Bytes) : Prop :=
  call line = .clear ∨ (call line = .delivery ∧ delNumber nm (field line 2) = k)

instance (k : Nat × Nat) (line : Bytes) : Decidable (Starts nm k line) :=
  inferInstanceAs (Decidable (_ ∧ _))

instance (k : Nat × Nat) (line : Bytes) : Decidable (Ends nm k line) :=
  inferInstanceAs (Decidable (_ ∨ _))

@[simp] theorem Msg.count_msg (m : Msg Bytes) (c : Option Count) : (m.count c).msg = m.msg := by
  cases c with
  | none => rfl
  | some c => cases c <;> rfl

@[simp] theorem Msg.extra_msg (m : Msg Bytes) (line : Bytes) : (m.extra nm line).msg = m.msg := rfl

theorem startDel_key (nm : Ulongs) (line : Bytes) :
    (startDel nm line).key = delNumber nm (field line 3) := by
  rw [startDel, Del.key]

theorem Table.Keys.delivery (h : t.Keys) (line : Bytes) : (t.delivery nm line).1.Keys := by
  rw [Table.delivery]
  cases get Del.key (delNumber nm (field line 2)) t.dels with
  | none => exact h
  | some d =>
      refine ⟨?_, nodup_kill _ h.dels⟩
      dsimp only
      rw [map_key_update fun m => m.count_msg _]
      exact h.msgs

theorem Table.Keys.step (h : t.Keys) (line : Bytes) : (t.step nm line).1.Keys := by
  rw [Table.step]
  cases call line with
  | skip => exact h
  | starting => exact ⟨h.msgs, nodup_put _ h.dels⟩
  | delivery => exact h.delivery line
  | newmsg => exact ⟨nodup_kill _ h.msgs, h.dels⟩
  | endmsg =>
      dsimp only
      rw [Table.endmsg]
      cases get Msg.msg (scan nm (field line 3)) t.msgs with
      | none => exact h
      | some m => exact ⟨nodup_kill _ h.msgs, h.dels⟩
  | clear => exact ⟨h.msgs, List.nodup_nil⟩
  | info => exact ⟨nodup_put _ h.msgs, h.dels⟩
  | extra =>
      refine ⟨?_, h.dels⟩
      dsimp only
      rw [map_key_update fun m => m.extra_msg line]
      exact h.msgs
  | copy => exact h
  | unknown => exact h

theorem open_delivery (h : t.Keys) (k : Nat × Nat) :
    (t.delivery nm line).1.Open k ↔ t.Open k ∧ delNumber nm (field line 2) ≠ k := by
  rw [Table.delivery]
  cases hget : get Del.key (delNumber nm (field line 2)) t.dels with
  | none =>
      have hnot := get_eq_none_iff.mp hget
      exact ⟨fun hk => ⟨hk, fun he => hnot (he ▸ hk)⟩, And.left⟩
  | some d =>
      rw [← (get_some hget).2]
      exact (mem_keys_kill h.dels).trans (and_congr_right fun _ => ne_comm)

/-- What a line starts and ends. -/
theorem open_step (nm : Ulongs) (k : Nat × Nat) (t : Table) (line : Bytes) (h : t.Keys) :
    (t.step nm line).1.Open k ↔ Starts nm k line ∨ (t.Open k ∧ ¬ Ends nm k line) := by
  have hdelivery := @open_delivery nm line t h k
  rw [Starts, Ends]
  cases hc : call line with
  | starting =>
      have hput := @mem_keys_put _ _ _ Del.key t.dels (startDel nm line) k
      rw [startDel_key] at hput
      simp [Table.step, hc, Table.Open, hput, eq_comm]
  | delivery => simp [Table.step, hc, hdelivery]
  | endmsg =>
      rw [Table.step, hc]
      dsimp only
      rw [Table.endmsg]
      cases get Msg.msg (scan nm (field line 3)) t.msgs <;> simp [Table.Open]
  | clear => simp [Table.step, hc, Table.Open]
  | skip | newmsg | info | extra | copy | unknown => simp [Table.step, hc, Table.Open]

theorem keys_nil : Table.Keys {} := ⟨List.nodup_nil, List.nodup_nil⟩

theorem keys_table (nm : Ulongs) (log : Bytes) : (table nm log).Keys :=
  feed_invariant (P := fun _ => True) (fun _ line ht _ => ht.step line) (lines log) keys_nil
    fun _ _ => trivial

/-- The deliveries that are open behind a log were started, and not ended since. -/
theorem open_table (nm : Ulongs) (log : Bytes) (k : Nat × Nat) :
    (table nm log).Open k ↔ ∃ pre line post, lines log = pre ++ line :: post ∧
      Starts nm k line ∧ ∀ l ∈ post, ¬ Ends nm k l := by
  have hsince := feed_since (P := fun t => Table.Open t k) (fun _ line ht => Table.Keys.step ht line)
    (open_step nm k) (lines log) keys_nil
  have hnone : ¬ Table.Open {} k := List.not_mem_nil
  rw [table, hsince]
  exact or_iff_right fun h => hnone h.1

/-! ## What is read again -/

/-- The deliveries that are known again: those of the queues are entries of no queue. -/
def restored (dels : List (Del Bytes)) : List (Del Bytes) :=
  dels.foldl (fun l d => put Del.key { d with qid := 0 } l) []

theorem feed_msgLines : ∀ {ms pre : List (Msg Bytes)} {dels : List (Del Bytes)},
    (∀ m ∈ ms, m.Fit) → ((pre ++ ms).map Msg.msg).Nodup →
    feed (Table.step nm) ⟨pre, dels⟩
      (ms.flatMap fun m => [infoLine nm m ++ [10], extraLine nm m ++ [10]]) = (⟨pre ++ ms, dels⟩, [])
  | [], pre, dels, _, _ => by rw [List.flatMap_nil, feed_nil, List.append_nil]
  | m :: ms, pre, dels, hfit, hnodup => by
      have hm := hfit m List.mem_cons_self
      have hnew : m.msg ∉ pre.map Msg.msg := by
        rw [List.map_append, List.map_cons] at hnodup
        exact fun hmem => (List.nodup_append.mp hnodup).2.2 _ hmem _ List.mem_cons_self rfl
      have hassoc : pre ++ m :: ms = pre ++ [m] ++ ms := by rw [List.append_assoc, List.singleton_append]
      rw [hassoc] at hnodup ⊢
      have hput : put Msg.msg { m with numk := 0, numd := 0, numz := 0 } pre =
          pre ++ [{ m with numk := 0, numd := 0, numz := 0 }] := put_of_notMem hnew
      have hcount : update Msg.msg m.msg
          (fun x => { x with numk := m.numk, numz := m.numz, numd := m.numd })
          (pre ++ [{ m with numk := 0, numd := 0, numz := 0 }]) = pre ++ [m] :=
        update_concat (x := { m with numk := 0, numd := 0, numz := 0 }) hnew
      rw [List.flatMap_cons, List.cons_append, List.cons_append, List.nil_append, feed_cons,
        step_info hm, feed_cons, step_extra hm]
      dsimp only
      rw [hput, hcount, feed_msgLines (fun x hx => hfit x (List.mem_cons_of_mem m hx)) hnodup]
      rfl

theorem feed_startLines : ∀ {ds pre : List (Del Bytes)} {msgs : List (Msg Bytes)},
    (∀ d ∈ ds, d.Fit) →
    feed (Table.step nm) ⟨msgs, pre⟩ (ds.map fun d => startLine nm d ++ [10]) =
      (⟨msgs, ds.foldl (fun l d => put Del.key { d with qid := 0 } l) pre⟩, [])
  | [], pre, msgs, _ => rfl
  | d :: ds, pre, msgs, hfit => by
      rw [List.map_cons, feed_cons, step_start (hfit d List.mem_cons_self)]
      dsimp only
      rw [feed_startLines fun x hx => hfit x (List.mem_cons_of_mem d hx)]
      rfl

/-- **What is written for a table** makes that table, with the deliveries that are known again. -/
theorem feed_pendingLines (h : t.Fit) (hkeys : t.Keys) :
    feed (Table.step nm) {} ((pendingLines nm t).map (· ++ [10])) =
      (⟨t.msgs, restored t.dels⟩, []) := by
  have hmsgs := @feed_msgLines nm t.msgs [] [] h.msgs hkeys.msgs
  have hdels := @feed_startLines nm t.dels [] t.msgs h.dels
  have hlines : (pendingLines nm t).map (· ++ [10]) =
      (t.msgs.flatMap fun m => [infoLine nm m ++ [10], extraLine nm m ++ [10]]) ++
        t.dels.map fun d => startLine nm d ++ [10] := by
    rw [pendingLines, List.map_append, List.map_flatMap, List.map_map]
    rfl
  rw [hlines]
  exact feed_seq hmsgs hdels

theorem restored_append : ∀ {ds pre : List (Del Bytes)}, (∀ d ∈ ds, d.qid = 0) →
    ((pre ++ ds).map Del.key).Nodup →
    ds.foldl (fun l d => put Del.key { d with qid := 0 } l) pre = pre ++ ds
  | [], pre, _, _ => (List.append_nil pre).symm
  | d :: ds, pre, hq, hnodup => by
      have hd : { d with qid := 0 } = d := by rw [← hq d List.mem_cons_self]
      have hnew : d.key ∉ pre.map Del.key := by
        rw [List.map_append, List.map_cons] at hnodup
        exact fun hmem => (List.nodup_append.mp hnodup).2.2 _ hmem _ List.mem_cons_self rfl
      have hassoc : pre ++ d :: ds = pre ++ [d] ++ ds := by rw [List.append_assoc, List.singleton_append]
      rw [hassoc] at hnodup ⊢
      rw [List.foldl_cons, hd, put_of_notMem hnew,
        restored_append (fun x hx => hq x (List.mem_cons_of_mem d hx)) hnodup]

/-- Deliveries of no queue are known again as they were. -/
theorem restored_eq (h : t.Keys) (hq : ∀ d ∈ t.dels, d.qid = 0) : restored t.dels = t.dels :=
  @restored_append t.dels [] hq h.dels

/-- A delivery of a queue is not. -/
theorem not_open_restored (hk : k.2 ≠ 0) (msgs : List (Msg Bytes)) (dels : List (Del Bytes)) :
    ¬ Table.Open ⟨msgs, restored dels⟩ k := by
  have hall : ∀ (ds pre : List (Del Bytes)), k ∉ pre.map Del.key →
      k ∉ (ds.foldl (fun l d => put Del.key { d with qid := 0 } l) pre).map Del.key := by
    intro ds
    induction ds with
    | nil => exact fun pre h => h
    | cons d ds ih =>
        intro pre h
        refine ih _ fun hmem => ?_
        rcases mem_keys_put.mp hmem with rfl | hmem
        · exact hk rfl
        · exact h hmem
  exact hall dels [] List.not_mem_nil

/-! ## The two parts -/

theorem Word.newline {w : Bytes} (h : Word w) : (10 : Byte) ∉ w := fun h10 => (h.2 10 h10).2.2.1 rfl

theorem newline_pendingLines (h : t.Fit) : ∀ x ∈ pendingLines nm t, (10 : Byte) ∉ x := by
  have hfmt : ∀ n, (10 : Byte) ∉ nm.fmtUlong n := fun n => (word_fmt nm n).newline
  intro x hx
  rcases List.mem_append.mp hx with hx | hx
  · obtain ⟨m, hm, hx⟩ := List.mem_flatMap.mp hx
    have hbirth := (h.msgs m hm).birth.newline
    have hsender := (h.msgs m hm).sender.newline
    rcases List.mem_cons.mp hx with rfl | hx
    · simp only [infoLine, List.mem_append, not_or, hbirth, hsender, hfmt, not_false_eq_true, and_true,
        true_and]
      decide
    · obtain rfl := List.mem_singleton.mp hx
      simp only [extraLine, List.mem_append, not_or, hbirth, hfmt, not_false_eq_true, and_true, true_and]
      decide
  · obtain ⟨d, hd, rfl⟩ := List.mem_map.mp hx
    have hstart := (h.dels d hd).dstart.newline
    have hchan := (h.dels d hd).dchan.newline
    have hrecip := (h.dels d hd).drecip.newline
    simp only [startLine, List.mem_append, not_or, hstart, hchan, hrecip, hfmt, not_false_eq_true,
      and_true, true_and]
    decide

theorem lines_append (first second : Bytes) :
    lines (first ++ second) = lines first ++ lines (Lines.rest 10 first ++ second) := by
  rw [lines, (Lines.fields_append_rest first second).1, List.map_append]
  rfl

/-- The lines of what the first part wrote, and of the second part. -/
theorem lines_pending (h : (table nm first).Fit) (second : Bytes) :
    lines ((main nm first).2 ++ second) =
      (pendingLines nm (table nm first)).map (· ++ [10]) ++ lines (Lines.rest 10 first ++ second) := by
  have hread : (run nm first).1.read = table nm first := (run_stands nm first).1.2
  have hfields := Lines.fields_flatMap_append (f := id) (t := Lines.rest 10 first ++ second)
    (@newline_pendingLines nm _ h)
  simp only [id_eq, List.map_id] at hfields
  rw [main, pending_eq, hread, List.append_assoc, lines, hfields, List.map_append]
  rfl

/-- The first part, and what it wrote to descriptor 5 with the second part behind it, write what the
whole log does. -/
def SameCut (nm : Ulongs) (first second : Bytes) : Prop :=
  (main nm first).1 ++ (main nm ((main nm first).2 ++ second)).1 = (main nm (first ++ second)).1

instance (first second : Bytes) : Decidable (SameCut nm first second) :=
  inferInstanceAs (Decidable (_ = _))

/-- The second part is read with the table, or with what is known again of it. -/
theorem sameCut_iff (hwhole : ∀ line ∈ lines first, Whole line) :
    SameCut nm first second ↔
      (feed (Table.step nm) ⟨(table nm first).msgs, restored (table nm first).dels⟩
        (lines (Lines.rest 10 first ++ second))).2 =
      (feed (Table.step nm) (table nm first) (lines (Lines.rest 10 first ++ second))).2 := by
  have hfit := @fit_table nm first hwhole
  have hagain : (main nm ((main nm first).2 ++ second)).1 =
      (feed (Table.step nm) ⟨(table nm first).msgs, restored (table nm first).dels⟩
        (lines (Lines.rest 10 first ++ second))).2 := by
    rw [main, (run_stands nm _).2, lines_pending hfit,
      feed_restart (feed_pendingLines hfit (keys_table nm first))]
  have hlong : (main nm (first ++ second)).1 = (main nm first).1 ++
      (feed (Table.step nm) (table nm first) (lines (Lines.rest 10 first ++ second))).2 := by
    rw [main, (run_stands nm _).2, lines_append, feed_append, main, (run_stands nm first).2, table]
  rw [SameCut, hagain, hlong, List.append_cancel_left_eq]

/-- Every delivery of a queue with a number that the log starts is ended in it. -/
def QueuesClosed (nm : Ulongs) (log : Bytes) : Prop :=
  ∀ pre line post, lines log = pre ++ line :: post → call line = .starting →
    (delNumber nm (field line 3)).2 ≠ 0 → ∃ l ∈ post, Ends nm (delNumber nm (field line 3)) l

theorem queuesClosed_iff (nm : Ulongs) (log : Bytes) :
    QueuesClosed nm log ↔ ∀ d ∈ (table nm log).dels, d.qid = 0 := by
  constructor
  · intro h d hd
    by_contra hq
    obtain ⟨pre, line, post, hlines, ⟨hcall, hkey⟩, hpost⟩ :=
      (open_table nm log d.key).mp (List.mem_map_of_mem hd)
    have hqueue : (delNumber nm (field line 3)).2 ≠ 0 := by
      rw [hkey]
      exact hq
    obtain ⟨l, hl, hends⟩ := h pre line post hlines hcall hqueue
    exact hpost l hl (hkey ▸ hends)
  · intro h pre line post hlines hcall hqueue
    by_contra hopen
    have hpost : ∀ l ∈ post, ¬ Ends nm (delNumber nm (field line 3)) l := fun l hl hends =>
      hopen ⟨l, hl, hends⟩
    obtain ⟨d, hd, hkey⟩ := List.mem_map.mp
      ((open_table nm log _).mpr ⟨pre, line, post, hlines, ⟨hcall, rfl⟩, hpost⟩)
    rw [← hkey] at hqueue
    exact hqueue (h d hd)

/-- **Where no delivery of a queue is open** the log can be cut, also within a line. -/
theorem sameCut_of_closed (hwhole : ∀ line ∈ lines first, Whole line) (h : QueuesClosed nm first)
    (second : Bytes) : SameCut nm first second := by
  rw [sameCut_iff hwhole, restored_eq (keys_table nm first) ((queuesClosed_iff nm first).mp h)]

/-! ## A delivery that is not found -/

/-- The line that ends a delivery. -/
def endLine (nm : Ulongs) (d : Del Bytes) : Bytes :=
  asc "0 delivery " ++ nm.fmtUlong d.del ++ [46] ++ nm.fmtUlong d.qid ++ asc ": success: x"

def endWords (nm : Ulongs) (d : Del Bytes) : List Bytes :=
  [asc "0", asc "delivery", nm.fmtUlong d.del ++ ([46] ++ nm.fmtUlong d.qid ++ [58]), asc "success:",
    asc "x"]

theorem end_field (nm : Ulongs) (d : Del Bytes) (i : Nat) :
    field (endLine nm d ++ [10]) i = (endWords nm d).getD i [] := by
  have hpoint : ∀ s, blanked (46 :: s) = 46 :: blanked s := fun _ => rfl
  refine field_of_words ?_ (Nat.le_of_ble_eq_true rfl) ?_ i
  · simp only [endWords, List.forall_mem_cons]
    refine ⟨by decide, by decide, (word_fmt nm _).append fun b hb => ?_, by decide, by decide,
      fun _ hx => absurd hx List.not_mem_nil⟩
    rcases List.mem_append.mp hb with hb | hb
    · rcases List.mem_append.mp hb with hb | hb
      · obtain rfl := List.mem_singleton.mp hb
        decide
      · exact (word_fmt nm _).2 b hb
    · obtain rfl := List.mem_singleton.mp hb
      decide
  · have hstart : blanked (asc "0 delivery ") = asc "0" ++ 0 :: asc "delivery" ++ [0] := by decide
    have hsuccess : blanked (asc ": success: x") = 58 :: 0 :: asc "success:" ++ 0 :: asc "x" := by decide
    have hend : blanked [10] = [0] := by decide
    simp only [endLine, endWords, blanked_append, (word_fmt nm _).blanked_eq, hstart, hsuccess, hpoint,
      hend, nuls_cons, nuls_nil, List.append_assoc, List.cons_append, List.nil_append]

theorem call_end (nm : Ulongs) (d : Del Bytes) : call (endLine nm d ++ [10]) = .delivery := by
  have h1 : field (endLine nm d ++ [10]) 1 = asc "delivery" := end_field nm d 1
  rw [call, h1]
  simp +decide

theorem delNumber_end {d : Del Bytes} (h : d.Fit) :
    delNumber nm (field (endLine nm d ++ [10]) 2) = d.key := by
  have h2 : field (endLine nm d ++ [10]) 2 = nm.fmtUlong d.del ++ ([46] ++ nm.fmtUlong d.qid ++ [58]) :=
    end_field nm d 2
  have hn := h.numbers
  simp only [List.forall_mem_cons] at hn
  have hscan := @scan_fmt_append nm d.del hn.1 ([46] ++ nm.fmtUlong d.qid ++ [58]) (by
    intro b hb
    obtain rfl := Option.some.inj hb
    decide)
  have hdrop : (nm.fmtUlong d.del ++ ([46] ++ nm.fmtUlong d.qid ++ [58])).drop
      (nm.fmtUlong d.del).length = [46] ++ nm.fmtUlong d.qid ++ [58] := List.drop_left
  have hnext : (nm.fmtUlong d.del ++ ([46] ++ nm.fmtUlong d.qid ++ [58])).drop
      ((nm.fmtUlong d.del).length + 1) = nm.fmtUlong d.qid ++ [58] := by
    rw [← List.drop_drop, hdrop]
    rfl
  have hqueue : scan nm (nm.fmtUlong d.qid ++ [58]) = d.qid := by
    rw [scan, scan_fmt_colon nm h.queue.2]
  have hdel : scan nm (nm.fmtUlong d.del ++ ([46] ++ nm.fmtUlong d.qid ++ [58])) = d.del := by
    rw [scan, hscan]
  have hhead : ([46] ++ nm.fmtUlong d.qid ++ [58]).head? = some 46 := rfl
  rw [h2, delNumber, hdel, hscan]
  dsimp only
  rw [hdrop, if_pos hhead, hnext, hqueue, h.queue.1, Del.key]

theorem lines_endLine {d : Del Bytes} : lines (endLine nm d ++ [10]) = [endLine nm d ++ [10]] := by
  have hfmt : ∀ n, (10 : Byte) ∉ nm.fmtUlong n := fun n => (word_fmt nm n).newline
  have hnone : (10 : Byte) ∉ endLine nm d := by
    simp only [endLine, List.mem_append, not_or, hfmt, not_false_eq_true, and_true]
    decide
  rw [lines, Lines.fields_append (t := []) hnone]
  rfl

theorem deliveryLine_ne_nil (m : Option (Msg Bytes)) (d : Del Bytes) (line : Bytes) :
    deliveryLine nm m d line ≠ [] := by
  have hend : ∀ s : Bytes, s ++ [10] ≠ [] := fun s => List.append_ne_nil_of_right_ne_nil s (by decide)
  unfold deliveryLine
  cases m with
  | none =>
      dsimp only
      exact hend _
  | some m =>
      dsimp only
      exact hend _

/-- A line is written for a delivery that is open, and for no other. -/
theorem delivery_writes (t : Table) (line : Bytes) :
    (t.delivery nm line).2 ≠ [] ↔ t.Open (delNumber nm (field line 2)) := by
  rw [Table.delivery, Table.Open]
  cases hget : get Del.key (delNumber nm (field line 2)) t.dels with
  | none =>
      have hnot := get_eq_none_iff.mp hget
      exact ⟨fun h => absurd rfl h, fun h => absurd h hnot⟩
  | some d =>
      obtain ⟨hd, hkey⟩ := get_some hget
      have hmem : d.key ∈ t.dels.map Del.key := List.mem_map_of_mem hd
      rw [hkey] at hmem
      exact ⟨fun _ => hmem, fun _ => deliveryLine_ne_nil _ d line⟩

/-- Lines that follow on a table: they have their fields, and each delivery is started when it is not
open, and ended when it is. -/
def Follows (nm : Ulongs) : Table → List Bytes → Prop
  | _, [] => True
  | t, line :: rest =>
      Whole line ∧ (call line = .starting → ¬ t.Open (delNumber nm (field line 3))) ∧
        (call line = .delivery → t.Open (delNumber nm (field line 2))) ∧
        Follows nm (t.step nm line).1 rest

instance Follows.decide (nm : Ulongs) : ∀ (t : Table) (ls : List Bytes), Decidable (Follows nm t ls)
  | _, [] => inferInstanceAs (Decidable True)
  | t, line :: rest =>
      have := Follows.decide nm (t.step nm line).1 rest
      inferInstanceAs (Decidable (Whole line ∧ _ ∧ _ ∧ _))

/-- **A delivery of a queue** that is open where the log is cut is not found when it ends. -/
theorem closed_of_sameCut (hwhole : ∀ line ∈ lines first, Whole line)
    (hrest : Lines.rest 10 first = [])
    (h : ∀ second, Follows nm (table nm first) (lines second) → SameCut nm first second) :
    QueuesClosed nm first := by
  refine (queuesClosed_iff nm first).mpr fun d hd => ?_
  by_contra hq
  have hkey := @delNumber_end nm d ((@fit_table nm first hwhole).dels d hd)
  have hcall := call_end nm d
  have hopen : (table nm first).Open d.key := List.mem_map_of_mem hd
  have hfollows : Follows nm (table nm first) (lines (endLine nm d ++ [10])) := by
    rw [lines_endLine, Follows, Follows, Whole, hcall, hkey]
    exact ⟨⟨nofun, nofun⟩, nofun, fun _ => hopen, trivial⟩
  have hsame := (sameCut_iff hwhole).mp (h _ hfollows)
  -- The line is written with the table, and not with what is known again of it.
  have hwrites : ∀ t : Table, (feed (Table.step nm) t [endLine nm d ++ [10]]).2 ≠ [] ↔ t.Open d.key := by
    intro t
    rw [feed_cons, feed_nil, List.append_nil, Table.step, hcall, ← hkey]
    exact delivery_writes t _
  rw [hrest, List.nil_append, lines_endLine] at hsame
  refine not_open_restored (k := d.key) hq (table nm first).msgs (table nm first).dels
    ((hwrites _).mp ?_)
  rw [hsame]
  exact (hwrites _).mpr hopen

/-- A log can be cut between two lines, whatever follows, if and only if every delivery of a queue
with a number has ended there. Every offset that is stored is that of its text. -/
theorem log_cut_iff (nm : Ulongs) (first : Bytes) (hwhole : ∀ line ∈ lines first, Whole line)
    (hrest : Lines.rest 10 first = []) :
    (∀ log, Stands (run nm log).1 (table nm log)) ∧
      ((∀ second, Follows nm (table nm first) (lines second) → SameCut nm first second) ↔
        QueuesClosed nm first) :=
  ⟨fun log => (run_stands nm log).1,
    closed_of_sameCut hwhole hrest, fun h second _ => sameCut_of_closed hwhole h second⟩

/-- A log of the fifth queue, up to where its delivery is open. -/
def openLog : Bytes :=
  asc "1.2 new msg 7\n1.3 info msg 7: bytes 295 from <s@d> qp 2203 uid 1000 queue5\n" ++
    asc "1.4 starting delivery 1.5: msg 7 to local u@d queue5\n"

def closingLog : Bytes := asc "1.6 delivery 1.5: success: did_1+0+1/ queue5\n1.7 end msg 7 queue5\n"

theorem log_cut_iff_openLog :
    (∀ log, Stands (run ulongs log).1 (table ulongs log)) ∧
      ((∀ second, Follows ulongs (table ulongs openLog) (lines second) →
        SameCut ulongs openLog second) ↔ QueuesClosed ulongs openLog) :=
  log_cut_iff ulongs openLog (by rw [openLog, asc_ofList, asc_ofList]; decide +kernel)
    (by rw [openLog, asc_ofList, asc_ofList]; decide +kernel)

/-- The second part lacks the line of the delivery, and the message has no delivery that succeeded. -/
theorem queue_is_lost :
    Follows ulongs {} (lines (openLog ++ closingLog)) ∧ Lines.rest 10 openLog = [] ∧
      (main ulongs openLog).2 =
        asc "1.3 info msg 7: bytes 295 from <s@d> qp 2203 uid 1000\n1.3 extra 7 0 0 0\n" ++
          asc "1.4 starting delivery 1: msg 7 to local u@d\n" ∧
      (main ulongs (openLog ++ closingLog)).1 =
        asc "d k 1.3 1.4 1.6 295 <s@d> local.u@d 2203 1000 did_1+0+1/\n" ++
          asc "m 1.3 1.7 295 1 0 0 <s@d> 2203 1000\n" ∧
      (main ulongs openLog).1 ++ (main ulongs ((main ulongs openLog).2 ++ closingLog)).1 =
        asc "m 1.3 1.7 295 0 0 0 <s@d> 2203 1000\n" ∧
      ¬ SameCut ulongs openLog closingLog := by
  rw [openLog, closingLog]
  repeat rw [asc_ofList]
  decide +kernel

end IndimailMta.Matchup
