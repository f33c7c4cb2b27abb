import Mathlib.Data.Nat.Basic
import IndimailMta.Lib.Folds
import IndimailMta.Smtpd.Blast

/-!
# The size limit of qmail-smtpd

`BytesToOverflow` counts down from `databytes + 1`: by the length of the Received-SPF line, and
by one for every byte of the body. It is an `unsigned long`, and 0 stands for a limit that is
off as well as for one that was exceeded. What is left of it, and whether the countdown failed
the message, is computed here from the length of what was read; the rest of `smtp_data` only
looks at these two.
-/

namespace IndimailMta.Smtpd

open IndimailMta Folds

/-! ## §1 A message at DATA -/

structure Data where
  databytes : Nat := 0
  /-- The line of `spfreceived`, if it writes one. -/
  rcvd_spf : Option Bytes := none
  filters : Bytes → Bool := fun _ => false
  convertbarelf : Bool := false
  maxhops : Nat := 100
  /-- A plugin's `data_func` refuses the message. -/
  data_func : Bool := false
  /-- `qmail_close` has nothing to say about a message that was not failed. -/
  queued : Bool := true

/-- How `smtp_data` answers, once it has said 354. -/
inductive DataEnd where
  | accepted
  /-- The answer of a plugin. -/
  | plugin
  /-- `log_virus`. -/
  | filtered
  | err_hops
  | err_size
  /-- What `qmail_close` says. -/
  | queue
  | straynewline
  deriving DecidableEq, Repr

def startOverflow (databytes : Nat) : Nat :=
  if 0 < databytes then (databytes + 1) % 2 ^ 64 else 0

/-- `spfreceived`: `BytesToOverflow`, and whether it calls `qmail_fail`. -/
def spfreceived (rcvd_spf : Option Bytes) (BytesToOverflow : Nat) : Nat × Bool :=
  match rcvd_spf with
  | none => (BytesToOverflow, false)
  | some l =>
      if BytesToOverflow ≠ 0 then
        -- unsigned: `<= 0` is `== 0`
        let BytesToOverflow := unsignedLong (BytesToOverflow - l.length)
        (BytesToOverflow, BytesToOverflow == 0)
      else (BytesToOverflow, false)

/-- Whether the filters have failed the message: they were asked at every byte. -/
def caught (filters : Bytes → Bool) (body : Bytes) : Bool :=
  (List.range body.length).any fun i => filters (body.take (i + 1))

/-- The end of `smtp_data`, behind `qmail_close`; `failed` is `qmail_fail`. -/
def answer (d : Data) (filtered failed hops : Bool) (BytesToOverflow : Nat) : DataEnd :=
  if !failed && d.queued then .accepted
  else if filtered then .filtered
  else if hops then .err_hops
  else if 0 < d.databytes ∧ BytesToOverflow = 0 then .err_size
  else .queue

def readBody (d : Data) (input : Bytes) : BlastEnd × Blast × Bytes :=
  let spf := spfreceived d.rcvd_spf (startOverflow d.databytes)
  blastLoop d.filters d.convertbarelf
    { qqt := { BytesToOverflow := spf.1, failed := spf.2 } } input

/-- `smtp_data`, from `spfreceived` on: the answer, and the body as `put` was given it. -/
def readData (d : Data) (input : Bytes) : DataEnd × Bytes :=
  match readBody d input with
  | (.done, b, _) =>
      let hops := decide (d.maxhops ≤ b.header.hops)
      if d.data_func then (.plugin, b.qqt.sent)
      else (answer d (caught d.filters b.qqt.sent) (b.qqt.failed || hops) hops
        b.qqt.BytesToOverflow, b.qqt.sent)
  | (.lost, b, _) =>
      (answer d (caught d.filters b.qqt.sent) true (b.header.hops != 0) b.qqt.BytesToOverflow,
        b.qqt.sent)
  | (.straynewline, b, _) => (.straynewline, b.qqt.sent)

/-! ## §2 The countdown -/

section Countdown

variable {filters : Bytes → Bool} {I : Put → Prop}

/-- **What `put` keeps, a byte keeps.** -/
theorem blastByte_put (hput : ∀ ch p, I p → I (put filters ch p)) {b b' : Blast} {ch : Byte}
    (h : I b.qqt) (hb : blastByte filters b ch = .ok b') : I b'.qqt := by
  rcases b with ⟨state, seencr, header, qqt⟩
  unfold blastByte blastSwitch at hb
  cases state with
  | text =>
      simp only at hb
      repeat' split at hb
      all_goals cases hb
      · exact h
      · exact hput _ _ h
  | line =>
      simp only at hb
      repeat' split at hb
      all_goals cases hb
      · exact h
      · exact h
      · exact hput _ _ h
  | dot =>
      simp only at hb
      repeat' split at hb
      all_goals cases hb
      · exact h
      · exact hput _ _ h
  | dotCr =>
      simp only at hb
      repeat' split at hb
      all_goals cases hb
      · exact hput _ _ (hput _ _ h)
      · exact hput _ _ (hput _ _ (hput _ _ h))
  | cr =>
      simp only at hb
      repeat' split at hb
      all_goals cases hb
      · exact hput _ _ h
      · exact hput _ _ h
      · exact hput _ _ (hput _ _ h)

theorem blastBytes_put (hput : ∀ ch p, I p → I (put filters ch p)) (chs : Bytes) {b b' : Blast}
    (h : I b.qqt) (hb : chs.foldlM (blastByte filters) b = .ok b') : I b'.qqt :=
  foldlM_invariant (I := fun b => I b.qqt) (fun _ _ _ h hb => blastByte_put hput h hb) h hb

theorem blastLoop_put (hput : ∀ ch p, I p → I (put filters ch p)) (convertbarelf : Bool)
    (input : Bytes) {b : Blast} (h : I b.qqt) :
    I (blastLoop filters convertbarelf b input).2.1.qqt := by
  induction input generalizing b with
  | nil => exact h
  | cons ch input ih =>
      rw [blastLoop]
      cases h₁ : (barelf convertbarelf b.seencr ch).1.foldlM (blastByte filters)
          { b with seencr := (barelf convertbarelf b.seencr ch).2 } with
      | error e => exact h
      | ok b₁ =>
          have hqqt : I { b with seencr := (barelf convertbarelf b.seencr ch).2 }.qqt := h
          exact ih (blastBytes_put hput _ hqqt h₁)

end Countdown

theorem caught_append (filters : Bytes → Bool) (body : Bytes) (ch : Byte) :
    caught filters (body ++ [ch]) = (caught filters body || filters (body ++ [ch])) := by
  have hbefore : ∀ i < body.length, (body ++ [ch]).take (i + 1) = body.take (i + 1) :=
    fun i hi => List.take_append_of_le_length (Nat.succ_le_of_lt hi)
  rw [caught, List.length_append, List.length_singleton, List.range_succ, List.any_append, caught,
    List.any_cons, List.any_nil, Bool.or_false, List.take_of_length_le (by simp)]
  congr 1
  rw [Bool.eq_iff_iff, List.any_eq_true, List.any_eq_true]
  refine exists_congr fun i => and_congr_right fun hi => ?_
  rw [hbefore i (List.mem_range.mp hi)]

/-- What the countdown has done to a message of which `sent` was put: it started from `start`. -/
structure Counted (filters : Bytes → Bool) (start : Nat) (failed : Bool) (p : Put) : Prop where
  left : p.BytesToOverflow = start - p.sent.length
  failed_iff : p.failed = (failed || caught filters p.sent ||
    decide (0 < start ∧ start ≤ p.sent.length))

theorem counted_put {filters : Bytes → Bool} {start : Nat} {failed : Bool} (ch : Byte) (p : Put)
    (h : Counted filters start failed p) : Counted filters start failed (put filters ch p) := by
  have hlen : (put filters ch p).sent.length = p.sent.length + 1 := by simp
  constructor
  · rw [hlen, show (put filters ch p).BytesToOverflow = p.BytesToOverflow - 1 from rfl, h.left,
      Nat.sub_sub]
  · rw [hlen, put_sent, caught_append, show (put filters ch p).failed =
      (p.failed || filters (p.sent ++ [ch]) || p.BytesToOverflow == 1) from rfl, h.failed_iff, h.left]
    have hdown : decide (0 < start ∧ start ≤ p.sent.length + 1) =
        (decide (0 < start ∧ start ≤ p.sent.length) || start - p.sent.length == 1) := by
      rw [Bool.eq_iff_iff, Bool.or_eq_true, decide_eq_true_eq, decide_eq_true_eq, beq_iff_eq]
      omega
    rw [hdown]
    cases failed <;> cases caught filters p.sent <;> cases filters (p.sent ++ [ch]) <;>
      simp

theorem blastLoop_counted (filters : Bytes → Bool) (convertbarelf : Bool) (input : Bytes)
    (start : Nat) (failed : Bool) :
    Counted filters start failed (blastLoop filters convertbarelf
      { qqt := { BytesToOverflow := start, failed := failed } } input).2.1.qqt := by
  refine blastLoop_put (I := Counted filters start failed) counted_put convertbarelf input ?_
  refine ⟨rfl, ?_⟩
  have hnone : decide (0 < start ∧ start ≤ ([] : Bytes).length) = false :=
    decide_eq_false fun h => Nat.not_le.mpr h.1 h.2
  rw [hnone]
  cases failed <;> rfl

/-! ## §3 The limit -/

def size (d : Data) (body : Bytes) : Nat := (d.rcvd_spf.getD []).length + body.length

theorem spfreceived_eq {databytes : Nat} (rcvd_spf : Option Bytes) (h0 : 0 < databytes)
    (h1 : databytes < 2 ^ 64 - 1) :
    (spfreceived rcvd_spf (startOverflow databytes)).1 =
        unsignedLong ((databytes : Int) + 1 - (rcvd_spf.getD []).length) ∧
      ((spfreceived rcvd_spf (startOverflow databytes)).2 = true ↔
        (spfreceived rcvd_spf (startOverflow databytes)).1 = 0) := by
  have hstart : startOverflow databytes = databytes + 1 := by
    rw [startOverflow, if_pos h0, Nat.mod_eq_of_lt (by omega)]
  rw [hstart]
  cases rcvd_spf with
  | none =>
      simp only [spfreceived, Option.getD_none, List.length_nil, unsignedLong]
      constructor
      · omega
      · simp
  | some l =>
      rw [spfreceived, if_pos (Nat.succ_ne_zero _)]
      simp

/-- The length from which on a body is too long for the countdown. -/
def limit (d : Data) : Nat := unsignedLong ((d.databytes : Int) + 1 - (d.rcvd_spf.getD []).length)

/-- Nothing but its size speaks against the message: it was read to its end, no plugin and no
filter objects, its hops are below the limit, and the queue takes it. -/
structure Passes (d : Data) (input : Bytes) : Prop where
  done : (readBody d input).1 = .done
  data_func : d.data_func = false
  clean : caught d.filters (readBody d input).2.1.qqt.sent = false
  hops : (readBody d input).2.1.header.hops < d.maxhops
  queued : d.queued = true

theorem readData_body (d : Data) (input : Bytes) :
    (readData d input).2 = (readBody d input).2.1.qqt.sent := by
  rw [readData]
  rcases readBody d input with ⟨_ | _ | _, b, rest⟩
  · simp only
    split <;> rfl
  · rfl
  · rfl

theorem answer_accepted {d : Data} {filtered failed hops : Bool} {BytesToOverflow : Nat} :
    answer d filtered failed hops BytesToOverflow = .accepted ↔ failed = false ∧ d.queued = true := by
  rw [answer]
  constructor
  · intro h
    split at h
    · rename_i hok
      simpa using hok
    · repeat' split at h
      all_goals cases h
  · rintro ⟨rfl, hq⟩
    rw [hq]
    rfl

theorem answer_size {d : Data} {filtered failed hops : Bool} {BytesToOverflow : Nat}
    (h : answer d filtered failed hops BytesToOverflow = .err_size) : BytesToOverflow = 0 := by
  rw [answer] at h
  repeat' split at h
  all_goals cases h
  rename_i hover
  exact hover.2

theorem readBody_counted (d : Data) (input : Bytes) (h0 : 0 < d.databytes)
    (h1 : d.databytes < 2 ^ 64 - 1) :
    ((readBody d input).2.1.qqt.BytesToOverflow = 0 ↔
        limit d ≤ (readBody d input).2.1.qqt.sent.length) ∧
      ((readBody d input).2.1.qqt.failed = false ↔
        caught d.filters (readBody d input).2.1.qqt.sent = false ∧
          (readBody d input).2.1.qqt.sent.length < limit d) := by
  obtain ⟨hspf, hfail⟩ := spfreceived_eq d.rcvd_spf h0 h1
  have hcount := blastLoop_counted d.filters d.convertbarelf input
    (spfreceived d.rcvd_spf (startOverflow d.databytes)).1
    (spfreceived d.rcvd_spf (startOverflow d.databytes)).2
  rw [show blastLoop d.filters d.convertbarelf _ input = readBody d input from rfl, hspf,
    show unsignedLong _ = limit d from rfl] at hcount
  rw [hspf, show unsignedLong _ = limit d from rfl] at hfail
  rw [hcount.left, hcount.failed_iff]
  constructor
  · omega
  · simp only [Bool.or_eq_false_iff, decide_eq_false_iff_not]
    constructor
    · rintro ⟨⟨hf, hc⟩, hn⟩
      have hlimit : limit d ≠ 0 := fun h => by simp [hfail.mpr h] at hf
      exact ⟨hc, by omega⟩
    · rintro ⟨hc, hn⟩
      refine ⟨⟨Bool.not_eq_true _ ▸ fun h => ?_, hc⟩, by omega⟩
      have hzero := hfail.mp h
      omega

/-- **What the countdown decides.** A message is accepted if nothing else speaks against it and
its body is below the limit, and the answer of `err_size` is for bodies that are not. -/
theorem readData_answer (d : Data) (input : Bytes) (h0 : 0 < d.databytes)
    (h1 : d.databytes < 2 ^ 64 - 1) :
    ((readData d input).1 = .accepted ↔
        Passes d input ∧ (readData d input).2.length < limit d) ∧
      ((readData d input).1 = .err_size → limit d ≤ (readData d input).2.length) := by
  obtain ⟨hzero, hfailed⟩ := readBody_counted d input h0 h1
  have hpasses : Passes d input ↔ (readBody d input).1 = .done ∧ d.data_func = false ∧
      caught d.filters (readBody d input).2.1.qqt.sent = false ∧
      (readBody d input).2.1.header.hops < d.maxhops ∧ d.queued = true :=
    ⟨fun h => ⟨h.done, h.data_func, h.clean, h.hops, h.queued⟩,
      fun ⟨hd, hp, hc, hh, hq⟩ => ⟨hd, hp, hc, hh, hq⟩⟩
  rw [readData_body, hpasses, readData]
  clear hpasses
  generalize readBody d input = r at hzero hfailed ⊢
  rcases r with ⟨e, b, rest⟩
  cases e with
  | done =>
      simp only at hzero hfailed ⊢
      split
      · rename_i hplugin
        rw [hplugin]
        simp
      · rename_i hplugin
        rw [answer_accepted, Bool.or_eq_false_iff, hfailed, decide_eq_false_iff_not, Nat.not_le]
        constructor
        · simp only [Bool.not_eq_true] at hplugin
          rw [hplugin]
          simp only [true_and]
          constructor
          · rintro ⟨⟨⟨hc, hn⟩, hh⟩, hq⟩
            exact ⟨⟨hc, hh, hq⟩, hn⟩
          · rintro ⟨⟨hc, hh, hq⟩, hn⟩
            exact ⟨⟨⟨hc, hn⟩, hh⟩, hq⟩
        · exact fun h => hzero.mp (answer_size h)
  | lost =>
      simp only at hzero ⊢
      rw [answer_accepted]
      constructor
      · simp
      · exact fun h => hzero.mp (answer_size h)
  | straynewline => simp

/-- The limit is kept: what is accepted is not larger, and what is not larger is not failed for
its size. -/
def Limited (d : Data) (input : Bytes) : Prop :=
  ((readData d input).1 = .accepted → size d (readData d input).2 ≤ d.databytes) ∧
  (size d (readData d input).2 ≤ d.databytes →
    (readData d input).1 ≠ .err_size ∧ (Passes d input → (readData d input).1 = .accepted))

/-- **The size limit** is kept exactly if the Received-SPF line is not longer than the countdown;
if it is, the countdown starts again from the top of an `unsigned long`, and the limit is kept
only if the body reaches that, or is refused anyway. -/
theorem size_limited (d : Data) (input : Bytes) (h0 : 0 < d.databytes)
    (h1 : d.databytes < 2 ^ 64 - 1) :
    Limited d input ↔ (d.rcvd_spf.getD []).length ≤ d.databytes + 1 ∨
      limit d ≤ (readData d input).2.length ∨ ¬ Passes d input := by
  obtain ⟨haccepted, hsize⟩ := readData_answer d input h0 h1
  have hbelow : (d.rcvd_spf.getD []).length ≤ d.databytes + 1 →
      limit d = d.databytes + 1 - (d.rcvd_spf.getD []).length := by
    intro h
    rw [limit, unsignedLong]
    omega
  rw [Limited, haccepted]
  simp only [size]
  constructor
  · rintro ⟨h, -⟩
    by_contra hno
    simp only [not_or, not_not, Nat.not_le] at hno
    have hle := h ⟨hno.2.2, hno.2.1⟩
    omega
  · intro h
    constructor
    · rintro ⟨hp, hn⟩
      rcases h with h | h | h
      · have := hbelow h
        omega
      · omega
      · exact absurd hp h
    · intro hle
      have hlimit := hbelow (by omega)
      exact ⟨fun hs => by have := hsize hs; omega, fun hp => ⟨hp, by omega⟩⟩

/-- A message of 3 bytes at a limit of 5. -/
theorem size_limited_small :
    Limited { databytes := 5 } (asc "ab\r\n.\r\n") ↔ ([] : Bytes).length ≤ 5 + 1 ∨
      limit { databytes := 5 } ≤ (readData { databytes := 5 } (asc "ab\r\n.\r\n")).2.length ∨
      ¬ Passes { databytes := 5 } (asc "ab\r\n.\r\n") :=
  size_limited { databytes := 5 } _ (by decide) (by decide)

/-- With a limit of 5 bytes and a Received-SPF line of 19, a body of 7 is accepted. -/
theorem size_unlimited :
    ¬ Limited { databytes := 5, rcvd_spf := some (asc "Received-SPF: pass\n") }
      (asc "abcdef\r\n.\r\n") := by
  intro h
  exact absurd (h.1 (by decide +kernel)) (by decide +kernel)

end IndimailMta.Smtpd
