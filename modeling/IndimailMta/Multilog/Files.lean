import IndimailMta.Multilog.State

/-!
# The files of a log directory

Nothing is lost between the files, and none of them is longer than it may be. A file that was not
rotated by a signal ends with a line, or within one of which it has more than 1000 bytes: up to its
last newline `current` is not yet near its end, or a newline that still fits is to be written.
-/

namespace IndimailMta.Multilog

open IndimailMta

variable (env : Env) {quiet : Prop} {d e f : Cyclog} {b buf rest s t : Bytes} {n w len : Nat}

/-! ## What is written -/

/-- What is in the files. -/
def Cyclog.done (d : Cyclog) : Bytes := d.files.flatten ++ d.current

/-- The file ends with a line, or within a long one. -/
def Ended (file : Bytes) : Prop :=
  file.getLast? = some 10 ∨ ∃ a x, file = a ++ x ∧ (10 : Byte) ∉ x ∧ 1000 < x.length

/-- The lines of `current` end before its last 2000 bytes, or a newline that fits is to be written. -/
def Near (d : Cyclog) (rest : Bytes) : Prop :=
  (∃ a x, d.current = a ++ x ∧ (10 : Byte) ∉ x ∧ a.length + 2000 < d.size) ∨
    ∃ u v, rest = u ++ 10 :: v ∧ d.bytes + u.length + 1 ≤ d.size

/-- A log directory without a processor; there is no SIGALRM if it is `quiet`. -/
structure Sound (quiet : Prop) (d : Cyclog) : Prop where
  plain : d.processor = none
  sized : d.size = 0 ∨ 4096 ≤ d.size
  fits : 0 < d.size → ∀ file ∈ d.files ++ [d.current], file.length ≤ d.size
  ended : quiet → ∀ file ∈ d.files, Ended file

/-- A log directory while `rest` is to be written. -/
structure Kept (quiet : Prop) (rest : Bytes) (d : Cyclog) : Prop extends Sound quiet d where
  near : 0 < d.size → Near d rest

/-- `b` was written, and all else is as it was. -/
structure Wrote (b : Bytes) (d e : Cyclog) : Prop where
  done : e.done = d.done ++ b
  buf : e.buf = d.buf
  size : e.size = d.size
  processor : e.processor = d.processor
  flagselected : e.flagselected = d.flagselected

theorem Wrote.refl (d : Cyclog) : Wrote [] d d := ⟨(List.append_nil _).symm, rfl, rfl, rfl, rfl⟩

theorem Wrote.trans (h : Wrote s d e) (h' : Wrote t e f) : Wrote (s ++ t) d f := by
  refine ⟨?_, h'.buf.trans h.buf, h'.size.trans h.size, h'.processor.trans h.processor,
    h'.flagselected.trans h.flagselected⟩
  rw [h'.done, h.done, List.append_assoc]

/-! ## Rotation -/

theorem fullcurrent_wrote (h : d.processor = none) : Wrote [] d (fullcurrent env d) := by
  refine ⟨?_, rfl, rfl, rfl, rfl⟩
  rw [Cyclog.done, fullcurrent, h, Cyclog.done]
  simp

/-- A file that may end where it does is rotated. -/
theorem Sound.fullcurrent (h : Sound quiet d) (hend : quiet → Ended d.current) (rest : Bytes) :
    Kept quiet rest (fullcurrent env d) := by
  have hfiles : (Multilog.fullcurrent env d).files = d.files ++ [d.current] := by
    rw [Multilog.fullcurrent, h.plain]
  refine ⟨⟨h.plain, h.sized, fun hsize file hfile => ?_, fun hq file hfile => ?_⟩, fun hsize => ?_⟩
  · rw [hfiles] at hfile
    rcases List.mem_append.mp hfile with hfile | hfile
    · exact h.fits hsize file hfile
    · rw [List.mem_singleton.mp hfile]
      exact Nat.zero_le _
  · rw [hfiles] at hfile
    rcases List.mem_append.mp hfile with hfile | hfile
    · exact h.ended hq file hfile
    · rw [List.mem_singleton.mp hfile]
      exact hend hq
  · have hbig : 4096 ≤ d.size := h.sized.resolve_left (Nat.pos_iff_ne_zero.mp hsize)
    exact .inl ⟨[], [], rfl, List.not_mem_nil, Nat.lt_of_lt_of_le (by decide) hbig⟩

/-- Where `current` is full it ends within a long line. -/
theorem Kept.full (h : Kept quiet rest d) (hsize : 0 < d.size) (hfull : d.size ≤ d.bytes) :
    Ended d.current := by
  rcases h.near hsize with ⟨a, x, heq, hx, ha⟩ | ⟨u, v, -, hu⟩
  · have hlen : d.current.length = a.length + x.length := by rw [heq, List.length_append]
    rw [Cyclog.bytes] at hfull
    exact .inr ⟨a, x, heq, hx, by omega⟩
  · omega

/-! ## A write -/

/-- What is passed to write: it fits, and near the end of the file it ends with a newline if it has
one. -/
theorem cutLen_spec (hbuf : buf ≠ []) (hroom : 0 < d.size → d.bytes < d.size) :
    0 < cutLen d buf ∧ cutLen d buf ≤ buf.length ∧ (0 < d.size → d.bytes + cutLen d buf ≤ d.size) ∧
      (0 < d.size → d.size ≤ d.bytes + cutLen d buf + 2000 →
        (10 : Byte) ∉ buf.take (cutLen d buf) ∨ (buf.take (cutLen d buf)).getLast? = some 10) := by
  have hpos := List.length_pos_iff.mpr hbuf
  generalize hlen : (if 0 < d.size ∧ d.size - d.bytes ≤ buf.length then d.size - d.bytes
    else buf.length) = len
  have hin : 0 < len ∧ len ≤ buf.length ∧ (0 < d.size → d.bytes + len ≤ d.size) := by
    rw [← hlen]
    split <;> omega
  rw [cutLen, hlen]
  dsimp only
  by_cases hnear : 0 < d.size ∧ d.size - 2000 ≤ d.bytes + len
  · rw [if_pos hnear]
    rcases byteRchr_cases (buf.take len) 10 with ⟨hnone, hw⟩ | ⟨u, v, heq, hv, hw⟩
    · rw [hw, List.length_take, if_neg (by omega)]
      exact ⟨hin.1, hin.2.1, hin.2.2, fun _ _ => .inl hnone⟩
    · have hu : u.length + 1 ≤ len := by
        have hl := congrArg List.length heq
        rw [List.length_take, List.length_append, List.length_cons] at hl
        omega
      have htake : buf.take (u.length + 1) = u ++ [10] := by
        have hsub : buf.take (u.length + 1) = (buf.take len).take (u.length + 1) := by
          rw [List.take_take, Nat.min_eq_left hu]
        rw [hsub, heq, List.take_append, List.take_of_length_le (Nat.le_succ _)]
        simp
      rw [hw, if_pos (by omega), htake]
      refine ⟨Nat.succ_pos _, by omega, fun hs => ?_, fun _ _ => .inr (by simp)⟩
      have := hin.2.2 hs
      omega
  · rw [if_neg hnear]
    exact ⟨hin.1, hin.2.1, hin.2.2, fun hs hle => absurd ⟨hs, by omega⟩ hnear⟩

theorem write_le (hlen : 0 < len) (ns : List Nat) : 0 < write len ns ∧ write len ns ≤ len := by
  cases ns with
  | nil => exact ⟨hlen, Nat.le_refl _⟩
  | cons n ns =>
      rw [write]
      omega

/-- What was written of `buf`, where the file is not rotated. -/
theorem near_written (hnear : Near d buf) (hw : 0 < w ∧ w ≤ len) (hlen : len ≤ buf.length)
    (hfit : d.bytes + len ≤ d.size)
    (hcut : d.size ≤ d.bytes + len + 2000 →
      (10 : Byte) ∉ buf.take len ∨ (buf.take len).getLast? = some 10)
    (hstay : ¬ (d.size ≤ d.bytes + w + 2000 ∧ (buf.take w).getLast? = some 10)) :
    Near { d with current := d.current ++ buf.take w } (buf.drop w) := by
  have hbytes : (d.current ++ buf.take w).length = d.bytes + w := by
    rw [List.length_append, List.length_take, Cyclog.bytes]
    omega
  by_cases hmem : (10 : Byte) ∈ buf.take w
  · obtain ⟨v, u, hrev, hv⟩ := List.eq_append_cons_of_mem (List.mem_reverse.mpr hmem)
    have hsplit : buf.take w = u.reverse ++ 10 :: v.reverse := by
      rw [← List.reverse_reverse (buf.take w), hrev]
      simp
    by_cases hroom : d.bytes + u.length + 1 + 2000 < d.size
    · -- The last newline that was written is not near the end.
      refine .inl ⟨d.current ++ u.reverse ++ [10], v.reverse, ?_, fun h => hv (List.mem_reverse.mp h), ?_⟩
      · dsimp only
        rw [hsplit]
        simp
      · rw [List.length_append, List.length_append, List.length_reverse]
        exact hroom
    · -- It is, and what was passed to write ends with another one.
      have hle : u.length + 1 ≤ w := by
        have hl := congrArg List.length hsplit
        rw [List.length_take, List.length_append, List.length_cons, List.length_reverse] at hl
        omega
      have hlast : (buf.take len).getLast? = some 10 := by
        refine (hcut (by omega)).resolve_left fun hnone => hnone ?_
        have hsub : buf.take w = (buf.take len).take w := by rw [List.take_take, Nat.min_eq_left hw.2]
        rw [hsub] at hmem
        exact List.mem_of_mem_take hmem
      have hlt : w < len := by
        rcases Nat.lt_or_ge w len with h | h
        · exact h
        · obtain rfl := Nat.le_antisymm hw.2 h
          exact absurd ⟨by omega, hlast⟩ hstay
      obtain ⟨x, hx⟩ : ∃ x, buf.take len = x ++ [10] := by
        obtain ⟨ys, hys⟩ := List.getLast?_eq_some_iff.mp hlast
        exact ⟨ys, hys⟩
      have hxlen : x.length + 1 = len := by
        have hl := congrArg List.length hx
        rw [List.length_take, List.length_append, List.length_singleton] at hl
        omega
      refine .inr ⟨x.drop w, buf.drop len, ?_, ?_⟩
      · have hbuf : buf = x ++ [10] ++ buf.drop len := by rw [← hx, List.take_append_drop]
        calc buf.drop w
          _ = (x ++ [10] ++ buf.drop len).drop w := by rw [← hbuf]
          _ = x.drop w ++ 10 :: buf.drop len := by
            rw [List.append_assoc, List.drop_append_of_le_length (by omega)]
            rfl
      · rw [Cyclog.bytes]
        dsimp only
        rw [hbytes, List.length_drop]
        omega
  · rcases hnear with ⟨a, x, heq, hx, ha⟩ | ⟨u, v, heq, hu⟩
    · refine .inl ⟨a, x ++ buf.take w, ?_, ?_, ha⟩
      · dsimp only
        rw [heq, List.append_assoc]
      · rw [List.mem_append, not_or]
        exact ⟨hx, hmem⟩
    · have hle : w ≤ u.length := by
        by_contra hlt
        refine hmem ?_
        rw [heq, List.take_append, List.mem_append]
        obtain ⟨k, hk⟩ : ∃ k, w - u.length = k + 1 := ⟨w - u.length - 1, by omega⟩
        rw [hk, List.take_succ_cons]
        exact .inr List.mem_cons_self
      refine .inr ⟨u.drop w, v, ?_, ?_⟩
      · rw [heq, List.drop_append_of_le_length hle]
      · rw [Cyclog.bytes]
        dsimp only
        rw [hbytes, List.length_drop]
        omega

/-- **A call of `c_write`** writes the beginning of what it is given. -/
theorem c_write_kept (hbuf : buf ≠ []) (h : Kept quiet buf d) :
    ∃ w e, c_write env d buf = (w, e) ∧ 0 < w ∧ w ≤ buf.length ∧ Wrote (buf.take w) d e ∧
      Kept quiet (buf.drop w) e := by
  -- The file that is full is rotated first.
  obtain ⟨d', hd', hwrote, hkept, hroom⟩ : ∃ d', d' = (if 0 < d.size ∧ d.size ≤ d.bytes then
      fullcurrent env d else d) ∧ Wrote [] d d' ∧ Kept quiet buf d' ∧
      (0 < d'.size → d'.bytes < d'.size) := by
    refine ⟨_, rfl, ?_⟩
    split
    · rename_i hfull
      exact ⟨fullcurrent_wrote env h.plain, h.toSound.fullcurrent env (fun _ => h.full hfull.1 hfull.2) buf, fun hs => hs⟩
    · rename_i hfull
      exact ⟨Wrote.refl d, h, fun hs => Nat.lt_of_not_le fun hle => hfull ⟨hs, hle⟩⟩
  obtain ⟨hpos, hlen, hfit, hcut⟩ := cutLen_spec hbuf hroom
  have hw := write_le hpos d'.writes
  rw [c_write, ← hd']
  dsimp only
  generalize write (cutLen d' buf) d'.writes = w at hw
  have hmore : Wrote (buf.take w) d'
      { d' with current := d'.current ++ buf.take w, writes := d'.writes.tail } :=
    ⟨(List.append_assoc _ _ _).symm, rfl, rfl, rfl, rfl⟩
  have hlength : (d'.current ++ buf.take w).length = d'.bytes + w := by
    rw [List.length_append, List.length_take, Cyclog.bytes]
    omega
  have hfits : 0 < d'.size → ∀ file ∈ d'.files ++ [d'.current ++ buf.take w], file.length ≤ d'.size := by
    intro hs file hfile
    rcases List.mem_append.mp hfile with hfile | hfile
    · exact hkept.fits hs file (List.mem_append_left _ hfile)
    · rw [List.mem_singleton.mp hfile, hlength]
      have := hfit hs
      omega
  have hwritten : Sound quiet
      { d' with current := d'.current ++ buf.take w, writes := d'.writes.tail } :=
    ⟨hkept.plain, hkept.sized, hfits, hkept.ended⟩
  by_cases hend : 0 < d'.size ∧ d'.size - 2000 ≤ (d'.current ++ buf.take w).length ∧
      (buf.take w).getLast? = some 10
  · have hcurrent : Ended (d'.current ++ buf.take w) := by
      refine .inl ?_
      rw [List.getLast?_append, hend.2.2]
      rfl
    refine ⟨w, _, if_pos hend, hw.1, Nat.le_trans hw.2 hlen, ?_, hwritten.fullcurrent env (fun _ => hcurrent) _⟩
    have hall := (hwrote.trans hmore).trans (fullcurrent_wrote env hwritten.plain)
    rwa [List.nil_append, List.append_nil] at hall
  · refine ⟨w, _, if_neg hend, hw.1, Nat.le_trans hw.2 hlen, ?_, ?_⟩
    · exact hwrote.trans hmore
    · refine ⟨hwritten, fun hs => ?_⟩
      refine near_written (hkept.near hs) hw hlen (hfit hs) (hcut hs) fun hstay => hend ⟨hs, ?_, hstay.2⟩
      omega

/-! ## The stream -/

/-- Where nothing is to be written, anything may come. -/
theorem Kept.start (h : Kept quiet [] d) (rest : Bytes) : Kept quiet rest d := by
  refine ⟨h.toSound, fun hs => ?_⟩
  rcases h.near hs with hnear | ⟨u, v, hnil, -⟩
  · exact .inl hnear
  · exact absurd hnil.symm (List.append_ne_nil_of_right_ne_nil u (List.cons_ne_nil _ _))

theorem allwriteLoop_kept : ∀ {n : Nat} {d : Cyclog} {buf : Bytes}, buf.length ≤ n →
    Kept quiet buf d → Wrote buf d (allwriteLoop env n d buf) ∧
      Kept quiet [] (allwriteLoop env n d buf)
  | 0, d, buf, hn, h => by
      obtain rfl := List.eq_nil_of_length_eq_zero (Nat.le_zero.mp hn)
      exact ⟨Wrote.refl d, h⟩
  | n + 1, d, buf, hn, h => by
      rw [allwriteLoop]
      by_cases hbuf : buf = []
      · rw [if_pos hbuf]
        subst hbuf
        exact ⟨Wrote.refl d, h⟩
      · obtain ⟨w, e, heq, hpos, hle, hwrote, hkept⟩ := c_write_kept env hbuf h
        have hdrop : (buf.drop w).length ≤ n := by
          rw [List.length_drop]
          omega
        obtain ⟨hwrote', hkept'⟩ := allwriteLoop_kept hdrop hkept
        rw [if_neg hbuf, heq]
        refine ⟨?_, hkept'⟩
        have hall := hwrote.trans hwrote'
        rwa [List.take_append_drop] at hall

theorem allwrite_kept (buf : Bytes) (h : Kept quiet [] d) :
    Wrote buf d (allwrite env d buf) ∧ Kept quiet [] (allwrite env d buf) :=
  allwriteLoop_kept env (Nat.le_refl _) (h.start buf)

/-- What was given to the log directory. -/
def Cyclog.text (d : Cyclog) : Bytes := d.done ++ d.buf

/-- `b` was given to it, and all else is as it was. -/
structure Took (b : Bytes) (d e : Cyclog) : Prop where
  text : e.text = d.text ++ b
  size : e.size = d.size
  flagselected : e.flagselected = d.flagselected

theorem Took.refl (d : Cyclog) : Took [] d d := ⟨(List.append_nil _).symm, rfl, rfl⟩

theorem flush_kept (h : Kept quiet [] d) :
    Took [] d (flush env d) ∧ (flush env d).buf = [] ∧ Kept quiet [] (flush env d) := by
  rw [flush]
  by_cases hbuf : d.buf = []
  · rw [if_pos hbuf]
    exact ⟨Took.refl d, hbuf, h⟩
  · have hempty : Kept quiet [] { d with buf := [] } := ⟨⟨h.plain, h.sized, h.fits, h.ended⟩, h.near⟩
    obtain ⟨hwrote, hkept⟩ := allwrite_kept env d.buf hempty
    rw [if_neg hbuf]
    refine ⟨⟨?_, hwrote.size, hwrote.flagselected⟩, hwrote.buf, hkept⟩
    rw [Cyclog.text, hwrote.done, hwrote.buf, Cyclog.text, List.append_nil, List.append_nil]
    rfl

theorem put_kept (b : Bytes) (h : Kept quiet [] d) :
    Took b d (put env d b) ∧ Kept quiet [] (put env d b) := by
  have hchunks : ∀ (chunks : List Bytes) {e : Cyclog}, Kept quiet [] e →
      Wrote chunks.flatten e (chunks.foldl (allwrite env) e) ∧
        Kept quiet [] (chunks.foldl (allwrite env) e) := by
    intro chunks
    induction chunks with
    | nil => exact fun he => ⟨Wrote.refl _, he⟩
    | cons c cs ih =>
        intro e he
        obtain ⟨hwrote, hkept⟩ := allwrite_kept env c he
        obtain ⟨hwrote', hkept'⟩ := ih hkept
        exact ⟨hwrote.trans hwrote', hkept'⟩
  have hbuf : Kept quiet [] { d with buf := (env.ss.put d.buf b).2 } :=
    ⟨⟨h.plain, h.sized, h.fits, h.ended⟩, h.near⟩
  obtain ⟨hwrote, hkept⟩ := hchunks (env.ss.put d.buf b).1 hbuf
  rw [put]
  refine ⟨⟨?_, hwrote.size, hwrote.flagselected⟩, hkept⟩
  rw [Cyclog.text, hwrote.done, hwrote.buf, Cyclog.text, List.append_assoc, env.ss.put_eq,
    ← List.append_assoc]
  rfl

/-- What `flushread` does. -/
theorem rotate_kept {force : Bool} (hforce : quiet → force = false) (h : Kept quiet [] d) :
    Took [] d (rotate env force d) ∧ Kept quiet [] (rotate env force d) := by
  obtain ⟨htook, hbuf, hkept⟩ := flush_kept env h
  rw [rotate]
  split
  · rename_i hrotate
    have hquiet : quiet → Ended (flush env d).current := fun hq =>
      absurd hrotate.1 (by rw [hforce hq]; decide)
    refine ⟨?_, hkept.toSound.fullcurrent env hquiet []⟩
    have hwrote := fullcurrent_wrote env hkept.plain
    refine ⟨?_, hwrote.size.trans htook.size, hwrote.flagselected.trans htook.flagselected⟩
    rw [← htook.text, Cyclog.text, hwrote.done, hwrote.buf, Cyclog.text, List.append_nil]
  · exact ⟨htook, hkept⟩

end IndimailMta.Multilog
