import IndimailMta.Lib.Lines
import IndimailMta.Remote.Blast

/-!
# Looking ahead in the message

With SMTPUTF8 on, qmail-remote reads the header of the message before MAIL, to see whether the
message was received with UTF8. What it has read is kept, with CR LF at the end of each line, and
is written in front of what `blast` makes of the rest. `ahead` is the part that is read: whole
lines, whatever state the scan is in when it returns (`ahead_eom`). It is written as `blast`
would write it exactly if no line of it begins with a dot, and in its place only if the lines of
`qqeh` may as well stand behind it.
-/

namespace IndimailMta.Remote

open IndimailMta Transducer Lines

/-! ## §1 The scan -/

/-- `containsutf8`: the bytes are compared as `char`s, which are signed. -/
def containsutf8 (p : Bytes) : Bool := p.any fun ch => 127 < schar ch

/-- `state`, 0 to 6. -/
inductive LookState where
  /-- At the start of a header field. -/
  | field
  /-- Partway through `Received:`. -/
  | name
  /-- In another header field. -/
  | other
  /-- In Received, before ` with ` or partway through it. -/
  | clause
  /-- In Received, behind ` with `. -/
  | argument
  /-- Behind the argument. -/
  | done
  /-- In Received, behind a newline and before ` with `. -/
  | folded
  deriving DecidableEq, Repr

structure Look where
  state : LookState := .field
  pos : Nat := 0
  flagutf8 : Bool := false
  header : Bytes := []
  deriving DecidableEq, Repr

/-- `ch` is the byte at `pos` of the word, in either case. -/
def isAt (ch : Byte) (upper lower : String) (pos : Nat) : Bool :=
  (asc upper)[pos]? == some ch || (asc lower)[pos]? == some ch

/-- The bytes that stand for a byte of the message in a header. -/
def crlfByte (ch : Byte) : Bytes := if ch = 10 then [13, 10] else [ch]

def lookName (ch : Byte) (l : Look) : Look :=
  if ¬ isAt ch "RECEIVED:" "received:" l.pos then { l with state := .other }
  else if l.pos + 1 = 9 then { l with state := .clause, pos := 0 }
  else { l with pos := l.pos + 1 }

/-- `case 0`; `true` is a return. -/
def lookField (ch : Byte) (l : Look) : Look × Bool :=
  if ch = 10 then (l, true) else (lookName ch { l with state := .name, pos := 0 }, false)

def lookSwitch (ch : Byte) (l : Look) : Look × Bool :=
  match l.state with
  | .folded =>
      if ch = 32 then ({ l with state := .clause, pos := 1 }, false)
      else lookField ch { l with state := .field }
  | .field => lookField ch l
  | .name => (lookName ch l, false)
  | .other => (if ch = 10 then { l with state := .field } else l, false)
  | .clause =>
      if ch = 10 then ({ l with state := .folded }, false)
      else if ¬ isAt ch " WITH " " with " l.pos then ({ l with pos := 0 }, false)
      else if l.pos + 1 = 6 then ({ l with state := .argument, pos := 0 }, false)
      else ({ l with pos := l.pos + 1 }, false)
  | .argument =>
      if l.pos = 0 ∧ ch = 32 then (l, false)
      else if ¬ isAt ch "UTF8" "utf8" l.pos then ({ l with state := .done }, false)
      else if l.pos + 1 = 4 then
        ({ l with pos := l.pos + 1, flagutf8 := true, state := .done }, false)
      else ({ l with pos := l.pos + 1 }, false)
  | .done => if ch = 10 then (l, true) else ({ l with state := .name, pos := 0 }, false)

/-- A tab is looked at as a space. -/
def untab (ch : Byte) : Byte := if ch = 9 then 32 else ch

/-- One byte of the message: it is kept, and looked at unless it is a carriage return. -/
def lookByte (ch : Byte) (l : Look) : Look × Bool :=
  let l := { l with header := l.header ++ crlfByte ch }
  if ch = 13 then (l, false)
  else if untab ch = 10 ∧ l.flagutf8 then (l, true)
  else lookSwitch (untab ch) l

/-- The loop of `checkutf8message`, and the part of the message it leaves. -/
def lookLoop : Look → Bytes → Look × Bytes
  | l, [] => (l, [])
  | l, ch :: rest =>
      match lookByte ch l with
      | (l, true) => (l, rest)
      | (l, false) => lookLoop l rest

/-- `checkutf8message`, with `flagutf8` not set before. -/
def checkutf8message (smtp_sender : Bytes) (smtp_reciplist : List Bytes) (msg : Bytes) :
    Look × Bytes :=
  if containsutf8 smtp_sender || smtp_reciplist.any containsutf8 then ({ flagutf8 := true }, msg)
  else lookLoop {} msg

/-- What `do_smtp` writes behind DATA. How the rest of the message is cut into chunks does not
matter (`blast_chunks`). -/
def dataBytes (enable_utf8 : Bool) (qqeh smtp_sender : Bytes) (smtp_reciplist : List Bytes)
    (msg : Bytes) : Bytes :=
  let r := if enable_utf8 then checkutf8message smtp_sender smtp_reciplist msg else ({}, msg)
  r.1.header ++ (blast qqeh [r.2]).1

/-! ## §2 What is read ahead -/

theorem containsutf8_eq_false (p : Bytes) : containsutf8 p = false := by
  rw [containsutf8, List.any_eq_false]
  intro ch _
  have hch := ch.toNat_lt
  have hle : schar ch ≤ 127 := by
    rw [schar]
    split <;> omega
  simpa using hle

/-- The part of the message that is read from a state on. -/
def ahead : Look → Bytes → Bytes
  | _, [] => []
  | l, ch :: rest => if (lookByte ch l).2 then [ch] else ch :: ahead (lookByte ch l).1 rest

theorem lookName_cases (ch : Byte) (l : Look) :
    ∃ (state : LookState) (pos : Nat), ∀ kept,
      lookName ch { l with header := kept } =
        { state, pos, flagutf8 := l.flagutf8, header := kept } := by
  by_cases hat : isAt ch "RECEIVED:" "received:" l.pos = true
  · by_cases hlast : l.pos + 1 = 9
    · exact ⟨.clause, 0, fun kept => by simp [lookName, hat, hlast]⟩
    · exact ⟨l.state, l.pos + 1, fun kept => by simp [lookName, hat, hlast]⟩
  · exact ⟨.other, l.pos, fun kept => by simp [lookName, hat]⟩

/-- What a byte does, whatever was kept: the flag is not cleared, and the scan returns at a newline
only. -/
structure Switched (f : Look → Look × Bool) (ch : Byte) (l : Look) (state : LookState) (pos : Nat)
    (flagutf8 stop : Bool) : Prop where
  flag : l.flagutf8 = true → flagutf8 = true
  newline : stop = true → ch = 10
  result : ∀ kept, f { l with header := kept } = ({ state, pos, flagutf8, header := kept }, stop)

theorem lookField_cases (ch : Byte) (l : Look) :
    ∃ state pos stop, Switched (lookField ch) ch l state pos l.flagutf8 stop := by
  by_cases hnl : ch = 10
  · refine ⟨l.state, l.pos, true, id, fun _ => hnl, fun kept => ?_⟩
    rw [lookField, if_pos hnl]
  · obtain ⟨state, pos, h⟩ := lookName_cases ch { l with state := .name, pos := 0 }
    refine ⟨state, pos, false, id, fun hstop => absurd hstop Bool.false_ne_true, fun kept => ?_⟩
    rw [lookField, if_neg hnl]
    exact Prod.ext (h kept) rfl

theorem lookSwitch_cases (ch : Byte) (l : Look) :
    ∃ state pos flagutf8 stop, Switched (lookSwitch ch) ch l state pos flagutf8 stop := by
  -- in most states the flag stays as it was, and the scan goes on
  have goes : ∀ (state : LookState) (pos : Nat),
      (∀ kept, lookSwitch ch { l with header := kept } =
        ({ state, pos, flagutf8 := l.flagutf8, header := kept }, false)) →
      ∃ state pos flagutf8 stop, Switched (lookSwitch ch) ch l state pos flagutf8 stop :=
    fun state pos h =>
      ⟨state, pos, l.flagutf8, false, id, fun hstop => absurd hstop Bool.false_ne_true, h⟩
  obtain ⟨fstate, fpos, fstop, hfield⟩ := lookField_cases ch { l with state := .field }
  cases hl : l.state with
  | field =>
      refine ⟨fstate, fpos, l.flagutf8, fstop, id, hfield.newline, fun kept => ?_⟩
      rw [← hfield.result kept, lookSwitch]
      simp only [hl]
  | name =>
      obtain ⟨state, pos, h⟩ := lookName_cases ch l
      refine goes state pos fun kept => ?_
      rw [← h kept, lookSwitch]
      simp only [hl]
  | other =>
      by_cases hnl : ch = 10
      · exact goes .field l.pos fun kept => by simp [lookSwitch, hl, hnl]
      · exact goes .other l.pos fun kept => by simp [lookSwitch, hl, hnl]
  | clause =>
      by_cases hnl : ch = 10
      · exact goes .folded l.pos fun kept => by simp [lookSwitch, hl, hnl]
      by_cases hat : isAt ch " WITH " " with " l.pos = true
      · by_cases hlast : l.pos + 1 = 6
        · exact goes .argument 0 fun kept => by simp [lookSwitch, hl, hnl, hat, hlast]
        · exact goes .clause (l.pos + 1) fun kept => by simp [lookSwitch, hl, hnl, hat, hlast]
      · exact goes .clause 0 fun kept => by simp [lookSwitch, hl, hnl, hat]
  | argument =>
      by_cases hsp : l.pos = 0 ∧ ch = 32
      · exact goes .argument l.pos fun kept => by simp [lookSwitch, hl, hsp]
      by_cases hat : isAt ch "UTF8" "utf8" l.pos = true
      · by_cases hlast : l.pos + 1 = 4
        · refine ⟨.done, l.pos + 1, true, false, fun _ => rfl,
            fun hstop => absurd hstop Bool.false_ne_true, fun kept => ?_⟩
          simp [lookSwitch, hl, hsp, hat, hlast]
        · exact goes .argument (l.pos + 1) fun kept => by simp [lookSwitch, hl, hsp, hat, hlast]
      · exact goes .done l.pos fun kept => by simp [lookSwitch, hl, hsp, hat]
  | done =>
      by_cases hnl : ch = 10
      · refine ⟨.done, l.pos, l.flagutf8, true, id, fun _ => hnl, fun kept => ?_⟩
        simp [lookSwitch, hl, hnl]
      · exact goes .name 0 fun kept => by simp [lookSwitch, hl, hnl]
  | folded =>
      by_cases hsp : ch = 32
      · exact goes .clause 1 fun kept => by simp [lookSwitch, hl, hsp]
      · refine ⟨fstate, fpos, l.flagutf8, fstop, id, hfield.newline, fun kept => ?_⟩
        rw [← hfield.result kept, lookSwitch]
        simp only [hl, if_neg hsp]

theorem lookSwitch_header (ch : Byte) (l : Look) : (lookSwitch ch l).1.header = l.header := by
  obtain ⟨state, pos, flagutf8, stop, h⟩ := lookSwitch_cases ch l
  rw [show lookSwitch ch l = _ from h.result l.header]

theorem lookByte_header (ch : Byte) (l : Look) :
    (lookByte ch l).1.header = l.header ++ crlfByte ch := by
  unfold lookByte
  simp only
  split
  · rfl
  · split
    · rfl
    · exact lookSwitch_header _ _

theorem untab_eq_newline {ch : Byte} : untab ch = 10 ↔ ch = 10 := by
  unfold untab
  split
  · rename_i htab
    subst htab
    decide
  · rfl

/-- **The scan returns at the end of a line only.** -/
theorem lookByte_stop {ch : Byte} {l : Look} (h : (lookByte ch l).2 = true) : ch = 10 := by
  have hswitch : ∀ ch l, (lookSwitch ch l).2 = true → ch = 10 := by
    intro ch l hstop
    obtain ⟨state, pos, flagutf8, stop, h⟩ := lookSwitch_cases ch l
    rw [show lookSwitch ch l = _ from h.result l.header] at hstop
    exact h.newline hstop
  unfold lookByte at h
  simp only at h
  split at h
  · cases h
  · split at h
    · rename_i hstop
      exact untab_eq_newline.mp hstop.1
    · exact untab_eq_newline.mp (hswitch _ _ h)

theorem lookLoop_eq (l : Look) (msg : Bytes) :
    (lookLoop l msg).1.header = l.header ++ (ahead l msg).flatMap crlfByte ∧
      msg = ahead l msg ++ (lookLoop l msg).2 := by
  induction msg generalizing l with
  | nil => simp [lookLoop, ahead]
  | cons ch rest ih =>
      have hheader := lookByte_header ch l
      rw [lookLoop, ahead]
      rcases hb : lookByte ch l with ⟨l', stop⟩
      rw [hb] at hheader
      cases stop with
      | true =>
          simp only at hheader ⊢
          rw [hheader]
          simp
      | false =>
          obtain ⟨h₁, h₂⟩ := ih l'
          simp only [Bool.false_eq_true, if_false] at hheader ⊢
          rw [h₁, hheader, List.flatMap_cons, List.append_assoc]
          exact ⟨rfl, by rw [List.cons_append, ← h₂]⟩

/-- **What is read ahead is whole lines**, or everything. -/
theorem ahead_eom (l : Look) (msg : Bytes) :
    ahead l msg = msg ∨ (ahead l msg).getLast? = some 10 := by
  induction msg generalizing l with
  | nil => exact Or.inl rfl
  | cons ch rest ih =>
      rw [ahead]
      split
      · rename_i hstop
        rw [lookByte_stop hstop]
        exact Or.inr rfl
      · rcases ih (lookByte ch l).1 with h | h
        · exact Or.inl (by rw [h])
        · refine Or.inr ?_
          rw [List.getLast?_cons, h]
          rfl

/-! ## §3 Dots and lines -/

/-- The lines of a text that begin with a dot; `eom` says that the text begins with a line. -/
def dotted : Bool → Bytes → Nat
  | _, [] => 0
  | eom, ch :: rest => (if eom ∧ ch = 46 then 1 else 0) + dotted (ch == 10) rest

theorem dotted_eq (s : Bytes) :
    dotted true s = (lines 10 s).countP (·.head? == some 46) ∧
      dotted false s = (lines 10 s).tail.countP (·.head? == some 46) := by
  induction s with
  | nil => exact ⟨rfl, rfl⟩
  | cons b rest ih =>
      rw [dotted, dotted, lines]
      by_cases hb : b = 10
      · subst hb
        simp [ih.1]
      · rw [if_neg hb, beq_false_of_ne hb, ih.2]
        cases hl : lines 10 rest with
        | nil => by_cases hdot : b = 46 <;> simp [hdot]
        | cons x xs => by_cases hdot : b = 46 <;> simp [hdot, Nat.add_comm]

@[simp] theorem crlfByte_newline : crlfByte 10 = [13, 10] := rfl

theorem crlfByte_of_ne {ch : Byte} (h : ch ≠ 10) : crlfByte ch = [ch] := if_neg h

theorem blastByte_of_ne {ch : Byte} (eom : Bool) (h : ch ≠ 10) :
    blastByte eom ch = (ch == 10, if eom ∧ ch = 46 then [46, 46] else [ch]) := by
  rw [blastByte, if_neg h, beq_false_of_ne h]

theorem length_feed_dotted (eom : Bool) (s : Bytes) :
    (feed blastByte eom s).2.length = (s.flatMap crlfByte).length + dotted eom s := by
  induction s generalizing eom with
  | nil => rfl
  | cons ch rest ih =>
      rw [feed_cons, List.flatMap_cons, dotted]
      simp only [List.length_append, ih]
      by_cases hlf : ch = 10
      · subst hlf
        simp [blastByte]
        omega
      · rw [blastByte_of_ne eom hlf, crlfByte_of_ne hlf]
        split
        · simp
          omega
        · simp
          omega

theorem feed_undotted {eom : Bool} {s : Bytes} (h : dotted eom s = 0) :
    (feed blastByte eom s).2 = s.flatMap crlfByte := by
  induction s generalizing eom with
  | nil => rfl
  | cons ch rest ih =>
      rw [dotted, Nat.add_eq_zero_iff] at h
      have hdot : ¬ (eom = true ∧ ch = 46) := by
        intro hd
        simp [hd] at h
      rw [feed_cons, List.flatMap_cons]
      simp only
      by_cases hlf : ch = 10
      · subst hlf
        have hrest : dotted true rest = 0 := h.2
        rw [show (blastByte eom 10).1 = true from rfl, ih hrest]
        rfl
      · rw [blastByte_of_ne eom hlf, crlfByte_of_ne hlf, if_neg hdot, ih h.2]

theorem flatMap_crlfByte_inj {u v : Bytes} (h : u.flatMap crlfByte = v.flatMap crlfByte) : u = v := by
  have hstart : ∀ (v t : Bytes), v.flatMap crlfByte ≠ 10 :: t := by
    intro v t hv
    rcases v with _ | ⟨c, v⟩
    · cases hv
    · rw [List.flatMap_cons] at hv
      by_cases hc : c = 10
      · rw [hc] at hv
        cases hv
      · rw [crlfByte_of_ne hc] at hv
        exact hc (List.cons.inj hv).1
  induction u generalizing v with
  | nil =>
      rcases v with _ | ⟨c, v⟩
      · rfl
      · rw [List.flatMap_cons, crlfByte] at h
        split at h <;> cases h
  | cons b u ih =>
      rcases v with _ | ⟨c, v⟩
      · rw [List.flatMap_cons, crlfByte] at h
        split at h <;> cases h
      · rw [List.flatMap_cons, List.flatMap_cons] at h
        by_cases hb : b = 10 <;> by_cases hc : c = 10
        · rw [hb, hc] at h
          rw [hb, hc, ih (List.append_cancel_left h)]
        · rw [hb, crlfByte_of_ne hc] at h
          exact absurd (List.cons.inj h).2.symm (hstart v _)
        · rw [hc, crlfByte_of_ne hb] at h
          exact absurd (List.cons.inj h).2 (hstart u _)
        · rw [crlfByte_of_ne hb, crlfByte_of_ne hc] at h
          obtain ⟨heq, htail⟩ := List.cons.inj h
          rw [heq, ih htail]

/-! ## §4 The message -/

theorem blast_whole {qqeh msg : Bytes} (h : msg = [] ∨ msg.getLast? = some 10) :
    (blast qqeh [msg]).1 =
      qqeh.flatMap crlfByte ++ (feed blastByte true msg).2 ++ asc ".\r\n" := by
  have heom : (feed blastByte true msg).1 = true := by
    rw [feed_blastByte_eom]
    rcases h with rfl | h
    · rfl
    · split
      · rfl
      · rw [h]
        rfl
  have hfeed : feedChunks blastByte true [msg] = feed blastByte true msg := by
    rw [feedChunks_eq_feed]
    simp
  rw [blast, hfeed]
  simp only [heom, if_true]
  rfl

/-- **Looking ahead does not change the message** exactly if no line of the part that is read
ahead begins with a dot, and this part and the lines of `qqeh` may change places. -/
theorem lookahead_unchanged (qqeh smtp_sender : Bytes) (smtp_reciplist : List Bytes) (msg : Bytes)
    (h : msg.getLast? = some 10) :
    dataBytes true qqeh smtp_sender smtp_reciplist msg = (blast qqeh [msg]).1 ↔
      (∀ l ∈ lines 10 (ahead {} msg), l.head? ≠ some 46) ∧
        ahead {} msg ++ qqeh = qqeh ++ ahead {} msg := by
  obtain ⟨hheader, hsplit⟩ := lookLoop_eq {} msg
  have hnl : (ahead {} msg).getLast? = some 10 := by
    rcases ahead_eom {} msg with heq | hlast
    · rw [heq, h]
    · exact hlast
  have hrest : (lookLoop {} msg).2 = [] ∨ (lookLoop {} msg).2.getLast? = some 10 := by
    rcases eq_or_ne (lookLoop {} msg).2 [] with hnil | hne
    · exact Or.inl hnil
    · rw [hsplit, List.getLast?_append_of_ne_nil _ hne] at h
      exact Or.inr h
  have hwhole : (feed blastByte true msg).2 =
      (feed blastByte true (ahead {} msg)).2 ++ (feed blastByte true (lookLoop {} msg).2).2 := by
    have heom : (feed blastByte true (ahead {} msg)).1 = true := by
      rw [feed_blastByte_eom]
      split
      · rfl
      · rw [hnl]
        rfl
    conv => lhs; rw [hsplit]
    rw [feed_append, heom]
  rw [dataBytes, if_pos rfl, checkutf8message, if_neg (by simp [containsutf8_eq_false]), hheader, List.nil_append,
    blast_whole hrest, blast_whole (Or.inr h), hwhole]
  simp only [List.append_assoc]
  rw [← List.append_assoc, ← List.append_assoc (qqeh.flatMap crlfByte),
    List.append_cancel_right_eq]
  constructor
  · intro heq
    have hlen := congrArg List.length heq
    simp only [List.length_append, length_feed_dotted] at hlen
    have hzero : dotted true (ahead {} msg) = 0 := by omega
    rw [feed_undotted hzero, ← List.flatMap_append, ← List.flatMap_append] at heq
    rw [(dotted_eq _).1, List.countP_eq_zero] at hzero
    exact ⟨fun l hl => by simpa using hzero l hl, flatMap_crlfByte_inj heq⟩
  · rintro ⟨hdots, heq⟩
    have hzero : dotted true (ahead {} msg) = 0 := by
      rw [(dotted_eq _).1, List.countP_eq_zero]
      exact fun l hl => by simpa using hdots l hl
    rw [feed_undotted hzero, ← List.flatMap_append, ← List.flatMap_append, heq]

theorem lookahead_unchanged_subject :
    dataBytes true [] (asc "a@b") [asc "c@d"] (asc "Subject: x\n\n.\n") =
        (blast [] [asc "Subject: x\n\n.\n"]).1 ↔
      (∀ l ∈ lines 10 (ahead {} (asc "Subject: x\n\n.\n")), l.head? ≠ some 46) ∧
        ahead {} (asc "Subject: x\n\n.\n") ++ [] = [] ++ ahead {} (asc "Subject: x\n\n.\n") :=
  lookahead_unchanged [] _ _ _ (by decide)

/-- A header line that begins with a dot, and lines of `qqeh`. -/
theorem lookahead_changes :
    dataBytes true [] (asc "a@b") [asc "c@d"] (asc ".\nx\n") ≠ (blast [] [asc ".\nx\n"]).1 ∧
      dataBytes true (asc "A: 1\n") (asc "a@b") [asc "c@d"] (asc "B: 2\n\nx\n") ≠
        (blast (asc "A: 1\n") [asc "B: 2\n\nx\n"]).1 := by
  decide +kernel

end IndimailMta.Remote
