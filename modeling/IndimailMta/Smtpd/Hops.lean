import IndimailMta.Lib.Folds
import IndimailMta.Lib.Lines
import IndimailMta.Smtpd.Blast
import IndimailMta.Smtpd.Session

/-!
# What qmail-smtpd counts in the header

`blast` counts the lines of the header that show a forwarded message while it reads them, from
the bytes of the connection and not from the message it hands on. A line of the connection is
followed here to its end: `headerAt` is the state of the four searches after the bytes of a line
that has not ended, computed from these bytes alone, and `At` is the state of `blast` after a
number of lines and such bytes. At the end of the data the count is a count over the lines of
the connection (`wireHeader`); it is the count over the lines of the message (`headerLines`) if
no dot was taken off in front of one that counts.
-/

namespace IndimailMta.Smtpd

open IndimailMta Folds Lines

/-! ## §1 The searches of one line -/

/-- The bytes of an unfinished line agree with the word as far as both go. -/
def agrees (word cur : Bytes) : Bool := (cur.map lower).take word.length == word.take cur.length

theorem agrees_append (word cur : Bytes) (ch : Byte) :
    agrees word (cur ++ [ch]) =
      (agrees word cur && (decide (word.length ≤ cur.length) ||
        word[cur.length]? == some (lower ch))) := by
  rw [Bool.eq_iff_iff]
  simp only [agrees, beq_iff_eq, Bool.and_eq_true, Bool.or_eq_true, decide_eq_true_eq,
    List.map_append, List.map_singleton, List.length_append, List.length_singleton]
  rcases Nat.lt_or_ge cur.length word.length with hlt | hge
  · rw [List.take_of_length_le (by simpa using Nat.succ_le_of_lt hlt),
      List.take_of_length_le (l := cur.map lower) (by simpa using Nat.le_of_lt hlt),
      List.take_succ_eq_append_getElem hlt, List.getElem?_eq_getElem hlt]
    constructor
    · intro h
      obtain ⟨h, hch⟩ := List.append_inj h (by simp; omega)
      exact ⟨h, Or.inr (congrArg some (List.singleton_inj.mp hch).symm)⟩
    · rintro ⟨h, hch⟩
      rcases hch with hle | hch
      · omega
      · rw [h, Option.some.inj hch]
  · rw [List.take_append_of_le_length (by simpa using hge), List.take_of_length_le (l := word) hge,
      List.take_of_length_le (l := word) (by omega)]
    simp [hge]

@[simp] theorem agrees_nil (word : Bytes) : agrees word [] = true := by
  simp [agrees]

/-- The line begins with the word once it is long enough and agrees with it. -/
theorem case_starts_eq (cur word : Bytes) :
    case_starts cur word = (agrees word cur && decide (word.length ≤ cur.length)) := by
  rw [Bool.eq_iff_iff]
  simp only [case_starts, agrees, beq_iff_eq, Bool.and_eq_true, decide_eq_true_eq, List.map_take]
  constructor
  · intro h
    have hlen := congrArg List.length h
    simp only [List.length_take, List.length_map] at hlen
    have hle : word.length ≤ cur.length := by omega
    exact ⟨by rw [h, List.take_of_length_le hle], hle⟩
  · rintro ⟨h, hle⟩
    rw [h, List.take_of_length_le hle]

/-- A byte is the lower case letter `l` in either case. -/
theorem lower_eq_iff {l : Byte} (h : 97 ≤ l ∧ l ≤ 122) (ch : Byte) :
    lower ch = l ↔ ch = l ∨ ch = l - 32 := by
  simp only [lower, Bool.and_eq_true, decide_eq_true_eq, UInt8.le_iff_toNat_le,
    ← UInt8.toNat_inj, apply_ite UInt8.toNat, UInt8.toNat_add, UInt8.toNat_sub] at h ⊢
  have hl := l.toNat_lt
  have hch := ch.toNat_lt
  simp only [show (97 : Byte).toNat = 97 from rfl, show (122 : Byte).toNat = 122 from rfl,
    show (65 : Byte).toNat = 65 from rfl, show (90 : Byte).toNat = 90 from rfl,
    show (32 : Byte).toNat = 32 from rfl] at h ⊢
  split <;> omega

/-- A byte in front of the letters has one case. -/
theorem lower_eq_iff_of_lt {l : Byte} (h : l < 65) (ch : Byte) : lower ch = l ↔ ch = l := by
  simp only [lower, Bool.and_eq_true, decide_eq_true_eq, UInt8.le_iff_toNat_le,
    UInt8.lt_iff_toNat_lt, ← UInt8.toNat_inj, apply_ite UInt8.toNat, UInt8.toNat_add] at h ⊢
  simp only [show (65 : Byte).toNat = 65 from rfl, show (90 : Byte).toNat = 90 from rfl,
    show (32 : Byte).toNat = 32 from rfl] at h ⊢
  split <;> omega

/-- The two words have the same letter at `pos`, in lower and in upper case. -/
def letterAt (low up : String) (pos : Nat) : Bool :=
  ((asc low)[pos]?).any fun l => 97 ≤ l && l ≤ 122 && (asc up)[pos]? == some (l - 32)

/-- The comparison of `blast` with both spellings, as one with the lower case word. -/
theorem notAt_eq {low up : String} {pos : Nat} (ch : Byte) (h : letterAt low up pos = true) :
    notAt ch low up pos = !((asc low)[pos]? == some (lower ch)) := by
  rw [letterAt, Option.any_eq_true] at h
  obtain ⟨l, hlow, hl⟩ := h
  simp only [Bool.and_eq_true, decide_eq_true_eq, beq_iff_eq] at hl
  obtain ⟨hl, hup⟩ := hl
  rw [notAt, hlow, hup, Bool.eq_iff_iff]
  simp only [Bool.and_eq_true, bne_iff_ne, ne_eq, Option.some.injEq, Bool.not_eq_true',
    beq_eq_false_iff_ne, eq_comm (a := l), lower_eq_iff hl, not_or, eq_comm (a := l - 32)]

/-! ## §2 The state after a part of a line -/

/-- A line that is counted. -/
def forwarded (l : Bytes) : Bool := case_starts l (asc "received") || case_starts l (asc "delivered")

/-- The five bytes that `blast` looks at of a line that may begin with `Return-Receipt`. -/
def ceipt (l : Bytes) : Bool := case_starts (l.drop 9) (asc "ceipt")

/-- The state of the searches behind the bytes `cur` of a line of the header. -/
def headerAt (hops : Nat) (dsn : Bool) (cur : Bytes) : Header where
  pos := min cur.length 14
  flagmaybew := agrees (asc "ceipt") (cur.drop 9)
  flagmaybex := agrees (asc "received") cur
  flagmaybey := agrees (asc "\r\n") cur
  flagmaybez := agrees (asc "delivered") cur
  hops := hops + (if case_starts cur (asc "delivered") then 1 else 0) +
    if case_starts cur (asc "received") then 1 else 0
  dsn := dsn || ceipt cur

theorem headerAt_nil (hops : Nat) (dsn : Bool) :
    headerAt hops dsn [] = { hops := hops, dsn := dsn } := by
  have hd : case_starts [] (asc "delivered") = false := rfl
  have hr : case_starts [] (asc "received") = false := rfl
  have hc : ceipt [] = false := rfl
  simp only [headerAt, hd, hr, hc, agrees_nil, List.drop_nil, List.length_nil, Nat.zero_min,
    Bool.false_eq_true, if_false, Nat.add_zero, Bool.or_false]

theorem drop_append_byte (cur : Bytes) (ch : Byte) (n : Nat) :
    (cur ++ [ch]).drop n = if cur.length < n then [] else cur.drop n ++ [ch] := by
  split
  · rename_i h
    exact List.drop_eq_nil_of_le (by simpa using Nat.succ_le_of_lt h)
  · rename_i h
    exact List.drop_append_of_le_length (Nat.le_of_not_lt h)

theorem receipt_byte {pos : Nat} (h : 8 < pos) (h' : pos < 14) (ch : Byte) :
    notAt ch "return-receipt" "RETURN-RECEIPT" pos =
      !((asc "ceipt")[pos - 9]? == some (lower ch)) := by
  have hletter : ∀ pos < 14, 8 < pos → (asc "return-receipt")[pos]? = (asc "ceipt")[pos - 9]? ∧
      letterAt "return-receipt" "RETURN-RECEIPT" pos = true := by
    decide +kernel
  obtain ⟨heq, hl⟩ := hletter pos h' h
  rw [notAt_eq ch hl, heq]

theorem delivered_byte {pos : Nat} (h : pos < 9) (ch : Byte) :
    notAt ch "delivered" "DELIVERED" pos = !((asc "delivered")[pos]? == some (lower ch)) := by
  have hletter : ∀ pos < 9, letterAt "delivered" "DELIVERED" pos = true := by decide +kernel
  exact notAt_eq ch (hletter pos h)

theorem received_byte {pos : Nat} (h : pos < 8) (ch : Byte) :
    notAt ch "received" "RECEIVED" pos = !((asc "received")[pos]? == some (lower ch)) := by
  have hletter : ∀ pos < 8, letterAt "received" "RECEIVED" pos = true := by decide +kernel
  exact notAt_eq ch (hletter pos h)

theorem newline_byte {pos : Nat} (h : pos < 2) (ch : Byte) :
    ((asc "\r\n")[pos]? != some ch) = !((asc "\r\n")[pos]? == some (lower ch)) := by
  have hmark : ∀ l : Byte, l < 65 → (some l != some ch) = !(some l == some (lower ch)) := by
    intro l hl
    rw [Bool.eq_iff_iff]
    simp only [bne_iff_ne, ne_eq, Option.some.injEq, Bool.not_eq_true', beq_eq_false_iff_ne,
      eq_comm (a := l), lower_eq_iff_of_lt hl]
  obtain rfl | rfl : pos = 0 ∨ pos = 1 := by omega
  · exact hmark 13 (by decide)
  · exact hmark 10 (by decide)

/-- A search for a word, at the next byte. -/
theorem search_byte (word cur : Bytes) (ch : Byte) (missed : Bool)
    (h : cur.length < word.length → missed = !(word[cur.length]? == some (lower ch))) :
    (agrees word cur && !(decide (cur.length < word.length) && missed)) =
      agrees word (cur ++ [ch]) := by
  rw [agrees_append]
  rcases Nat.lt_or_ge cur.length word.length with hlt | hge
  · rw [h hlt, decide_eq_true hlt, decide_eq_false (Nat.not_le.mpr hlt)]
    simp
  · rw [decide_eq_false (Nat.not_lt.mpr hge), decide_eq_true hge]
    simp

/-- A line begins with a word from the last byte of the word on. -/
theorem case_starts_append (word cur : Bytes) (ch : Byte) :
    case_starts (cur ++ [ch]) word =
      (case_starts cur word || (agrees word (cur ++ [ch]) && cur.length + 1 == word.length)) := by
  rw [case_starts_eq, case_starts_eq, agrees_append, List.length_append, List.length_singleton]
  rcases Nat.lt_trichotomy (cur.length + 1) word.length with hlt | heq | hgt
  · rw [decide_eq_false (Nat.not_le.mpr hlt), beq_false_of_ne (Nat.ne_of_lt hlt),
      decide_eq_false (p := word.length ≤ cur.length) (by omega)]
    simp
  · rw [decide_eq_true (p := word.length ≤ cur.length + 1) (by omega), heq,
      decide_eq_false (p := word.length ≤ cur.length) (by omega)]
    simp
  · rw [decide_eq_true (p := word.length ≤ cur.length + 1) (by omega),
      decide_eq_true (p := word.length ≤ cur.length) (by omega),
      beq_false_of_ne (Nat.ne_of_gt hgt)]
    simp

theorem count_append {word cur : Bytes} (ch : Byte) {n : Nat} (h : word.length = n + 1) :
    (if case_starts (cur ++ [ch]) word then 1 else 0) =
      (if case_starts cur word then 1 else 0) +
        if agrees word (cur ++ [ch]) && cur.length == n then 1 else 0 := by
  rw [case_starts_append, h, show (cur.length + 1 == n + 1) = (cur.length == n) by simp]
  rcases hstart : case_starts cur word with _ | _
  · simp
  · rw [case_starts_eq, h, Bool.and_eq_true, decide_eq_true_eq] at hstart
    rw [beq_false_of_ne (by omega)]
    simp

/-- The search for `Return-Receipt`. -/
theorem headerReceipt_headerAt (hops : Nat) (dsn : Bool) (cur : Bytes) (ch : Byte) :
    headerReceipt ch (headerAt hops dsn cur) =
      { headerAt hops dsn cur with
        flagmaybew := agrees (asc "ceipt") ((cur ++ [ch]).drop 9)
        dsn := dsn || ceipt (cur ++ [ch]) } := by
  have hpos : (headerAt hops dsn cur).pos = min cur.length 14 := rfl
  rcases Nat.lt_or_ge cur.length 9 with hlt | hge
  · rw [headerReceipt, if_neg (by omega)]
    simp only [headerAt, ceipt, drop_append_byte, if_pos hlt,
      List.drop_eq_nil_of_le (Nat.le_of_lt hlt)]
  have hd : ceipt (cur ++ [ch]) = (ceipt cur ||
      (agrees (asc "ceipt") ((cur ++ [ch]).drop 9) && cur.length == 13)) := by
    rw [ceipt, ceipt, drop_append_byte, if_neg (Nat.not_lt.mpr hge), case_starts_append,
      List.length_drop]
    congr 2
    rw [Bool.eq_iff_iff, beq_iff_eq, beq_iff_eq, show (asc "ceipt").length = 5 from rfl]
    omega
  have hw : (agrees (asc "ceipt") (cur.drop 9) && !(decide ((cur.drop 9).length <
      (asc "ceipt").length) && notAt ch "return-receipt" "RETURN-RECEIPT" cur.length)) =
        agrees (asc "ceipt") ((cur ++ [ch]).drop 9) := by
    rw [drop_append_byte, if_neg (Nat.not_lt.mpr hge)]
    refine search_byte _ _ _ _ fun hlt => ?_
    rw [List.length_drop, show (asc "ceipt").length = 5 from rfl] at hlt
    rw [List.length_drop]
    exact receipt_byte (by omega) (by omega) ch
  rw [List.length_drop, show (asc "ceipt").length = 5 from rfl] at hw
  rcases Nat.lt_or_ge cur.length 14 with hlt | hge'
  · rw [decide_eq_true (by omega), Bool.true_and] at hw
    rw [headerReceipt, if_pos (by omega), hpos, Nat.min_eq_left (Nat.le_of_lt hlt)]
    simp only [headerAt, Nat.min_eq_left (Nat.le_of_lt hlt), hw, hd, Bool.or_assoc]
  · rw [decide_eq_false (by omega), Bool.false_and, Bool.not_false, Bool.and_true] at hw
    rw [headerReceipt, if_neg (by omega), hd, beq_false_of_ne (by omega), ← hw]
    simp only [headerAt, Bool.and_false, Bool.or_false]

/-- The searches for `Delivered`, `Received` and the empty line. -/
theorem headerHops_headerAt (hops : Nat) (dsn w d : Bool) (cur : Bytes) (ch : Byte) :
    headerHops ch { headerAt hops dsn cur with flagmaybew := w, dsn := d } =
      { headerAt hops dsn cur with
        flagmaybew := w
        dsn := d
        flaginheader := !(agrees (asc "\r\n") (cur ++ [ch]) && cur.length == 1)
        flagmaybex := agrees (asc "received") (cur ++ [ch])
        flagmaybey := agrees (asc "\r\n") (cur ++ [ch])
        flagmaybez := agrees (asc "delivered") (cur ++ [ch])
        hops := hops + (if case_starts (cur ++ [ch]) (asc "delivered") then 1 else 0) +
          if case_starts (cur ++ [ch]) (asc "received") then 1 else 0 } := by
  have hz := search_byte (asc "delivered") cur ch
    (notAt ch "delivered" "DELIVERED" cur.length) fun h => delivered_byte h ch
  have hx := search_byte (asc "received") cur ch
    (notAt ch "received" "RECEIVED" cur.length) fun h => received_byte h ch
  have hy := search_byte (asc "\r\n") cur ch
    ((asc "\r\n")[cur.length]? != some ch) fun h => newline_byte h ch
  rw [show (asc "delivered").length = 9 from rfl] at hz
  rw [show (asc "received").length = 8 from rfl] at hx
  rw [show (asc "\r\n").length = 2 from rfl] at hy
  rw [count_append ch (n := 8) rfl, count_append ch (n := 7) rfl]
  rcases Nat.lt_or_ge cur.length 9 with hlt | hge
  · rw [decide_eq_true hlt, Bool.true_and] at hz
    simp only [headerHops, headerAt, Nat.min_eq_left (show cur.length ≤ 14 by omega), if_pos hlt,
      hz, hx, hy, Header.mk.injEq, true_and, and_true]
    omega
  · rw [decide_eq_false (by omega), Bool.false_and, Bool.not_false, Bool.and_true] at hz hx hy
    rw [headerHops, if_neg (by simp only [headerAt]; omega)]
    simp only [headerAt, ← hx, ← hy, ← hz, beq_false_of_ne (show cur.length ≠ 1 by omega),
      beq_false_of_ne (show cur.length ≠ 7 by omega),
      beq_false_of_ne (show cur.length ≠ 8 by omega), Bool.and_false, Bool.not_false,
      Bool.false_eq_true, if_false, Nat.add_zero]

/-- `pos` stops at 14. -/
theorem pos_next (n : Nat) :
    (if min n 14 < 14 then min n 14 + 1 else min n 14) = min (n + 1) 14 := by
  rcases Nat.lt_or_ge n 14 with hlt | hge
  · rw [Nat.min_eq_left (Nat.le_of_lt hlt), if_pos hlt, Nat.min_eq_left (Nat.succ_le_of_lt hlt)]
  · rw [Nat.min_eq_right hge, if_neg (Nat.lt_irrefl 14), Nat.min_eq_right (Nat.le_succ_of_le hge)]

/-- **One byte of a header line** takes the state behind the bytes before it to the state behind
the bytes with it. -/
theorem headerByte_headerAt (hops : Nat) (dsn : Bool) (cur : Bytes) {ch : Byte} (hch : ch ≠ 10) :
    headerByte ch (headerAt hops dsn cur) = headerAt hops dsn (cur ++ [ch]) := by
  have hheader : (!(agrees (asc "\r\n") (cur ++ [ch]) && cur.length == 1)) = true := by
    rcases hlen : cur.length == 1 with _ | _
    · rw [Bool.and_false, Bool.not_false]
    · rw [Bool.and_true, agrees_append, beq_iff_eq.mp hlen,
        show (asc "\r\n")[1]? = some 10 from rfl, Bool.not_eq_true']
      refine Bool.and_eq_false_imp.mpr fun _ => ?_
      rw [Bool.or_eq_false_iff]
      refine ⟨decide_eq_false (by decide), beq_false_of_ne fun h => hch ?_⟩
      exact (lower_eq_iff_of_lt (by decide) ch).mp (Option.some.inj h).symm
  rw [headerByte, if_pos (show (headerAt hops dsn cur).flaginheader = true from rfl),
    headerReceipt_headerAt, headerHops_headerAt, hheader, headerNext,
    if_neg hch]
  simp only [headerAt, Header.mk.injEq, List.length_append, List.length_singleton, and_self,
    and_true, true_and]
  exact pos_next cur.length

/-- A byte that is in no word and has one case does not complete one. -/
theorem case_starts_mark {word : Bytes} {m : Byte} (h : m ∉ word) (hm : lower m = m) (cur : Bytes) :
    case_starts (cur ++ [m]) word = case_starts cur word := by
  rw [case_starts_append, agrees_append, hm]
  rcases Nat.lt_or_ge cur.length word.length with hlt | hge
  · have hne : (word[cur.length]? == some m) = false :=
      beq_false_of_ne fun hat => h (List.mem_of_getElem? hat)
    rw [hne, decide_eq_false (Nat.not_le.mpr hlt)]
    simp
  · rw [beq_false_of_ne (show cur.length + 1 ≠ word.length by omega), Bool.and_false, Bool.or_false]

theorem ceipt_mark {m : Byte} (h : m ∉ asc "ceipt") (hm : lower m = m) (cur : Bytes) :
    ceipt (cur ++ [m]) = ceipt cur := by
  rw [ceipt, ceipt, drop_append_byte]
  split
  · rw [List.drop_eq_nil_of_le (by omega)]
  · exact case_starts_mark h hm _

/-- The lines of one kind that a line adds. -/
def hopsOf (l : Bytes) : Nat :=
  (if case_starts l (asc "delivered") then 1 else 0) +
    if case_starts l (asc "received") then 1 else 0

/-- The lines of one kind that lines add. -/
def hopsIn (ls : List Bytes) : Nat := ls.foldr (fun l n => hopsOf l + n) 0

/-- **The end of a header line.** -/
theorem headerByte_newline (hops : Nat) (dsn : Bool) (cur : Bytes) :
    headerByte 10 (headerAt hops dsn cur) =
      { headerAt (hops + hopsOf cur) (dsn || ceipt cur) [] with
        flaginheader := decide (cur ≠ [13]) } := by
  have hheader : (!(agrees (asc "\r\n") (cur ++ [10]) && cur.length == 1)) =
      decide (cur ≠ [13]) := by
    have hmark : lower 10 = 10 := rfl
    rcases cur with _ | ⟨c, _ | ⟨c', t⟩⟩
    · rfl
    · have hc : lower c = 13 ↔ c = 13 := lower_eq_iff_of_lt (by decide) c
      have hc' : (lower c == 13) = decide (c = 13) := by
        rw [Bool.eq_iff_iff, beq_iff_eq, decide_eq_true_eq, hc]
      simp [agrees, asc, hc', hmark]
    · simp
  rw [headerByte, if_pos (show (headerAt hops dsn cur).flaginheader = true from rfl),
    headerReceipt_headerAt, headerHops_headerAt, hheader, headerNext,
    if_pos rfl, case_starts_mark (by decide) rfl, case_starts_mark (by decide) rfl,
    ceipt_mark (by decide) rfl]
  rw [headerAt_nil]
  simp only [hopsOf, Nat.add_assoc]

/-! ## §3 The header -/

/-- The lines of the connection, without the newlines, as one text. -/
def wire (ls : List Bytes) : Bytes := ls.flatMap fun l => l ++ [10]

/-- The searches over a text. -/
def searches (h : Header) (text : Bytes) : Header := text.foldl (fun h ch => headerByte ch h) h

theorem searches_append (h : Header) (u v : Bytes) :
    searches h (u ++ v) = searches (searches h u) v := List.foldl_append

/-- Behind the header nothing is looked at. -/
theorem searches_over {h : Header} (hh : h.flaginheader = false) (text : Bytes) :
    searches h text = h := by
  induction text with
  | nil => rfl
  | cons ch text ih =>
      rw [searches, List.foldl_cons, headerByte, if_neg (by simp [hh])]
      exact ih

theorem searches_line (hops : Nat) (dsn : Bool) (pre : Bytes) {cur : Bytes}
    (h : (10 : Byte) ∉ cur) :
    searches (headerAt hops dsn pre) cur = headerAt hops dsn (pre ++ cur) := by
  induction cur generalizing pre with
  | nil => rw [List.append_nil]; rfl
  | cons ch cur ih =>
      simp only [List.mem_cons, not_or] at h
      rw [searches, List.foldl_cons, headerByte_headerAt hops dsn pre (Ne.symm h.1)]
      have hrest := ih (pre ++ [ch]) h.2
      rwa [List.append_assoc, List.singleton_append] at hrest

/-- **Whole lines.** What the searches find in the lines in front of the empty one. -/
theorem searches_wire (hops : Nat) (dsn : Bool) {ls : List Bytes}
    (h : ∀ l ∈ ls, (10 : Byte) ∉ l) (text : Bytes) (htext : text <+: [46, 13]) :
    (searches (headerAt hops dsn []) (wire ls ++ text)).hops =
        hops + hopsIn (ls.takeWhile (· ≠ [13])) ∧
      (searches (headerAt hops dsn []) (wire ls ++ text)).dsn =
        (dsn || (ls.takeWhile (· ≠ [13])).any ceipt) := by
  induction ls generalizing hops dsn with
  | nil =>
      have hno : (10 : Byte) ∉ text := fun hmem => absurd (htext.subset hmem) (by decide)
      have hstart : ∀ w : Bytes, w.length = 8 ∨ w.length = 9 → case_starts text w = false := by
        intro w hw
        have hlen := htext.length_le
        rw [case_starts_eq, decide_eq_false (by simp at hlen; omega), Bool.and_false]
      have hceipt : ceipt text = false := by
        have hlen := htext.length_le
        rw [ceipt, List.drop_eq_nil_of_le (by simp at hlen; omega)]
        rfl
      have hrun : searches (headerAt hops dsn []) (wire [] ++ text) = headerAt hops dsn text :=
        searches_line hops dsn [] hno
      rw [hrun]
      simp [headerAt, hstart (asc "delivered") (Or.inr rfl), hstart (asc "received") (Or.inl rfl),
        hceipt, hopsIn]
  | cons l ls ih =>
      have hl := h l (by simp)
      have hline : searches (headerAt hops dsn []) (wire (l :: ls) ++ text) =
          searches { headerAt (hops + hopsOf l) (dsn || ceipt l) [] with
            flaginheader := decide (l ≠ [13]) } (wire ls ++ text) := by
        rw [wire, List.flatMap_cons, ← wire, List.append_assoc, List.append_assoc,
          searches_append, searches_line hops dsn _ hl, List.nil_append, searches_append,
          ← headerByte_newline]
        rfl
      rw [hline]
      by_cases hempty : l = [13]
      · subst hempty
        have hover : decide (([13] : Bytes) ≠ [13]) = false := by simp
        have hrun : searches { headerAt (hops + hopsOf [13]) (dsn || ceipt [13]) [] with
            flaginheader := decide (([13] : Bytes) ≠ [13]) } (wire ls ++ text) = _ :=
          searches_over hover (wire ls ++ text)
        rw [hrun, List.takeWhile_cons_of_neg (by simp), headerAt_nil]
        exact ⟨rfl, (Bool.or_false _).trans (Bool.or_false _).symm⟩
      · rw [List.takeWhile_cons_of_pos (by simpa using hempty), hopsIn, List.foldr_cons, ← hopsIn,
          List.any_cons, ← Nat.add_assoc, ← Bool.or_assoc, decide_eq_true hempty]
        exact ih (hops + hopsOf l) (dsn || ceipt l) fun x hx => h x (by simp [hx])

/-! ## §4 The message -/

/-- What is put of a line whose bytes before the CR LF are `y`: the dot that was added comes
off, except in front of a carriage return. -/
def unstuff : Bytes → Bytes
  | 46 :: ch :: y => if ch = 13 then 46 :: ch :: y else ch :: y
  | y => y

theorem unstuff_append {y t : Bytes} (hdot : y ≠ [46]) (hne : y ≠ [] ∨ t.head? ≠ some 46) :
    unstuff (y ++ t) = unstuff y ++ t := by
  rcases y with _ | ⟨c, _ | ⟨c', y⟩⟩
  · have ht : t.head? ≠ some 46 := hne.resolve_left (by simp)
    rw [List.nil_append, show unstuff [] = [] from rfl, List.nil_append]
    unfold unstuff
    split
    · exact absurd rfl ht
    · rfl
  · have hc : c ≠ 46 := fun h => hdot (h ▸ rfl)
    unfold unstuff
    split
    · rename_i heq
      exact absurd (List.cons.inj heq).1 hc
    · split
      · rename_i heq
        exact absurd (List.cons.inj heq).1 hc
      · rfl
  · rw [List.cons_append, List.cons_append]
    by_cases hc : c = 46
    · subst hc
      rw [unstuff, unstuff]
      split <;> rfl
    · unfold unstuff
      split
      · rename_i heq
        exact absurd (List.cons.inj heq).1 hc
      · split
        · rename_i heq
          exact absurd (List.cons.inj heq).1 hc
        · rfl

/-- The message, from the lines of the connection. -/
def decoded (ls : List Bytes) : Bytes := ls.flatMap fun l => unstuff l.dropLast ++ [10]

/-- In the middle of a line: its bytes so far, the state of `blast`, and what was put of it. -/
inductive Inside : Bytes → BlastState → Bytes → Prop
  | line : Inside [] .line []
  | dot : Inside [46] .dot []
  | dotCr : Inside [46, 13] .dotCr []
  | cr {y : Bytes} (hdot : y ≠ [46]) : Inside (y ++ [13]) .cr (unstuff y)
  | text {y : Bytes} (hne : y ≠ []) (hdot : y ≠ [46]) (hcr : y.getLast? ≠ some 13) :
      Inside y .text (unstuff y)

/-- `blast` has read the lines `ls` and the bytes `cur` of the next. -/
structure At (ls : List Bytes) (cur : Bytes) (b : Blast) : Prop where
  line : ∀ l ∈ ls, (10 : Byte) ∉ l ∧ ∃ y, l = y ++ [13] ∧ y ≠ [46]
  notMem : (10 : Byte) ∉ cur
  header : b.header = searches {} (wire ls ++ cur)
  inside : ∃ part, Inside cur b.state part ∧ b.qqt.sent = decoded ls ++ part

/-- A byte inside a line goes on with it; `out` is what was put of the lines before. -/
theorem inside_byte {filters : Bytes → Bool} {cur part out : Bytes} {b b' : Blast} {ch : Byte}
    (hin : Inside cur b.state part) (hsent : b.qqt.sent = out ++ part) (hlf : ch ≠ 10)
    (hb : blastSwitch filters b ch = .ok b') :
    b'.seencr = b.seencr ∧ b'.header = b.header ∧
      ∃ part', Inside (cur ++ [ch]) b'.state part' ∧ b'.qqt.sent = out ++ part' := by
  rcases b with ⟨state, seencr, header, qqt⟩
  simp only at hsent
  unfold blastSwitch at hb
  cases hin with
  | line =>
      simp only [if_neg hlf] at hb
      split at hb
      · rename_i hdot
        cases hb
        exact ⟨rfl, rfl, [], hdot ▸ .dot, hsent⟩
      rename_i hdot
      split at hb
      · rename_i hcr
        cases hb
        exact ⟨rfl, rfl, [], hcr ▸ .cr (y := []) (by simp), hsent⟩
      · rename_i hcr
        cases hb
        have hpart := unstuff_append (y := []) (t := [ch]) (by simp) (Or.inr (by simpa using hdot))
        refine ⟨rfl, rfl, _,
          .text (y := [] ++ [ch]) (by simp) (by simpa using hdot) (by simpa using hcr), ?_⟩
        rw [hpart]
        simp [Blast.put, hsent, show unstuff [] = [] from rfl]
  | dot =>
      simp only [if_neg hlf] at hb
      split at hb
      · rename_i hcr
        cases hb
        exact ⟨rfl, rfl, [], hcr ▸ .dotCr, hsent⟩
      · rename_i hcr
        cases hb
        have hpart : unstuff [46, ch] = [ch] := by rw [unstuff, if_neg hcr]
        refine ⟨rfl, rfl, _, .text (y := [46, ch]) (by simp) (by simp) (by simpa using hcr), ?_⟩
        rw [hpart]
        simp [Blast.put, hsent]
  | dotCr =>
      simp only [if_neg hlf] at hb
      split at hb
      · rename_i hcr
        subst hcr
        cases hb
        refine ⟨rfl, rfl, _, .cr (y := [46, 13]) (by simp), ?_⟩
        rw [show unstuff [46, 13] = [46, 13] from rfl]
        simp [Blast.put, hsent]
      · rename_i hcr
        cases hb
        refine ⟨rfl, rfl, _, .text (y := [46, 13, ch]) (by simp) (by simp) (by simpa using hcr), ?_⟩
        rw [show unstuff [46, 13, ch] = [46, 13, ch] from rfl]
        simp [Blast.put, hsent]
  | @cr y hdot =>
      simp only [if_neg hlf] at hb
      split at hb
      · rename_i hcr
        subst hcr
        cases hb
        have hpart := unstuff_append (t := [13]) hdot (Or.inr (by simp))
        refine ⟨rfl, rfl, _, .cr (y := y ++ [13]) ?_, ?_⟩
        · exact fun h => absurd (congrArg List.getLast? h) (by simp)
        · rw [hpart]
          simp [Blast.put, hsent]
      · rename_i hcr
        cases hb
        have hpart := unstuff_append (t := [13, ch]) hdot (Or.inr (by simp))
        refine ⟨rfl, rfl, _, .text (y := y ++ [13] ++ [ch]) (by simp) ?_ (by simpa using hcr), ?_⟩
        · exact fun h => absurd (congrArg List.length h) (by simp)
        · rw [List.append_assoc, List.singleton_append, hpart]
          simp [Blast.put, hsent]
  | text hne hdot _ =>
      simp only [if_neg hlf] at hb
      split at hb
      · rename_i hcr
        cases hb
        exact ⟨rfl, rfl, _, hcr ▸ .cr hdot, hsent⟩
      · rename_i hcr
        cases hb
        refine ⟨rfl, rfl, _, .text (by simp) ?_ (by simpa using hcr), ?_⟩
        · intro h
          have hnil : cur = [] := List.length_eq_zero_iff.mp (by simpa using congrArg List.length h)
          exact hne hnil
        · rw [unstuff_append hdot (Or.inl hne)]
          simp [Blast.put, hsent]

/-- A newline ends a line only behind a carriage return. -/
theorem inside_newline {filters : Bytes → Bool} {cur part out : Bytes} {b b' : Blast}
    (hin : Inside cur b.state part) (hsent : b.qqt.sent = out ++ part)
    (hb : blastSwitch filters b 10 = .ok b') :
    b'.seencr = b.seencr ∧ b'.header = b.header ∧ b'.state = .line ∧
      ∃ y, cur = y ++ [13] ∧ y ≠ [46] ∧ b'.qqt.sent = out ++ (unstuff y ++ [10]) := by
  rcases b with ⟨state, seencr, header, qqt⟩
  simp only at hsent
  unfold blastSwitch at hb
  cases hin with
  | @cr y hdot =>
      simp only [if_pos] at hb
      cases hb
      refine ⟨rfl, rfl, rfl, y, rfl, hdot, ?_⟩
      simp [Blast.put, hsent]
  | line =>
      simp only [if_pos] at hb
      cases hb
  | dot =>
      simp only [if_pos] at hb
      cases hb
  | dotCr =>
      simp only [if_pos] at hb
      cases hb
  | text _ _ _ =>
      simp only [if_pos] at hb
      cases hb

/-- One byte: the line goes on, or ends with its newline. -/
theorem at_byte {filters : Bytes → Bool} {ls : List Bytes} {cur : Bytes} {b b' : Blast} {ch : Byte}
    (h : At ls cur b) (hb : blastByte filters b ch = .ok b') :
    b'.seencr = b.seencr ∧
      ((ch ≠ 10 ∧ At ls (cur ++ [ch]) b') ∨ (ch = 10 ∧ At (ls ++ [cur]) [] b')) := by
  obtain ⟨hline, hno, hheader, part, hin, hsent⟩ := h
  have hsearch : headerByte ch b.header = searches {} (wire ls ++ (cur ++ [ch])) := by
    rw [← List.append_assoc, searches_append, ← hheader]
    rfl
  rw [blastByte] at hb
  by_cases hlf : ch = 10
  · -- the line is done, and the next is empty so far
    subst hlf
    obtain ⟨hseencr, hheader', hstate, y, rfl, hdot, hput⟩ :=
      inside_newline (b := { b with header := headerByte 10 b.header }) hin hsent hb
    have hlines : ∀ l ∈ ls ++ [y ++ [13]], (10 : Byte) ∉ l ∧ ∃ y, l = y ++ [13] ∧ y ≠ [46] := by
      intro l hl
      rcases List.mem_append.mp hl with hl | hl
      · exact hline l hl
      · rw [List.mem_singleton.mp hl]
        exact ⟨hno, y, rfl, hdot⟩
    refine ⟨hseencr, Or.inr ⟨rfl, hlines, by simp, ?_, [], ?_, ?_⟩⟩
    · rw [hheader', hsearch]
      simp [wire]
    · rw [hstate]
      exact .line
    · rw [hput]
      simp [decoded]
  · obtain ⟨hseencr, hheader', part', hin', hput⟩ :=
      inside_byte (b := { b with header := headerByte ch b.header }) hin hsent hlf hb
    have hno' : (10 : Byte) ∉ cur ++ [ch] := by
      rw [List.mem_append, List.mem_singleton, not_or]
      exact ⟨hno, Ne.symm hlf⟩
    exact ⟨hseencr, Or.inl ⟨hlf, hline, hno', hheader'.trans hsearch, part', hin', hput⟩⟩

/-- `blast` returns at the newline of a lone dot. -/
theorem at_done {filters : Bytes → Bool} {ls : List Bytes} {cur : Bytes} {b : Blast} {ch : Byte}
    (h : At ls cur b) (hb : blastByte filters b ch = .error .done) : ch = 10 ∧ cur = [46, 13] := by
  obtain ⟨-, -, -, part, hin, -⟩ := h
  rcases b with ⟨state, seencr, header, qqt⟩
  unfold blastByte blastSwitch at hb
  cases hin with
  | dotCr =>
      simp only at hb
      split at hb
      · rename_i hlf
        exact ⟨hlf, rfl⟩
      · split at hb <;> cases hb
  | line =>
      simp only at hb
      repeat' split at hb
      all_goals cases hb
  | dot =>
      simp only at hb
      repeat' split at hb
      all_goals cases hb
  | cr _ =>
      simp only at hb
      repeat' split at hb
      all_goals cases hb
  | text _ _ _ =>
      simp only at hb
      repeat' split at hb
      all_goals cases hb

/-- The bytes `blast` looks at: the input, with what `convertbarelf` makes up. -/
def looked (convertbarelf : Bool) : Bool → Bytes → Bytes
  | _, [] => []
  | seencr, ch :: rest =>
      (barelf convertbarelf seencr ch).1 ++
        looked convertbarelf (barelf convertbarelf seencr ch).2 rest

/-- A byte goes on with the line or ends it. -/
def readByte (p : List Bytes × Bytes) (ch : Byte) : List Bytes × Bytes :=
  if ch = 10 then (p.1 ++ [p.2], []) else (p.1, p.2 ++ [ch])

theorem wire_readByte (p : List Bytes × Bytes) (ch : Byte) :
    wire (readByte p ch).1 ++ (readByte p ch).2 = wire p.1 ++ p.2 ++ [ch] := by
  rw [readByte]
  split
  · rename_i hlf
    simp [wire, hlf]
  · simp

/-- Bytes on which `blast` goes on. -/
theorem at_bytes {filters : Bytes → Bool} (chs : Bytes) {p : List Bytes × Bytes} {b b' : Blast}
    (h : At p.1 p.2 b) (hb : chs.foldlM (blastByte filters) b = .ok b') :
    b'.seencr = b.seencr ∧ ∃ p' : List Bytes × Bytes, At p'.1 p'.2 b' ∧
      wire p'.1 ++ p'.2 = wire p.1 ++ p.2 ++ chs := by
  have hstep : ∀ (chs : Bytes) (ch : Byte) (b₁ b₂ : Blast),
      (b₁.seencr = b.seencr ∧ ∃ p' : List Bytes × Bytes, At p'.1 p'.2 b₁ ∧
        wire p'.1 ++ p'.2 = wire p.1 ++ p.2 ++ chs) → blastByte filters b₁ ch = .ok b₂ →
      b₂.seencr = b.seencr ∧ ∃ p' : List Bytes × Bytes, At p'.1 p'.2 b₂ ∧
        wire p'.1 ++ p'.2 = wire p.1 ++ p.2 ++ (chs ++ [ch]) := by
    rintro chs ch b₁ b₂ ⟨hcr, p', hp, hwire⟩ h₁
    obtain ⟨hcr', hat⟩ := at_byte hp h₁
    refine ⟨hcr'.trans hcr, readByte p' ch, ?_, ?_⟩
    · rw [readByte]
      rcases hat with ⟨hlf, hat⟩ | ⟨hlf, hat⟩
      · rwa [if_neg hlf]
      · rwa [if_pos hlf]
    · rw [wire_readByte, hwire, List.append_assoc]
  exact foldlM_keeps hstep [] ⟨rfl, p, h, (List.append_nil _).symm⟩ hb

/-- The bytes at which `blast` returns: the state is the one behind a part of the last line. -/
theorem at_end {filters : Bytes → Bool} {convertbarelf seencr : Bool} {ch : Byte}
    {ls : List Bytes} {cur : Bytes} {b : Blast} (h : At ls cur b)
    (hb : (barelf convertbarelf seencr ch).1.foldlM (blastByte filters) b = .error .done) :
    cur <+: [46, 13] ∧ cur ++ (barelf convertbarelf seencr ch).1 = [46, 13, 10] := by
  have hbytes : (barelf convertbarelf seencr ch).1 = [ch] ∨
      (barelf convertbarelf seencr ch).1 = [13, 10] := by
    rw [barelf]
    split
    · split
      · exact Or.inr rfl
      · exact Or.inl rfl
    · exact Or.inl rfl
  rcases hbytes with heq | heq
  · rw [heq, List.foldlM_cons] at hb
    cases h₁ : blastByte filters b ch with
    | ok b₁ =>
        rw [h₁] at hb
        cases hb
    | error e =>
        rw [h₁] at hb
        cases hb
        obtain ⟨rfl, rfl⟩ := at_done h h₁
        exact ⟨List.prefix_rfl, heq ▸ rfl⟩
  · rw [heq, List.foldlM_cons] at hb
    cases h₁ : blastByte filters b 13 with
    | error e =>
        rw [h₁] at hb
        cases hb
        exact absurd (at_done h h₁).1 (by decide)
    | ok b₁ =>
        rw [h₁] at hb
        obtain ⟨-, ⟨-, hat⟩ | ⟨hlf, -⟩⟩ := at_byte h h₁
        · cases h₂ : blastByte filters b₁ 10 with
          | ok b₂ =>
              simp only [bind, Except.bind, List.foldlM_cons, h₂] at hb
              cases hb
          | error e =>
              simp only [bind, Except.bind, List.foldlM_cons, h₂] at hb
              cases hb
              have hcur := (at_done hat h₂).2
              have hdot : cur = [46] := List.append_cancel_right (hcur : cur ++ [13] = [46] ++ [13])
              rw [heq, hdot]
              exact ⟨⟨[13], rfl⟩, rfl⟩
        · exact absurd hlf (by decide)

/-- **What `blast` has read when it returns.** -/
theorem at_loop {filters : Bytes → Bool} {convertbarelf : Bool} {input rest : Bytes}
    {p : List Bytes × Bytes} {b b' : Blast} (h : At p.1 p.2 b)
    (hb : blastLoop filters convertbarelf b input = (.done, b', rest)) :
    ∃ ls cur more, At ls cur b' ∧ cur <+: [46, 13] ∧
      wire p.1 ++ p.2 ++ looked convertbarelf b.seencr input =
        wire ls ++ [46, 13] ++ 10 :: more := by
  induction input generalizing p b with
  | nil => cases hb
  | cons ch input ih =>
      rw [blastLoop] at hb
      have h' : At p.1 p.2 { b with seencr := (barelf convertbarelf b.seencr ch).2 } :=
        ⟨h.line, h.notMem, h.header, h.inside⟩
      rw [looked]
      cases h₁ : (barelf convertbarelf b.seencr ch).1.foldlM (blastByte filters)
          { b with seencr := (barelf convertbarelf b.seencr ch).2 } with
      | error e =>
          rw [h₁] at hb
          simp only [Prod.mk.injEq] at hb
          obtain ⟨rfl, rfl, rfl⟩ := hb
          obtain ⟨hpre, hend⟩ := at_end h' h₁
          refine ⟨p.1, p.2, looked convertbarelf (barelf convertbarelf b.seencr ch).2 input, h, hpre, ?_⟩
          rw [← List.append_assoc, List.append_assoc (wire p.1), hend]
          simp
      | ok b₁ =>
          rw [h₁] at hb
          obtain ⟨hcr, p', hat, hwire⟩ := at_bytes _ h' h₁
          obtain ⟨ls, cur, more, hat', hpre, hread⟩ := ih hat hb
          refine ⟨ls, cur, more, hat', hpre, ?_⟩
          rw [← List.append_assoc, ← hwire, ← hread, hcr]

/-! ## §5 The two headers -/

/-- The header of the message: its lines before the first empty one. -/
def headerLines (message : Bytes) : List Bytes := (fields 10 message).takeWhile (· ≠ [])

/-- The header on the connection: the lines `blast` looks at before the first empty one or the
terminator. -/
def wireHeader (convertbarelf : Bool) (input : Bytes) : List Bytes :=
  ((fields 10 (looked convertbarelf false input)).takeWhile (· ≠ [46, 13])).takeWhile (· ≠ [13])

theorem fields_wire {ls : List Bytes} (h : ∀ l ∈ ls, (10 : Byte) ∉ l) (text : Bytes) :
    fields 10 (wire ls ++ text) = ls ++ fields 10 text := by
  induction ls with
  | nil => rfl
  | cons l ls ih =>
      rw [wire, List.flatMap_cons, ← wire, List.append_assoc, List.append_assoc,
        List.singleton_append, fields_append (h l (by simp)), ih fun x hx => h x (by simp [hx]),
        List.cons_append]

theorem unstuff_subset (y : Bytes) : unstuff y ⊆ y := by
  unfold unstuff
  split
  · split
    · exact List.Subset.refl _
    · exact List.subset_cons_self _ _
  · exact List.Subset.refl _

theorem unstuff_eq_nil {y : Bytes} (h : y ≠ [46]) : unstuff y = [] ↔ y = [] := by
  unfold unstuff
  split
  · split <;> simp
  · rfl

/-- The lines of the connection and those of the message. -/
theorem headerLines_decoded {ls : List Bytes}
    (h : ∀ l ∈ ls, (10 : Byte) ∉ l ∧ ∃ y, l = y ++ [13] ∧ y ≠ [46]) :
    headerLines (decoded ls) = (ls.takeWhile (· ≠ [13])).map fun l => unstuff l.dropLast := by
  induction ls with
  | nil => rfl
  | cons l ls ih =>
      obtain ⟨hno, y, rfl, hy⟩ := h l (by simp)
      have hmark : (10 : Byte) ∉ unstuff (y ++ [13]).dropLast := by
        rw [List.dropLast_concat]
        exact fun hmem => hno (List.mem_append_left _ (unstuff_subset y hmem))
      rw [headerLines, decoded, List.flatMap_cons, ← decoded, List.append_assoc,
        List.singleton_append, fields_append hmark, List.dropLast_concat]
      have hrest := ih fun x hx => h x (by simp [hx])
      rw [headerLines] at hrest
      by_cases hempty : y = []
      · subst hempty
        rw [List.takeWhile_cons_of_neg (by simp [unstuff]), List.takeWhile_cons_of_neg (by simp)]
        rfl
      · rw [List.takeWhile_cons_of_pos (by simpa [unstuff_eq_nil hy] using hempty),
          List.takeWhile_cons_of_pos (by simpa using hempty), hrest, List.map_cons,
          List.dropLast_concat]

theorem hopsOf_eq (l : Bytes) : hopsOf l = if forwarded l then 1 else 0 := by
  have hboth : ¬ (case_starts l (asc "delivered") = true ∧ case_starts l (asc "received") = true) := by
    rintro ⟨hd, hr⟩
    simp only [case_starts, beq_iff_eq] at hd hr
    rcases l with _ | ⟨c, l⟩
    · cases hd
    · exact absurd ((List.cons.inj hd).1.symm.trans (List.cons.inj hr).1) (by decide)
  rw [hopsOf, forwarded]
  cases hd : case_starts l (asc "delivered") <;> cases hr : case_starts l (asc "received")
  · rfl
  · rfl
  · rfl
  · exact absurd ⟨hd, hr⟩ hboth

theorem hopsIn_eq (ls : List Bytes) : hopsIn ls = ls.countP forwarded := by
  induction ls with
  | nil => rfl
  | cons l ls ih =>
      rw [hopsIn, List.foldr_cons, ← hopsIn, List.countP_cons, ih, hopsOf_eq, Nat.add_comm]

/-- A dot in front of `y` that hides a line which counts. -/
def hidden (word y : Bytes) : Bool := y.head? == some 46 && case_starts y.tail word

/-- No word begins with a byte in front of the letters. -/
theorem case_starts_low {word : Bytes} {a : Byte} (hw : word.head? = some a) (ha : 64 < a) {m : Byte}
    (hm : m < 64) (t : Bytes) : case_starts (m :: t) word = false := by
  rcases word with _ | ⟨b, word⟩
  · cases hw
  · have hlow : lower m = m := (lower_eq_iff_of_lt (UInt8.lt_trans hm (by decide)) m).mpr rfl
    refine beq_false_of_ne fun heq => ?_
    simp only [List.length_cons, List.take_succ_cons, List.map_cons, hlow, List.cons.injEq] at heq
    rw [List.head?_cons, Option.some.injEq, ← heq.1] at hw
    exact UInt8.lt_irrefl _ (UInt8.lt_trans (hw ▸ hm) ha)

theorem hidden_not_starts {word v l : Bytes} {a : Byte} (hw : word.head? = some a) (ha : 64 < a)
    (h : hidden v l = true) : case_starts l word = false := by
  rw [hidden, Bool.and_eq_true, beq_iff_eq] at h
  obtain ⟨t, rfl⟩ := List.head?_eq_some_iff.mp h.1
  exact case_starts_low hw ha (by decide) t

theorem hidden_return {word : Bytes} (h : (13 : Byte) ∉ word) (y : Bytes) :
    hidden word (y ++ [13]) = hidden word y := by
  rcases y with _ | ⟨c, y⟩
  · rfl
  · rw [hidden, hidden, List.cons_append, List.tail_cons, case_starts_mark h rfl]
    rfl

/-- A line of the message begins with a word if the line of the connection does, or hides it. -/
theorem case_starts_unstuff {word y : Bytes} {a : Byte} (hw : word.head? = some a) (ha : 64 < a)
    (hy : y ≠ [46]) : case_starts (unstuff y) word = (case_starts y word || hidden word y) := by
  have hmark : ∀ (m : Byte) (t : Bytes), m < 64 → case_starts (m :: t) word = false :=
    fun m t hm => case_starts_low hw ha hm t
  rcases y with _ | ⟨c, _ | ⟨c', y⟩⟩
  · exact (Bool.or_false _).symm
  · have hc : c ≠ 46 := fun h => hy (h ▸ rfl)
    have hplain : unstuff [c] = [c] := by
      unfold unstuff
      split
      · rename_i heq
        cases heq
      · rfl
    rw [hplain, hidden, beq_false_of_ne (by simpa using hc), Bool.false_and, Bool.or_false]
  · by_cases hc : c = 46
    · subst hc
      rw [unstuff, hmark 46 _ (by decide), Bool.false_or, hidden]
      simp only [List.head?_cons, beq_self_eq_true, Bool.true_and, List.tail_cons]
      split
      · rename_i hcr
        rw [hmark 46 _ (by decide), hcr, hmark 13 _ (by decide)]
      · rfl
    · have hplain : unstuff (c :: c' :: y) = c :: c' :: y := by
        unfold unstuff
        split
        · rename_i heq
          exact absurd (List.cons.inj heq).1 hc
        · rfl
      rw [hplain, hidden, beq_false_of_ne (by simpa using hc), Bool.false_and, Bool.or_false]

/-- A count goes up with every element that is added. -/
theorem countP_eq_iff {α : Type*} {p q : α → Bool} {xs : List α}
    (h : ∀ x ∈ xs, p x = true → q x = true) :
    xs.countP p = xs.countP q ↔ ∀ x ∈ xs, q x = true → p x = true := by
  induction xs with
  | nil => simp
  | cons x xs ih =>
      have hrest := ih fun y hy => h y (by simp [hy])
      have hle : xs.countP p ≤ xs.countP q :=
        List.countP_mono_left fun y hy => h y (by simp [hy])
      have hx := h x (by simp)
      simp only [List.countP_cons, List.forall_mem_cons, ← hrest]
      cases hp : p x <;> cases hq : q x
      · simp
      · simp
        omega
      · simp [hp, hq] at hx
      · simp

theorem ceipt_of_receipt {y : Bytes} (h : case_starts y (asc "return-receipt") = true) :
    ceipt y = true := by
  simp only [case_starts, beq_iff_eq, ceipt] at h ⊢
  have hdrop := congrArg (List.drop 9) h
  rw [← List.map_drop, List.drop_take] at hdrop
  exact hdrop

/-! ## §6 Hops and receipts -/

/-- `C` stands for `R ∨ S`, where `R` is a case of `C` and `S` is not. -/
theorem seen_iff {C R S : Prop} (h : R → C) : (C ↔ R ∨ S) ↔ R ∨ (¬ C ∧ ¬ S) ∨ C ∧ S := by
  by_cases hr : R
  · simp [hr, h hr]
  · by_cases hc : C <;> simp [hr, hc]

/-- A line of the connection whose dot hides a line that counts as forwarded. -/
def hidesHop (l : Bytes) : Bool := hidden (asc "received") l || hidden (asc "delivered") l

/-- Of the line of a lone dot nothing is put. -/
theorem Inside.part_nil {cur part : Bytes} {state : BlastState} (h : Inside cur state part)
    (hcur : cur <+: [46, 13]) : part = [] := by
  obtain ⟨t, ht⟩ := hcur
  -- the states in which something was put are not those of a prefix of the lone dot
  cases h with
  | line => rfl
  | dot => rfl
  | dotCr => rfl
  | @cr y hy =>
      rcases y with _ | ⟨c, _ | ⟨c', y⟩⟩
      · cases ht
      · exact absurd (by rw [(List.cons.inj ht).1]) hy
      · simp at ht
  | text hne hy hcr =>
      rcases cur with _ | ⟨c, _ | ⟨c', _ | ⟨c'', y⟩⟩⟩
      · exact absurd rfl hne
      · exact absurd (by rw [(List.cons.inj ht).1]) hy
      · simp at ht hcr
        exact absurd ht.2.1 hcr
      · simp at ht

theorem wireHeader_eq {convertbarelf : Bool} {input more : Bytes} {ls : List Bytes}
    (hline : ∀ l ∈ ls, (10 : Byte) ∉ l ∧ ∃ y, l = y ++ [13] ∧ y ≠ [46])
    (hlooked : looked convertbarelf false input = wire ls ++ [46, 13] ++ 10 :: more) :
    wireHeader convertbarelf input = ls.takeWhile (· ≠ [13]) := by
  have hdot : ∀ l ∈ ls, decide (l ≠ [46, 13]) = true := by
    intro l hl
    obtain ⟨-, y, rfl, hy⟩ := hline l hl
    exact decide_eq_true fun h => hy (List.append_cancel_right (h : y ++ [13] = [46] ++ [13]))
  rw [wireHeader, hlooked, List.append_assoc, fields_wire fun l hl => (hline l hl).1,
    fields_append (by decide), List.takeWhile_append_of_pos hdot,
    List.takeWhile_cons_of_neg (by simp), List.append_nil]

/-- **The header on the connection and that of the message**, when `blast` returns. -/
theorem headers {filters : Bytes → Bool} {convertbarelf : Bool} {BytesToOverflow : Nat}
    {input rest : Bytes} {b : Blast}
    (h : blast filters convertbarelf BytesToOverflow input = (.done, b, rest)) :
    (∀ l ∈ wireHeader convertbarelf input, ∃ y, l = y ++ [13] ∧ y ≠ [46]) ∧
    headerLines b.qqt.sent = (wireHeader convertbarelf input).map (fun l => unstuff l.dropLast) ∧
    b.header.hops = (wireHeader convertbarelf input).countP forwarded ∧
    b.header.dsn = (wireHeader convertbarelf input).any ceipt := by
  have hstart : At [] [] ({ qqt := { BytesToOverflow := BytesToOverflow } } : Blast) :=
    ⟨by simp, by simp, rfl, [], .line, rfl⟩
  obtain ⟨ls, cur, more, hat, hcur, hread⟩ := at_loop (p := ([], [])) hstart h
  obtain ⟨hline, -, hheader, part, hin, hsent⟩ := hat
  obtain ⟨hhops, hdsn⟩ := searches_wire 0 false (fun l hl => (hline l hl).1) cur hcur
  rw [headerAt_nil, ← hheader] at hhops hdsn
  rw [hin.part_nil hcur, List.append_nil] at hsent
  rw [wireHeader_eq hline hread]
  refine ⟨fun l hl => (hline l (List.takeWhile_subset _ hl)).2, ?_, ?_, ?_⟩
  · rw [hsent, headerLines_decoded hline]
  · rw [hhops, hopsIn_eq, Nat.zero_add]
  · rw [hdsn, Bool.false_or]

theorem case_starts_line {word y : Bytes} {a : Byte} (hw : word.head? = some a) (ha : 64 < a)
    (hno : (13 : Byte) ∉ word) (hy : y ≠ [46]) :
    case_starts (unstuff (y ++ [13]).dropLast) word =
      (case_starts (y ++ [13]) word || hidden word (y ++ [13])) := by
  rw [List.dropLast_concat, case_starts_unstuff hw ha hy, case_starts_mark hno rfl,
    hidden_return hno]

theorem forwarded_line {y : Bytes} (hy : y ≠ [46]) :
    forwarded (unstuff (y ++ [13]).dropLast) =
      (forwarded (y ++ [13]) || hidesHop (y ++ [13])) := by
  have hreceived := @case_starts_line (asc "received") y 114 rfl (by decide) (by decide) hy
  have hdelivered := @case_starts_line (asc "delivered") y 100 rfl (by decide) (by decide) hy
  rw [forwarded, hreceived, hdelivered, forwarded, hidesHop]
  cases case_starts (y ++ [13]) (asc "received") <;>
    cases case_starts (y ++ [13]) (asc "delivered") <;>
      cases hidden (asc "received") (y ++ [13]) <;> rfl

theorem forwarded_of_hidesHop {l : Bytes} (h : hidesHop l = true) : forwarded l = false := by
  rw [hidesHop, Bool.or_eq_true] at h
  rw [forwarded, Bool.or_eq_false_iff]
  rcases h with h | h
  · exact ⟨hidden_not_starts rfl (by decide) h, hidden_not_starts rfl (by decide) h⟩
  · exact ⟨hidden_not_starts rfl (by decide) h, hidden_not_starts rfl (by decide) h⟩

/-- The forwarded lines of both headers are as many if no dot hides one. -/
theorem hops_iff {ls : List Bytes} (hline : ∀ l ∈ ls, ∃ y, l = y ++ [13] ∧ y ≠ [46]) :
    ls.countP forwarded = (ls.map fun l => unstuff l.dropLast).countP forwarded ↔
      ∀ l ∈ ls, hidesHop l = false := by
  have hsame : ∀ l ∈ ls, forwarded (unstuff l.dropLast) = (forwarded l || hidesHop l) := by
    intro l hl
    obtain ⟨y, rfl, hy⟩ := hline l hl
    exact forwarded_line hy
  have hmore : ∀ l ∈ ls, forwarded l = true → (forwarded ∘ fun l => unstuff l.dropLast) l = true := by
    intro l hl hf
    rw [Function.comp, hsame l hl, hf, Bool.true_or]
  -- every line that is forwarded on the connection is so in the message: the counts are the same
  -- if no other is
  rw [List.countP_map, countP_eq_iff hmore]
  refine forall₂_congr fun l hl => ?_
  rw [Function.comp, hsame l hl]
  cases hh : hidesHop l with
  | false => simp
  | true => simp [forwarded_of_hidesHop hh]

/-- A line of the message asks for a receipt if one on the connection does, or hides it. -/
theorem receipt_iff {ls : List Bytes} (hline : ∀ l ∈ ls, ∃ y, l = y ++ [13] ∧ y ≠ [46]) :
    (∃ l ∈ ls.map fun l => unstuff l.dropLast, case_starts l (asc "return-receipt") = true) ↔
      (∃ l ∈ ls, case_starts l (asc "return-receipt") = true) ∨
        ∃ l ∈ ls, hidden (asc "return-receipt") l = true := by
  have hsame : ∀ l ∈ ls, case_starts (unstuff l.dropLast) (asc "return-receipt") =
      (case_starts l (asc "return-receipt") || hidden (asc "return-receipt") l) := by
    intro l hl
    obtain ⟨y, rfl, hy⟩ := hline l hl
    exact case_starts_line (a := 114) rfl (by decide) (by decide) hy
  constructor
  · rintro ⟨_, hmem, hl⟩
    obtain ⟨l, hlmem, rfl⟩ := List.mem_map.mp hmem
    rw [hsame l hlmem, Bool.or_eq_true] at hl
    exact hl.imp (fun h => ⟨l, hlmem, h⟩) fun h => ⟨l, hlmem, h⟩
  · rintro (⟨l, hlmem, hl⟩ | ⟨l, hlmem, hl⟩)
    · exact ⟨_, List.mem_map_of_mem hlmem, by rw [hsame l hlmem, hl, Bool.true_or]⟩
    · exact ⟨_, List.mem_map_of_mem hlmem, by rw [hsame l hlmem, hl, Bool.or_true]⟩

/-- **Hops.** At the terminator the hops are the forwarded lines of the header, and `dsn` says
whether a line of it asks for a receipt, exactly in these cases: no line of the header is
forwarded behind a dot that is taken off; and some line begins with `Return-Receipt` on the
connection, or no line has the five bytes that are looked at and none is hidden by a dot, or both
kinds are there. -/
theorem hops_dsn {filters : Bytes → Bool} {convertbarelf : Bool} {BytesToOverflow : Nat}
    {input rest : Bytes} {b : Blast}
    (h : blast filters convertbarelf BytesToOverflow input = (.done, b, rest)) :
    (b.header.hops = (headerLines b.qqt.sent).countP forwarded ↔
      ∀ l ∈ wireHeader convertbarelf input, hidesHop l = false) ∧
    ((b.header.dsn = true ↔
        ∃ l ∈ headerLines b.qqt.sent, case_starts l (asc "return-receipt") = true) ↔
      (∃ l ∈ wireHeader convertbarelf input, case_starts l (asc "return-receipt") = true) ∨
      ((∀ l ∈ wireHeader convertbarelf input, ceipt l = false) ∧
        ∀ l ∈ wireHeader convertbarelf input, hidden (asc "return-receipt") l = false) ∨
      (∃ l ∈ wireHeader convertbarelf input, ceipt l = true) ∧
        ∃ l ∈ wireHeader convertbarelf input, hidden (asc "return-receipt") l = true) := by
  obtain ⟨hline, hmessage, hhops, hdsn⟩ := headers h
  rw [hmessage, hhops, hdsn, List.any_eq_true]
  constructor
  · exact hops_iff hline
  · have hseen : (∃ l ∈ wireHeader convertbarelf input,
          case_starts l (asc "return-receipt") = true) →
        ∃ l ∈ wireHeader convertbarelf input, ceipt l = true :=
      fun ⟨l, hlmem, hl⟩ => ⟨l, hlmem, ceipt_of_receipt hl⟩
    have hnone : ∀ f : Bytes → Bool, (∀ l ∈ wireHeader convertbarelf input, f l = false) ↔
        ¬ ∃ l ∈ wireHeader convertbarelf input, f l = true := by
      intro f
      simp only [not_exists, not_and, Bool.not_eq_true]
    rw [receipt_iff hline, hnone, hnone]
    exact seen_iff hseen

/-- A message with one forwarded line in its header and one in its body. -/
def forwardedOnce : BlastEnd × Blast × Bytes :=
  blast (fun _ => false) false 0 (asc "RECEIVED: by a\r\nSubject: b\r\n\r\nReceived: c\r\n.\r\n")

theorem hops_dsn_once :
    forwardedOnce.2.1.header.hops = (headerLines forwardedOnce.2.1.qqt.sent).countP forwarded ∧
    (forwardedOnce.2.1.header.dsn = true ↔
      ∃ l ∈ headerLines forwardedOnce.2.1.qqt.sent, case_starts l (asc "return-receipt") = true) := by
  have h := hops_dsn (show blast (fun _ => false) false 0
    (asc "RECEIVED: by a\r\nSubject: b\r\n\r\nReceived: c\r\n.\r\n") =
      (.done, forwardedOnce.2.1, forwardedOnce.2.2) by decide +kernel)
  exact ⟨h.1.mpr (by decide +kernel), h.2.mpr (Or.inr (Or.inl ⟨by decide +kernel, by decide +kernel⟩))⟩

/-- A header in which no line asks for a receipt, and one whose only line is forwarded. -/
theorem hops_dsn_missed :
    let asked := blast (fun _ => false) false 0 (asc "X-Read-Receipt: no\r\n\r\n.\r\n")
    let stuffed := blast (fun _ => false) false 0 (asc ".Received: by a\r\n\r\n.\r\n")
    (asked.1 = .done ∧ asked.2.1.header.dsn = true ∧
      ¬ ∃ l ∈ headerLines asked.2.1.qqt.sent, case_starts l (asc "return-receipt") = true) ∧
    stuffed.1 = .done ∧ stuffed.2.1.header.hops = 0 ∧
      (headerLines stuffed.2.1.qqt.sent).countP forwarded = 1 := by
  decide +kernel

end IndimailMta.Smtpd
