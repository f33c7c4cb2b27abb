import IndimailMta.Base
import IndimailMta.Lib.Lines

/-!
# users/assign

`qmail-newu` reads the lines of `users/assign` up to one that begins with a dot, and writes one
record for each: under the name in lower case, with a NUL behind it if the line is not a wildcard
line, the six values of the line. The last record, under the empty key, holds the last bytes of
the wildcard names.
-/

namespace IndimailMta.Users

open IndimailMta Lines

/-- The records of a cdb, in the order in which they were added. -/
abbrev Cdb := List (Bytes × Bytes)

/-! ## `qmail-newu` -/

/-- The loop over `data`: colons become NULs, and the sixth ends it. -/
def colons : Nat → Bytes → Option Bytes
  | _, [] => none
  | numcolons, ch :: rest =>
      if ch = 58 then
        if numcolons + 1 = 6 then some [] else (colons (numcolons + 1) rest).map (0 :: ·)
      else (colons numcolons rest).map (ch :: ·)

/-- The record of a line, and the byte that is put into `wildchars`. -/
def newuLine (line : Bytes) : Option ((Bytes × Bytes) × Option Byte) :=
  if line.getLast? ≠ some 10 then none
  else if 0 ∈ line then none
  else
    let i := line.idxOf 58
    if i = line.length then none
    else if i = 0 then none
    else
      let key := caseLower (33 :: (line.drop 1).take (i - 1))
      match colons 0 (line.drop (i + 1)) with
      | none => none
      | some data =>
          if line.head? = some 43 then
            some ((key, data), if 2 ≤ i then (line)[i - 1]? else none)
          else some ((key ++ [0], data), none)

/-- `wildchars` has each byte once. -/
def addWild (wildchars : Bytes) : Option Byte → Bytes
  | none => wildchars
  | some ch => if ch ∈ wildchars then wildchars else wildchars ++ [ch]

def newuLines : List Bytes → Cdb → Bytes → Option Cdb
  | [], _, _ => none
  | line :: rest, cdb, wildchars =>
      if line.head? = some 46 then some (cdb ++ [([], wildchars)])
      else
        match newuLine line with
        | none => none
        | some r => newuLines rest (cdb ++ [r.1]) (addWild wildchars r.2)

/-- `qmail-newu`: the cdb, if the file is accepted. -/
def newu (assign : Bytes) : Option Cdb := newuLines (lines 10 assign) [] []

/-! ## The assignments -/

/-- A line of the file: the byte it begins with, the name, and the values. -/
structure Entry where
  mark : Byte
  name : Bytes
  values : List Bytes
  deriving DecidableEq, Repr

def entryOf (line : Bytes) : Entry where
  mark := line.headD 0
  name := (fields 58 line.tail).headD []
  values := ((fields 58 line.tail).drop 1).take 6

/-- The lines before the one that begins with a dot. -/
def entries (assign : Bytes) : List Entry :=
  ((lines 10 assign).takeWhile fun line => line.head? ≠ some 46).map entryOf

namespace Entry

def key (e : Entry) : Bytes := caseLower (33 :: e.name) ++ if e.mark = 43 then [] else [0]

def record (e : Entry) : Bytes × Bytes := (e.key, [0].intercalate e.values)

/-- The last byte of a wildcard name. -/
def wildchar (e : Entry) : Option Byte := if e.mark = 43 then e.name.getLast? else none

/-- There are six values, and no NUL. -/
structure Plain (e : Entry) : Prop where
  name : 0 ∉ e.name
  values : ∀ v ∈ e.values, 0 ∉ v
  six : e.values.length = 6

end Entry

/-! ## One line -/

theorem fields_of_colons {n : Nat} {s d : Bytes} (h : colons n s = some d) (hn : n < 6) :
    6 - n ≤ (fields 58 s).length ∧ d = [0].intercalate ((fields 58 s).take (6 - n)) := by
  induction s generalizing n d with
  | nil => exact nomatch h
  | cons ch rest ih =>
      rw [colons] at h
      by_cases hch : ch = 58
      · rw [if_pos hch] at h
        rw [hch, fields_mark, List.length_cons]
        by_cases hlast : n + 1 = 6
        · rw [if_pos hlast] at h
          have hsix : 6 - n = 1 := by omega
          refine ⟨by omega, ?_⟩
          rw [hsix, ← Option.some.inj h]
          rfl
        · rw [if_neg hlast, Option.map_eq_some_iff] at h
          obtain ⟨d', hd', rfl⟩ := h
          obtain ⟨hlen, rfl⟩ := ih hd' (by omega)
          refine ⟨by omega, ?_⟩
          have hsucc : 6 - n = (6 - (n + 1)) + 1 := by omega
          rw [hsucc, List.take_succ_cons]
          cases hf : fields 58 rest with
          | nil =>
              rw [hf, List.length_nil] at hlen
              omega
          | cons x xs =>
              have hsucc' : 6 - (n + 1) = (5 - (n + 1)) + 1 := by omega
              rw [hsucc', List.take_succ_cons]
              rfl
      · rw [if_neg hch, Option.map_eq_some_iff] at h
        obtain ⟨d', hd', rfl⟩ := h
        obtain ⟨hlen, rfl⟩ := ih hd' hn
        rw [fields, if_neg hch]
        cases hf : fields 58 rest with
        | nil =>
            rw [hf, List.length_nil] at hlen
            omega
        | cons x xs =>
            rw [hf] at hlen
            refine ⟨hlen, ?_⟩
            have hsucc : 6 - n = (5 - n) + 1 := by omega
            rw [hsucc, List.take_succ_cons, List.take_succ_cons]
            cases xs.take (5 - n) <;> rfl

/-- A line that is accepted: its entry has six values, and the record is the entry's. -/
theorem newuLine_eq_some {line : Bytes} {r : (Bytes × Bytes) × Option Byte}
    (h : newuLine line = some r) :
    (entryOf line).Plain ∧ r = ((entryOf line).record, (entryOf line).wildchar) := by
  rw [newuLine] at h
  by_cases hmatch : line.getLast? ≠ some 10
  · rw [if_pos hmatch] at h
    exact nomatch h
  by_cases hnul : 0 ∈ line
  · rw [if_neg hmatch, if_pos hnul] at h
    exact nomatch h
  rw [if_neg hmatch, if_neg hnul] at h
  dsimp only at h
  by_cases hcolon : line.idxOf 58 = line.length
  · rw [if_pos hcolon] at h
    exact nomatch h
  by_cases hfirst : line.idxOf 58 = 0
  · rw [if_neg hcolon, if_pos hfirst] at h
    exact nomatch h
  rw [if_neg hcolon, if_neg hfirst] at h
  -- the line is a byte, the name, a colon and the data
  have hmem : (58 : Byte) ∈ line :=
    List.idxOf_lt_length_iff.mp (Nat.lt_of_le_of_ne List.idxOf_le_length hcolon)
  obtain ⟨u, data, hline, hu⟩ := List.eq_append_cons_of_mem hmem
  obtain ⟨c, name, rfl⟩ : ∃ c name, u = c :: name := by
    cases u with
    | nil =>
        rw [hline, List.nil_append, List.idxOf_cons_self] at hfirst
        exact absurd rfl hfirst
    | cons c name => exact ⟨c, name, rfl⟩
  have hi : line.idxOf 58 = name.length + 1 := by
    rw [hline, List.idxOf_append_of_notMem hu, List.idxOf_cons_self, List.length_cons, Nat.add_zero]
  have hname : 58 ∉ name := fun hm => hu (List.mem_cons_of_mem c hm)
  have hentry : entryOf line = ⟨c, name, (fields 58 data).take 6⟩ := by
    rw [entryOf, hline, List.cons_append, List.tail_cons, fields_append hname]
    rfl
  rw [hi, Nat.add_sub_cancel] at h
  have hkey : (line.drop 1).take name.length = name := by
    rw [hline]
    simp
  have hdata : line.drop (name.length + 1 + 1) = data := by
    rw [hline, List.cons_append, List.drop_succ_cons, List.drop_append,
      List.drop_of_length_le (Nat.le_succ _)]
    simp
  have hhead : line.head? = some c := by
    rw [hline]
    rfl
  rw [hkey, hdata, hhead] at h
  cases hd : colons 0 data with
  | none =>
      rw [hd] at h
      exact nomatch h
  | some d =>
      obtain ⟨hsix, rfl⟩ := fields_of_colons hd (by decide)
      rw [hd] at h
      dsimp only at h
      rw [hentry]
      refine ⟨⟨?_, ?_, ?_⟩, ?_⟩
      · intro hm
        apply hnul
        rw [hline]
        simp [hm]
      · intro v hv hm
        apply hnul
        have hnul : (0 : Byte) ∈ data := mem_of_mem_fields (List.mem_of_mem_take hv) hm
        rw [hline]
        simp [hnul]
      · rw [List.length_take]
        omega
      · by_cases hc : c = 43
        · rw [if_pos (by rw [hc])] at h
          rw [← Option.some.inj h, Entry.record, Entry.key, Entry.wildchar, if_pos hc, if_pos hc,
            List.append_nil]
          cases name with
          | nil => rfl
          | cons b bs =>
              have hlast : (line)[(b :: bs).length]? = (b :: bs).getLast? := by
                rw [hline, List.cons_append, List.length_cons, List.getElem?_cons_succ,
                  List.getElem?_append_left (by simp), List.getLast?_eq_getElem?]
                rfl
              rw [if_pos (by simp), hlast]
        · rw [if_neg fun hs => hc (Option.some.inj hs)] at h
          rw [← Option.some.inj h, Entry.record, Entry.key, Entry.wildchar, if_neg hc, if_neg hc]

/-! ## The file -/

/-- The bytes that are put into `wildchars`. -/
def IsWild (es : List Entry) (ch : Byte) : Prop := ∃ e ∈ es, e.wildchar = some ch

theorem mem_addWild {wildchars : Bytes} {w : Option Byte} {ch : Byte} :
    ch ∈ addWild wildchars w ↔ ch ∈ wildchars ∨ w = some ch := by
  cases w with
  | none => simp [addWild]
  | some x =>
      rw [addWild]
      split
      · rename_i hx
        constructor
        · exact Or.inl
        · rintro (h | h)
          · exact h
          · exact Option.some.inj h ▸ hx
      · rw [List.mem_append, List.mem_singleton, Option.some.injEq, eq_comm (a := ch)]

/-- What is in the cdb of a file that is accepted. -/
theorem newuLines_eq_some {ls : List Bytes} {recs cdb : Cdb} {wildchars : Bytes}
    (h : newuLines ls recs wildchars = some cdb) :
    ∃ wild, (∀ e ∈ (ls.takeWhile fun line => line.head? ≠ some 46).map entryOf, e.Plain) ∧
      cdb = recs ++ ((ls.takeWhile fun line => line.head? ≠ some 46).map entryOf).map
        Entry.record ++ [([], wild)] ∧
      ∀ ch, ch ∈ wild ↔ ch ∈ wildchars ∨
        IsWild ((ls.takeWhile fun line => line.head? ≠ some 46).map entryOf) ch := by
  induction ls generalizing recs wildchars with
  | nil => exact nomatch h
  | cons line ls ih =>
      rw [newuLines] at h
      by_cases hdot : line.head? = some 46
      · rw [if_pos hdot] at h
        rw [List.takeWhile_cons_of_neg (by simp [hdot])]
        refine ⟨wildchars, fun e he => absurd he List.not_mem_nil, ?_, ?_⟩
        · rw [← Option.some.inj h]
          simp
        · intro ch
          simp [IsWild]
      · rw [if_neg hdot] at h
        cases hr : newuLine line with
        | none =>
            rw [hr] at h
            exact nomatch h
        | some r =>
            rw [hr] at h
            obtain ⟨hplain, rfl⟩ := newuLine_eq_some hr
            obtain ⟨wild, hall, hcdb, hwild⟩ := ih h
            rw [List.takeWhile_cons_of_pos (by simp [hdot]), List.map_cons, List.map_cons]
            refine ⟨wild, ?_, ?_, ?_⟩
            · intro e he
              rcases List.mem_cons.mp he with rfl | he
              · exact hplain
              · exact hall e he
            · rw [hcdb]
              simp
            · intro ch
              rw [hwild ch, mem_addWild, IsWild, IsWild, List.exists_mem_cons_iff, or_assoc]

/-- The records of a file that is accepted. -/
structure Compiled (es : List Entry) (cdb : Cdb) : Prop where
  plain : ∀ e ∈ es, e.Plain
  records : ∃ wild, cdb = es.map Entry.record ++ [([], wild)] ∧ ∀ ch, ch ∈ wild ↔ IsWild es ch

theorem compiled_of_newu {assign : Bytes} {cdb : Cdb} (h : newu assign = some cdb) :
    Compiled (entries assign) cdb := by
  obtain ⟨wild, hplain, hcdb, hwild⟩ := newuLines_eq_some h
  refine ⟨hplain, wild, ?_, ?_⟩
  · rw [hcdb, List.nil_append]
    rfl
  · intro ch
    rw [hwild ch, or_iff_right List.not_mem_nil]
    rfl

end IndimailMta.Users
