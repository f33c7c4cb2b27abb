import Mathlib.Data.List.TakeWhile
import IndimailMta.Lib.Lines
import IndimailMta.Lib.OutStream
import IndimailMta.Quote

/-!
# Delivery to an mbox file

`mailfile` appends a message to a file, behind a line that begins with `From `, and puts a `>` in
front of the lines of the message that could be taken for one. If something fails the file is cut
back to where it ended.

The line is put together in `main`: the space behind the sender is written in the branch for the
empty sender only.
-/

namespace IndimailMta.Local

open IndimailMta Output Lines

/-! ## The code -/

/-- One delivery: the arguments of `qmail-local`, what the clock and the message give, and how the
system calls go. The getln after `readFault` others fails. -/
structure Delivery (O : OutStream Byte) where
  sender : Bytes
  envrecip : Bytes
  qqeh : Bytes
  qtime : Bytes
  message : Bytes
  rewinds : Bool
  opens : Bool
  locked : Bool
  readFault : Option Nat
  out : O.State
  synced : Bool
  dquot : Bool
  qtime_line : ∃ t, qtime = t ++ [10] ∧ (10 : Byte) ∉ t

variable {O : OutStream Byte}

/-- A header line has no newline but its own. -/
def noNewline (s : Bytes) : Bytes := s.map fun ch => if ch = 10 then 95 else ch

def Delivery.dtline (d : Delivery O) : Bytes := noNewline (asc "Delivered-To: " ++ d.envrecip) ++ [10]

def Delivery.rpline (d : Delivery O) : Bytes :=
  noNewline (asc "Return-Path: <" ++ Quote.quote2 d.sender) ++ asc ">" ++ [10]

def Delivery.ufline (d : Delivery O) : Bytes :=
  asc "From " ++
    (if d.sender ≠ [] then
      d.sender.map fun ch => if ch = 32 ∨ ch = 9 ∨ ch = 10 then 45 else ch
    else asc "MAILER-DAEMON" ++ asc " ") ++ d.qtime

def gfrom : Bytes → Bool
  | [] => false
  | b :: s => if b = 62 then gfrom s else decide (asc "From " <+: b :: s)

/-- Texts that are put one after the other, up to one that fails. -/
def puts (O : OutStream Byte) (out : O.State) : List Bytes → Bool × O.State
  | [] => (true, out)
  | b :: bs =>
      let r := O.put out b
      if r.1 then puts O r.2 bs else (false, r.2)

/-- How the loop of `mailfile` ends. -/
inductive Copied (O : OutStream Byte) where
  | readerrs (out : O.State)
  | writeerrs (out : O.State)
  | all (out : O.State)

/-- What is put for a line; a last line without a newline is given one. -/
def lineTexts (messline : Bytes) : List Bytes :=
  (if gfrom messline then [[62]] else []) ++
    messline :: if messline.getLast? = some 10 then [] else [[10]]

def copyLoop (O : OutStream Byte) : Option Nat → List Bytes → O.State → Copied O
  | some 0, _, out => .readerrs out
  | _, [], out => .all out
  | fault, messline :: ls, out =>
      let r := puts O out (lineTexts messline)
      if r.1 then
        if messline.getLast? = some 10 then copyLoop O (fault.map (· - 1)) ls r.2 else .all r.2
      else .writeerrs r.2

/-- What `mailfile` does before it closes the file, and how it ends: no code where it returns. -/
def write (d : Delivery O) : Option Nat × O.State :=
  let errs := fun out : O.State => (some (if d.dquot then 100 else 111), out)
  let r := puts O (O.fdbuf d.out) [d.ufline, d.rpline, d.dtline, d.qqeh]
  if r.1 = false then errs r.2
  else
    match copyLoop O d.readFault (lines 10 d.message) r.2 with
    | .readerrs out => (some 111, out)
    | .writeerrs out => errs out
    | .all out =>
        let r := O.put out [10]
        if r.1 = false then errs r.2
        else
          let r := O.flush r.2
          if r.1 = false then errs r.2
          else if d.synced = false then errs r.2
          else (none, r.2)

/-- The exit code, if the process ends, and the file. -/
def mailfile (d : Delivery O) (file : Bytes) : Option Nat × Bytes :=
  if d.rewinds = false then (some 111, file)
  else if d.opens = false then (some 111, file)
  else
    let pos := file.length
    let r := write d
    let file := file ++ O.sent r.2
    match r.1 with
    | none => (none, file)
    | some code => (some code, if d.locked then file.take pos else file)

/-- Deliveries, each with a process of its own. -/
def deliverAll (ds : List (Delivery O)) (file : Bytes) : Bytes :=
  ds.foldl (fun file d => (mailfile d file).2) file

/-! ## What is to be delivered -/

/-- A line that could be taken for the first of a message, or could once marks are taken off. -/
def Matches (l : Bytes) : Prop := ∃ k rest, l = List.replicate k 62 ++ asc "From " ++ rest

instance (l : Bytes) : Decidable (Matches l) :=
  decidable_of_iff (asc "From " <+: l.dropWhile (· = 62)) (by
    constructor
    · rintro ⟨rest, hrest⟩
      have hmarks : l.takeWhile (· = 62) = List.replicate (l.takeWhile (· = 62)).length 62 :=
        List.eq_replicate_of_mem fun b hb => by simpa using List.mem_takeWhile_imp hb
      refine ⟨(l.takeWhile (· = 62)).length, rest, ?_⟩
      rw [← hmarks, List.append_assoc, hrest, List.takeWhile_append_dropWhile]
    · rintro ⟨k, rest, rfl⟩
      have hall : ∀ b ∈ List.replicate k (62 : Byte), decide (b = 62) = true := fun b hb =>
        decide_eq_true (List.eq_of_mem_replicate hb)
      rw [List.append_assoc, List.dropWhile_append_of_pos hall]
      exact ⟨rest, rfl⟩)

/-- A line of the message, with a `>` if it needs one, and a newline. -/
def quoted (l : Bytes) : Bytes :=
  (if Matches l then 62 :: l else l) ++ if l.getLast? = some 10 then [] else [10]

/-- The part of a file that a delivery is, and the empty line behind it. -/
def Delivery.part (d : Delivery O) : Bytes :=
  asc "From " ++ (if d.sender = [] then asc "MAILER-DAEMON" else d.sender) ++ asc " " ++ d.qtime ++
    d.rpline ++ d.dtline ++ (lines 10 d.message).flatMap quoted ++ [10]

/-- Lines, cut in front of those that begin with `From `. -/
def parts : List Bytes → List Bytes
  | [] => []
  | l :: ls =>
      match parts ls with
      | [] => [l]
      | p :: ps => if asc "From " <+: p then l :: p :: ps else (l ++ p) :: ps

/-- The delivery succeeds. -/
def Delivery.Delivers (d : Delivery O) : Prop := d.rewinds = true ∧ d.opens = true ∧ (write d).1 = none

instance (d : Delivery O) : Decidable d.Delivers := inferInstanceAs (Decidable (_ ∧ _))

/-! ## Lines -/

/-- A line: no newline but the last byte. -/
def IsLine (l : Bytes) : Prop := ∃ s, l = s ++ [10] ∧ (10 : Byte) ∉ s

theorem lines_flatten_append {ls : List Bytes} (hls : ∀ l ∈ ls, IsLine l) (t : Bytes) :
    lines 10 (ls.flatten ++ t) = ls ++ lines 10 t := by
  induction ls with
  | nil => rfl
  | cons l ls ih =>
      obtain ⟨s, rfl, hs⟩ := hls l List.mem_cons_self
      have htail := ih fun x hx => hls x (List.mem_cons_of_mem _ hx)
      rw [List.flatten_cons, List.append_assoc, List.append_assoc, List.singleton_append,
        lines_append hs, htail, List.cons_append]

/-- What `lines` gives are lines, or the last has no newline. -/
theorem mem_lines {l m : Bytes} (hl : l ∈ lines 10 m) :
    IsLine l ∨ (10 : Byte) ∉ l ∧ l ≠ [] ∧ l.getLast? ≠ some 10 := by
  induction m generalizing l with
  | nil => cases hl
  | cons b m ih =>
      rw [lines] at hl
      by_cases hb : b = 10
      · rw [if_pos hb] at hl
        rcases List.mem_cons.mp hl with rfl | hl
        · exact .inl ⟨[], by rw [hb]; rfl, by simp⟩
        · exact ih hl
      · rw [if_neg hb] at hl
        cases hm : lines 10 m with
        | nil =>
            rw [hm] at hl
            obtain rfl := List.mem_singleton.mp hl
            refine .inr ⟨?_, List.cons_ne_nil _ _, ?_⟩
            · rw [List.mem_singleton]
              exact Ne.symm hb
            · rw [List.getLast?_singleton]
              exact fun h => hb (Option.some.inj h)
        | cons k ls =>
            rw [hm] at ih hl
            rcases List.mem_cons.mp hl with rfl | hl
            · rcases ih List.mem_cons_self with ⟨s, rfl, hs⟩ | ⟨hno, hne, hlast⟩
              · refine .inl ⟨b :: s, rfl, ?_⟩
                rw [List.mem_cons, not_or]
                exact ⟨Ne.symm hb, hs⟩
              · refine .inr ⟨?_, List.cons_ne_nil _ _, ?_⟩
                · rw [List.mem_cons, not_or]
                  exact ⟨Ne.symm hb, hno⟩
                · rwa [List.getLast?_cons, List.getLast?_eq_some_getLast hne, Option.getD_some,
                    ← List.getLast?_eq_some_getLast hne]
            · exact ih (List.mem_cons_of_mem _ hl)

/-- Only the last may have none. -/
theorem mem_dropLast_lines {l m : Bytes} (hl : l ∈ (lines 10 m).dropLast) :
    l.getLast? = some 10 := by
  induction m generalizing l with
  | nil => cases hl
  | cons b m ih =>
      rw [lines] at hl
      by_cases hb : b = 10
      · rw [if_pos hb] at hl
        cases hm : lines 10 m with
        | nil =>
            rw [hm] at hl
            cases hl
        | cons k ls =>
            rw [hm] at ih hl
            rw [List.dropLast_cons_of_ne_nil (List.cons_ne_nil _ _)] at hl
            rcases List.mem_cons.mp hl with rfl | hl
            · rw [hb]
              rfl
            · exact ih hl
      · rw [if_neg hb] at hl
        cases hm : lines 10 m with
        | nil =>
            rw [hm] at hl
            cases hl
        | cons k ls =>
            rw [hm] at ih hl
            cases ls with
            | nil => cases hl
            | cons j ls =>
                rw [List.dropLast_cons_of_ne_nil (List.cons_ne_nil _ _)] at hl ih
                rcases List.mem_cons.mp hl with rfl | hl
                · have hk := ih List.mem_cons_self
                  rw [List.getLast?_cons, hk]
                  rfl
                · exact ih (List.mem_cons_of_mem _ hl)

theorem gfrom_iff (l : Bytes) : gfrom l = true ↔ Matches l := by
  induction l with
  | nil =>
      refine iff_of_false (by decide) ?_
      rintro ⟨k, rest, h⟩
      have := congrArg List.length h
      simp [asc] at this
  | cons b l ih =>
      rw [gfrom]
      by_cases hb : b = 62
      · rw [if_pos hb, ih]
        constructor
        · rintro ⟨k, rest, rfl⟩
          exact ⟨k + 1, rest, by rw [hb, List.replicate_succ]; rfl⟩
        · rintro ⟨k, rest, h⟩
          cases k with
          | zero =>
              rw [hb] at h
              exact absurd (List.cons.inj h).1 (by decide)
          | succ k =>
              rw [List.replicate_succ] at h
              exact ⟨k, rest, (List.cons.inj h).2⟩
      · rw [if_neg hb, decide_eq_true_iff]
        constructor
        · rintro ⟨rest, hrest⟩
          exact ⟨0, rest, hrest.symm⟩
        · rintro ⟨k, rest, h⟩
          cases k with
          | zero => exact ⟨rest, h.symm⟩
          | succ k => exact (hb (List.cons.inj h).1).elim

/-- A quoted line is a line, and does not begin a message. -/
theorem quoted_line {l m : Bytes} (hl : l ∈ lines 10 m) :
    IsLine (quoted l) ∧ ¬ asc "From " <+: quoted l := by
  have hmark : ¬ Matches l → ¬ asc "From " <+: l := by
    rintro hno ⟨rest, hrest⟩
    exact hno ⟨0, rest, hrest.symm⟩
  have hhead : ∀ s : Bytes, ¬ asc "From " <+: 62 :: s := by
    rintro s ⟨rest, hrest⟩
    exact absurd (List.cons.inj hrest).1 (by decide)
  rw [quoted]
  rcases mem_lines hl with ⟨s, rfl, hs⟩ | ⟨hno, -, hlast⟩
  · rw [if_pos List.getLast?_concat, List.append_nil]
    split_ifs with h
    · refine ⟨⟨62 :: s, rfl, ?_⟩, hhead _⟩
      rw [List.mem_cons, not_or]
      exact ⟨by decide, hs⟩
    · exact ⟨⟨s, rfl, hs⟩, hmark h⟩
  · rw [if_neg hlast]
    split_ifs with h
    · refine ⟨⟨62 :: l, rfl, ?_⟩, hhead _⟩
      rw [List.mem_cons, not_or]
      exact ⟨by decide, hno⟩
    · refine ⟨⟨l, rfl, hno⟩, fun hpre => ?_⟩
      rcases List.prefix_concat_iff.mp hpre with heq | hpre
      · have := congrArg List.getLast? heq
        rw [List.getLast?_concat] at this
        exact absurd this (by decide)
      · exact hmark h hpre

/-! ## Cutting -/

/-- What begins with a line that is not the first of a message does not begin one. -/
theorem not_from_append {l : Bytes} (hl : IsLine l) (hno : ¬ asc "From " <+: l) (t : Bytes) :
    ¬ asc "From " <+: l ++ t := by
  intro hpre
  obtain ⟨s, rfl, -⟩ := hl
  rcases List.prefix_or_prefix_of_prefix hpre (List.prefix_append _ t) with h | h
  · exact hno h
  · have hmem : (10 : Byte) ∈ asc "From " := h.subset (by simp)
    exact absurd hmem (by decide)

/-- The lines of a message, and those of the next ones. -/
theorem parts_message {l : Bytes} {ls tail : List Bytes}
    (hls : ∀ x ∈ ls, IsLine x ∧ ¬ asc "From " <+: x)
    (htail : ∀ p ∈ (parts tail).head?, asc "From " <+: p) :
    parts (l :: (ls ++ tail)) = (l ++ ls.flatten) :: parts tail := by
  induction ls generalizing l with
  | nil =>
      rw [List.nil_append, List.flatten_nil, List.append_nil, parts]
      cases hparts : parts tail with
      | nil => rfl
      | cons p ps =>
          rw [hparts] at htail
          exact if_pos (htail p rfl)
  | cons x ls ih =>
      obtain ⟨hline, hno⟩ := hls x List.mem_cons_self
      have hx := @ih x fun y hy => hls y (List.mem_cons_of_mem _ hy)
      rw [List.cons_append, parts, hx]
      dsimp only
      rw [if_neg (not_from_append hline hno _), List.flatten_cons]

/-! ## One delivery -/

theorem puts_held {out : O.State} {bs : List Bytes} (h : (puts O out bs).1 = true) :
    O.held (puts O out bs).2 = O.held out ++ bs.flatten := by
  induction bs generalizing out with
  | nil => simp [puts]
  | cons b bs ih =>
      rw [puts] at h ⊢
      by_cases hput : (O.put out b).1 = true
      · simp only [if_pos hput] at h ⊢
        rw [ih h, O.held_put out b hput, List.flatten_cons, List.append_assoc]
      · simp only [if_neg hput] at h
        cases h

theorem lineTexts_flatten (l : Bytes) : (lineTexts l).flatten = quoted l := by
  rw [lineTexts, quoted]
  by_cases hg : gfrom l = true
  · rw [if_pos hg, if_pos ((gfrom_iff l).mp hg)]
    split_ifs <;> simp
  · rw [if_neg hg, if_neg fun h => hg ((gfrom_iff l).mpr h)]
    split_ifs <;> simp

/-- The loop puts the quoted lines. -/
theorem copyLoop_held {fault : Option Nat} {ls : List Bytes} {out out' : O.State}
    (hls : ∀ l ∈ ls.dropLast, l.getLast? = some 10) (h : copyLoop O fault ls out = .all out') :
    O.held out' = O.held out ++ ls.flatMap quoted := by
  induction ls generalizing fault out with
  | nil =>
      rcases fault with _ | _ | n
      · cases h
        simp
      · cases h
      · cases h
        simp
  | cons l ls ih =>
      have hstep : (puts O out (lineTexts l)).1 = true ∧
          (if l.getLast? = some 10 then
            copyLoop O (fault.map (· - 1)) ls (puts O out (lineTexts l)).2
          else .all (puts O out (lineTexts l)).2) = .all out' := by
        rcases fault with _ | _ | n
        · rw [copyLoop] at h
          · by_cases hput : (puts O out (lineTexts l)).1 = true
            · exact ⟨hput, by simpa only [if_pos hput] using h⟩
            · simp only [if_neg hput] at h
              cases h
          · intro h
            cases h
        · cases h
        · rw [copyLoop] at h
          · by_cases hput : (puts O out (lineTexts l)).1 = true
            · exact ⟨hput, by simpa only [if_pos hput] using h⟩
            · simp only [if_neg hput] at h
              cases h
          · intro h
            cases h
      obtain ⟨hput, hrest⟩ := hstep
      have hheld := puts_held hput
      rw [lineTexts_flatten] at hheld
      rw [List.flatMap_cons, ← List.append_assoc, ← hheld]
      by_cases hlast : l.getLast? = some 10
      · rw [if_pos hlast] at hrest
        refine ih (fun x hx => hls x ?_) hrest
        cases ls with
        | nil => cases hx
        | cons y ls =>
            rw [List.dropLast_cons_of_ne_nil (List.cons_ne_nil _ _)]
            exact List.mem_cons_of_mem _ hx
      · -- the last line
        rw [if_neg hlast] at hrest
        cases ls with
        | nil =>
            cases hrest
            simp
        | cons y ls =>
            exact (hlast (hls l (by
              rw [List.dropLast_cons_of_ne_nil (List.cons_ne_nil _ _)]
              exact List.mem_cons_self))).elim

/-- **What a delivery writes** that succeeds. -/
theorem write_sent {d : Delivery O} (h : (write d).1 = none) :
    O.sent (write d).2 = d.ufline ++ d.rpline ++ d.dtline ++ d.qqeh ++
      (lines 10 d.message).flatMap quoted ++ [10] := by
  rw [write] at h ⊢
  dsimp only at h ⊢
  by_cases hput : (puts O (O.fdbuf d.out) [d.ufline, d.rpline, d.dtline, d.qqeh]).1 = false
  · rw [if_pos hput] at h
    cases h
  · rw [if_neg hput] at h ⊢
    have hheld := puts_held (Bool.of_not_eq_false hput)
    rw [O.held_fdbuf, List.nil_append] at hheld
    cases hcopy : copyLoop O d.readFault (lines 10 d.message)
        (puts O (O.fdbuf d.out) [d.ufline, d.rpline, d.dtline, d.qqeh]).2 with
    | readerrs out =>
        rw [hcopy] at h
        cases h
    | writeerrs out =>
        rw [hcopy] at h
        cases h
    | all out =>
        rw [hcopy] at h
        dsimp only at h ⊢
        have hcopied := copyLoop_held (fun l => mem_dropLast_lines) hcopy
        split_ifs at h with hnl hflush hsync
        rw [if_neg hnl, if_neg hflush, if_neg hsync]
        have hput := O.held_put out [10] (Bool.of_not_eq_false hnl)
        have hsent := O.sent_flush _ (Bool.of_not_eq_false hflush)
        rw [hsent, hput, hcopied, hheld]
        simp

/-- What a delivery does to a file. -/
theorem mailfile_eq (d : Delivery O) (file : Bytes) :
    ((mailfile d file).1 = none ↔ d.Delivers) ∧
      (d.Delivers → (mailfile d file).2 = file ++ O.sent (write d).2) ∧
      (¬ d.Delivers → d.locked = true → (mailfile d file).2 = file) := by
  rw [mailfile, Delivery.Delivers]
  cases hrewinds : d.rewinds with
  | false => simp
  | true =>
      cases hopens : d.opens with
      | false => simp
      | true =>
          dsimp only
          cases hwrite : (write d).1 with
          | none => simp
          | some code =>
              refine ⟨by simp, by simp, fun _ hlocked => ?_⟩
              simp [hlocked]

/-! ## The file -/

/-- The lines of a part that was written. -/
def Delivery.partLines (d : Delivery O) : List Bytes :=
  [d.rpline, d.dtline] ++ (lines 10 d.message).map quoted ++ [[10]]

theorem isLine_noNewline (s : Bytes) {t : Bytes} (ht : (10 : Byte) ∉ t) :
    IsLine (noNewline s ++ t ++ [10]) := by
  refine ⟨_, rfl, ?_⟩
  rw [List.mem_append, not_or]
  refine ⟨fun h => ?_, ht⟩
  obtain ⟨ch, -, hch⟩ := List.mem_map.mp h
  split_ifs at hch with h10
  · exact absurd hch (by decide)
  · exact h10 hch

theorem ufline_line (d : Delivery O) : IsLine d.ufline ∧ asc "From " <+: d.ufline := by
  obtain ⟨t, ht, hno⟩ := d.qtime_line
  refine ⟨⟨asc "From " ++ (if d.sender ≠ [] then
      d.sender.map fun ch => if ch = 32 ∨ ch = 9 ∨ ch = 10 then 45 else ch
    else asc "MAILER-DAEMON" ++ asc " ") ++ t, ?_, ?_⟩, ?_⟩
  · rw [Delivery.ufline, ht, List.append_assoc, List.append_assoc, List.append_assoc]
  · rw [List.mem_append, List.mem_append, not_or, not_or]
    refine ⟨⟨by decide, fun h => ?_⟩, hno⟩
    split_ifs at h
    · obtain ⟨ch, -, hch⟩ := List.mem_map.mp h
      split_ifs at hch with hblank
      · exact absurd hch (by decide)
      · exact hblank (.inr (.inr hch))
    · exact absurd h (by decide)
  · rw [Delivery.ufline, List.append_assoc]
    exact List.prefix_append _ _

theorem partLines_line (d : Delivery O) :
    ∀ x ∈ d.partLines, IsLine x ∧ ¬ asc "From " <+: x := by
  intro x hx
  have hhead : ∀ (b : Byte) (s : Bytes), b ≠ 70 → ¬ asc "From " <+: b :: s := by
    rintro b s hb ⟨rest, hrest⟩
    exact hb (List.cons.inj hrest).1.symm
  simp only [Delivery.partLines, List.mem_append, List.mem_cons, List.not_mem_nil, or_false,
    List.mem_map] at hx
  rcases hx with ((rfl | rfl) | ⟨l, hl, rfl⟩) | rfl
  · exact ⟨isLine_noNewline _ (by decide), hhead 82 _ (by decide)⟩
  · refine ⟨?_, hhead 68 _ (by decide)⟩
    have := isLine_noNewline (asc "Delivered-To: " ++ d.envrecip) (t := []) (by simp)
    rwa [List.append_nil] at this
  · exact quoted_line hl
  · exact ⟨⟨[], rfl, by simp⟩, hhead 10 [] (by decide)⟩

theorem write_sent_lines {d : Delivery O} (h : d.Delivers) (hqqeh : d.qqeh = []) :
    O.sent (write d).2 = (d.ufline :: d.partLines).flatten := by
  rw [write_sent h.2.2, hqqeh, Delivery.partLines]
  simp [List.flatMap_def]

/-- The file after some deliveries: the lines of those that succeed. -/
theorem deliverAll_eq {ds : List (Delivery O)} (hlocked : ∀ d ∈ ds, d.locked = true)
    (hqqeh : ∀ d ∈ ds, d.qqeh = []) (file : Bytes) :
    deliverAll ds file = file ++
      ((ds.filter fun d => decide d.Delivers).flatMap fun d => d.ufline :: d.partLines).flatten := by
  induction ds generalizing file with
  | nil => simp [deliverAll]
  | cons d ds ih =>
      have htail := ih (fun x hx => hlocked x (List.mem_cons_of_mem _ hx)) fun x hx =>
        hqqeh x (List.mem_cons_of_mem _ hx)
      have hcons : deliverAll (d :: ds) file = deliverAll ds (mailfile d file).2 := rfl
      obtain ⟨-, hyes, hno⟩ := mailfile_eq d file
      rw [hcons, htail]
      by_cases hd : d.Delivers
      · have hfilter : (d :: ds).filter (fun d => decide d.Delivers) =
            d :: ds.filter fun d => decide d.Delivers :=
          List.filter_cons_of_pos (decide_eq_true hd)
        rw [hyes hd, write_sent_lines hd (hqqeh d List.mem_cons_self), hfilter, List.flatMap_cons, List.flatten_append,
          List.append_assoc]
      · have hfilter : (d :: ds).filter (fun d => decide d.Delivers) =
            ds.filter fun d => decide d.Delivers :=
          List.filter_cons_of_neg fun h => hd (of_decide_eq_true h)
        rw [hno hd (hlocked d List.mem_cons_self), hfilter]

/-- The parts of such a file. -/
theorem parts_deliveries (ds : List (Delivery O)) :
    parts (ds.flatMap fun d => d.ufline :: d.partLines) =
        ds.map (fun d => (d.ufline :: d.partLines).flatten) ∧
      ∀ p ∈ (parts (ds.flatMap fun d => d.ufline :: d.partLines)).head?, asc "From " <+: p := by
  induction ds with
  | nil => exact ⟨rfl, by simp [parts]⟩
  | cons d ds ih =>
      obtain ⟨hparts, hhead⟩ := ih
      have hmessage := parts_message (l := d.ufline) (partLines_line d) hhead
      have hcons : parts ((d :: ds).flatMap fun d => d.ufline :: d.partLines) =
          (d.ufline ++ d.partLines.flatten) ::
            parts (ds.flatMap fun d => d.ufline :: d.partLines) := by
        rw [List.flatMap_cons, List.cons_append, hmessage]
      rw [hcons, hparts]
      refine ⟨rfl, fun p hp => ?_⟩
      obtain rfl := Option.some.inj hp
      exact (ufline_line d).2.trans (List.prefix_append _ _)

/-- The part of a delivery is what is written if and only if the sender is empty. -/
theorem part_eq_iff (d : Delivery O) :
    (d.ufline :: d.partLines).flatten = d.part ↔ d.sender = [] := by
  constructor
  · intro h
    by_contra hne
    have := congrArg List.length h
    simp [Delivery.ufline, Delivery.partLines, Delivery.part, hne, asc, List.flatMap_def] at this
  · intro h
    simp [Delivery.ufline, Delivery.partLines, Delivery.part, h, List.flatMap_def]

/-- **An mbox file splits back into its deliveries**, each as the format has it, if and only if the
sender of every delivery that succeeds is empty. A delivery that fails leaves the file. -/
theorem mbox_splits_iff {ds : List (Delivery O)} (hlocked : ∀ d ∈ ds, d.locked = true)
    (hqqeh : ∀ d ∈ ds, d.qqeh = []) :
    (∀ d ∈ ds, ∀ file, (mailfile d file).1 ≠ none → (mailfile d file).2 = file) ∧
      (parts (lines 10 (deliverAll ds [])) =
          (ds.filter fun d => decide d.Delivers).map Delivery.part ↔
        ∀ d ∈ ds, d.Delivers → d.sender = []) := by
  refine ⟨fun d hd file hfail => ?_, ?_⟩
  · obtain ⟨hiff, -, hno⟩ := mailfile_eq d file
    exact hno (fun h => hfail (hiff.mpr h)) (hlocked d hd)
  · have hall : ∀ l ∈ (ds.filter fun d => decide d.Delivers).flatMap
        (fun d => d.ufline :: d.partLines), IsLine l := by
      intro l hl
      obtain ⟨d, -, hl⟩ := List.mem_flatMap.mp hl
      rcases List.mem_cons.mp hl with rfl | hl
      · exact (ufline_line d).1
      · exact (partLines_line d l hl).1
    have hlines := lines_flatten_append hall []
    rw [List.append_nil, lines_nil, List.append_nil] at hlines
    rw [deliverAll_eq hlocked hqqeh, List.nil_append, hlines, (parts_deliveries _).1,
      List.map_inj_left]
    simp only [List.mem_filter, decide_eq_true_eq, and_imp, part_eq_iff]

/-- A message of one line, and no fault. -/
def delivery (sender : Bytes) : Delivery (buffered Byte 64) where
  sender := sender
  envrecip := asc "user@host"
  qqeh := []
  qtime := asc "Thu Nov 18 18:22:01 2010" ++ [10]
  message := asc "From me"
  rewinds := true
  opens := true
  locked := true
  readFault := none
  out := {}
  synced := true
  dquot := false
  qtime_line := ⟨asc "Thu Nov 18 18:22:01 2010", rfl, by decide +kernel⟩

/-- Three deliveries: the one in the middle has a sender, and what it has written cannot be
synced. -/
def threeDeliveries : List (Delivery (buffered Byte 64)) :=
  [delivery [], { delivery (asc "a@b") with synced := false },
    { delivery [] with message := asc "x\n\n>From y\n" }]

theorem mbox_splits_bounce :
    parts (lines 10 (deliverAll threeDeliveries [])) =
        (threeDeliveries.filter fun d => decide d.Delivers).map Delivery.part ∧
      (parts (lines 10 (deliverAll threeDeliveries []))).length = 2 := by
  have hall : ∀ d ∈ threeDeliveries, d.locked = true ∧ d.qqeh = [] ∧
      (d.Delivers → d.sender = []) := by
    simp only [threeDeliveries, List.forall_mem_cons]
    exact ⟨⟨rfl, rfl, fun _ => rfl⟩, ⟨rfl, rfl, fun h => absurd h (by decide +kernel)⟩,
      ⟨rfl, rfl, fun _ => rfl⟩, fun d hd => absurd hd List.not_mem_nil⟩
  exact ⟨(mbox_splits_iff (fun d hd => (hall d hd).1) fun d hd => (hall d hd).2.1).2.mpr
    fun d hd => (hall d hd).2.2, by decide +kernel⟩

/-- There is no space between a sender and the date. -/
theorem no_space_behind_sender :
    (delivery (asc "a@b")).Delivers ∧
      (mailfile (delivery (asc "a@b")) []).2.take 16 = asc "From a@bThu Nov " ∧
      parts (lines 10 (deliverAll [delivery (asc "a@b")] [])) ≠ [(delivery (asc "a@b")).part] :=
  ⟨by decide +kernel, by decide +kernel, by decide +kernel⟩

end IndimailMta.Local
