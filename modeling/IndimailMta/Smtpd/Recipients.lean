import Mathlib.Data.List.TakeWhile
import IndimailMta.ControlList
import IndimailMta.Lib.Run

/-!
# Recipient validation

`recipients` says whether an address exists. `parse_recips` goes through the lines of the control
file `recipients`: domains whose addresses are all good, databases, and modules that are asked. An
address with a break character is looked up a second time, by what stands in front of the break
(its VERP key). The key is in a buffer that the next address without a break finds again.

What an address gives is what the file says of it (`verdict`), unless the lookups with a key that
was left over answer otherwise than none would, a lookup fails, or a name in the file is as long as
the domain, or one byte longer, and has no `@`: then the byte in front of the domain is read.
-/

namespace IndimailMta.Smtpd.Recipients

open IndimailMta ControlList Scan Run

/-! ## The code -/

/-- `cdb_seek` -/
inductive Seek where
  | found
  | missing
  | failed
  deriving DecidableEq, Repr

/-- The break character, the databases (those that can be opened), and the exit codes of the
modules. -/
structure World where
  auto_break : Byte
  cdb : Bytes → Option (Bytes → Seek)
  pavm : Bytes → Bytes → Int

/-- The static buffers. `verp` and `vkey` are empty at first. -/
structure St where
  flagrcpts : Int
  rcptline : Bytes
  verp : Bytes
  vkey : Bytes
  deriving DecidableEq, Repr

/-- The arguments of `parse_recips`, the keys without the two NULs behind them. -/
structure Args where
  rhost : Bytes
  addr : Bytes
  rkey : Bytes
  vaddr : Bytes
  v_key : Bytes
  deriving DecidableEq, Repr

variable (w : World) (a : Args)

def cdbLookup (fn : Bytes) : Bool :=
  match w.cdb fn with
  | none => false
  | some seek =>
      let r := seek a.rkey
      let r := if a.v_key ≠ [] ∧ r = .missing then seek a.v_key else r
      r ≠ .missing

def pavmLookup (program : Bytes) : Int :=
  let r := w.pavm program a.addr
  if a.v_key ≠ [] ∧ r ≠ 0 then w.pavm program a.vaddr else r

/-- The place of a separator, 0 if there is none. -/
def sepAt (c : Byte) (p : Bytes) : Nat :=
  let j := p.findIdx (· == c)
  if j = p.length then 0 else j

/-- `rhost[i]` -/
def charAt (rhost : Bytes) (i : Int) : Option Byte := if 0 ≤ i then (rhost)[i.toNat]? else none

/-- The sub domain test for the separator at `j`, and the list with the separator back. -/
def subDomain (list : Bytes) (len j : Nat) (sep : Byte) : Option (Bool × Bytes) :=
  if 0 < j ∧ j ≤ a.rhost.length + 1 then do
    let cut := list.set (len + j) 0
    let p ← textAt cut len
    let c ← charAt a.rhost (a.rhost.length - j - 1)
    some (c = 46 ∧ p = a.rhost.drop (a.rhost.length - j), cut.set (len + j) sep)
  else some (false, list)

structure Walk where
  list : Bytes
  len : Nat
  deriving DecidableEq, Repr

/-- `if (i > 0) p[i] = c` -/
def mark (list : Bytes) (len i : Nat) (c : Byte) : Bytes :=
  if 0 < i then list.set (len + i) c else list

/-- Is the domain named by the line with separators at `j` and `k`? -/
def seenHost (list : Bytes) (len j k : Nat) (p : Bytes) : Option (Bool × Bytes) := do
  let cut := mark (mark list len j 0) len k 0
  let text ← textAt cut len
  let list := mark (mark cut len j 58) len k 124
  if text.headD 0 = 64 ∧ text.tail = a.rhost then some (true, list)
  else if p.headD 0 ≠ 64 then do
    let (two, list) ← subDomain a list len j 58
    let (three, list) ← subDomain a list len k 124
    some (two || three, list)
  else some (false, list)

/-- The database of the line, if the line is for the domain: does it hold a key? -/
def cdbHolds (list : Bytes) (len j : Nat) (p : Bytes) (seenhost : Bool) : Option Bool :=
  if 0 < j ∧ (seenhost ∨ p.take 2 = asc "*:") then
    (textAt list (len + j + 1)).map (cdbLookup w a)
  else some false

/-- The module of the line, if the line is for the domain, and what it decides. -/
def pavmAnswers (list : Bytes) (len k : Nat) (p : Bytes) (seenhost : Bool) :
    Option (Option Int) :=
  if 0 < k ∧ (seenhost ∨ p.take 2 = asc "*|") then
    (textAt list (len + k + 1)).map fun program =>
      let r := pavmLookup w a program
      if r = 0 then some 2 else if r = 111 then some r else none
  else some none

/-- The body of the loop: the result if a line decides, and the list. -/
def turn (st : Walk) : Option (Except (Int × Bytes) Walk) := do
  let p ← textAt st.list st.len
  let len := st.len + (p.length + 1)
  if p.headD 0 = 33 then
    if p.tail = a.rhost then some (.error (3, st.list))
    else if p.take 2 = asc "!*" then some (.error (4, st.list))
    else some (.ok ⟨st.list, len⟩)
  else
    let j := sepAt 58 p
    let k := sepAt 124 p
    if j = 0 ∧ k = 0 then
      if cdbLookup w a p then some (.error (1, st.list)) else some (.ok ⟨st.list, len⟩)
    else
      let (seenhost, list) ← seenHost a st.list st.len j k p
      if ← cdbHolds w a list st.len j p seenhost then some (.error (1, list))
      else
        match ← pavmAnswers w a list st.len k p seenhost with
        | some r => some (.error (r, list))
        | none => some (.ok ⟨list, len⟩)

def more (st : Walk) : Bool := st.len < st.list.length

def parse_recips (rcptline : Bytes) : Option (Int × Bytes) :=
  match loop more (turn w a) rcptline.length ⟨rcptline, 0⟩ with
  | none => none
  | some (.ok st) => some (0, st.list)
  | some (.error r) => some r

/-- The address with its domain, which is `localhost` if it has none. -/
def splitAddress (buf : Bytes) : Bytes × Bytes :=
  let at_ := byteRchr buf 64
  if at_ < buf.length then (buf, buf.drop (at_ + 1))
  else (buf ++ asc "@" ++ asc "localhost", asc "localhost")

def isBreak (c : Byte) : Bool := c = w.auto_break || c = 61 || c = 43

/-- The VERP address, and its key. -/
def verpOf (buf domain : Bytes) : Option (Bytes × Bytes) :=
  match (buf.take (byteRchr buf 64)).findIdx? (isBreak w) with
  | none => none
  | some i =>
      let verp := buf.take (i + 1) ++ asc "@" ++ domain
      some (verp, caseLower (asc ":" ++ verp))

def recipients (st : St) (buf : Bytes) : Option (Int × St) :=
  if st.flagrcpts ≠ 1 then some (10, st)
  else do
    let (address, domain) := splitAddress buf
    let key := caseLower (asc ":" ++ address)
    let domain := caseLower domain
    let st := match verpOf w buf domain with
      | none => st
      | some (verp, vkey) => { st with verp := verp, vkey := vkey }
    let (r, list) ← parse_recips w ⟨domain, address, key, st.verp, st.vkey⟩ st.rcptline
    some (r, { st with rcptline := list })

/-! ## What the file says -/

/-- What is looked up for an address: its domain, itself, and its two keys. -/
structure Query where
  domain : Bytes
  address : Bytes
  key : Bytes
  verp : Option (Bytes × Bytes)
  deriving DecidableEq, Repr

def Query.of (buf : Bytes) : Query :=
  let (address, domain) := splitAddress buf
  ⟨caseLower domain, address, caseLower (asc ":" ++ address), verpOf w buf (caseLower domain)⟩

variable (q : Query)

/-- The parts of a line in front of and behind a separator. -/
def part (c : Byte) (line : Bytes) : Option (Bytes × Bytes) :=
  match line.takeWhile (· ≠ c), line.dropWhile (· ≠ c) with
  | b :: front, _ :: back => some (b :: front, back)
  | _, _ => none

/-- The name is one of a parent domain. -/
def Parent (domain name : Bytes) : Prop := 46 :: name <:+ domain

instance (domain name : Bytes) : Decidable (Parent domain name) :=
  inferInstanceAs (Decidable (46 :: name <:+ domain))

/-- The line is for `@domain`, or for a parent domain. -/
def Covers (domain line : Bytes) : Prop :=
  line.takeWhile (fun b => b ≠ 58 ∧ b ≠ 124) = 64 :: domain ∨
    line.headD 0 ≠ 64 ∧
      ((∃ x ∈ part 58 line, Parent domain x.1) ∨ ∃ x ∈ part 124 line, Parent domain x.1)

instance (domain line : Bytes) : Decidable (Covers domain line) := by
  unfold Covers
  infer_instance

/-- The database holds one of the keys. -/
def holds (fn : Bytes) : Bool :=
  match w.cdb fn with
  | none => false
  | some seek =>
      seek q.key = .found || (seek q.key = .missing && q.verp.any fun v => seek v.2 = .found)

/-- What a module says of the address, or else of its VERP address. -/
def module_ (program : Bytes) : Int :=
  match q.verp with
  | none => w.pavm program q.address
  | some v =>
      if w.pavm program q.address = 0 then 0 else w.pavm program v.1

/-- What a line says of an address, if it decides. -/
def answer (line : Bytes) : Option Int :=
  if line.headD 0 = 33 then
    if line.tail = q.domain then some 3 else if line.take 2 = asc "!*" then some 4 else none
  else
    match part 58 line, part 124 line with
    | none, none => if holds w q line then some 1 else none
    | cdb, program =>
        if ∃ x ∈ cdb, (Covers q.domain line ∨ line.take 2 = asc "*:") ∧ holds w q x.2 then some 1
        else
          program.bind fun x =>
            if Covers q.domain line ∨ line.take 2 = asc "*|" then
              if module_ w q x.2 = 0 then some 2
              else if module_ w q x.2 = 111 then some 111
              else none
            else none

/-- What the file says: the first line that decides. -/
def verdict (lines : List Bytes) : Int := (lines.findSome? (answer w q)).getD 0

/-! ## The code does what a line says -/

/-- The strings of a call, with the buffers as they are when it looks them up. -/
def argsOf (st : St) (q : Query) : Args :=
  match q.verp with
  | none => ⟨q.domain, q.address, q.key, st.verp, st.vkey⟩
  | some v => ⟨q.domain, q.address, q.key, v.1, v.2⟩

/-- A lookup that shows what the database holds: it does not fail, and a key that was left over
is not in it. -/
def SeekClear (st : St) (fn : Bytes) : Prop :=
  ∀ seek, w.cdb fn = some seek →
    seek q.key ≠ .failed ∧
      (seek q.key = .missing →
        match q.verp with
        | some v => seek v.2 ≠ .failed
        | none => st.vkey ≠ [] → seek st.vkey = .missing)

/-- A module that says of an address that was left over what it says of this one. -/
def AskClear (st : St) (program : Bytes) : Prop :=
  q.verp = none → st.vkey ≠ [] → w.pavm program q.address ≠ 0 →
    w.pavm program st.verp ≠ 0 ∧
      (w.pavm program st.verp = 111 ↔ w.pavm program q.address = 111)

/-- A name whose test reads no byte in front of the domain. -/
def NameClear (name : Bytes) : Prop :=
  name.length ≠ q.domain.length ∧ name.length ≠ q.domain.length + 1

/-- A line with none of the three. -/
def LineClear (st : St) (line : Bytes) : Prop :=
  line.headD 0 ≠ 33 →
    (part 58 line = none → part 124 line = none → SeekClear w q st line) ∧
      (line.headD 0 ≠ 64 →
        (∀ x ∈ part 58 line, NameClear q x.1) ∧ ∀ x ∈ part 124 line, NameClear q x.1) ∧
      (∀ x ∈ part 58 line, Covers q.domain line ∨ line.take 2 = asc "*:" → SeekClear w q st x.2) ∧
      ∀ x ∈ part 124 line, Covers q.domain line ∨ line.take 2 = asc "*|" → AskClear w q st x.2

/-- The lines up to the one that decides are clear. -/
def Clear (st : St) : List Bytes → Prop
  | [] => True
  | line :: lines => LineClear w q st line ∧ (answer w q line = none → Clear st lines)

variable {w q} {st : St}

theorem cdbLookup_eq {fn : Bytes} (hv : ∀ v, q.verp = some v → v.2 ≠ [])
    (h : SeekClear w q st fn) : cdbLookup w (argsOf st q) fn = holds w q fn := by
  unfold cdbLookup holds argsOf
  cases hc : w.cdb fn with
  | none => rfl
  | some seek =>
      obtain ⟨hfail, hmiss⟩ := h seek hc
      cases hk : seek q.key with
      | failed => exact absurd hk hfail
      | found => cases q.verp <;> simp [hk]
      | missing =>
          have hm := hmiss hk
          cases hq : q.verp with
          | some v =>
              rw [hq] at hm
              cases hsv : seek v.2 <;> simp_all
          | none =>
              rw [hq] at hm
              by_cases hl : st.vkey = []
              · simp [hk, hl]
              · simp [hk, hl, hm hl]

/-- A module's answer is looked at for 0 and for 111 only. -/
theorem pavmLookup_eq {program : Bytes} (hv : ∀ v, q.verp = some v → v.2 ≠ [])
    (h : AskClear w q st program) :
    (pavmLookup w (argsOf st q) program = 0 ↔ module_ w q program = 0) ∧
      (pavmLookup w (argsOf st q) program = 111 ↔ module_ w q program = 111) := by
  unfold pavmLookup module_ argsOf
  cases hq : q.verp with
  | some v =>
      have hne := hv v hq
      by_cases h0 : w.pavm program q.address = 0
      · simp [h0]
      · simp [h0, hne]
  | none =>
      by_cases hl : st.vkey = []
      · simp [hl]
      · by_cases h0 : w.pavm program q.address = 0
        · simp [h0]
        · obtain ⟨hn, hd⟩ := h hq hl h0
          simp [hl, h0, hn, hd]

/-- A separator, where there is one behind a name. -/
theorem part_cases (c : Byte) (l : Bytes) :
    sepAt c l = 0 ∧ part c l = none ∨
      ∃ front back, l = front ++ c :: back ∧ c ∉ front ∧ front ≠ [] ∧
        sepAt c l = front.length ∧ part c l = some (front, back) := by
  by_cases hc : c ∈ l
  · obtain ⟨front, back, rfl, hf⟩ := List.eq_append_cons_of_mem hc
    have hidx : (front ++ c :: back).findIdx (· == c) = front.length := by
      rw [List.findIdx_append, if_neg]
      · simp [List.findIdx_cons]
      · simp only [List.findIdx_lt_length, beq_iff_eq, not_exists, not_and]
        rintro x hx rfl
        exact hf hx
    have hne : ∀ b ∈ front, decide (b ≠ c) = true := fun b hb =>
      decide_eq_true fun h => hf (h ▸ hb)
    have htake : (front ++ c :: back).takeWhile (· ≠ c) = front := by
      rw [List.takeWhile_append_of_pos hne]
      simp
    have hdrop : (front ++ c :: back).dropWhile (· ≠ c) = c :: back := by
      rw [List.dropWhile_append_of_pos hne]
      simp
    have hsep : sepAt c (front ++ c :: back) = front.length := by
      unfold sepAt
      rw [hidx]
      simp
    cases front with
    | nil => exact .inl ⟨hsep, by rw [part, htake, hdrop]⟩
    | cons b front => exact .inr ⟨_, back, rfl, hf, by simp, hsep, by rw [part, htake, hdrop]⟩
  · left
    have hidx : l.findIdx (· == c) = l.length :=
      List.findIdx_eq_length.mpr fun x hx => by
        simp only [beq_eq_false_iff_ne]
        rintro rfl
        exact hc hx
    have hdrop : l.dropWhile (· ≠ c) = [] := by
      rw [List.dropWhile_eq_nil_iff]
      exact fun b hb => decide_eq_true fun h => hc (h ▸ hb)
    refine ⟨by simp [sepAt, hidx], ?_⟩
    rw [part, hdrop]
    cases l.takeWhile (· ≠ c) <;> rfl

section
variable {a : Args} {pre post : List Bytes} {front back : Bytes} {sep : Byte}

/-- The sub domain test, where no byte in front of the domain is read. -/
theorem subDomain_eq (h0 : (0 : Byte) ∉ front) (hf : front ≠ [])
    (hd : front.length ≠ a.rhost.length) (hd1 : front.length ≠ a.rhost.length + 1) :
    subDomain a (nuls (pre ++ (front ++ sep :: back) :: post)) (nuls pre).length front.length sep =
      some (decide (Parent a.rhost front), nuls (pre ++ (front ++ sep :: back) :: post)) := by
  have hpos : 0 < front.length := List.length_pos_iff.mpr hf
  unfold subDomain
  by_cases hle : front.length ≤ a.rhost.length + 1
  · have hlt : front.length + 1 ≤ a.rhost.length := by omega
    have hidx : ((a.rhost.length : Int) - front.length - 1).toNat =
        a.rhost.length - (front.length + 1) := by omega
    have hin : a.rhost.length - (front.length + 1) < a.rhost.length := by omega
    have htext : textAt (nuls (pre ++ (front ++ 0 :: back) :: post)) (nuls pre).length =
        some front := by
      have := textAt_split pre post (l := front ++ 0 :: back) (k := 0) (Nat.zero_le _)
      rwa [Nat.add_zero, List.drop_zero, cstr_append _ h0] at this
    have hparent : Parent a.rhost front ↔
        (a.rhost)[a.rhost.length - (front.length + 1)] = 46 ∧
          front = a.rhost.drop (a.rhost.length - front.length) := by
      rw [Parent, List.suffix_iff_eq_drop, List.length_cons, List.drop_eq_getElem_cons hin,
        show a.rhost.length - (front.length + 1) + 1 = a.rhost.length - front.length by omega,
        List.cons.injEq]
      exact and_congr_left' eq_comm
    rw [if_pos ⟨hpos, hle⟩]
    simp only [set_within, htext, charAt, Option.bind_eq_bind, Option.bind_some]
    rw [if_pos (by omega), hidx, List.getElem?_eq_getElem hin, Option.bind_some]
    simp [hparent]
  · rw [if_neg (by simp [hle])]
    have hno : ¬ Parent a.rhost front := fun h => by
      have := h.length_le
      simp only [List.length_cons] at this
      omega
    simp [hno]

theorem mark_line {l : Bytes} {i : Nat} (hi : i < l.length ∨ i = 0) (c : Byte) :
    mark (nuls (pre ++ l :: post)) (nuls pre).length i c =
      nuls (pre ++ (if 0 < i then l.set i c else l) :: post) := by
  unfold mark
  split
  · exact set_line pre post (by omega) c
  · rfl

theorem sepAt_spec (c : Byte) (l : Bytes) :
    sepAt c l = 0 ∨ sepAt c l < l.length ∧ (l)[sepAt c l]? = some c := by
  obtain ⟨h, -⟩ | ⟨front, back, rfl, -, -, h, -⟩ := part_cases c l
  · exact .inl h
  · right
    rw [h]
    simp

/-- Both separators come back. -/
theorem restored_line {l : Bytes} {j k : Nat} {c d : Byte}
    (hj : j = 0 ∨ j < l.length ∧ (l)[j]? = some c) (hk : k = 0 ∨ k < l.length ∧ (l)[k]? = some d) :
    let cut := if 0 < j then l.set j 0 else l
    let cut := if 0 < k then cut.set k 0 else cut
    let back := if 0 < j then cut.set j c else cut
    (if 0 < k then back.set k d else back) = l := by
  apply List.ext_getElem?
  intro n
  grind

/-- The text that is left of a line while both its separators are NULs is what stands in front of
the first. -/
theorem take_takeWhile (l : Bytes) (p r : Byte → Bool) :
    (l.takeWhile p).take (l.takeWhile r).length = l.takeWhile fun b => p b && r b := by
  induction l with
  | nil => rfl
  | cons b l ih =>
      cases hp : p b <;> cases hr : r b <;> simp [hp, hr, ih]

theorem cut_at {c : Byte} {l s : Bytes} (hl : l.headD 0 ≠ c) (hs : s.length ≤ l.length) :
    (if 0 < sepAt c l then s.take (sepAt c l) else s) = s.take (l.takeWhile (· ≠ c)).length := by
  obtain ⟨hsep, hpart⟩ | ⟨front, back, rfl, hf, hne, hsep, -⟩ := part_cases c l
  · have hall : l.takeWhile (· ≠ c) = l := by
      cases hw : l.dropWhile (· ≠ c) with
      | nil =>
          have := List.takeWhile_append_dropWhile (p := fun b => decide (b ≠ c)) (l := l)
          rwa [hw, List.append_nil] at this
      | cons x back =>
          -- a separator at the head of the line
          obtain ⟨rfl, hl'⟩ := split_at hw
          cases ht : l.takeWhile (· ≠ x) with
          | nil =>
              rw [ht] at hl'
              exact absurd (by rw [hl']; rfl) hl
          | cons b front =>
              rw [part, ht, hw] at hpart
              cases hpart
    rw [if_neg (by omega), hall, List.take_of_length_le hs]
  · have htake : (front ++ c :: back).takeWhile (· ≠ c) = front := by
      have hb : ∀ b ∈ front, decide (b ≠ c) = true := fun b hb =>
        decide_eq_true fun h => hf (h ▸ hb)
      rw [List.takeWhile_append_of_pos hb]
      simp
    rw [if_pos (hsep ▸ List.length_pos_iff.mpr hne), hsep, htake]

/-- A line while its separators are NULs. -/
def cutLine (l : Bytes) : Bytes :=
  let cut := if 0 < sepAt 58 l then l.set (sepAt 58 l) 0 else l
  if 0 < sepAt 124 l then cut.set (sepAt 124 l) 0 else cut

theorem cstr_cutLine {l : Bytes} (h0 : (0 : Byte) ∉ l) :
    cstr (cutLine l) =
      let s := if 0 < sepAt 58 l then l.take (sepAt 58 l) else l
      if 0 < sepAt 124 l then s.take (sepAt 124 l) else s := by
  unfold cutLine
  by_cases hj : 0 < sepAt 58 l <;> by_cases hk : 0 < sepAt 124 l <;>
    simp only [hj, hk, if_true, if_false, cstr_set_nul, cstr_eq h0]

theorem headD_take {s : Bytes} {n : Nat} (hn : 0 < n) : (s.take n).headD 0 = s.headD 0 := by
  cases s with
  | nil => simp
  | cons b s =>
      cases n with
      | zero => exact absurd hn (Nat.lt_irrefl 0)
      | succ n => rfl

/-- Only a line that begins with `@` can be for `@domain`. -/
theorem cutLine_exact {l domain : Bytes} (h0 : (0 : Byte) ∉ l) :
    (cstr (cutLine l)).headD 0 = 64 ∧ (cstr (cutLine l)).tail = domain ↔
      l.takeWhile (fun b => b ≠ 58 ∧ b ≠ 124) = 64 :: domain := by
  by_cases hl : l.headD 0 = 64
  · have htext : cstr (cutLine l) = l.takeWhile fun b => b ≠ 58 ∧ b ≠ 124 := by
      have hs : (if 0 < sepAt 58 l then l.take (sepAt 58 l) else l) = l.takeWhile (· ≠ 58) := by
        rw [cut_at (by rw [hl]; decide) (Nat.le_refl _)]
        exact (List.prefix_iff_eq_take.mp (List.takeWhile_prefix _)).symm
      rw [cstr_cutLine h0, hs]
      refine (cut_at (by rw [hl]; decide) (List.takeWhile_prefix _).length_le).trans ?_
      rw [take_takeWhile]
      simp only [← Bool.decide_and]
    rw [htext]
    cases l with
    | nil => simp at hl
    | cons b l =>
        simp only [List.headD_cons] at hl
        subst hl
        simp
  · have hhead : (cstr (cutLine l)).headD 0 = l.headD 0 := by
      rw [cstr_cutLine h0]
      dsimp only
      split
      · rw [headD_take ‹_›]
        split
        · rw [headD_take ‹_›]
        · rfl
      · split
        · rw [headD_take ‹_›]
        · rfl
    rw [hhead]
    refine iff_of_false (fun h => hl h.1) fun h => hl ?_
    cases l with
    | nil => simp at h
    | cons b l =>
        rw [List.takeWhile_cons] at h
        split at h
        · rw [List.headD_cons, (List.cons.inj h).1]
        · cases h

/-- The domain test, on a line with a separator. -/
theorem seenHost_eq {l : Bytes} (h0 : (0 : Byte) ∉ l)
    (hclear : l.headD 0 ≠ 64 → (∀ x ∈ part 58 l, x.1.length ≠ a.rhost.length ∧
      x.1.length ≠ a.rhost.length + 1) ∧ ∀ x ∈ part 124 l, x.1.length ≠ a.rhost.length ∧
      x.1.length ≠ a.rhost.length + 1) :
    seenHost a (nuls (pre ++ l :: post)) (nuls pre).length (sepAt 58 l) (sepAt 124 l) l =
      some (decide (Covers a.rhost l), nuls (pre ++ l :: post)) := by
  have hj := sepAt_spec 58 l
  have hk := sepAt_spec 124 l
  have hset : ∀ (m : Bytes) (i : Nat) (d : Byte),
      (if 0 < i then m.set i d else m).length = m.length := by
    intro m i d
    split <;> simp
  have hlen : (cutLine l).length = l.length := by
    unfold cutLine
    dsimp only
    rw [hset, hset]
  have hcut : mark (mark (nuls (pre ++ l :: post)) (nuls pre).length (sepAt 58 l) 0)
      (nuls pre).length (sepAt 124 l) 0 = nuls (pre ++ cutLine l :: post) := by
    rw [mark_line (by omega), mark_line (by rw [hset]; omega)]
    rfl
  have hback : mark (mark (nuls (pre ++ cutLine l :: post)) (nuls pre).length (sepAt 58 l) 58)
      (nuls pre).length (sepAt 124 l) 124 = nuls (pre ++ l :: post) := by
    rw [mark_line (by omega), mark_line (by rw [hset]; omega)]
    exact congrArg (fun m => nuls (pre ++ m :: post)) (restored_line hj hk)
  have htext : textAt (nuls (pre ++ cutLine l :: post)) (nuls pre).length =
      some (cstr (cutLine l)) := by
    have := textAt_split pre post (l := cutLine l) (k := 0) (Nat.zero_le _)
    rwa [Nat.add_zero, List.drop_zero] at this
  simp only [seenHost, hcut, htext, hback, Option.bind_eq_bind, Option.bind_some, cutLine_exact h0]
  by_cases hexact : l.takeWhile (fun b => b ≠ 58 ∧ b ≠ 124) = 64 :: a.rhost
  · rw [if_pos hexact, decide_eq_true (show Covers a.rhost l from .inl hexact)]
  · rw [if_neg hexact]
    by_cases hl : l.headD 0 = 64
    · rw [if_neg (by simpa using hl)]
      have hno : ¬ Covers a.rhost l := by
        rintro (h | ⟨h, -⟩)
        · exact hexact h
        · exact h hl
      rw [decide_eq_false hno]
    · obtain ⟨hc, hm⟩ := hclear hl
      have hsub : ∀ (sep : Byte), (∀ x ∈ part sep l, x.1.length ≠ a.rhost.length ∧
          x.1.length ≠ a.rhost.length + 1) →
          subDomain a (nuls (pre ++ l :: post)) (nuls pre).length (sepAt sep l) sep =
            some (decide (∃ x ∈ part sep l, Parent a.rhost x.1), nuls (pre ++ l :: post)) := by
        intro sep hsep
        obtain ⟨h, hpart⟩ | ⟨front, back, hfront, -, hne, h, hpart⟩ := part_cases sep l
        · rw [h, hpart]
          simp [subDomain]
        · have hx := hsep (front, back) hpart
          have h0f : (0 : Byte) ∉ front := fun hm => h0 (by simp [hfront, hm])
          have := @subDomain_eq a pre post front back sep h0f hne hx.1 hx.2
          rw [h, hpart]
          rw [← hfront] at this
          rw [this]
          simp
      simp only [if_pos hl, hsub 58 hc, Option.bind_some, hsub 124 hm]
      have hcov : Covers a.rhost l ↔ ((∃ x ∈ part 58 l, Parent a.rhost x.1) ∨
          ∃ x ∈ part 124 l, Parent a.rhost x.1) :=
        ⟨fun h => h.elim (fun h => absurd h hexact) And.right, fun h => .inr ⟨hl, h⟩⟩
      rw [← Bool.decide_or]
      exact congrArg (fun b => some (b, _)) (decide_eq_decide.mpr hcov.symm)

/-- What stands behind a separator. -/
theorem textAt_part (pre post : List Bytes) {sep : Byte} {l : Bytes} {x : Bytes × Bytes} (h0 : (0 : Byte) ∉ l)
    (hx : part sep l = some x) :
    0 < sepAt sep l ∧
      textAt (nuls (pre ++ l :: post)) ((nuls pre).length + sepAt sep l + 1) = some x.2 := by
  obtain ⟨-, hpart⟩ | ⟨front, back, rfl, -, hne, h, hpart⟩ := part_cases sep l
  · rw [hpart] at hx
    cases hx
  · rw [hpart] at hx
    cases hx
    rw [h, Nat.add_assoc, textAt_within pre post h0 (by simp)]
    refine ⟨List.length_pos_iff.mpr hne, ?_⟩
    simp [List.drop_append]

theorem sepAt_of_part {l : Bytes} (h : part sep l = none) : sepAt sep l = 0 := by
  obtain ⟨h, -⟩ | ⟨front, back, -, -, -, -, hpart⟩ := part_cases sep l
  · exact h
  · rw [hpart] at h
    cases h

end

/-! ## The loop, and a call -/

/-- Between two lines: the list is whole, the lines that are left are clear up to the one that
decides. -/
structure Between (w : World) (q : Query) (st : St) (lines post : List Bytes) (s : Walk) : Prop where
  whole : s.list = nuls lines
  place : ∃ pre, lines = pre ++ post ∧ s.len = (nuls pre).length
  clear : Clear w q st post

theorem cdbHolds_eq {pre post : List Bytes} {line : Bytes}
    (hv : ∀ v, q.verp = some v → v.2 ≠ []) (h0 : (0 : Byte) ∉ line)
    (h : ∀ x ∈ part 58 line, Covers q.domain line ∨ line.take 2 = asc "*:" →
      SeekClear w q st x.2) :
    cdbHolds w (argsOf st q) (nuls (pre ++ line :: post)) (nuls pre).length (sepAt 58 line) line
        (decide (Covers q.domain line)) =
      some (decide (∃ x ∈ part 58 line,
        (Covers q.domain line ∨ line.take 2 = asc "*:") ∧ holds w q x.2)) := by
  unfold cdbHolds
  cases hc : part 58 line with
  | none => simp [sepAt_of_part hc]
  | some x =>
      obtain ⟨hpos, htext⟩ := textAt_part pre post h0 hc
      by_cases hcov : Covers q.domain line ∨ line.take 2 = asc "*:"
      · simp [hpos, hcov, htext, cdbLookup_eq hv (h x hc hcov)]
      · simp [hcov]

theorem pavmAnswers_eq {pre post : List Bytes} {line : Bytes}
    (hv : ∀ v, q.verp = some v → v.2 ≠ []) (h0 : (0 : Byte) ∉ line)
    (h : ∀ x ∈ part 124 line, Covers q.domain line ∨ line.take 2 = asc "*|" →
      AskClear w q st x.2) :
    pavmAnswers w (argsOf st q) (nuls (pre ++ line :: post)) (nuls pre).length (sepAt 124 line)
        line (decide (Covers q.domain line)) =
      some ((part 124 line).bind fun x =>
        if Covers q.domain line ∨ line.take 2 = asc "*|" then
          if module_ w q x.2 = 0 then some 2
          else if module_ w q x.2 = 111 then some 111
          else none
        else none) := by
  unfold pavmAnswers
  cases hm : part 124 line with
  | none => simp [sepAt_of_part hm]
  | some x =>
      obtain ⟨hpos, htext⟩ := textAt_part pre post h0 hm
      by_cases hcov : Covers q.domain line ∨ line.take 2 = asc "*|"
      · obtain ⟨hz, he⟩ := pavmLookup_eq hv (h x hm hcov)
        simp only [hpos, hcov, htext, hz, he, decide_eq_true_eq, and_self, if_true,
          Option.map_some, Option.bind_some]
        by_cases h111 : module_ w q x.2 = 111
        · simp [h111, he.mpr h111]
        · simp [h111]
      · simp [hcov]

theorem turn_finds {lines post : List Bytes} {line : Bytes} {s : Walk} (h0 : Plain lines)
    (hv : ∀ v, q.verp = some v → v.2 ≠ []) (h : Between w q st lines (line :: post) s) :
    Finds (Between w q st lines post) (fun r k => r = (k, nuls lines))
      (turn w (argsOf st q) s) (answer w q line) := by
  obtain ⟨hwhole, ⟨pre, rfl, hlen⟩, hclear, hrest⟩ := h
  have hl0 : (0 : Byte) ∉ line := h0 line (by simp)
  have hdomain : (argsOf st q).rhost = q.domain := by
    unfold argsOf
    cases q.verp <;> rfl
  have hptr : textAt s.list s.len = some line := by rw [hwhole, hlen, textAt_line pre post hl0]
  have hnext : answer w q line = none →
      Between w q st (pre ++ line :: post) post
        ⟨nuls (pre ++ line :: post), s.len + (line.length + 1)⟩ := by
    refine fun ha => ⟨rfl, ⟨pre ++ [line], by simp, ?_⟩, hrest ha⟩
    rw [length_nuls_snoc, hlen]
    rfl
  simp only [turn, hptr, Option.bind_eq_bind, Option.bind_some, hdomain]
  by_cases h33 : line.headD 0 = 33
  · have hans : answer w q line =
        if line.tail = q.domain then some 3
        else if line.take 2 = asc "!*" then some 4 else none := by
      rw [answer, if_pos h33]
    rw [if_pos h33]
    by_cases h3 : line.tail = q.domain
    · rw [if_pos h3] at hans ⊢
      rw [hans, hwhole]
      exact rfl
    · rw [if_neg h3] at hans ⊢
      by_cases h4 : line.take 2 = asc "!*"
      · rw [if_pos h4] at hans ⊢
        rw [hans, hwhole]
        exact rfl
      · rw [if_neg h4] at hans ⊢
        rw [hans, hwhole]
        exact hnext hans
  · rw [if_neg h33]
    by_cases hnone : part 58 line = none ∧ part 124 line = none
    · obtain ⟨hc, hm⟩ := hnone
      rw [if_pos ⟨sepAt_of_part hc, sepAt_of_part hm⟩, cdbLookup_eq hv ((hclear h33).1 hc hm)]
      have hans : answer w q line = if holds w q line then some 1 else none := by
        rw [answer, if_neg h33, hc, hm]
      by_cases hh : holds w q line = true
      · rw [if_pos hh] at hans ⊢
        rw [hans, hwhole]
        exact rfl
      · rw [if_neg hh] at hans ⊢
        rw [hans, hwhole]
        exact hnext hans
    · have hsep : ¬ (sepAt 58 line = 0 ∧ sepAt 124 line = 0) := by
        refine fun ⟨hj, hk⟩ => hnone ⟨?_, ?_⟩
        · cases hc : part 58 line with
          | none => rfl
          | some x => exact absurd hj (textAt_part pre post hl0 hc).1.ne'
        · cases hm : part 124 line with
          | none => rfl
          | some x => exact absurd hk (textAt_part pre post hl0 hm).1.ne'
      obtain ⟨-, hname, hseek, hask⟩ := hclear h33
      rw [if_neg hsep, hwhole, hlen,
        seenHost_eq hl0 (by simpa only [hdomain, NameClear] using hname)]
      simp only [Option.bind_some, hdomain, cdbHolds_eq hv hl0 hseek, pavmAnswers_eq hv hl0 hask]
      have hans : answer w q line =
          if ∃ x ∈ part 58 line, (Covers q.domain line ∨ line.take 2 = asc "*:") ∧ holds w q x.2
          then some 1
          else
            (part 124 line).bind fun x =>
              if Covers q.domain line ∨ line.take 2 = asc "*|" then
                if module_ w q x.2 = 0 then some 2
                else if module_ w q x.2 = 111 then some 111
                else none
              else none := by
        rw [answer, if_neg h33]
        cases hc : part 58 line <;> cases hm : part 124 line
        · exact absurd ⟨hc, hm⟩ hnone
        all_goals rfl
      by_cases hex : ∃ x ∈ part 58 line,
          (Covers q.domain line ∨ line.take 2 = asc "*:") ∧ holds w q x.2
      · rw [if_pos hex] at hans
        rw [hans, if_pos (decide_eq_true hex)]
        exact rfl
      · rw [if_neg hex] at hans
        rw [if_neg (by simpa using hex), ← hans, ← hlen]
        cases ha : answer w q line with
        | none => exact hnext ha
        | some r => exact rfl

theorem parse_recips_eq {lines : List Bytes} (h0 : Plain lines)
    (hv : ∀ v, q.verp = some v → v.2 ≠ []) (hclear : Clear w q st lines) :
    parse_recips w (argsOf st q) (nuls lines) = some (verdict w q lines, nuls lines) := by
  have hloop : Finds (Between w q st lines []) (fun r k => r = (k, nuls lines))
      (loop more (turn w (argsOf st q)) (nuls lines).length ⟨nuls lines, 0⟩)
      (lines.findSome? (answer w q)) := by
    refine loop_finds ?_ ?_ ⟨rfl, ⟨[], rfl, rfl⟩, hclear⟩ (length_le_nuls lines)
    · rintro s ⟨hw, ⟨pre, rfl, hlen⟩, -⟩
      simp [more, hw, hlen]
    · rintro line post s h
      refine ⟨?_, turn_finds h0 hv h⟩
      obtain ⟨hw, ⟨pre, hpre, hlen⟩, -⟩ := h
      rw [more, hw, hlen, hpre, length_nuls_split, decide_eq_true_iff]
      omega
  unfold parse_recips verdict
  cases hf : lines.findSome? (answer w q) with
  | none =>
      rw [hf] at hloop
      obtain ⟨s, hs, hbetween⟩ := hloop.none_inv
      simp [hs, hbetween.whole]
  | some k =>
      rw [hf] at hloop
      obtain ⟨r, hr, rfl⟩ := hloop.some_inv
      simp [hr]

/-- What a call starts from, in a process that has read the file. -/
def fresh (lines : List Bytes) : St := ⟨1, nuls lines, [], []⟩

/-- The file was read, and is whole. -/
def Loaded (lines : List Bytes) (st : St) : Prop := st.flagrcpts = 1 ∧ st.rcptline = nuls lines

/-- A call says what the file says, and what a process says that has made no other call. -/
def Valid (w : World) (lines : List Bytes) (st : St) (buf : Bytes) : Prop :=
  ∃ st', recipients w st buf = some (verdict w (Query.of w buf) lines, st') ∧
    Loaded lines st' ∧
    ∃ first, recipients w (fresh lines) buf = some (verdict w (Query.of w buf) lines, first)

theorem verpOf_ne_nil {buf domain : Bytes} {v : Bytes × Bytes}
    (h : verpOf w buf domain = some v) : v.2 ≠ [] := by
  unfold verpOf at h
  split at h
  · cases h
  · cases h
    simp [caseLower, asc]

theorem recipients_eq {lines : List Bytes} {buf : Bytes} (h0 : Plain lines)
    (hloaded : Loaded lines st) (hclear : Clear w (Query.of w buf) st lines) :
    ∃ st', recipients w st buf = some (verdict w (Query.of w buf) lines, st') ∧
      Loaded lines st' := by
  obtain ⟨hflag, hlist⟩ := hloaded
  have hparse := parse_recips_eq h0 (fun v hv => verpOf_ne_nil hv) hclear
  unfold recipients
  rw [if_neg (by simp [hflag])]
  cases hverp : verpOf w buf (caseLower (splitAddress buf).2) with
  | none =>
      have hargs : argsOf st (Query.of w buf) =
          ⟨caseLower (splitAddress buf).2, (splitAddress buf).1,
            caseLower (asc ":" ++ (splitAddress buf).1), st.verp, st.vkey⟩ := by
        simp only [argsOf, Query.of, hverp]
      rw [hargs] at hparse
      exact ⟨{ st with rcptline := nuls lines }, by simp [hverp, hparse, hlist], hflag, rfl⟩
  | some v =>
      have hargs : argsOf st (Query.of w buf) =
          ⟨caseLower (splitAddress buf).2, (splitAddress buf).1,
            caseLower (asc ":" ++ (splitAddress buf).1), v.1, v.2⟩ := by
        simp only [argsOf, Query.of, hverp]
      rw [hargs] at hparse
      exact ⟨{ st with rcptline := nuls lines, verp := v.1, vkey := v.2 },
        by simp [hverp, hparse, hlist], hflag, rfl⟩

/-- What is clear with something left over is clear with nothing. -/
theorem Clear.fresh {lines ls : List Bytes} (h : Clear w q st ls) :
    Clear w q (fresh lines) ls := by
  induction ls with
  | nil => exact trivial
  | cons l ls ih =>
      obtain ⟨hl, hrest⟩ := h
      refine ⟨fun h33 => ?_, fun ha => ih (hrest ha)⟩
      have hseek : ∀ fn, SeekClear w q st fn → SeekClear w q (Recipients.fresh lines) fn := by
        intro fn hfn seek hs
        obtain ⟨hf, hm⟩ := hfn seek hs
        refine ⟨hf, fun hmiss => ?_⟩
        have := hm hmiss
        cases hv : q.verp with
        | some v => simpa [hv] using this
        | none => exact fun hne => absurd rfl hne
      obtain ⟨hlegacy, hname, hcdb, hmod⟩ := hl h33
      exact ⟨fun h1 h2 => hseek _ (hlegacy h1 h2), hname, fun x hx hc => hseek _ (hcdb x hx hc),
        fun x hx hc _ hne => absurd rfl hne⟩

/-- The addresses of a session, one after another. -/
def session (w : World) : Machine St Bytes where
  init := fun _ => True
  step st buf := (recipients w st buf).map Prod.snd

/-- **Recipient validation.** Where every line that is looked at is clear, in every call of a
session, every call says what the file says. -/
theorem session_valid {lines : List Bytes} (h0 : Plain lines) {st : St} (hst : Loaded lines st)
    {bufs : List Bytes}
    (h : (session w).Meets (fun st buf => Clear w (Query.of w buf) st lines) st bufs) :
    (session w).Meets (Valid w lines) st bufs := by
  induction bufs generalizing st with
  | nil => exact trivial
  | cons buf bufs ih =>
      obtain ⟨hclear, hrest⟩ := h
      obtain ⟨st', hcall, hloaded⟩ := recipients_eq h0 hst hclear
      obtain ⟨first, hfirst, -⟩ := recipients_eq h0 ⟨rfl, rfl⟩ hclear.fresh
      have hstep : (session w).step st buf = some st' := by
        simp [session, hcall]
      refine ⟨⟨st', hcall, hloaded, first, hfirst⟩, fun s hs => ?_⟩
      rw [hstep] at hs
      cases hs
      exact ih hloaded (hrest st' hstep)

/-- One database, `users`, that holds the key of `list-`. -/
def lists : World where
  auto_break := 45
  cdb fn := if fn = asc "users" then
    some fun key => if key = asc ":list-@x.org" then .found else .missing else none
  pavm _ _ := 1

theorem session_valid_lists :
    (session lists).Meets (Valid lists [asc "*:users"]) (fresh [asc "*:users"])
      [asc "list-abc@x.org", asc "list-def@x.org"] := by
  have hcdb : part 58 (asc "*:users") = some (asc "*", asc "users") := by decide
  have hmod : part 124 (asc "*:users") = none := by decide
  have hclear : ∀ st q, q.domain = asc "x.org" →
      q.verp = some (asc "list-@x.org", asc ":list-@x.org") →
      Clear lists q st [asc "*:users"] := by
    intro st q hd hv
    have hseek : ∀ fn, SeekClear lists q st fn := by
      intro fn seek hs
      obtain rfl : seek = fun key => if key = asc ":list-@x.org" then .found else .missing := by
        simp only [lists] at hs
        split at hs
        · exact (Option.some.inj hs).symm
        · cases hs
      rw [hv]
      dsimp only
      exact ⟨by split <;> decide, fun _ => by decide⟩
    refine ⟨fun _ => ⟨fun _ _ => hseek _, fun _ => ⟨?_, ?_⟩, fun x _ _ => hseek _, ?_⟩,
      fun _ => trivial⟩
    · intro x hx
      rw [hcdb] at hx
      cases hx
      rw [NameClear, hd]
      decide
    · simp [hmod]
    · simp [hmod]
  exact session_valid (by unfold Plain; decide) ⟨rfl, rfl⟩
    ⟨hclear _ _ (by decide) (by decide),
      fun st _ => ⟨hclear _ _ (by decide) (by decide), fun _ _ => trivial⟩⟩

/-- The VERP key of a list is still there for the next address; and a file that names a domain
without an `@` has the byte in front of the domain read. -/
theorem next_is_listed :
    recipients lists (fresh [asc "*:users"]) (asc "list-abc@x.org") =
        some (1, ⟨1, nuls [asc "*:users"], asc "list-@x.org", asc ":list-@x.org"⟩) ∧
      (recipients lists ⟨1, nuls [asc "*:users"], asc "list-@x.org", asc ":list-@x.org"⟩
        (asc "eve@x.org")).map Prod.fst = some 1 ∧
      (recipients lists (fresh [asc "*:users"]) (asc "eve@x.org")).map Prod.fst = some 0 ∧
      recipients lists (fresh [asc "x.org:users"]) (asc "eve@x.org") = none ∧
      ¬ (session lists).Meets (Valid lists [asc "*:users"]) (fresh [asc "*:users"])
        [asc "list-abc@x.org", asc "eve@x.org"] := by
  refine ⟨by decide, by decide, by decide, by decide, ?_⟩
  rintro ⟨-, h⟩
  obtain ⟨⟨st', hst', -⟩, -⟩ :=
    h ⟨1, nuls [asc "*:users"], asc "list-@x.org", asc ":list-@x.org"⟩ (by decide)
  have hcode : (recipients lists ⟨1, nuls [asc "*:users"], asc "list-@x.org",
      asc ":list-@x.org"⟩ (asc "eve@x.org")).map Prod.fst = some 1 := by decide
  have hfile : verdict lists (Query.of lists (asc "eve@x.org")) [asc "*:users"] = 0 := by decide
  rw [hst', hfile] at hcode
  cases hcode

end IndimailMta.Smtpd.Recipients
