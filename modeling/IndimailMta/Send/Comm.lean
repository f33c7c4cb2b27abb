import IndimailMta.Base
import IndimailMta.Lib.Transducer

/-!
# qmail-send's side of the spawner pipes

A delivery command goes to the spawner of its channel as two bytes of slot
number and five NUL-terminated texts (`comm_write`). A delivery report comes back
as two bytes of slot number, a status text and a NUL, and is collected byte by
byte in `dline` (the reading half of `del_dochan`).

Both slot numbers are put together again with `(unsigned int) ch << 8`, where
`ch` is a plain `char`: from 128 on the high byte is sign-extended first, and the
slot comes out 65536 too small (`addHigh_charOf`).
-/

namespace IndimailMta.Send

open IndimailMta

/-! ## Slot numbers -/

/-- `delnum += (unsigned int) ((unsigned int) ch) << 8`. -/
def addHigh (delnum : Int) (ch : Byte) : Int :=
  int32 (unsignedInt delnum + unsignedInt (unsignedInt (schar ch) * 256))

/-- The number read back from the two bytes written for slot `n`. -/
theorem addHigh_charOf {n : Nat} (h : n < 65536) :
    addHigh (uchar (charOf n)) (charOf (n / 256 : Nat)) =
      if n < 32768 then (n : Int) else (n : Int) - 65536 := by
  rw [uchar_charOf, addHigh, schar_charOf, unsignedInt, unsignedInt, unsignedInt, int32]
  split <;> split <;> omega

theorem addHigh_eq_iff {n : Nat} (h : n < 65536) :
    addHigh (uchar (charOf n)) (charOf (n / 256 : Nat)) = n ↔ n < 32768 := by
  rw [addHigh_charOf h]
  split <;> omega

/-! ## Commands -/

/-- The sender of one delivery. A sender `owner-@host-@[]` is given the
recipient: `owner-recipbox=reciphost@host`. -/
def senderadd (sender recip : Bytes) : Bytes :=
  let i := sender.length
  if 4 ≤ i ∧ sender.drop (i - 4) = asc "-@[]" then
    let j := byteRchr (sender.take (i - 4)) 64
    let k := byteRchr recip 64
    if k < recip.length ∧ j + 5 ≤ i then
      sender.take j ++ recip.take k ++ asc "=" ++ recip.drop (k + 1) ++ asc "@" ++
        (sender.drop (j + 1)).take (i - 5 - j)
    else sender
  else sender

/-- `senderadd` puts in nothing but bytes of the two addresses, `=` and `@`. -/
theorem mem_senderadd {b : Byte} {sender recip : Bytes} (h : b ∈ senderadd sender recip) :
    b ∈ sender ∨ b ∈ recip ∨ b = 61 ∨ b = 64 := by
  have he : asc "=" = [61] := by decide
  have ha : asc "@" = [64] := by decide
  unfold senderadd at h
  simp only [he, ha] at h
  split at h
  · split at h
    · simp only [List.mem_append, List.mem_singleton] at h
      rcases h with ((((h | h) | h) | h) | h) | h
      · exact .inl (List.mem_of_mem_take h)
      · exact .inr (.inl (List.mem_of_mem_take h))
      · exact .inr (.inr (.inl h))
      · exact .inr (.inl (List.mem_of_mem_drop h))
      · exact .inr (.inr (.inr h))
      · exact .inl (List.mem_of_mem_drop (List.mem_of_mem_take h))
    · exact .inl h
  · exact .inl h

/-- The name of a message below `mess/`: `id % conf_split`, a slash, `id`. -/
def fnmakeSplit (nm : Numerals) (confSplit id : Nat) : Bytes :=
  nm.fmtUlong (id % confSplit) ++ asc "/" ++ nm.fmtUlong id

/-- What one delivery command says: the slot, and five texts. -/
structure Command where
  delnum : Int
  messid : Bytes
  sender : Bytes
  qqeh : Bytes
  envh : Bytes
  recip : Bytes
  deriving DecidableEq, Repr

/-- A delivery, as `del_start` hands it to `comm_write`. -/
structure Delivery where
  delnum : Nat
  id : Nat
  sender : Bytes
  qqeh : Bytes
  envh : Bytes
  recip : Bytes
  deriving DecidableEq, Repr

/-- The texts of a delivery are contents of C strings. -/
def Delivery.NulFree (d : Delivery) : Prop :=
  0 ∉ d.sender ∧ 0 ∉ d.qqeh ∧ 0 ∉ d.envh ∧ 0 ∉ d.recip

instance (d : Delivery) : Decidable d.NulFree := by
  unfold Delivery.NulFree
  infer_instance

/-- The bytes `comm_write` puts into an empty buffer. -/
def commandBytes (nm : Numerals) (confSplit : Nat) (d : Delivery) : Bytes :=
  [charOf d.delnum, charOf (d.delnum / 256 : Nat)] ++
    (fnmakeSplit nm confSplit d.id ++ [0]) ++ (senderadd d.sender d.recip ++ [0]) ++
    (d.qqeh ++ [0]) ++ (d.envh ++ [0]) ++ (d.recip ++ [0])

/-- `comm_buf` and `comm_pos` of one channel. -/
structure Comm where
  buf : Bytes := []
  pos : Nat := 0
  deriving DecidableEq, Repr

/-- `comm_canwrite`. -/
def Comm.canwrite (cb : Comm) : Bool := cb.buf.isEmpty

/-- `comm_write`: nothing happens while a command is still being written. -/
def Comm.write (nm : Numerals) (confSplit : Nat) (cb : Comm) (d : Delivery) : Comm :=
  if cb.canwrite then { buf := commandBytes nm confSplit d, pos := 0 } else cb

/-- `comm_do` when the pipe took `w` bytes (`w = 0`: the write failed), and the
bytes it took. -/
def Comm.flush (cb : Comm) (w : Nat) : Comm × Bytes :=
  let out := (cb.buf.drop cb.pos).take w
  let pos := cb.pos + out.length
  (if pos = cb.buf.length then { buf := [], pos := pos } else { cb with pos := pos }, out)

/-- The bytes of `comm_buf` the pipe has not taken yet. -/
def Comm.pending (cb : Comm) : Bytes := cb.buf.drop cb.pos

/-- What the pipe takes was pending before, in front of what is pending after. -/
theorem Comm.flush_pending (cb : Comm) (w : Nat) :
    (cb.flush w).2 ++ (cb.flush w).1.pending = cb.pending := by
  have h : cb.pending = (cb.pending.take w) ++ cb.pending.drop w :=
    (List.take_append_drop w _).symm
  simp only [Comm.flush]
  split
  · rename_i hp
    have hall : (cb.buf.drop cb.pos).take w = cb.buf.drop cb.pos := by
      apply List.take_of_length_le
      simp only [List.length_take, List.length_drop] at hp ⊢
      omega
    rw [hall]
    simp [Comm.pending]
  · simp only [Comm.pending, List.drop_drop] at h ⊢
    by_cases hw : w ≤ (cb.buf.drop cb.pos).length
    · rw [List.length_take_of_le hw]
      exact h.symm
    · have hnil : cb.buf.drop (cb.pos + (cb.buf.drop cb.pos).length) = [] := by
        rw [List.drop_eq_nil_iff, List.length_drop]
        omega
      rw [List.take_of_length_le (by omega), hnil, List.append_nil]

/-- A command is only written over a buffer with nothing pending. -/
theorem Comm.write_pending {nm : Numerals} {confSplit : Nat} {cb : Comm} {d : Delivery}
    (h : cb.canwrite = true) :
    (cb.write nm confSplit d).pending = cb.pending ++ commandBytes nm confSplit d := by
  have hb : cb.buf = [] := by simpa [Comm.canwrite] using h
  simp [Comm.write, h, Comm.pending, hb]

/-! ## Reports -/

def REPORTMAX : Nat := 10000

/-- One byte of a line on a pipe into qmail-send: it is appended to what there is of the
line, which is cut to `REPORTMAX` bytes, and a NUL behind the first `least` bytes completes
the line. -/
def lineByte (least : Nat) (line : Bytes) (ch : Byte) : Bytes × List Bytes :=
  let line := (line ++ [ch]).take REPORTMAX
  if ch = 0 ∧ least < line.length then ([], [line]) else (line, [])

/-- One byte of a report: two bytes of slot number come before anything else. -/
def reportByte : Bytes → Byte → Bytes × List Bytes := lineByte 2

/-- The slot number at the head of a report. -/
def reportDelnum (dline : Bytes) : Int :=
  addHigh (uchar (dline.getD 0 0)) (dline.getD 1 0)

/-- The status text of a report. -/
def reportText (dline : Bytes) : Bytes := dline.drop 2

end IndimailMta.Send
