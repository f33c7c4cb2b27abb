import IndimailMta.Base
import Mathlib.Tactic.NormNum

/-!
# Netstrings

A netstring is the length of a text in decimal, a colon, the text and a comma. The
programs that speak QMTP and QMQP write lengths with `fmt_ulong` and read them with
loops of their own, `len = 10 * len + (ch - '0')`, each with its own checks. This
module has the format, and what such a loop makes of a length (`acc`).

A `Field` is a netstring as it stands in a stream, with a length text that may not
be the length; `Field.Proper` says that it is.
-/

namespace IndimailMta

/-! ## Lengths -/

/-- `len` after the digits `ds` were read behind it. -/
def acc (len : Nat) (ds : Bytes) : Nat := ds.foldl (fun v d => v * 10 + (d.toNat - 48)) len

theorem acc_cons (len : Nat) (d : Byte) (ds : Bytes) :
    acc len (d :: ds) = acc (10 * len + (d.toNat - 48)) ds := by
  rw [acc, acc, List.foldl_cons, Nat.mul_comm]

theorem acc_zero (ds : Bytes) : acc 0 ds = digitsValue ds := rfl

/-- The length only grows. -/
theorem le_acc (len : Nat) (ds : Bytes) : len ≤ acc len ds := by
  induction ds generalizing len with
  | nil => exact Nat.le_refl len
  | cons d ds ih =>
      rw [acc_cons]
      have h := ih (10 * len + (d.toNat - 48))
      omega

/-- With one more digit it is at least ten times what it was. -/
theorem ten_mul_le_acc (len : Nat) (d : Byte) (ds : Bytes) : 10 * len ≤ acc len (d :: ds) := by
  rw [acc_cons]
  have h := le_acc (10 * len + (d.toNat - 48)) ds
  omega

def FMT_ULONG : Nat := 40

/-- Numerals whose texts are decimal, and fit the arrays they are written to. -/
structure Decimals extends Numerals where
  fmt_value : ∀ n, digitsValue (fmtUlong n) = n
  fmt_fits : ∀ n, n < 18446744073709551616 → (fmtUlong n).length ≤ FMT_ULONG

theorem length_decimalText_le {n k : Nat} (h : n < 10 ^ (k + 1)) :
    (decimalText n).length ≤ k + 1 := by
  induction k generalizing n with
  | zero => rw [decimalText_of_lt (by simpa using h), List.length_singleton]
  | succ k ih =>
      by_cases hn : n < 10
      · rw [decimalText_of_lt hn, List.length_singleton]
        omega
      · have hdiv : n / 10 < 10 ^ (k + 1) := by
          rw [Nat.div_lt_iff_lt_mul (by omega), ← Nat.pow_succ]
          exact h
        have hlen := ih hdiv
        rw [decimalText_of_le (by omega), List.length_append, List.length_singleton]
        omega

/-- `decimal`, as `Decimals`. -/
def decimals : Decimals :=
  { decimal with
    fmt_value := digitsValue_decimalText
    fmt_fits := fun n hn => by
      have h20 : n < 10 ^ (19 + 1) := Nat.lt_trans hn (by norm_num)
      exact (length_decimalText_le h20).trans (by decide) }

/-- A digit is not a colon. -/
theorem ne_colon_of_isDigit {d : Byte} (h : isDigit d = true) : d ≠ 58 := by
  rintro rfl
  exact absurd h (by decide)

/-- A digit as the number `ch - '0'`. -/
theorem schar_of_isDigit {d : Byte} (h : isDigit d = true) :
    schar d - 48 = ((d.toNat - 48 : Nat) : Int) ∧ d.toNat - 48 ≤ 9 := by
  simp only [isDigit, Bool.and_eq_true, decide_eq_true_eq] at h
  have h48 : (48 : Byte).toNat = 48 := rfl
  have h57 : (57 : Byte).toNat = 57 := rfl
  have hlo := UInt8.le_iff_toNat_le.mp h.1
  have hhi := UInt8.le_iff_toNat_le.mp h.2
  rw [schar, if_pos (by omega)]
  omega

/-- One digit is read as the loops write it, where the length does not wrap. -/
theorem unsignedLong_of_isDigit {len : Nat} {d : Byte} (h : isDigit d = true)
    (hlen : len ≤ 200000000) :
    unsignedLong (10 * len + (schar d - 48)) = 10 * len + (d.toNat - 48) := by
  obtain ⟨hd, hle⟩ := schar_of_isDigit h
  rw [hd, unsignedLong]
  omega

/-! ## Fields -/

/-- A length text and a text. -/
structure Field where
  len : Bytes
  data : Bytes
  deriving DecidableEq, Repr

namespace Field

/-- The bytes of a field: the length text, a colon, the text and a comma. -/
def bytes (f : Field) : Bytes := f.len ++ 58 :: (f.data ++ [44])

/-- The length text is the length of the text, in decimal. -/
def Proper (f : Field) : Prop := (∀ d ∈ f.len, isDigit d = true) ∧ digitsValue f.len = f.data.length

instance (f : Field) : Decidable f.Proper :=
  decidable_of_iff ((f.len.all isDigit && digitsValue f.len == f.data.length) = true) (by
    simp only [Proper, Bool.and_eq_true, List.all_eq_true, beq_iff_eq])

/-- The length text ends at the first colon. If it is made of digits, it is the length. -/
def ProperIfDigits (f : Field) : Prop :=
  58 ∉ f.len ∧ ((∀ d ∈ f.len, isDigit d = true) → digitsValue f.len = f.data.length)

theorem bytes_append (f : Field) (rest : Bytes) :
    f.bytes ++ rest = f.len ++ 58 :: (f.data ++ 44 :: rest) := by
  simp [bytes]

theorem length_bytes (f : Field) : f.bytes.length = f.len.length + f.data.length + 2 := by
  simp only [bytes, List.length_append, List.length_cons, List.length_nil]
  omega

/-- Where the lengths are right, a field can be told from its bytes. -/
theorem eq_of_bytes_eq {f g : Field} (hf : f.Proper) (hg : g.Proper) (h : f.bytes = g.bytes) :
    f = g := by
  have hlen : ∀ e : Field, e.Proper → e.bytes.takeWhile isDigit = e.len := fun e he =>
    takeWhile_isDigit_append he.1 (by simp [isDigit])
  rcases f with ⟨l, x⟩
  rcases g with ⟨m, y⟩
  obtain rfl : l = m := (hlen _ hf).symm.trans (by rw [h]; exact hlen _ hg)
  simp only [bytes] at h
  have htail := List.append_cancel_left h
  obtain rfl : x = y := List.append_cancel_right (List.cons.inj htail).2
  rfl

end Field

/-- A text as it is written: its length by `fmt_ulong`. -/
def Numerals.field (nm : Numerals) (data : Bytes) : Field := ⟨nm.fmtUlong data.length, data⟩

/-- The netstring of a text. -/
def Numerals.netstring (nm : Numerals) (data : Bytes) : Bytes := (nm.field data).bytes

theorem Decimals.field_proper (nm : Decimals) (data : Bytes) : (nm.field data).Proper :=
  ⟨nm.fmt_isDigit _, nm.fmt_value _⟩

end IndimailMta
