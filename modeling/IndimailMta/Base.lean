import Mathlib.Data.List.Basic
import Mathlib.Algebra.Group.Int.Defs
import Mathlib.Algebra.Group.Nat.Defs
import Mathlib.Data.Nat.Init

/-!
# Bytes, C integers and the numerals of file names

The programs are written in C for targets where `char` is signed and `int` has
32 bits. Text is a list of bytes; where the source keeps a C string the list is
its content, without the NUL that ends it. An `int` is an `Int` here, and the
conversions the source relies on are the functions below.

The string library the programs are linked with is not part of the repository.
Its searches (`byte_rchr`, `str_rchr`) are written out; its decimal formatter and
scanner (`fmt_ulong`, `scan_ulong`) are the fields of `Numerals`, which carry
what the programs rely on.
-/

namespace IndimailMta

abbrev Byte := UInt8

abbrev Bytes := List Byte

instance : LawfulBEq Bytes := List.instLawfulBEq

/-- The bytes of an ASCII text. -/
def asc (s : String) : Bytes := s.toList.map fun c => UInt8.ofNat c.toNat

/-- A literal is the list of its characters; rewriting with this, the kernel need not decode it. -/
theorem asc_ofList (l : List Char) : asc (String.ofList l) = l.map fun c => UInt8.ofNat c.toNat := by
  rw [asc, String.toList_ofList]

/-! ## Conversions -/

/-- Assignment of an `int` to a `char`: the low eight bits. -/
def charOf (x : Int) : Byte := UInt8.ofNat (x % 256).toNat

/-- `(unsigned char) ch` as an `int`. -/
def uchar (ch : Byte) : Int := ch.toNat

/-- `ch` as an `int`, `char` being signed. -/
def schar (ch : Byte) : Int :=
  if ch.toNat < 128 then ch.toNat else (ch.toNat : Int) - 256

/-- Conversion to `unsigned int`. -/
def unsignedInt (x : Int) : Int := x % 4294967296

/-- Conversion to `unsigned long`. -/
def unsignedLong (x : Int) : Nat := (x % 18446744073709551616).toNat

/-- Conversion to `int`. -/
def int32 (x : Int) : Int :=
  if x % 4294967296 < 2147483648 then x % 4294967296 else x % 4294967296 - 4294967296

theorem uchar_charOf (n : Nat) : uchar (charOf n) = (n % 256 : Nat) := by
  simp only [uchar, charOf]
  rw [show ((n : Int) % 256).toNat = n % 256 by omega, UInt8.toNat_ofNat']
  omega

theorem schar_charOf (n : Nat) :
    schar (charOf n) = if n % 256 < 128 then ((n % 256 : Nat) : Int)
      else ((n % 256 : Nat) : Int) - 256 := by
  have h : (charOf n).toNat = n % 256 := by
    have := uchar_charOf n
    simp only [uchar] at this
    omega
  simp only [schar, h]

/-! ## Fallible functions -/

/-- What a fallible function that goes on had found before. -/
theorem except_bind_ok {ε α β : Type} {x : Except ε α} {f : α → Except ε β} {b : β} :
    x >>= f = .ok b ↔ ∃ a, x = .ok a ∧ f a = .ok b := by
  constructor
  · intro h
    cases x with
    | error e => cases h
    | ok a => exact ⟨a, rfl, h⟩
  · rintro ⟨a, rfl, h⟩
    exact h

/-! ## Searches -/

/-- The content of a C string that starts here. -/
def cstr (s : Bytes) : Bytes := s.takeWhile (· ≠ 0)

theorem nul_notMem_cstr (s : Bytes) : (0 : Byte) ∉ cstr s := by
  intro h
  simpa using List.all_eq_true.mp List.all_takeWhile 0 h

/-- A text without a NUL is its own content. -/
theorem cstr_eq {s : Bytes} (h : (0 : Byte) ∉ s) : cstr s = s := by
  have hs : ∀ b ∈ s, decide (b ≠ 0) = true := fun b hb =>
    decide_eq_true fun h0 => h (h0 ▸ hb)
  have htake : (s ++ []).takeWhile (· ≠ 0) = s ++ [].takeWhile (· ≠ 0) :=
    List.takeWhile_append_of_pos hs
  rwa [List.append_nil, List.takeWhile_nil, List.append_nil] at htake

/-- A text ends at its NUL. -/
theorem cstr_append {s : Bytes} (t : Bytes) (h : (0 : Byte) ∉ s) : cstr (s ++ 0 :: t) = s := by
  have hs : ∀ b ∈ s, decide (b ≠ 0) = true := fun b hb =>
    decide_eq_true fun h0 => h (h0 ▸ hb)
  rw [cstr, List.takeWhile_append_of_pos hs]
  simp

theorem cstr_append_nul {s : Bytes} (h : (0 : Byte) ∉ s) : cstr (s ++ [0]) = s := cstr_append [] h

/-- The byte at a position, and a byte that is written there. -/
theorem getD_middle (u rest : Bytes) (b : Byte) : (u ++ b :: rest).getD u.length 0 = b := by
  rw [List.getD_eq_getElem?_getD, List.getElem?_append_right (Nat.le_refl _), Nat.sub_self]
  rfl

theorem set_middle (u rest : Bytes) (b x : Byte) : (u ++ b :: rest).set u.length x = u ++ x :: rest := by
  rw [List.set_append_right _ _ (Nat.le_refl _), Nat.sub_self, List.set_cons_zero]

/-- Texts, each with a NUL. -/
def nuls (ts : List Bytes) : Bytes := ts.flatMap fun t => t ++ [0]

@[simp] theorem nuls_nil : nuls [] = [] := rfl

@[simp] theorem nuls_cons (t : Bytes) (ts : List Bytes) :
    nuls (t :: ts) = t ++ 0 :: nuls ts := by
  rw [nuls, List.flatMap_cons, List.append_assoc]
  rfl

theorem nuls_append (ts us : List Bytes) : nuls (ts ++ us) = nuls ts ++ nuls us := by
  rw [nuls, List.flatMap_append]
  rfl

theorem length_le_nuls (ts : List Bytes) : ts.length ≤ (nuls ts).length := by
  induction ts with
  | nil => exact Nat.le_refl _
  | cons t ts ih =>
      rw [nuls_cons, List.length_append, List.length_cons, List.length_cons]
      omega

/-- `byte_rchr(s, len, c)`, and `str_rchr` on the content of a C string: the
position of the last `c`, the length if there is none. -/
def byteRchr (s : Bytes) (c : Byte) : Nat :=
  match s.reverse.findIdx? (· == c) with
  | some k => s.length - 1 - k
  | none => s.length

theorem byteRchr_append {u t : Bytes} {c : Byte} (h : c ∉ t) :
    byteRchr (u ++ c :: t) c = u.length := by
  have hfind : (u ++ c :: t).reverse.findIdx? (· == c) = some t.length := by
    rw [List.reverse_append, List.reverse_cons, List.append_assoc, List.findIdx?_append,
      List.findIdx?_eq_none_iff.mpr]
    · simp [List.findIdx?_cons]
    · intro x hx
      simp only [beq_eq_false_iff_ne]
      rintro rfl
      exact h (List.mem_reverse.mp hx)
  rw [byteRchr, hfind]
  simp only [List.length_append, List.length_cons]
  omega

theorem byteRchr_of_notMem {s : Bytes} {c : Byte} (h : c ∉ s) : byteRchr s c = s.length := by
  have hfind : s.reverse.findIdx? (· == c) = none := by
    rw [List.findIdx?_eq_none_iff]
    intro x hx
    simp only [beq_eq_false_iff_ne]
    rintro rfl
    exact h (List.mem_reverse.mp hx)
  rw [byteRchr, hfind]

theorem byteRchr_cases (s : Bytes) (c : Byte) :
    c ∉ s ∧ byteRchr s c = s.length ∨ ∃ u t, s = u ++ c :: t ∧ c ∉ t ∧ byteRchr s c = u.length := by
  by_cases h : c ∈ s
  · right
    obtain ⟨v, w, hvw, hv⟩ := List.eq_append_cons_of_mem (List.mem_reverse.mpr h)
    have hv' : c ∉ v.reverse := by simpa using hv
    have hs : s = w.reverse ++ c :: v.reverse := by
      rw [← List.reverse_reverse s, hvw]
      simp
    exact ⟨w.reverse, v.reverse, hs, hv', hs ▸ byteRchr_append hv'⟩
  · exact Or.inl ⟨h, byteRchr_of_notMem h⟩

/-- `case_lowerb` -/
def caseLower (s : Bytes) : Bytes := s.map fun ch => if 65 ≤ ch ∧ ch ≤ 90 then ch + 32 else ch

/-- What is made of an upper case letter is behind the letters of its case. -/
theorem lt_add_of_upper {ch : Byte} (h : 65 ≤ ch ∧ ch ≤ 90) : 90 < ch + 32 := by
  obtain ⟨h65, h90⟩ := h
  rw [UInt8.le_iff_toNat_le] at h65 h90
  rw [UInt8.lt_iff_toNat_lt, UInt8.toNat_add]
  simp only [UInt8.reduceToNat] at h65 h90 ⊢
  omega

/-- Bytes in front of the letters are left alone. -/
theorem mem_caseLower {s : Bytes} {c : Byte} (hc : c < 65) : c ∈ caseLower s ↔ c ∈ s := by
  rw [caseLower, List.mem_map]
  constructor
  · rintro ⟨ch, hch, heq⟩
    split at heq
    · rename_i hupper
      have hlt := UInt8.lt_trans (heq ▸ lt_add_of_upper hupper) hc
      exact absurd hlt (by decide)
    · exact heq ▸ hch
  · intro h
    refine ⟨c, h, if_neg fun hupper => ?_⟩
    exact UInt8.lt_irrefl _ (UInt8.lt_of_lt_of_le hc hupper.1)

theorem caseLower_caseLower (s : Bytes) : caseLower (caseLower s) = caseLower s := by
  rw [caseLower, caseLower, List.map_map]
  refine List.map_congr_left fun ch _ => ?_
  by_cases hupper : 65 ≤ ch ∧ ch ≤ 90
  · rw [Function.comp_apply, if_pos hupper]
    exact if_neg fun h => UInt8.not_le.mpr (lt_add_of_upper hupper) h.2
  · rw [Function.comp_apply, if_neg hupper, if_neg hupper]

/-! ## Numerals -/

/-- An ASCII digit. -/
def isDigit (b : Byte) : Bool := 48 ≤ b && b ≤ 57

/-- `fmt_ulong` and `scan_ulong`: a number has a nonempty text of digits, and the
scanner, which stops at the first byte that is not a digit, reads it back and
returns the length it read. -/
structure Numerals where
  fmtUlong : Nat → Bytes
  scanUlong : Bytes → Nat × Nat
  fmt_ne_nil : ∀ n, fmtUlong n ≠ []
  fmt_isDigit : ∀ n, ∀ b ∈ fmtUlong n, isDigit b = true
  scan_fmt : ∀ n rest, n < 2 ^ 64 → (∀ b ∈ rest.head?, isDigit b = false) →
    scanUlong (fmtUlong n ++ rest) = ((fmtUlong n).length, n)

namespace Numerals

theorem nul_notMem_fmt (nm : Numerals) (n : Nat) : (0 : Byte) ∉ nm.fmtUlong n :=
  fun h => absurd (nm.fmt_isDigit n 0 h) (by decide)

end Numerals

/-! ### Decimal -/

/-- The decimal text of a number. -/
def decimalText (n : Nat) : Bytes := (Nat.toDigits 10 n).map fun c => UInt8.ofNat c.toNat

/-- The value of a text of digits. -/
def digitsValue (ds : Bytes) : Nat := ds.foldl (fun v d => v * 10 + (d.toNat - 48)) 0

/-- The scan of a decimal number into an `unsigned long`. -/
def scanDecimal (s : Bytes) : Nat × Nat :=
  ((s.takeWhile isDigit).length, digitsValue (s.takeWhile isDigit) % 2 ^ 64)

private theorem digit_byte : ∀ d < 10, isDigit (UInt8.ofNat (Nat.digitChar d).toNat) = true ∧
    (UInt8.ofNat (Nat.digitChar d).toNat).toNat - 48 = d := by decide

theorem decimalText_of_lt {n : Nat} (h : n < 10) :
    decimalText n = [UInt8.ofNat (Nat.digitChar n).toNat] := by
  rw [decimalText, Nat.toDigits_of_lt_base h, List.map_singleton]

theorem decimalText_of_le {n : Nat} (h : 10 ≤ n) :
    decimalText n = decimalText (n / 10) ++ [UInt8.ofNat (Nat.digitChar (n % 10)).toNat] := by
  rw [decimalText, Nat.toDigits_of_base_le (by omega) h, List.map_append, List.map_singleton,
    decimalText]

theorem isDigit_decimalText (n : Nat) : ∀ b ∈ decimalText n, isDigit b = true := by
  induction n using Nat.strong_induction_on with
  | _ n ih =>
      by_cases h : n < 10
      · rw [decimalText_of_lt h]
        simpa using (digit_byte n h).1
      · rw [decimalText_of_le (by omega)]
        intro b hb
        rcases List.mem_append.mp hb with hb | hb
        · exact ih (n / 10) (by omega) b hb
        · rw [List.mem_singleton.mp hb]
          exact (digit_byte (n % 10) (by omega)).1

theorem digitsValue_decimalText (n : Nat) : digitsValue (decimalText n) = n := by
  induction n using Nat.strong_induction_on with
  | _ n ih =>
      by_cases h : n < 10
      · rw [decimalText_of_lt h, digitsValue]
        simpa using (digit_byte n h).2
      · have hv := ih (n / 10) (by omega)
        rw [decimalText_of_le (by omega), digitsValue, List.foldl_append]
        rw [digitsValue] at hv
        rw [hv, List.foldl_cons, List.foldl_nil, (digit_byte (n % 10) (by omega)).2]
        omega

theorem takeWhile_isDigit_append {ds rest : Bytes} (hd : ∀ b ∈ ds, isDigit b = true)
    (hr : ∀ b ∈ rest.head?, isDigit b = false) : (ds ++ rest).takeWhile isDigit = ds := by
  have htail : rest.takeWhile isDigit = [] := by
    cases rest with
    | nil => rfl
    | cons b bs => rw [List.takeWhile_cons_of_neg (by simp [hr b rfl])]
  rw [List.takeWhile_append_of_pos hd, htail, List.append_nil]

/-- Decimal numerals. -/
def decimal : Numerals where
  fmtUlong := decimalText
  scanUlong := scanDecimal
  fmt_ne_nil n := by
    by_cases h : n < 10
    · simp [decimalText_of_lt h]
    · simp [decimalText_of_le (show 10 ≤ n by omega)]
  fmt_isDigit := isDigit_decimalText
  scan_fmt n rest hn hr := by
    rw [scanDecimal, takeWhile_isDigit_append (isDigit_decimalText n) hr,
      digitsValue_decimalText, Nat.mod_eq_of_lt hn]

/-- Numerals of which more is known: `fmt_ulong` writes decimal, and `scan_ulong` reads digits
modulo `2 ^ 64`. -/
structure Ulongs extends Numerals where
  fmt_eq : ∀ n, fmtUlong n = decimalText n
  scan_eq : ∀ s, scanUlong s = scanDecimal s

/-- `decimal`, as `Ulongs`. -/
def ulongs : Ulongs := { decimal with fmt_eq := fun _ => rfl, scan_eq := fun _ => rfl }

theorem Ulongs.scan_lt (nm : Ulongs) (s : Bytes) : (nm.scanUlong s).2 < 2 ^ 64 := by
  rw [nm.scan_eq]
  exact Nat.mod_lt _ (by decide)

end IndimailMta
