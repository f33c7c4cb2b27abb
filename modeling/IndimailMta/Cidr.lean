import Mathlib.Algebra.Order.Group.Nat
import IndimailMta.Lib.Tiles
import IndimailMta.Ip.RoundTrip

/-!
# Ranges as CIDR blocks

`rangeToCidr` writes both ends of a range as strings of bits. Where the strings differ for the first
time the range is cut in two, unless from there on the one has zeros only and the other ones: then
the range is a block.

A string has 33 bytes. The model has no value where `ipToBin` writes outside them, where a loop
looks in front of or behind them, and where a shift moves a 32-bit number by 32.
-/

namespace IndimailMta.Cidr

open IndimailMta Ip Tcprules

/-! ## The code -/

/-- Bytes are written from place `i` on. -/
def put (buf : Bytes) (i : Nat) (s : Bytes) : Option Bytes :=
  if i + s.length ≤ buf.length then some (buf.take i ++ s ++ buf.drop (i + s.length)) else none

/-- `binMap` -/
def binMap (tmp : Nat) : Bytes :=
  [UInt8.ofNat (48 + tmp / 8), UInt8.ofNat (48 + tmp / 4 % 2), UInt8.ofNat (48 + tmp / 2 % 2),
    UInt8.ofNat (48 + tmp % 2)]

/-- `strncpy(dst, src, n)`: what it writes. -/
def padded (src : Bytes) (n : Nat) : Bytes :=
  (cstr src).take n ++ List.replicate (n - (cstr src).length) 0

/-- `ipToBin`: the result, and the string. `IP_BINARY_LENGTH - 1` is 32 + 1 - 1, and
`IP_BINARY_LENGTH + 1` is 32 + 1 + 1. -/
def ipToBin (ip : Nat) (pOut : Bytes) : Option (Int × Bytes) := do
  let hex := hexDigits 8 ip
  let bits := hex.flatMap fun c => binMap (hexDigit c)
  let pOut ← put pOut 0 (bits ++ [0])
  if bits.length < 32 then do
    let pSwap := padded pOut 33
    let pOut ← put pOut 0 (List.replicate 34 48)
    let pOut ← put pOut (32 - bits.length) (padded pSwap (bits.length + 3))
    some (0, pOut)
  else if 32 < bits.length then some (-1, pOut)
  else some (0, pOut)

/-- `while (fromIp[cidrStart] == toIp[cidrStart])` -/
def differ (fromIp toIp : Bytes) : Nat → Nat → Option Nat
  | 0, _ => none
  | left + 1, cidrStart =>
      match (fromIp)[cidrStart]?, (toIp)[cidrStart]? with
      | some a, some b => if a = b then differ fromIp toIp left (cidrStart + 1) else some cidrStart
      | _, _ => none

/-- `while (fromIp[cidrEnd] == '0' && toIp[cidrEnd] == '1')`, from the place before. -/
def full (fromIp toIp : Bytes) : Nat → Option Nat
  | 0 => none
  | cidrEnd + 1 =>
      match (fromIp)[cidrEnd]?, (toIp)[cidrEnd]? with
      | some a, some b => if a = 48 ∧ b = 49 then full fromIp toIp cidrEnd else some cidrEnd
      | _, _ => none

/-- `ip >> n << n` -/
def cleared (ip n : Nat) : Option Nat :=
  if n < 32 then some (ip >>> n <<< n % 2 ^ 32) else none

/-- What is given to `callback`: an address and a prefix length. -/
structure Notation where
  addr : Nat
  len : Nat
  deriving DecidableEq, Repr

def rangeToCidr : Nat → Nat → Nat → Option (List Notation)
  | 0, _, _ => none
  | depth + 1, lo, hi => do
      let (r, fromIp) ← ipToBin lo (List.replicate 33 0)
      if r ≠ 0 then some []
      else do
        let (r, toIp) ← ipToBin hi (List.replicate 33 0)
        if r ≠ 0 then some []
        else if lo < hi then do
          let cidrStart ← differ fromIp toIp 34 0
          let cidrStart := 32 - cidrStart - 1
          let newfrom ← cleared lo (cidrStart + 1)
          let cidrEnd ← full fromIp toIp 32
          let cidrEnd := 31 - cidrEnd
          if cidrEnd ≤ cidrStart then do
            let mask := 2 ^ cidrStart - 1
            let lower ← rangeToCidr depth lo (newfrom ||| mask)
            let upper ← rangeToCidr depth (newfrom ||| 1 <<< cidrStart) hi
            some (lower ++ upper)
          else some [⟨newfrom, 32 - cidrEnd⟩]
        else some [⟨lo, 32⟩]

/-! ## What is split -/

/-- The addresses of a notation. -/
def Notation.block (c : Notation) : Block := ⟨c.addr, 32 - c.len⟩

/-- The blocks are those of the range: aligned, in order and apart, and with its addresses. -/
structure Splits (cs : List Notation) (lo hi : Nat) : Prop where
  len_le : ∀ c ∈ cs, c.len ≤ 32
  aligned : ∀ c ∈ cs, 2 ^ (32 - c.len) ∣ c.addr
  ascending : cs.Pairwise fun c d => c.addr + 2 ^ (32 - c.len) ≤ d.addr
  covers : ∀ x, (∃ c ∈ cs, c.addr ≤ x ∧ x < c.addr + 2 ^ (32 - c.len)) ↔ lo ≤ x ∧ x ≤ hi

/-! ## The strings -/

/-- The last `w` bits, as digits. -/
def bits : Nat → Nat → Bytes
  | 0, _ => []
  | w + 1, n => bits w (n / 2) ++ [UInt8.ofNat (48 + n % 2)]

theorem length_bits (w n : Nat) : (bits w n).length = w := by
  induction w generalizing n with
  | zero => rfl
  | succ w ih => rw [bits, List.length_append, ih, List.length_singleton]

theorem getElem?_bits {w i : Nat} (n : Nat) (h : i < w) :
    (bits w n)[i]? = some (UInt8.ofNat (48 + n / 2 ^ (w - 1 - i) % 2)) := by
  induction w generalizing n with
  | zero => exact absurd h (Nat.not_lt_zero i)
  | succ w ih =>
      rw [bits]
      by_cases hi : i < w
      · have hexp : w + 1 - 1 - i = w - 1 - i + 1 := by omega
        rw [List.getElem?_append_left (by rwa [length_bits]), ih (n / 2) hi, hexp,
          Nat.div_div_eq_div_mul, Nat.pow_succ']
      · obtain rfl : i = w := by omega
        rw [List.getElem?_append_right (by rw [length_bits]), length_bits, Nat.sub_self]
        have hexp : i + 1 - 1 - i = 0 := by omega
        rw [hexp, Nat.pow_zero, Nat.div_one]
        rfl

theorem binMap_eq {d : Nat} (h : d < 16) (n : Nat) : binMap d = bits 4 (n * 16 + d) := by
  have h1 : (n * 16 + d) / 2 / 2 / 2 % 2 = d / 8 := by omega
  have h2 : (n * 16 + d) / 2 / 2 % 2 = d / 4 % 2 := by omega
  have h3 : (n * 16 + d) / 2 % 2 = d / 2 % 2 := by omega
  have h4 : (n * 16 + d) % 2 = d % 2 := by omega
  simp only [bits, binMap, h1, h2, h3, h4, List.nil_append, List.cons_append]

theorem bits_add_four (w n : Nat) : bits (w + 4) n = bits w (n / 16) ++ bits 4 n := by
  have h : n / 2 / 2 / 2 / 2 = n / 16 := by omega
  simp only [bits, h, List.nil_append, List.append_assoc, List.cons_append]

/-- So many hexadecimal digits are four times as many bits. -/
theorem flatMap_hexDigits {k n : Nat} (hlo : 16 ^ k ≤ n) (hhi : n < 16 ^ (k + 1)) (m : Nat) :
    (hexDigits (k + 1 + m) n).flatMap (fun c => binMap (hexDigit c)) = bits (4 * (k + 1)) n := by
  induction k generalizing n with
  | zero =>
      have h16 : n < 16 := hhi
      have hsucc : 0 + 1 + m = m + 1 := by omega
      rw [hsucc, hexDigits, if_pos h16, List.flatMap_singleton, (hexChar_spec n h16).2,
        binMap_eq h16 0, Nat.zero_mul, Nat.zero_add]
  | succ k ih =>
      have hpow : 16 ^ (k + 1) = 16 ^ k * 16 := rfl
      have hpow2 : 16 ^ (k + 1 + 1) = 16 ^ (k + 1) * 16 := rfl
      have hpos : 0 < 16 ^ k := Nat.pow_pos (by decide)
      have hn : ¬ n < 16 := by omega
      have hmod : n % 16 < 16 := Nat.mod_lt _ (by decide)
      have hsucc : k + 1 + 1 + m = (k + 1 + m) + 1 := by omega
      have hfour : 4 * (k + 1 + 1) = 4 * (k + 1) + 4 := by omega
      have hdiv : n / 16 * 16 + n % 16 = n := by omega
      rw [hsucc, hexDigits, if_neg hn, List.flatMap_append, List.flatMap_singleton,
        (hexChar_spec _ hmod).2, ih (by omega) (by omega), binMap_eq hmod (n / 16), hfour,
        bits_add_four (4 * (k + 1)), hdiv]

/-- An address of eight hexadecimal digits. -/
theorem ipToBin_eq {ip : Nat} (h28 : 2 ^ 28 ≤ ip) (h32 : ip < 2 ^ 32) :
    ipToBin ip (List.replicate 33 0) = some (0, bits 32 ip ++ [0]) := by
  have hbits := flatMap_hexDigits (k := 7) (n := ip) (by omega) (by omega) 0
  have hlen : (bits 32 ip ++ [0]).length = 33 := by rw [List.length_append, length_bits]; rfl
  have hput : put (List.replicate 33 0) 0 (bits 32 ip ++ [0]) = some (bits 32 ip ++ [0]) := by
    rw [put, hlen, if_pos (by decide)]
    simp
  simp only [ipToBin, hbits, hput, Option.bind_eq_bind, Option.bind_some]
  rw [length_bits, if_neg (by decide), if_neg (by decide)]

/-- A shorter address is padded outside the string. -/
theorem ipToBin_none {ip : Nat} (h28 : ip < 2 ^ 28) :
    ipToBin ip (List.replicate 33 0) = none := by
  have hlen : (hexDigits 8 ip).length ≤ 7 := hexDigits_length (k := 6) (by omega)
  have hbits : ((hexDigits 8 ip).flatMap fun c => binMap (hexDigit c)).length ≤ 28 := by
    have hfour : ∀ s : Bytes, (s.flatMap fun c => binMap (hexDigit c)).length = 4 * s.length := by
      intro s
      induction s with
      | nil => rfl
      | cons c s ih =>
          rw [List.flatMap_cons, List.length_append, ih, List.length_cons]
          exact (by omega : 4 + 4 * s.length = 4 * (s.length + 1))
    rw [hfour]
    omega
  simp only [ipToBin, Option.bind_eq_bind]
  generalize hexb : ((hexDigits 8 ip).flatMap fun c => binMap (hexDigit c)) = s at hbits
  have hput : put (List.replicate 33 0) 0 (s ++ [0]) =
      some (s ++ [0] ++ List.replicate (33 - (s.length + 1)) 0) := by
    rw [put, List.length_append, List.length_replicate, List.length_singleton,
      if_pos (by omega), List.take_zero, List.nil_append, Nat.zero_add, List.drop_replicate]
  rw [hput, Option.bind_some, if_pos (by omega), put, if_neg, Option.bind_none]
  simp only [List.length_append, List.length_replicate, List.length_singleton]
  omega

/-! ## The places of the bits -/

/-- The string of an address. -/
def string (ip : Nat) : Bytes := bits 32 ip ++ [0]

theorem getElem?_string {i : Nat} (ip : Nat) (h : i < 32) :
    (string ip)[i]? = some (UInt8.ofNat (48 + ip / 2 ^ (31 - i) % 2)) := by
  rw [string, List.getElem?_append_left (by rwa [length_bits]), getElem?_bits ip h]

theorem digit_eq_iff (a b n : Nat) :
    UInt8.ofNat (48 + a / n % 2) = UInt8.ofNat (48 + b / n % 2) ↔ a / n % 2 = b / n % 2 := by
  have hdigit : ∀ x < 2, ∀ y < 2,
      (UInt8.ofNat (48 + x) = UInt8.ofNat (48 + y) ↔ x = y) := by decide
  exact hdigit _ (Nat.mod_lt _ (by decide)) _ (Nat.mod_lt _ (by decide))

variable {lo hi k : Nat}

/-- The ends of a range agree down to a bit, and differ there. -/
theorem exists_differ (h : lo < hi) {j : Nat} (hj : lo / 2 ^ j = hi / 2 ^ j) :
    ∃ k < j, lo / 2 ^ (k + 1) = hi / 2 ^ (k + 1) ∧ lo / 2 ^ k ≠ hi / 2 ^ k := by
  induction j with
  | zero =>
      simp only [Nat.pow_zero, Nat.div_one] at hj
      exact absurd hj (Nat.ne_of_lt h)
  | succ j ih =>
      by_cases heq : lo / 2 ^ j = hi / 2 ^ j
      · obtain ⟨k, hk, hcut⟩ := ih heq
        exact ⟨k, Nat.lt_succ_of_lt hk, hcut⟩
      · exact ⟨j, Nat.lt_succ_self j, hj, heq⟩

theorem div_eq_of_le {j : Nat} (h : lo / 2 ^ k = hi / 2 ^ k) (hj : k ≤ j) :
    lo / 2 ^ j = hi / 2 ^ j := by
  obtain ⟨d, rfl⟩ := Nat.exists_eq_add_of_le hj
  rw [Nat.pow_add, ← Nat.div_div_eq_div_mul, ← Nat.div_div_eq_div_mul, h]

/-- The first loop finds that bit. -/
theorem differ_eq (hk : k < 32) (heq : lo / 2 ^ (k + 1) = hi / 2 ^ (k + 1))
    (hne : lo / 2 ^ k ≠ hi / 2 ^ k) {i left : Nat} (hi' : i ≤ 31 - k) (hleft : 31 - k - i < left) :
    differ (string lo) (string hi) left i = some (31 - k) := by
  induction left generalizing i with
  | zero => exact absurd hleft (Nat.not_lt_zero _)
  | succ left ih =>
      rw [differ, getElem?_string lo (by omega), getElem?_string hi (by omega)]
      simp only [digit_eq_iff]
      by_cases hik : i = 31 - k
      · have hexp : 31 - i = k := by omega
        have hdigit : lo / 2 ^ k % 2 ≠ hi / 2 ^ k % 2 := by
          rw [Nat.pow_succ, ← Nat.div_div_eq_div_mul, ← Nat.div_div_eq_div_mul] at heq
          omega
        rw [hexp, if_neg hdigit, hik]
      · rw [if_pos (by rw [div_eq_of_le heq (by omega : k + 1 ≤ 31 - i)])]
        exact ih (by omega) (by omega)

/-- A zero in the first string, and a one in the second. -/
def Spread (lo hi n : Nat) : Prop := lo / 2 ^ n % 2 = 0 ∧ hi / 2 ^ n % 2 = 1

instance (lo hi n : Nat) : Decidable (Spread lo hi n) := inferInstanceAs (Decidable (_ ∧ _))

/-- The second loop stops at the first place from the end where the bits are not spread. -/
theorem full_eq {m : Nat} (hm : m ≤ 32) :
    (∃ n < m, full (string lo) (string hi) m = some n ∧ ¬ Spread lo hi (31 - n) ∧
      ∀ i, n < i → i < m → Spread lo hi (31 - i)) ∨
    ∀ i < m, Spread lo hi (31 - i) := by
  induction m with
  | zero => exact .inr fun i hi => absurd hi (Nat.not_lt_zero i)
  | succ m ih =>
      have hstep : full (string lo) (string hi) (m + 1) =
          if Spread lo hi (31 - m) then full (string lo) (string hi) m else some m := by
        have hlo := digit_eq_iff lo 0 (2 ^ (31 - m))
        have hhi := digit_eq_iff hi (2 ^ (31 - m)) (2 ^ (31 - m))
        rw [Nat.zero_div, Nat.zero_mod] at hlo
        rw [Nat.div_self (Nat.two_pow_pos _)] at hhi
        have hspread : (UInt8.ofNat (48 + lo / 2 ^ (31 - m) % 2) = 48 ∧
            UInt8.ofNat (48 + hi / 2 ^ (31 - m) % 2) = 49) ↔ Spread lo hi (31 - m) :=
          and_congr hlo hhi
        rw [full, getElem?_string lo (by omega), getElem?_string hi (by omega)]
        simp only [hspread]
      rw [hstep]
      by_cases hs : Spread lo hi (31 - m)
      · rw [if_pos hs]
        rcases ih (by omega) with ⟨n, hn, hfull, hno, hall⟩ | hall
        · refine .inl ⟨n, by omega, hfull, hno, fun i hni him => ?_⟩
          by_cases h : i = m
          · rwa [h]
          · exact hall i hni (by omega)
        · refine .inr fun i him => ?_
          by_cases h : i = m
          · rwa [h]
          · exact hall i (by omega)
      · rw [if_neg hs]
        exact .inl ⟨m, Nat.lt_succ_self m, rfl, hs, fun i hni him => by omega⟩

/-- Spread bits are all bits of a block. -/
theorem mod_of_spread {j : Nat} (h : ∀ n < j, Spread lo hi n) :
    lo % 2 ^ j = 0 ∧ hi % 2 ^ j = 2 ^ j - 1 := by
  induction j with
  | zero => exact ⟨Nat.mod_one lo, Nat.mod_one hi⟩
  | succ j ih =>
      obtain ⟨h1, h2⟩ := ih fun n hn => h n (Nat.lt_succ_of_lt hn)
      obtain ⟨hlo, hhi⟩ := h j (Nat.lt_succ_self j)
      have hpos := Nat.two_pow_pos j
      rw [Nat.mod_pow_succ, Nat.mod_pow_succ, h1, h2, hlo, hhi, Nat.pow_succ]
      omega

/-! ## The recursion -/

/-- The two halves of a range whose ends differ for the first time at a bit. -/
structure Halves (lo hi k base : Nat) : Prop where
  dvd : 2 ^ (k + 1) ∣ base
  lo_mem : base ≤ lo ∧ lo < base + 2 ^ k
  hi_mem : base + 2 ^ k ≤ hi ∧ hi < base + 2 ^ k + 2 ^ k

theorem halves (hle : lo ≤ hi) (heq : lo / 2 ^ (k + 1) = hi / 2 ^ (k + 1))
    (hne : lo / 2 ^ k ≠ hi / 2 ^ k) : Halves lo hi k (lo / 2 ^ (k + 1) * 2 ^ (k + 1)) := by
  have hdivle : lo / 2 ^ k ≤ hi / 2 ^ k := Nat.div_le_div_right hle
  have hlo : lo / 2 ^ (k + 1) = lo / 2 ^ k / 2 := by
    rw [Nat.pow_succ, Nat.div_div_eq_div_mul]
  have hhi : hi / 2 ^ (k + 1) = hi / 2 ^ k / 2 := by
    rw [Nat.pow_succ, Nat.div_div_eq_div_mul]
  have hodd : lo / 2 ^ k = 2 * (lo / 2 ^ (k + 1)) ∧ hi / 2 ^ k = 2 * (lo / 2 ^ (k + 1)) + 1 := by
    rw [hlo, hhi] at heq
    omega
  have hpow : 2 ^ (k + 1) = 2 * 2 ^ k := Nat.pow_succ'
  have hbase : lo / 2 ^ (k + 1) * 2 ^ (k + 1) = 2 * (lo / 2 ^ (k + 1)) * 2 ^ k := by
    rw [hpow, ← Nat.mul_assoc, Nat.mul_comm _ 2]
  have hpos := Nat.two_pow_pos k
  have hl := (Nat.div_eq_iff hpos).mp hodd.1
  have hh := (Nat.div_eq_iff hpos).mp hodd.2
  rw [Nat.add_mul, Nat.one_mul] at hh
  refine ⟨Nat.dvd_mul_left _ _, ?_, ?_⟩
  · rw [hbase]
    omega
  · rw [hbase]
    omega

theorem cleared_eq (h : lo < 2 ^ 32) (hk : k < 31) :
    cleared lo (k + 1) = some (lo / 2 ^ (k + 1) * 2 ^ (k + 1)) := by
  have hle : lo / 2 ^ (k + 1) * 2 ^ (k + 1) ≤ lo := Nat.div_mul_le_self _ _
  rw [cleared, if_pos (by omega), Nat.shiftRight_eq_div_pow, Nat.shiftLeft_eq,
    Nat.mod_eq_of_lt (by omega)]

theorem or_low {base : Nat} (h : 2 ^ (k + 1) ∣ base) :
    base ||| (2 ^ k - 1) = base + 2 ^ k - 1 ∧ base ||| 1 <<< k = base + 2 ^ k := by
  obtain ⟨q, rfl⟩ := h
  have hpos := Nat.two_pow_pos k
  have hpow : 2 ^ (k + 1) = 2 * 2 ^ k := Nat.pow_succ'
  constructor
  · rw [Nat.or_comm, Nat.mul_comm, ← Nat.shiftLeft_eq, Nat.or_comm,
      ← Nat.shiftLeft_add_eq_or_of_lt (by omega)]
    exact (Nat.add_sub_assoc hpos _).symm
  · rw [Nat.one_shiftLeft, Nat.mul_comm, ← Nat.shiftLeft_eq,
      ← Nat.shiftLeft_add_eq_or_of_lt (by omega)]

theorem div_eq_of_mem {base x y : Nat} (h : 2 ^ k ∣ base) (hx : base ≤ x ∧ x < base + 2 ^ k)
    (hy : base ≤ y ∧ y < base + 2 ^ k) : x / 2 ^ k = y / 2 ^ k := by
  obtain ⟨q, rfl⟩ := h
  have hpos := Nat.two_pow_pos k
  have hq : ∀ z, 2 ^ k * q ≤ z ∧ z < 2 ^ k * q + 2 ^ k → z / 2 ^ k = q := by
    intro z hz
    rw [Nat.div_eq_iff hpos, Nat.mul_comm q]
    omega
  rw [hq x hx, hq y hy]

theorem mod_eq_sub {base x m : Nat} (h : m ∣ base) (hle : base ≤ x) (hlt : x < base + m) :
    x % m = x - base := by
  obtain ⟨q, rfl⟩ := h
  obtain ⟨r, rfl⟩ := Nat.exists_eq_add_of_le hle
  rw [Nat.mul_add_mod, Nat.mod_eq_of_lt (by omega), Nat.add_sub_cancel_left]

/-- **A range within a block is split into blocks.** -/
theorem rangeToCidr_tiles {j depth : Nat} (h28 : 2 ^ 28 ≤ lo) (hle : lo ≤ hi) (h32 : hi < 2 ^ 32)
    (hj : j ≤ 31) (hsame : lo / 2 ^ j = hi / 2 ^ j) (hdepth : j < depth) :
    ∃ cs, rangeToCidr depth lo hi = some cs ∧ Block.Tiles (cs.map Notation.block) lo (hi + 1) ∧
      ∀ c ∈ cs, c.len ≤ 32 := by
  induction j using Nat.strong_induction_on generalizing lo hi depth with
  | _ j ih =>
      obtain ⟨depth, rfl⟩ := Nat.exists_eq_add_one.mpr (Nat.zero_lt_of_lt hdepth)
      have hfrom := ipToBin_eq h28 (by omega)
      have hto := ipToBin_eq (by omega : 2 ^ 28 ≤ hi) h32
      rw [← string] at hfrom hto
      by_cases hlt : lo < hi
      · obtain ⟨k, hk, heq, hne⟩ := exists_differ hlt hsame
        obtain ⟨hdvd, hlo, hhi⟩ := halves hle heq hne
        obtain ⟨hmask, htop⟩ := or_low hdvd
        have hpos := Nat.two_pow_pos k
        have hdiffer := @differ_eq lo hi k (by omega) heq hne 0 34 (Nat.zero_le _) (by omega)
        have hcleared := cleared_eq (by omega : lo < 2 ^ 32) (by omega : k < 31)
        have hstart : 32 - (31 - k) - 1 = k := by omega
        generalize lo / 2 ^ (k + 1) * 2 ^ (k + 1) = base at *
        -- the bits above are equal, so that the second loop stops behind them
        have hequal : ¬ Spread lo hi (k + 1) := by
          rintro ⟨h0, h1⟩
          rw [heq] at h0
          omega
        obtain ⟨n, hn, hfull, hno, hall⟩ : ∃ n < 32, full (string lo) (string hi) 32 = some n ∧
            ¬ Spread lo hi (31 - n) ∧ ∀ i, n < i → i < 32 → Spread lo hi (31 - i) := by
          rcases full_eq (Nat.le_refl 32) with h | h
          · exact h
          · have := h (30 - k) (by omega)
            have hexp : 31 - (30 - k) = k + 1 := by omega
            rw [hexp] at this
            exact absurd this hequal
        simp only [rangeToCidr, hfrom, hto, if_pos hlt, hdiffer, hstart, hcleared, hfull,
          Option.bind_eq_bind, Option.bind_some, ne_eq, not_true_eq_false, if_false]
        by_cases hend : 31 - n ≤ k
        · -- each half is a range in a block of its own
          rw [if_pos hend, hmask, htop]
          have hdvd' : 2 ^ k ∣ base := Nat.dvd_trans (Nat.pow_dvd_pow 2 (Nat.le_succ k)) hdvd
          have hlow : lo / 2 ^ k = (base + 2 ^ k - 1) / 2 ^ k :=
            div_eq_of_mem hdvd' hlo (by omega)
          have hhigh : (base + 2 ^ k) / 2 ^ k = hi / 2 ^ k :=
            div_eq_of_mem (Nat.dvd_add hdvd' (Nat.dvd_refl _)) (by omega) hhi
          obtain ⟨lower, hlower, htl, hll⟩ := @ih k hk lo (base + 2 ^ k - 1) depth h28 (by omega)
            (by omega) (by omega) hlow (by omega)
          obtain ⟨upper, hupper, htu, hlu⟩ := @ih k hk (base + 2 ^ k) hi depth (by omega) (by omega)
            h32 (by omega) hhigh (by omega)
          rw [hlower, Option.bind_some, hupper, Option.bind_some]
          refine ⟨lower ++ upper, rfl, ?_, fun c hc => ?_⟩
          · have hmid : base + 2 ^ k - 1 + 1 = base + 2 ^ k := by omega
            rw [hmid] at htl
            rw [List.map_append]
            exact htl.append htu
          · exact (List.mem_append.mp hc).elim (hll c) (hlu c)
        · -- all bits are spread: the range is a block
          have hexp : 31 - n = k + 1 := by
            by_contra hne'
            have := hall (30 - k) (by omega) (by omega)
            have hexp : 31 - (30 - k) = k + 1 := by omega
            rw [hexp] at this
            exact hequal this
          obtain ⟨hlo0, hhi1⟩ := mod_of_spread (j := k + 1) fun m hm => by
            have := hall (31 - m) (by omega) (by omega)
            have hm' : 31 - (31 - m) = m := by omega
            rwa [hm'] at this
          have hpow : 2 ^ (k + 1) = 2 ^ k + 2 ^ k := by rw [Nat.pow_succ]; omega
          have hlobase := mod_eq_sub hdvd hlo.1 (by omega)
          have hhibase := mod_eq_sub hdvd (by omega : base ≤ hi) (by omega)
          rw [hlo0] at hlobase
          rw [hhi1] at hhibase
          obtain rfl : lo = base := by omega
          have hbits : 32 - (32 - (k + 1)) = k + 1 := by omega
          rw [if_neg hend, hexp]
          refine ⟨_, rfl, ⟨rfl, ?_, ?_⟩, fun c hc => ?_⟩
          · rw [Notation.block, hbits]
            exact hdvd
          · rw [Notation.block, hbits]
            exact (by omega : lo + 2 ^ (k + 1) = hi + 1)
          · rw [List.mem_singleton.mp hc]
            exact Nat.sub_le _ _
      · obtain rfl : lo = hi := by omega
        simp only [rangeToCidr, hfrom, if_neg hlt, Option.bind_eq_bind, Option.bind_some, ne_eq,
          not_true_eq_false, if_false]
        refine ⟨_, rfl, ⟨rfl, Nat.one_dvd lo, rfl⟩, fun c hc => ?_⟩
        rw [List.mem_singleton.mp hc]

/-- An end that is too short, and a cut at the first bit. -/
theorem rangeToCidr_none (hle : lo ≤ hi) (h32 : hi < 2 ^ 32)
    (h : lo < 2 ^ 28 ∨ lo / 2 ^ 31 ≠ hi / 2 ^ 31) (depth : Nat) :
    rangeToCidr depth lo hi = none := by
  cases depth with
  | zero => rfl
  | succ depth =>
      by_cases h28 : lo < 2 ^ 28
      · simp only [rangeToCidr, ipToBin_none h28, Option.bind_eq_bind, Option.bind_none]
      · have hne : lo / 2 ^ 31 ≠ hi / 2 ^ 31 := h.resolve_left h28
        have hlt : lo < hi := by
          refine Nat.lt_of_le_of_ne hle ?_
          rintro rfl
          exact hne rfl
        have heq : lo / 2 ^ (31 + 1) = hi / 2 ^ (31 + 1) := by
          rw [Nat.div_eq_of_lt (by omega), Nat.div_eq_of_lt h32]
        have hfrom := ipToBin_eq (by omega : 2 ^ 28 ≤ lo) (by omega)
        have hto := ipToBin_eq (by omega : 2 ^ 28 ≤ hi) h32
        rw [← string] at hfrom hto
        have hdiffer := @differ_eq lo hi 31 (by decide) heq hne 0 34 (Nat.zero_le _) (by decide)
        have hcleared : cleared lo (32 - (31 - 31) - 1 + 1) = none := rfl
        simp only [rangeToCidr, hfrom, hto, if_pos hlt, hdiffer, hcleared, Option.bind_eq_bind,
          Option.bind_some, Option.bind_none, ne_eq, not_true_eq_false, if_false]

theorem splits_of_tiles {cs : List Notation} (h : Block.Tiles (cs.map Notation.block) lo (hi + 1))
    (hlen : ∀ c ∈ cs, c.len ≤ 32) : Splits cs lo hi where
  len_le := hlen
  aligned c hc := h.aligned c.block (List.mem_map_of_mem hc)
  ascending := List.pairwise_map.mp h.pairwise
  covers x := by
    have hmap : (∃ b ∈ cs.map Notation.block, b.Mem x) ↔ ∃ c ∈ cs, c.block.Mem x := by
      simp only [List.mem_map, exists_exists_and_eq_and]
    have hmem := @Block.Tiles.mem_iff _ _ _ x h
    rw [hmap, Nat.lt_succ_iff] at hmem
    exact hmem

/-- **A range is split into its blocks** if and only if its first address has eight hexadecimal
digits, and both addresses have the same first bit. -/
theorem range_splits_iff (hle : lo ≤ hi) (h32 : hi < 2 ^ 32) :
    (∃ depth cs, rangeToCidr depth lo hi = some cs ∧ Splits cs lo hi) ↔
      2 ^ 28 ≤ lo ∧ lo / 2 ^ 31 = hi / 2 ^ 31 := by
  constructor
  · rintro ⟨depth, cs, hcs, -⟩
    by_contra hno
    have h : lo < 2 ^ 28 ∨ lo / 2 ^ 31 ≠ hi / 2 ^ 31 := by
      by_cases h28 : lo < 2 ^ 28
      · exact .inl h28
      · exact .inr fun heq => hno ⟨Nat.not_lt.mp h28, heq⟩
    rw [rangeToCidr_none hle h32 h] at hcs
    cases hcs
  · rintro ⟨h28, heq⟩
    obtain ⟨cs, hcs, htiles, hlen⟩ :=
      rangeToCidr_tiles h28 hle h32 (Nat.le_refl 31) heq (Nat.lt_succ_self 31)
    exact ⟨32, cs, hcs, splits_of_tiles htiles hlen⟩

/-- From 192.168.0.1 to 192.168.0.6. -/
theorem range_splits_six :
    (∃ depth cs, rangeToCidr depth 3232235521 3232235526 = some cs ∧
        Splits cs 3232235521 3232235526) ↔
      2 ^ 28 ≤ 3232235521 ∧ 3232235521 / 2 ^ 31 = 3232235526 / 2 ^ 31 :=
  range_splits_iff (by decide) (by decide)

example : rangeToCidr 4 3232235521 3232235526 =
    some [⟨3232235521, 32⟩, ⟨3232235522, 31⟩, ⟨3232235524, 31⟩, ⟨3232235526, 32⟩] := by
  decide +kernel

/-- From 10.0.0.0 to 10.0.0.255 the strings are too short; from 127.255.255.255 to 128.0.0.0 the
shift is by 32. -/
theorem short_and_wide_ranges :
    (¬ ∃ depth cs, rangeToCidr depth 167772160 167772415 = some cs ∧
        Splits cs 167772160 167772415) ∧
      ¬ ∃ depth cs, rangeToCidr depth 2147483647 2147483648 = some cs ∧
        Splits cs 2147483647 2147483648 := by
  constructor
  · rintro ⟨depth, cs, hcs, -⟩
    rw [rangeToCidr_none (by decide) (by decide) (.inl (by decide))] at hcs
    cases hcs
  · rintro ⟨depth, cs, hcs, -⟩
    rw [rangeToCidr_none (by decide) (by decide) (.inr (by decide))] at hcs
    cases hcs

end IndimailMta.Cidr
