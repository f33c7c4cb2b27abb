import IndimailMta.Base

/-!
# IP addresses

How `rules` reads an address: `rblip4_scan`, `rblip6_scan`, the expanded text that
`ip6_expandaddr` makes of it, and the bit strings of `getaddressasbit` and `ip6tobitstring`. And
what the text of an address is, by itself: `Ip4` and `Ip6` say which octets a text stands for.
`rblip6_scan` reads every such text, compact or not.
-/

namespace IndimailMta.Tcprules

open IndimailMta

/-! ## Scanners -/

/-- A hexadecimal digit. -/
def isHex (b : Byte) : Bool := isDigit b || (65 ≤ b && b ≤ 70) || (97 ≤ b && b ≤ 102)

def hexDigit (b : Byte) : Nat :=
  if isDigit b then b.toNat - 48 else if b ≤ 70 then b.toNat - 55 else b.toNat - 87

/-- The value of a text of hexadecimal digits. -/
def hexValue (t : Bytes) : Nat := t.foldl (fun v b => v * 16 + hexDigit b) 0

/-- `scan_ulong`, `scan_xlong` and `fmt_hexbyte`. A scanner stops at the first byte that is not a
digit, and returns the length it read. -/
structure Scanners extends Numerals where
  scan_eq : ∀ s, scanUlong s = scanDecimal s
  scanXlong : Bytes → Nat × Nat
  fmtHexbyte : Byte → Bytes
  scan_hex : ∀ t rest, t.length ≤ 16 → (∀ b ∈ t, isHex b = true) →
    (∀ b ∈ rest.head?, isHex b = false) → scanXlong (t ++ rest) = (t.length, hexValue t)
  hexbyte_length : ∀ b, (fmtHexbyte b).length = 2
  hexbyte_isHex : ∀ b, ∀ x ∈ fmtHexbyte b, isHex x = true
  hexbyte_value : ∀ a b, hexValue (fmtHexbyte a ++ fmtHexbyte b) = a.toNat * 256 + b.toNat

variable (sc : Scanners)

/-- `byte_chr(s, len, c)`: the position of the first `c`, the length if there is none. -/
def byteChr (s : Bytes) (c : Byte) : Nat := (s.takeWhile (· ≠ c)).length

/-- `rblip4_scan`: numbers, with a dot after each but the last. -/
def scanOctets : Nat → Bytes → Option (Nat × Bytes)
  | 0, _ => some (0, [])
  | n + 1, s =>
      let r := sc.scanUlong s
      if r.1 = 0 then none
      else if n = 0 then some (r.1, [UInt8.ofNat r.2])
      else if (s.drop r.1).head? = some 46 then
        (scanOctets n (s.drop (r.1 + 1))).map fun p => (r.1 + 1 + p.1, UInt8.ofNat r.2 :: p.2)
      else none

def rblip4_scan (s : Bytes) : Option (Nat × Bytes) := scanOctets sc 4 s

/-- How the first loop of `rblip6_scan` ends: with `return`, or after a `::`. -/
inductive Prefix
  | fail
  | done (len : Nat) (ip : Bytes)
  | compact (len : Nat) (ip s : Bytes)

/-- The first loop of `rblip6_scan`. Every turn adds two bytes. -/
def scanPrefix : Nat → Nat → Bytes → Bytes → Prefix
  | 0, _, _, _ => .fail
  | n + 1, len, ip, s =>
      if s.head? = some 58 ∧ s.tail.head? = some 58 then .compact (len + 2) ip (s.drop 2)
      else
        let s' := if s.head? = some 58 then s.tail else s
        let len' := if s.head? = some 58 then len + 1 else len
        let r := sc.scanXlong s'
        if r.1 = 0 then .fail
        else if ip.length = 12 ∧ (s'.drop r.1).head? = some 46 then
          match rblip4_scan sc s' with
          | none => .fail
          | some (i, ip4) => .done (i + len') (ip ++ ip4)
        else
          let ip' := ip ++ [UInt8.ofNat (r.2 / 256), UInt8.ofNat r.2]
          if ip'.length = 16 then .done (len' + r.1) ip'
          else scanPrefix n (len' + r.1) ip' (s'.drop r.1)

/-- The second loop, after `::`. -/
def scanSuffix : Nat → Nat → Nat → Bytes → Bytes → Nat × Bytes
  | 0, _, len, suffix, _ => (len, suffix)
  | n + 1, prefixlen, len, suffix, s =>
      if s.head? = some 58 ∧ suffix = [] ∨ s.head? ≠ some 58 ∧ suffix ≠ [] then (len, suffix)
      else
        let s' := if s.head? = some 58 then s.tail else s
        let len' := if s.head? = some 58 then len + 1 else len
        let r := sc.scanXlong s'
        let suffix' := suffix ++ [UInt8.ofNat (r.2 / 256), UInt8.ofNat r.2]
        if r.1 = 0 then (len' - 1, suffix)
        else if suffix.length + prefixlen ≤ 12 ∧ (s'.drop r.1).head? = some 46 then
          match rblip4_scan sc s' with
          | some (i, ip4) => (len' + i, suffix ++ ip4)
          | none =>
              if 12 - suffix.length + suffix'.length = 16 then (len' + r.1, suffix')
              else scanSuffix n (12 - suffix.length) (len' + r.1) suffix' (s'.drop r.1)
        else if prefixlen + suffix'.length = 16 then (len' + r.1, suffix')
        else scanSuffix n prefixlen (len' + r.1) suffix' (s'.drop r.1)

/-- The length read, 0 if it is no address, and the 16 octets. -/
def rblip6_scan (s : Bytes) : Nat × Bytes :=
  match rblip4_scan sc s with
  | some (i, ip4) =>
      (i, (if ip4 = [0, 0, 0, 0] then List.replicate 12 0
        else List.replicate 10 0 ++ [255, 255]) ++ ip4)
  | none =>
      match scanPrefix sc 8 0 [] s with
      | .fail => (0, [])
      | .done len ip => (len, ip)
      | .compact len ip s =>
          let r := scanSuffix sc 8 ip.length len [] s
          (r.1, ip ++ List.replicate (16 - ip.length - r.2.length) 0 ++ r.2)

/-- `ip6_expandaddr`: all digits of all octets. -/
def ip6_expandaddr (src : Bytes) : Option Bytes :=
  if (rblip6_scan sc src).1 = 0 then none
  else some ((rblip6_scan sc src).2.zipIdx.flatMap fun p =>
    sc.fmtHexbyte p.1 ++ if (p.2 + 1) % 2 = 0 ∧ p.2 + 1 < 16 then [58] else [])

/-! ## Bit strings -/

/-- The bits of an octet, the highest first. -/
def octetBits (b : Byte) : List Bool := (List.range 8).map fun k => b.toNat.testBit (7 - k)

/-- A `0` for a zero; the ones are counted. -/
def bitLetters (letter : Nat → Byte) : Nat → List Bool → Bytes
  | _, [] => []
  | n, true :: bits => letter n :: bitLetters letter (n + 1) bits
  | n, false :: bits => 48 :: bitLetters letter n bits

/-- `ip6tobitstring`: the address is cut at a slash, and at the `Z` that `stralloc` leaves. -/
def ip6tobitstring (ip6address : Bytes) (pfx : Nat) : Option Bytes :=
  let ip6addr := (ip6address.takeWhile (· ≠ 47)).takeWhile (· ≠ 90)
  if (rblip6_scan sc ip6addr).1 = 0 then none
  else some (bitLetters (fun n => UInt8.ofNat (96 + n)) 0
    (((rblip6_scan sc ip6addr).2.flatMap octetBits).take pfx))

def letterarray : Bytes := asc "abcdefghijklmnopqrstuvwxyz123456"

/-- The eight bits of a number in `getaddressasbit`; `none` when the prefix is reached. A one has
the letter of its position. -/
def numberBits (pfx : Nat) (num : Nat) (out : Bytes) : List Nat → Bytes × Bool
  | [] => (out, false)
  | i :: is =>
      if pfx ≤ out.length then (out, true)
      else if 2 ^ (7 - i) ≤ num then
        numberBits pfx (num - 2 ^ (7 - i)) (out ++ [letterarray.getD out.length 0]) is
      else numberBits pfx num (out ++ [48]) is

/-- `getaddressasbit`: the string it leaves, whatever it returns. -/
def addressBits (ip : Bytes) (pfx : Nat) : Nat → Nat → Nat → Bytes → Bytes
  | 0, _, _, out => out
  | n + 1, pos, posl, out =>
      let r := sc.scanUlong ((ip.drop pos).take posl)
      if r.1 = 0 then out
      else if 255 < r.2 then out
      else
        let bits := numberBits pfx r.2 out (List.range 8)
        let pos' := pos + posl + 1
        if bits.2 then bits.1
        else if pos' < byteChr ip 47 + 1 then
          addressBits ip pfx n pos'
            (byteChr ((ip.drop (pos' + 1)).take (byteChr ip 47 - pos' - 1)) 46 + 1) bits.1
        else bits.1

def getaddressasbit (ip : Bytes) (pfx : Nat) : Bytes :=
  addressBits sc ip pfx (ip.length + 1) 0 (byteChr (ip.take (byteChr ip 47)) 46) []

/-! ## The text of an address -/

/-- A number of an IPv4 address. -/
structure Octet (t : Bytes) (b : Byte) : Prop where
  ne_nil : t ≠ []
  short : t.length ≤ 3
  digits : ∀ x ∈ t, isDigit x = true
  value : digitsValue t = b.toNat

/-- Numbers with dots between them. -/
inductive Dotted : Bytes → Bytes → Prop
  | one {t : Bytes} {b : Byte} (h : Octet t b) : Dotted t [b]
  | cons {t rest : Bytes} {b : Byte} {bs : Bytes} (h : Octet t b) (hr : Dotted rest bs) :
      Dotted (t ++ 46 :: rest) (b :: bs)

def Ip4 (t : Bytes) (bs : Bytes) : Prop := Dotted t bs ∧ bs.length = 4

/-- A group of an IPv6 address: two octets. -/
structure Group (t : Bytes) (a b : Byte) : Prop where
  ne_nil : t ≠ []
  short : t.length ≤ 4
  hex : ∀ x ∈ t, isHex x = true
  value : hexValue t = a.toNat * 256 + b.toNat

/-- Groups with colons between them; the last four octets may be an IPv4 address. -/
inductive Groups : Bytes → Bytes → Prop
  | one {t : Bytes} {a b : Byte} (h : Group t a b) : Groups t [a, b]
  | ip4 {t bs : Bytes} (h : Ip4 t bs) : Groups t bs
  | cons {t rest : Bytes} {a b : Byte} {bs : Bytes} (h : Group t a b) (hr : Groups rest bs) :
      Groups (t ++ 58 :: rest) (a :: b :: bs)

/-- The text of an IPv6 address: 16 octets, or fewer and a `::` for the zeros that are left out. -/
inductive Ip6 : Bytes → Bytes → Prop
  | full {t bs : Bytes} (h : Groups t bs) (hlen : bs.length = 16) : Ip6 t bs
  | compact {p ps s ss : Bytes} (hp : p = [] ∧ ps = [] ∨ Groups p ps ∧ 46 ∉ p)
      (hs : s = [] ∧ ss = [] ∨ Groups s ss) (hlen : ps.length + ss.length ≤ 14) :
      Ip6 (p ++ 58 :: 58 :: s) (ps ++ List.replicate (16 - ps.length - ss.length) 0 ++ ss)

/-! ### What the scanners read -/

section
variable {sc : Scanners} {t rest s : Bytes} {a b : Byte} {bs ip : Bytes} {n len : Nat}

theorem isHex_of_isDigit {x : Byte} (h : isDigit x = true) : isHex x = true := by
  rw [isHex, h]
  rfl

/-- What the scanner makes of a number. -/
theorem scanUlong_octet (h : Octet t b) (hr : ∀ x ∈ rest.head?, isDigit x = false) :
    sc.scanUlong (t ++ rest) = (t.length, b.toNat) := by
  have hb := UInt8.toNat_lt b
  rw [sc.scan_eq, scanDecimal, takeWhile_isDigit_append h.digits hr, h.value,
    Nat.mod_eq_of_lt (by omega)]

/-- **`rblip4_scan` reads an IPv4 address.** -/
theorem scanOctets_dotted (h : Dotted t bs) (hr : ∀ x ∈ rest.head?, isDigit x = false) :
    scanOctets sc bs.length (t ++ rest) = some (t.length, bs) := by
  induction h with
  | @one t b h =>
      have hpos := List.length_pos_iff.mpr h.ne_nil
      rw [List.length_singleton, scanOctets]
      simp only [scanUlong_octet h hr]
      rw [if_neg (by omega), if_pos trivial, UInt8.ofNat_toNat]
  | @cons t u b bs h hd ih =>
      have hpos := List.length_pos_iff.mpr h.ne_nil
      have hdot : ∀ x ∈ (46 :: u ++ rest).head?, isDigit x = false := by
        intro x hx
        obtain rfl := Option.some.inj hx
        rfl
      have hbs : bs.length ≠ 0 := by
        cases hd <;> simp
      have hdrop : (t ++ (46 :: u ++ rest)).drop t.length = 46 :: u ++ rest := List.drop_left
      have hdrop' : (t ++ (46 :: u ++ rest)).drop (t.length + 1) = u ++ rest := by
        rw [← List.drop_drop, hdrop]
        rfl
      rw [List.length_cons, scanOctets, List.append_assoc]
      simp only [scanUlong_octet h hdot, hdrop, hdrop', ih]
      have hhead : (46 :: u ++ rest).head? = some 46 := rfl
      rw [if_neg (by omega), if_neg hbs, if_pos hhead, UInt8.ofNat_toNat, List.length_append,
        List.length_cons]
      simp only [Option.map_some, Option.some.injEq, Prod.mk.injEq, and_true]
      omega

/-- `rblip4_scan` reads no text whose first colon is not after a dot. -/
theorem rblip4_scan_none (hu : ∀ x ∈ t, isHex x = true) :
    rblip4_scan sc (t ++ 58 :: rest) = none := by
  have hnext : ∀ u : Bytes, (∀ x ∈ u, isHex x = true) →
      ((u ++ 58 :: rest).drop ((u ++ 58 :: rest).takeWhile isDigit).length).head? ≠ some 46 := by
    intro u hu
    induction u with
    | nil =>
        intro h
        have h58 : (58 : Byte) = 46 := Option.some.inj h
        exact absurd h58 (by decide)
    | cons x u ih =>
        rw [List.forall_mem_cons] at hu
        by_cases hx : isDigit x = true
        · rw [List.cons_append, List.takeWhile_cons_of_pos hx]
          exact ih hu.2
        · rw [List.cons_append, List.takeWhile_cons_of_neg hx]
          intro h
          have hx46 : x = 46 := Option.some.inj h
          rw [hx46] at hu
          exact absurd hu.1 (by decide)
  rw [rblip4_scan, scanOctets]
  simp only [sc.scan_eq, scanDecimal]
  by_cases h0 : ((t ++ 58 :: rest).takeWhile isDigit).length = 0
  · rw [if_pos h0]
  · rw [if_neg h0, if_neg (by decide), if_neg (hnext t hu)]

/-! ### Groups -/

/-- What the scanner makes of a group. -/
theorem scanXlong_group (h : Group t a b) (hr : ∀ x ∈ rest.head?, isHex x = false) :
    sc.scanXlong (t ++ rest) = (t.length, a.toNat * 256 + b.toNat) := by
  have := h.short
  rw [sc.scan_hex t rest (by omega) h.hex hr, h.value]

theorem group_octets (a b : Byte) : [UInt8.ofNat ((a.toNat * 256 + b.toNat) / 256),
    UInt8.ofNat (a.toNat * 256 + b.toNat)] = [a, b] := by
  have hb := UInt8.toNat_lt b
  have h1 : (a.toNat * 256 + b.toNat) / 256 = a.toNat := by omega
  have h2 : UInt8.ofNat (a.toNat * 256 + b.toNat) = b := by
    apply UInt8.toNat_inj.mp
    rw [UInt8.toNat_ofNat']
    omega
  rw [h1, h2, UInt8.ofNat_toNat]

theorem Group.head (h : Group t a b) : ∃ x u, t = x :: u ∧ x ≠ 58 := by
  cases t with
  | nil => exact absurd rfl h.ne_nil
  | cons x u =>
      refine ⟨x, u, rfl, ?_⟩
      rintro rfl
      exact absurd (h.hex 58 List.mem_cons_self) (by decide)

/-- A colon, where one is before the group. -/
def sep (first : Bool) : Bytes := if first then [] else [58]

theorem sep_head (first : Bool) {x : Byte} {u : Bytes} (hx : x ≠ 58) :
    ((sep first ++ x :: u).head? = some 58 ↔ first = false) ∧
      ¬ ((sep first ++ x :: u).head? = some 58 ∧ (sep first ++ x :: u).tail.head? = some 58) ∧
      (if (sep first ++ x :: u).head? = some 58 then (sep first ++ x :: u).tail
        else sep first ++ x :: u) = x :: u := by
  cases first <;> simp [sep, hx]

/-- One turn of the first loop. -/
theorem scanPrefix_group (first : Bool) (h : Group t a b)
    (hr : ∀ x ∈ rest.head?, isHex x = false ∧ x ≠ 46) :
    ∃ len', len < len' ∧ scanPrefix sc (n + 1) len ip (sep first ++ (t ++ rest)) =
      if ip.length + 2 = 16 then .done len' (ip ++ [a, b])
      else scanPrefix sc n len' (ip ++ [a, b]) rest := by
  obtain ⟨x, u, rfl, hx⟩ := h.head
  obtain ⟨hcolon, hno, hs⟩ := sep_head first (x := x) (u := u ++ rest) hx
  have hscan := @scanXlong_group sc _ _ _ _ h fun y hy => (hr y hy).1
  have hnext : rest.head? ≠ some 46 := fun h46 => (hr 46 h46).2 rfl
  have hdrop : (x :: u ++ rest).drop (x :: u).length = rest := List.drop_left
  rw [List.cons_append] at hscan hdrop
  refine ⟨(if (sep first ++ x :: (u ++ rest)).head? = some 58 then len + 1 else len) +
    (x :: u).length, ?_, ?_⟩
  · rw [List.length_cons]
    split_ifs <;> omega
  · rw [scanPrefix, List.cons_append, if_neg hno]
    simp only [hs, hscan, hdrop, group_octets]
    rw [if_neg (by simp), if_neg (fun h => hnext h.2), List.length_append]
    rfl

theorem scanSuffix_group (first : Bool) {pl : Nat} (hfirst : first = true ↔ ip = [])
    (h : Group t a b) (hr : ∀ x ∈ rest.head?, isHex x = false ∧ x ≠ 46) :
    ∃ len', len < len' ∧ scanSuffix sc (n + 1) pl len ip (sep first ++ (t ++ rest)) =
      if pl + (ip.length + 2) = 16 then (len', ip ++ [a, b])
      else scanSuffix sc n pl len' (ip ++ [a, b]) rest := by
  obtain ⟨x, u, rfl, hx⟩ := h.head
  obtain ⟨hcolon, hno, hs⟩ := sep_head first (x := x) (u := u ++ rest) hx
  have hscan := @scanXlong_group sc _ _ _ _ h fun y hy => (hr y hy).1
  have hnext : rest.head? ≠ some 46 := fun h46 => (hr 46 h46).2 rfl
  have hdrop : (x :: u ++ rest).drop (x :: u).length = rest := List.drop_left
  rw [List.cons_append] at hscan hdrop
  have hgo : ¬ ((sep first ++ x :: (u ++ rest)).head? = some 58 ∧ ip = [] ∨
      (sep first ++ x :: (u ++ rest)).head? ≠ some 58 ∧ ip ≠ []) := by
    rw [hcolon, ← hfirst, Ne, hcolon, Ne, ← hfirst]
    cases first <;> simp
  refine ⟨(if (sep first ++ x :: (u ++ rest)).head? = some 58 then len + 1 else len) +
    (x :: u).length, ?_, ?_⟩
  · rw [List.length_cons]
    split_ifs <;> omega
  · rw [scanSuffix, List.cons_append, if_neg hgo]
    simp only [hs, hscan, hdrop, group_octets]
    rw [if_neg (by simp), if_neg (fun h => hnext h.2), List.length_append]
    rfl

theorem Ip4.head (h : Ip4 t bs) : ∃ u b rest, Octet u b ∧ t = u ++ 46 :: rest ∧ ∃ x v, u = x :: v := by
  obtain ⟨hd, hlen⟩ := h
  cases hd with
  | one h => cases hlen
  | @cons u rest b bs h hr =>
      refine ⟨u, b, rest, h, rfl, ?_⟩
      cases u with
      | nil => exact absurd rfl h.ne_nil
      | cons x v => exact ⟨x, v, rfl⟩

/-- `rblip4_scan` reads what ends with an IPv4 address. -/
theorem rblip4_scan_ip4 (h : Ip4 t bs) : rblip4_scan sc t = some (t.length, bs) := by
  have := @scanOctets_dotted sc _ [] _ h.1 (by simp)
  rwa [h.2, List.append_nil] at this

/-- The number before the first dot, in hexadecimal. -/
theorem scanXlong_ip4 (h : Ip4 t bs) :
    (sc.scanXlong t).1 ≠ 0 ∧ (t.drop (sc.scanXlong t).1).head? = some 46 ∧
      ∃ x u, t = x :: u ∧ x ≠ 58 := by
  obtain ⟨u, b, rest, ho, rfl, x, v, rfl⟩ := h.head
  have hscan := sc.scan_hex (x :: v) (46 :: rest) (by have := ho.short; omega)
    (fun y hy => isHex_of_isDigit (ho.digits y hy)) (by
      intro y hy
      obtain rfl := Option.some.inj hy
      rfl)
  rw [hscan]
  refine ⟨by simp, by rw [List.drop_left]; rfl, x, v ++ 46 :: rest, rfl, ?_⟩
  rintro rfl
  exact absurd (ho.digits 58 List.mem_cons_self) (by decide)

theorem Groups.ne_nil (h : Groups t bs) : bs ≠ [] := by
  cases h with
  | one h => exact List.cons_ne_nil _ _
  | ip4 h =>
      rintro rfl
      exact absurd h.2 (by decide)
  | cons h hr => exact List.cons_ne_nil _ _

/-- An address in full. -/
theorem scanPrefix_full (h : Groups t bs) (first : Bool) (hlen : ip.length + bs.length = 16)
    (hn : bs.length ≤ 2 * n) : ∃ len', len < len' ∧
      scanPrefix sc n len ip (sep first ++ t) = .done len' (ip ++ bs) := by
  induction h generalizing n len ip first with
  | @one t a b h =>
      obtain ⟨n, rfl⟩ := Nat.exists_eq_add_one.mpr (show 0 < n by simp at hn; omega)
      obtain ⟨len', hlt, hs⟩ := @scanPrefix_group sc _ [] _ _ ip n len first h (by simp)
      refine ⟨len', hlt, ?_⟩
      rw [List.append_nil, if_pos (by simpa using hlen)] at hs
      exact hs
  | @ip4 t bs h =>
      have h4 := h.2
      obtain ⟨n, rfl⟩ := Nat.exists_eq_add_one.mpr (show 0 < n by omega)
      obtain ⟨hne, hdot, x, u, rfl, hx⟩ := @scanXlong_ip4 sc _ _ h
      obtain ⟨hcolon, hno, hs⟩ := sep_head first (x := x) (u := u) hx
      refine ⟨(x :: u).length + (if (sep first ++ x :: u).head? = some 58 then len + 1 else len),
        ?_, ?_⟩
      · rw [List.length_cons]
        split_ifs <;> omega
      · rw [scanPrefix, if_neg hno]
        simp only [hs]
        rw [if_neg hne, if_pos ⟨by omega, hdot⟩, rblip4_scan_ip4 h]
  | @cons t rest a b bs h hr ih =>
      simp only [List.length_cons] at hlen hn
      obtain ⟨n, rfl⟩ := Nat.exists_eq_add_one.mpr (show 0 < n by omega)
      have hpos := List.length_pos_iff.mpr hr.ne_nil
      obtain ⟨len1, hlt1, hs⟩ := @scanPrefix_group sc _ (58 :: rest) _ _ ip n len first h (by
          intro y hy
          obtain rfl := Option.some.inj hy
          exact ⟨rfl, by decide⟩)
      obtain ⟨len', hlt, hs'⟩ := @ih (ip ++ [a, b]) n len1 false
        (by simp; omega) (by omega)
      refine ⟨len', by omega, ?_⟩
      rw [hs, if_neg (by omega)]
      exact hs'.trans (by simp)

/-- What is before a `::`. -/
theorem scanPrefix_compact (h : Groups t bs) (hdot : 46 ∉ t) (first : Bool)
    (hlen : ip.length + bs.length ≤ 14) (hn : bs.length + 2 ≤ 2 * n) : ∃ len', len + 1 < len' ∧
      scanPrefix sc n len ip (sep first ++ (t ++ 58 :: 58 :: s)) =
        .compact len' (ip ++ bs) s := by
  have hend : ∀ {n len : Nat} {ip : Bytes}, 0 < n →
      scanPrefix sc n len ip (58 :: 58 :: s) = .compact (len + 2) ip s := by
    intro n len ip hn
    obtain ⟨n, rfl⟩ := Nat.exists_eq_add_one.mpr hn
    rw [scanPrefix, if_pos ⟨rfl, rfl⟩]
    rfl
  have hsep : ∀ {u : Bytes}, ∀ y ∈ (58 :: u).head?, isHex y = false ∧ y ≠ 46 := by
    intro u y hy
    obtain rfl := Option.some.inj hy
    exact ⟨rfl, by decide⟩
  induction h generalizing n len ip first with
  | @one t a b h =>
      obtain ⟨n, rfl⟩ := Nat.exists_eq_add_one.mpr (show 0 < n by simp at hn; omega)
      obtain ⟨len', hlt, hs⟩ := @scanPrefix_group sc _ (58 :: 58 :: s) _ _ ip n len first h hsep
      refine ⟨len' + 2, by omega, ?_⟩
      rw [hs, if_neg (by simp at hlen; omega), hend (by simp at hn; omega)]
  | @ip4 t bs h =>
      obtain ⟨u, b, rest, ho, rfl, hx⟩ := h.head
      exact absurd (List.mem_append_right u List.mem_cons_self) hdot
  | @cons t rest a b bs h hr ih =>
      simp only [List.length_cons] at hlen hn
      obtain ⟨n, rfl⟩ := Nat.exists_eq_add_one.mpr (show 0 < n by omega)
      have hrest : 46 ∉ rest := by
        intro hin
        exact hdot (List.mem_append_right t (List.mem_cons_of_mem _ hin))
      obtain ⟨len1, hlt1, hs⟩ :=
        @scanPrefix_group sc _ (58 :: rest ++ 58 :: 58 :: s) _ _ ip n len first h hsep
      obtain ⟨len', hlt, hs'⟩ := @ih (ip ++ [a, b]) n len1 hrest false
        (by simp; omega) (by omega)
      refine ⟨len', by omega, ?_⟩
      rw [List.append_assoc, hs, if_neg (by omega)]
      exact hs'.trans (by simp)

/-- What is after a `::`. -/
theorem scanSuffix_groups (h : Groups t bs) (first : Bool) {pl : Nat}
    (hfirst : first = true ↔ ip = []) (hlen : pl + ip.length + bs.length ≤ 14)
    (hn : bs.length + 2 ≤ 2 * n) : ∃ len', len < len' ∧
      scanSuffix sc n pl len ip (sep first ++ t) = (len', ip ++ bs) := by
  induction h generalizing n len ip first with
  | @one t a b h =>
      simp only [List.length_cons, List.length_nil] at hlen hn
      obtain ⟨n, rfl⟩ := Nat.exists_eq_add_one.mpr (show 0 < n by omega)
      obtain ⟨len', hlt, hs⟩ := @scanSuffix_group sc _ [] _ _ ip n len first pl hfirst h (by simp)
      refine ⟨len', hlt, ?_⟩
      obtain ⟨m, rfl⟩ := Nat.exists_eq_add_one.mpr (show 0 < n by omega)
      rw [List.append_nil, if_neg (by omega)] at hs
      rw [hs, scanSuffix, if_pos (Or.inr ⟨by simp, by simp⟩)]
  | @ip4 t bs h =>
      have h4 := h.2
      obtain ⟨n, rfl⟩ := Nat.exists_eq_add_one.mpr (show 0 < n by omega)
      obtain ⟨hne, hdot, x, u, rfl, hx⟩ := @scanXlong_ip4 sc _ _ h
      obtain ⟨hcolon, hno, hs⟩ := sep_head first (x := x) (u := u) hx
      have hgo : ¬ ((sep first ++ x :: u).head? = some 58 ∧ ip = [] ∨
          (sep first ++ x :: u).head? ≠ some 58 ∧ ip ≠ []) := by
        rw [hcolon, ← hfirst, Ne, hcolon, Ne, ← hfirst]
        cases first <;> simp
      refine ⟨(if (sep first ++ x :: u).head? = some 58 then len + 1 else len) + (x :: u).length,
        ?_, ?_⟩
      · rw [List.length_cons]
        split_ifs <;> omega
      · rw [scanSuffix, if_neg hgo]
        simp only [hs]
        rw [if_neg hne, if_pos ⟨by omega, hdot⟩, rblip4_scan_ip4 h]
  | @cons t rest a b bs h hr ih =>
      simp only [List.length_cons] at hlen hn
      obtain ⟨n, rfl⟩ := Nat.exists_eq_add_one.mpr (show 0 < n by omega)
      obtain ⟨len1, hlt1, hs⟩ := @scanSuffix_group sc _ (58 :: rest) _ _ ip n len first pl hfirst h (by
          intro y hy
          obtain rfl := Option.some.inj hy
          exact ⟨rfl, by decide⟩)
      obtain ⟨len', hlt, hs'⟩ := @ih (ip ++ [a, b]) n len1 false
        (by simp) (by simp; omega) (by omega)
      refine ⟨len', by omega, ?_⟩
      rw [hs, if_neg (by omega)]
      exact hs'.trans (by simp)

/-- The text of an IPv6 address has a colon after its first group. -/
theorem Groups.colon (h : Groups t bs) (hlen : 4 < bs.length) :
    ∃ u rest, (∀ x ∈ u, isHex x = true) ∧ t = u ++ 58 :: rest := by
  cases h with
  | one h => simp at hlen
  | ip4 h =>
      have := h.2
      omega
  | @cons u rest a b bs h hr => exact ⟨u, rest, h.hex, rfl⟩

/-- **`rblip6_scan` reads every IPv6 address.** -/
theorem rblip6_scan_ip6 (h : Ip6 t bs) : (rblip6_scan sc t).1 ≠ 0 ∧ (rblip6_scan sc t).2 = bs := by
  cases h with
  | full h hlen =>
      obtain ⟨u, rest, hu, rfl⟩ := h.colon (by omega)
      obtain ⟨len', hlt, hs⟩ := @scanPrefix_full sc _ _ [] 8 0 h true
        (by simpa using hlen) (by omega)
      have hs' : scanPrefix sc 8 0 [] (u ++ 58 :: rest) = .done len' bs := hs
      rw [rblip6_scan, rblip4_scan_none hu]
      simp only [hs']
      exact ⟨by omega, trivial⟩
  | @compact p ps s ss hp hs hlen =>
      have h4 : rblip4_scan sc (p ++ 58 :: 58 :: s) = none := by
        rcases hp with ⟨rfl, -⟩ | ⟨hp, hdot⟩
        · exact rblip4_scan_none (t := []) (by simp)
        · cases hp with
          | one h => exact rblip4_scan_none h.hex
          | ip4 h =>
              obtain ⟨u, b, rest, ho, rfl, hx⟩ := h.head
              exact absurd (List.mem_append_right u List.mem_cons_self) hdot
          | @cons u rest a b bs h hr =>
              rw [List.append_assoc]
              exact rblip4_scan_none h.hex
      obtain ⟨len1, hlt1, hpre⟩ : ∃ len', 1 < len' ∧
          scanPrefix sc 8 0 [] (p ++ 58 :: 58 :: s) = .compact len' ps s := by
        rcases hp with ⟨rfl, rfl⟩ | ⟨hp, hdot⟩
        · exact ⟨2, by omega, rfl⟩
        · obtain ⟨len', hlt, h⟩ :=
            @scanPrefix_compact sc _ s _ [] 8 0 hp hdot true (by simp; omega) (by omega)
          exact ⟨len', hlt, h⟩
      obtain ⟨len2, hlt2, hsuf⟩ : ∃ len', 0 < len' ∧
          scanSuffix sc 8 ps.length len1 [] s = (len', ss) := by
        rcases hs with ⟨rfl, rfl⟩ | hs
        · have hscan : sc.scanXlong [] = (0, hexValue []) :=
            sc.scan_hex [] [] (by simp) (by simp) (by simp)
          refine ⟨len1 - 1, by omega, ?_⟩
          rw [scanSuffix, if_neg (by simp)]
          simp [hscan]
        · obtain ⟨len', hlt, h⟩ := @scanSuffix_groups sc _ _ [] 8 len1 hs true ps.length
            (by simp) (by simp; omega) (by omega)
          exact ⟨len', by omega, h⟩
      rw [rblip6_scan, h4]
      simp only [hpre, hsuf]
      exact ⟨by omega, trivial⟩

/-! ### The expanded text -/

theorem group_hexbyte (a b : Byte) : Group (sc.fmtHexbyte a ++ sc.fmtHexbyte b) a b := by
  have ha := sc.hexbyte_length a
  have hb := sc.hexbyte_length b
  constructor
  · intro h
    have := congrArg List.length h
    rw [List.length_append, List.length_nil] at this
    omega
  · rw [List.length_append]
    omega
  · intro x hx
    rcases List.mem_append.mp hx with hx | hx
    · exact sc.hexbyte_isHex a x hx
    · exact sc.hexbyte_isHex b x hx
  · exact sc.hexbyte_value a b

/-- The octets from number `k` on. -/
theorem groups_expanded {m k : Nat} (hlen : bs.length = 2 * (m + 1)) (hk : k + bs.length = 16) :
    Groups ((bs.zipIdx k).flatMap fun p =>
      sc.fmtHexbyte p.1 ++ if (p.2 + 1) % 2 = 0 ∧ p.2 + 1 < 16 then [58] else []) bs := by
  induction m generalizing bs k with
  | zero =>
      obtain ⟨a, b, rfl⟩ := List.length_eq_two.mp hlen
      simp only [List.length_cons, List.length_nil] at hk
      obtain rfl : k = 14 := by omega
      have := Groups.one (@group_hexbyte sc a b)
      simpa using this
  | succ m ih =>
      match bs, hlen with
      | a :: b :: bs, hlen =>
          simp only [List.length_cons] at hlen hk
          have hrest := @ih bs (k + 2) (by omega) (by omega)
          have := Groups.cons (@group_hexbyte sc a b) hrest
          have hodd : ¬ (k + 1) % 2 = 0 := by omega
          have heven : (k + 1 + 1) % 2 = 0 ∧ k + 1 + 1 < 16 := by omega
          simpa [List.zipIdx_cons, hodd, heven, List.append_assoc] using this

/-- **The expanded text stands for the same address.** -/
theorem ip6_expandaddr_ip6 (h : Ip6 t bs) (hlen : bs.length = 16) :
    ∃ x, ip6_expandaddr sc t = some x ∧ Ip6 x bs := by
  obtain ⟨hne, hbs⟩ := @rblip6_scan_ip6 sc _ _ h
  refine ⟨_, by rw [ip6_expandaddr, if_neg hne], ?_⟩
  rw [hbs]
  exact .full (groups_expanded (m := 7) (by omega) (by omega)) hlen

theorem Ip6.length (h : Ip6 t bs) : bs.length = 16 := by
  cases h with
  | full h hlen => exact hlen
  | compact hp hs hlen =>
      rw [List.length_append, List.length_append, List.length_replicate]
      omega

end

end IndimailMta.Tcprules
