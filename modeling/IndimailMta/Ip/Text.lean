import IndimailMta.Tcprules.Addresses

/-!
# Addresses as text

`ip4_fmt` and `ip6_fmt` write an address, `ip4_scan` and `ip6_scan` read one. The first run of zeros
of an IPv6 address is written as `::`, and what is mapped from IPv4 has its last four octets in
decimal. `ip6_scan` reads what is in front of a `::` into the result, and what is behind it into a
buffer of its own.

A buffer is the list of the bytes that were written into it; the model of `ip6_scan` has no value
where a byte is written behind the end, nor where it goes on for more turns than it can.
-/

namespace IndimailMta.Ip

open IndimailMta Tcprules

/-- The scanners, and `fmt_xlong`. -/
structure Texts extends Scanners where
  fmtXlong : Nat → Bytes
  xlong_ne_nil : ∀ n, fmtXlong n ≠ []
  xlong_short : ∀ n < 2 ^ 16, (fmtXlong n).length ≤ 4
  xlong_isHex : ∀ n, ∀ x ∈ fmtXlong n, isHex x = true
  xlong_value : ∀ n, hexValue (fmtXlong n) = n
  ulong_eq : ∀ n, fmtUlong n = decimalText n

variable (tx : Texts)

def V4mappedprefix : Bytes := [0, 0, 0, 0, 0, 0, 0, 0, 0, 0, 255, 255]

/-! ## The code -/

def ip4_fmt (ip : Bytes) : Bytes :=
  tx.fmtUlong (ip.getD 0 0).toNat ++ 46 :: (tx.fmtUlong (ip.getD 1 0).toNat ++
    46 :: (tx.fmtUlong (ip.getD 2 0).toNat ++ 46 :: tx.fmtUlong (ip.getD 3 0).toNat))

/-- Numbers up to 255, with a dot after each but the last. -/
def scanNumbers : Nat → Bytes → Option (Nat × Bytes)
  | 0, _ => some (0, [])
  | n + 1, s =>
      let r := tx.scanUlong s
      if r.1 = 0 then none
      else if 255 < r.2 then none
      else if n = 0 then some (r.1, [UInt8.ofNat r.2])
      else if (s.drop r.1).head? = some 46 then
        (scanNumbers n (s.drop (r.1 + 1))).map fun p => (r.1 + 1 + p.1, UInt8.ofNat r.2 :: p.2)
      else none

/-- The length that was read, and the octets; no value for 0. -/
def ip4_scan (s : Bytes) : Option (Nat × Bytes) := scanNumbers tx 4 s

def ip4_scanbracket (s : Bytes) : Option (Nat × Bytes) :=
  if s.head? ≠ some 91 then none
  else
    match ip4_scan tx s.tail with
    | none => none
    | some (len, ip) => if (s.drop (len + 1)).head? ≠ some 93 then none else some (len + 2, ip)

/-- The loop of `ip6_fmt`, and what follows it. -/
def fmtLoop (ip6 : Bytes) : Nat → Nat → Bool → Bool → Bytes → Bytes
  | 0, _, compressing, _, s => if compressing then s ++ [58] else s
  | left + 1, j, compressing, compressed, s =>
      if j = 12 ∧ ip6.take 12 = V4mappedprefix then
        let s := s ++ ip4_fmt tx (ip6.drop 12)
        if compressing then s ++ [58] else s
      else
        let temp := (ip6.getD j 0).toNat * 256 + (ip6.getD (j + 1) 0).toNat
        if temp = 0 ∧ compressed = false then
          fmtLoop ip6 left (j + 2) true compressed
            (if compressing = false ∧ j = 0 then s ++ [58] else s)
        else
          let s := if compressing then s ++ [58] else s
          let compressed := compressing || compressed
          let s := s ++ tx.fmtXlong temp
          fmtLoop ip6 left (j + 2) false compressed (if j < 14 then s ++ [58] else s)

def ip6_fmt (ip6 : Bytes) : Bytes := fmtLoop tx ip6 8 0 false false []

/-- A byte is written behind those that were written before. -/
def write (size : Nat) (buf : Bytes) (x : Byte) : Option Bytes :=
  if buf.length < size then some (buf ++ [x]) else none

/-- How the first loop of `ip6_scan` ends: with 0, with an address, or behind a `::`. -/
inductive Part
  | fail (d : Bytes)
  | done (len : Nat) (d : Bytes)
  | compact (len : Nat) (d s : Bytes)

/-- The first loop. -/
def scanPrefix : Nat → Nat → Bytes → Bytes → Option Part
  | 0, _, _, _ => none
  | n + 1, len, d, s =>
      if s.head? = some 58 ∧ s.tail.head? = some 58 then some (.compact (len + 2) d (s.drop 2))
      else
        let s' := if s.head? = some 58 then s.tail else s
        let len' := if s.head? = some 58 then len + 1 else len
        let r := tx.scanXlong s'
        if r.1 = 0 then some (.fail d)
        else if d.length = 12 ∧ (s'.drop r.1).head? = some 46 then
          match ip4_scan tx s' with
          | none => some (.fail d)
          | some (i, ip4) => some (.done (i + len') (d ++ ip4))
        else do
          let d ← write 16 d (UInt8.ofNat (r.2 / 256))
          let d ← write 16 d (UInt8.ofNat r.2)
          if d.length = 16 then some (.done (len' + r.1) d)
          else scanPrefix n (len' + r.1) d (s'.drop r.1)

/-- The second loop: the length, and the suffix. -/
def scanSuffix : Nat → Nat → Nat → Bytes → Bytes → Option (Nat × Bytes)
  | 0, _, _, _, _ => none
  | n + 1, prefixlen, len, suffix, s =>
      if s.head? = some 58 ∧ suffix = [] ∨ s.head? ≠ some 58 ∧ suffix ≠ [] then some (len, suffix)
      else
        let s' := if s.head? = some 58 then s.tail else s
        let len' := if s.head? = some 58 then len + 1 else len
        let r := tx.scanXlong s'
        if r.1 = 0 then some (len' - 1, suffix)
        else
          let dotted := suffix.length + prefixlen ≤ 12 ∧ (s'.drop r.1).head? = some 46
          match if dotted then ip4_scan tx s' else none with
          | some (j, ip4) =>
              if suffix.length + 4 ≤ 16 then some (len' + j, suffix ++ ip4) else none
          | none => do
              let prefixlen := if dotted then 12 - suffix.length else prefixlen
              let suffix ← write 16 suffix (UInt8.ofNat (r.2 / 256))
              let suffix ← write 16 suffix (UInt8.ofNat r.2)
              if prefixlen + suffix.length = 16 then some (len' + r.1, suffix)
              else scanSuffix n prefixlen (len' + r.1) suffix (s'.drop r.1)

/-- What was not written is 0. -/
def zeroed (d : Bytes) : Bytes := d ++ List.replicate (16 - d.length) 0

/-- The length that was read, 0 for no address, and the result. -/
def ip6_scan (s : Bytes) : Option (Nat × Bytes) :=
  match ip4_scan tx s with
  | some (i, ip4) =>
      some (i, (if ip4 = [0, 0, 0, 0] then List.replicate 12 0 else V4mappedprefix) ++ ip4)
  | none => do
      match ← scanPrefix tx 8 0 [] s with
      | .fail d => some (0, zeroed d)
      | .done len d => some (len, d)
      | .compact len d s =>
          let (len, suffix) ← scanSuffix tx 8 d.length len [] s
          if suffix.length ≤ 16 then
            some (len, (zeroed d).take (16 - suffix.length) ++ suffix)
          else none

/-- `ip6_scanbracket`, 0 for no address. -/
def ip6_scanbracket (s : Bytes) : Option (Nat × Bytes) :=
  if s.head? ≠ some 91 then some (0, [])
  else do
    let (len, d) ← ip6_scan tx s.tail
    if len = 0 then some (0, d)
    else if (s.drop (len + 1)).head? ≠ some 93 then some (0, d)
    else some (len + 2, d)

/-! ## What is written -/

/-- The octets of groups. -/
def octets (gs : List (Byte × Byte)) : Bytes := gs.flatMap fun g => [g.1, g.2]

def hex (g : Byte × Byte) : Bytes := tx.fmtXlong (g.1.toNat * 256 + g.2.toNat)

/-- Groups, with colons between them. -/
def plainText : List (Byte × Byte) → Bytes
  | [] => []
  | [g] => hex tx g
  | g :: gs => hex tx g ++ 58 :: plainText gs

/-- The first run of zeros that is in groups: what is in front of it, and what is behind it. -/
def cutRun (gs : List (Byte × Byte)) : Option (List (Byte × Byte) × List (Byte × Byte)) :=
  match gs.dropWhile (· ≠ (0, 0)) with
  | [] => none
  | zs => some (gs.takeWhile (· ≠ (0, 0)), zs.dropWhile (· = (0, 0)))

/-- The first run of zeros goes on to the end. -/
def EndsInRun (gs : List (Byte × Byte)) : Prop := (cutRun gs).map Prod.snd = some []

instance (gs : List (Byte × Byte)) : Decidable (EndsInRun gs) := inferInstanceAs (Decidable (_ = _))

end IndimailMta.Ip
