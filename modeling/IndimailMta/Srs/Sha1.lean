import IndimailMta.Base
import IndimailMta.Lib.Blocks

/-!
# SHA-1

`sha1.c` takes a text in parts, keeps what does not fill a block, and unravels the rounds: a round does
not move the working variables, the next one has them in other parts. FIPS 180 has the whole text, padded
to blocks, and rounds that move the variables.
-/

namespace IndimailMta.Srs

open IndimailMta Lib.Blocks

/-! ## The rounds -/

/-- `R32`. -/
def R32 (x n : UInt32) : UInt32 := x <<< n ||| x >>> (32 - n)

/-- `f1` to `f4`. -/
def f : Nat → UInt32 → UInt32 → UInt32 → UInt32
  | 1, x, y, z => (x &&& y) ||| (~~~x &&& z)
  | 2, x, y, z => x ^^^ y ^^^ z
  | 3, x, y, z => (x &&& y) ||| (x &&& z) ||| (y &&& z)
  | _, x, y, z => x ^^^ y ^^^ z

/-- `CONST1` to `CONST4`. -/
def CONST : Nat → UInt32
  | 1 => 0x5a827999
  | 2 => 0x6ed9eba1
  | 3 => 0x8f1bbcdc
  | _ => 0xca62c1d6

/-- The working variables. -/
structure Vars where
  T : UInt32
  A : UInt32
  B : UInt32
  C : UInt32
  D : UInt32
  E : UInt32

/-- The rotation, unraveled. -/
inductive Macro | FA | FB | FC | FD | FE | FT
  deriving DecidableEq

def Macro.run (n : Nat) (w : UInt32) (v : Vars) : Macro → Vars
  | FA => { v with T := R32 v.A 5 + f n v.B v.C v.D + v.E + w + CONST n, B := R32 v.B 30 }
  | FB => { v with E := R32 v.T 5 + f n v.A v.B v.C + v.D + w + CONST n, A := R32 v.A 30 }
  | FC => { v with D := R32 v.E 5 + f n v.T v.A v.B + v.C + w + CONST n, T := R32 v.T 30 }
  | FD => { v with C := R32 v.D 5 + f n v.E v.T v.A + v.B + w + CONST n, E := R32 v.E 30 }
  | FE => { v with B := R32 v.C 5 + f n v.D v.E v.T + v.A + w + CONST n, D := R32 v.D 30 }
  | FT => { v with A := R32 v.B 5 + f n v.C v.D v.E + v.T + w + CONST n, C := R32 v.C 30 }

open Macro in
def unraveled : List (Macro × Nat) :=
  [(FA, 1), (FB, 1), (FC, 1), (FD, 1), (FE, 1), (FT, 1), (FA, 1), (FB, 1), (FC, 1), (FD, 1),
    (FE, 1), (FT, 1), (FA, 1), (FB, 1), (FC, 1), (FD, 1), (FE, 1), (FT, 1), (FA, 1), (FB, 1),
    (FC, 2), (FD, 2), (FE, 2), (FT, 2), (FA, 2), (FB, 2), (FC, 2), (FD, 2), (FE, 2), (FT, 2),
    (FA, 2), (FB, 2), (FC, 2), (FD, 2), (FE, 2), (FT, 2), (FA, 2), (FB, 2), (FC, 2), (FD, 2),
    (FE, 3), (FT, 3), (FA, 3), (FB, 3), (FC, 3), (FD, 3), (FE, 3), (FT, 3), (FA, 3), (FB, 3),
    (FC, 3), (FD, 3), (FE, 3), (FT, 3), (FA, 3), (FB, 3), (FC, 3), (FD, 3), (FE, 3), (FT, 3),
    (FA, 4), (FB, 4), (FC, 4), (FD, 4), (FE, 4), (FT, 4), (FA, 4), (FB, 4), (FC, 4), (FD, 4),
    (FE, 4), (FT, 4), (FA, 4), (FB, 4), (FC, 4), (FD, 4), (FE, 4), (FT, 4), (FA, 4), (FB, 4)]

/-- The macros, one after the other; each takes a word. -/
def runMacros : List (Macro × Nat) → List UInt32 → Vars → Vars
  | [], _, v => v
  | (m, n) :: ms, WP, v => runMacros ms WP.tail (m.run n (WP.headD 0) v)

/-! ## `sha_transform` -/

structure Digest where
  d0 : UInt32
  d1 : UInt32
  d2 : UInt32
  d3 : UInt32
  d4 : UInt32

structure ShaInfo where
  digest : Digest
  countLo : UInt32
  countHi : UInt64
  data : Bytes
  localCount : Nat

/-- `*((ULONG *) dp)`, of which only these bits are used. -/
def loadWord (dp : Bytes) : UInt32 :=
  (dp.getD 0 0).toUInt32 ||| (dp.getD 1 0).toUInt32 <<< 8 ||| (dp.getD 2 0).toUInt32 <<< 16 |||
    (dp.getD 3 0).toUInt32 <<< 24

def swapWord (T : UInt32) : UInt32 :=
  (T <<< 24 &&& (0xff000000 : UInt32)) ||| (T <<< 8 &&& (0x00ff0000 : UInt32)) |||
    (T >>> 8 &&& (0x0000ff00 : UInt32)) ||| (T >>> 24 &&& (0x000000ff : UInt32))

/-- The first words of `W`. -/
def loadWords : Nat → Bytes → List UInt32
  | 0, _ => []
  | i + 1, dp => swapWord (loadWord dp) :: loadWords i (dp.drop 4)

/-- The others. -/
def extendWords : Nat → List UInt32 → List UInt32
  | 0, W => W
  | turns + 1, W =>
      let i := W.length
      extendWords turns
        (W ++ [R32 (W.getD (i - 3) 0 ^^^ W.getD (i - 8) 0 ^^^ W.getD (i - 14) 0 ^^^ W.getD (i - 16) 0) 1])

def shaTransform (s : ShaInfo) : ShaInfo :=
  let W := extendWords 64 (loadWords 16 s.data)
  let v := runMacros unraveled W ⟨0, s.digest.d0, s.digest.d1, s.digest.d2, s.digest.d3, s.digest.d4⟩
  { s with digest := ⟨s.digest.d0 + v.E, s.digest.d1 + v.T, s.digest.d2 + v.A, s.digest.d3 + v.B,
      s.digest.d4 + v.C⟩ }

/-! ## `sha_init`, `sha_update`, `sha_final` -/

/-- `memcpy` to a place in a buffer. -/
def memcpy (buf : Bytes) (at' : Nat) (s : Bytes) : Bytes := buf.take at' ++ s ++ buf.drop (at' + s.length)

def zeros (n : Nat) : Bytes := List.replicate n 0

def startDigest : Digest := ⟨0x67452301, 0xefcdab89, 0x98badcfe, 0x10325476, 0xc3d2e1f0⟩

/-- `sha_init`, which leaves the buffer as it is. -/
def shaInit (data : Bytes) : ShaInfo := ⟨startDigest, 0, 0, data, 0⟩

/-- The loop over the blocks that are whole. -/
def blockLoop : Nat → ShaInfo → Bytes → ShaInfo × Bytes
  | 0, s, buffer => (s, buffer)
  | turns + 1, s, buffer =>
      if 64 ≤ buffer.length then
        blockLoop turns (shaTransform { s with data := buffer.take 64 }) (buffer.drop 64)
      else (s, buffer)

/-- The end of `sha_update`. -/
def updateBlocks (s : ShaInfo) (buffer : Bytes) : ShaInfo :=
  let p := blockLoop buffer.length s buffer
  { p.1 with data := memcpy p.1.data 0 p.2, localCount := p.2.length }

def shaUpdate (s : ShaInfo) (buffer : Bytes) : ShaInfo :=
  let count := buffer.length
  let clo := s.countLo + UInt32.ofNat (count * 8)
  let chi := if clo < s.countLo then s.countHi + 1 else s.countHi
  let s := { s with countLo := clo, countHi := chi + UInt64.ofNat (count / 2 ^ 29) }
  if s.localCount ≠ 0 then
    let i := min (64 - s.localCount) count
    let s := { s with data := memcpy s.data s.localCount (buffer.take i), localCount := s.localCount + i }
    if s.localCount = 64 then updateBlocks (shaTransform s) (buffer.drop i) else s
  else updateBlocks s buffer

/-- The bytes of a word, the high one first. -/
def wordBytes (x : UInt32) : Bytes :=
  [(x >>> 24).toUInt8, (x >>> 16).toUInt8, (x >>> 8).toUInt8, x.toUInt8]

def digestBytes (x : Digest) : Bytes :=
  wordBytes x.d0 ++ wordBytes x.d1 ++ wordBytes x.d2 ++ wordBytes x.d3 ++ wordBytes x.d4

/-- `sha_final`. -/
def shaFinal (s : ShaInfo) : Bytes × ShaInfo :=
  let count := (s.countLo >>> 3 &&& (0x3f : UInt32)).toNat
  let s := { s with data := memcpy s.data count [0x80] }
  let count := count + 1
  let s :=
    if 56 < count then
      let s := shaTransform { s with data := memcpy s.data count (zeros (64 - count)) }
      { s with data := memcpy s.data 0 (zeros 56) }
    else { s with data := memcpy s.data count (zeros (56 - count)) }
  let s := { s with data := memcpy s.data 56 (wordBytes s.countHi.toUInt32 ++ wordBytes s.countLo) }
  let s := shaTransform s
  (digestBytes s.digest, s)

/-- `sha_digest`. -/
def shaDigest (data : Bytes) (s : Bytes) : Bytes := (shaFinal (shaUpdate (shaInit data) s)).1

/-! ## The HMAC -/

structure HmacCtx where
  sctx : ShaInfo
  ipad : Bytes
  opad : Bytes

/-- The first bytes are changed. -/
def xorInto : Bytes → Bytes → Bytes
  | b :: bs, ch :: secret => (b ^^^ ch) :: xorInto bs secret
  | bs, _ => bs

/-- `srs_hmac_init`. A secret that is too long is hashed; the length of its digest is then looked for with
`strlen`, which finds its end only where there is a NUL in it. -/
def hmacInit (data : Bytes) (secret : Bytes) : Option HmacCtx :=
  let key :=
    if 64 < secret.length then
      let sbuf := shaDigest data secret
      if 0 ∈ sbuf then some (cstr sbuf) else none
    else some secret
  key.map fun key =>
    let ipad := xorInto (List.replicate 64 0x36) key
    { sctx := shaUpdate (shaInit data) ipad
      ipad := ipad
      opad := xorInto (List.replicate 64 0x5c) key }

/-- `srs_hmac_update`. -/
def hmacUpdate (ctx : HmacCtx) (s : Bytes) : HmacCtx := { ctx with sctx := shaUpdate ctx.sctx s }

/-- `srs_hmac_fini`. -/
def hmacFini (ctx : HmacCtx) : Bytes :=
  let p := shaFinal ctx.sctx
  (shaFinal (shaUpdate (shaUpdate (shaInit p.2.data) ctx.opad) p.1)).1

/-- The calls for the parts of a text. -/
def srsHmac (data secret : Bytes) (parts : List Bytes) : Option Bytes :=
  (hmacInit data secret).map fun ctx => hmacFini (parts.foldl hmacUpdate ctx)

end IndimailMta.Srs
