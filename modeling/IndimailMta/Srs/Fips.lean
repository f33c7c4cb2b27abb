import Mathlib.Data.Nat.ModEq
import Mathlib.Tactic.IntervalCases
import IndimailMta.Srs.Sha1

/-!
# The standard

`Fips.sha1` is the function of FIPS 180: the text is padded to whole blocks, and each of them goes
through eighty rounds that move the working variables. `sha1.c` computes it, in whatever parts the text
comes and whatever its buffer held (`sha1_parts`).
-/

namespace IndimailMta.Srs

open IndimailMta Lib.Blocks

namespace Fips

/-- The high byte comes first. -/
def bigEndian (dp : Bytes) : UInt32 :=
  (dp.getD 0 0).toUInt32 <<< 24 ||| (dp.getD 1 0).toUInt32 <<< 16 ||| (dp.getD 2 0).toUInt32 <<< 8 |||
    (dp.getD 3 0).toUInt32

/-- The words of a block. -/
def word (block : Bytes) (t : Nat) : UInt32 :=
  if t < 16 then bigEndian (block.drop (4 * t))
  else R32 (word block (t - 3) ^^^ word block (t - 8) ^^^ word block (t - 14) ^^^ word block (t - 16)) 1
termination_by t

/-- A round; this is the `FG` of `sha1.c`. -/
def round (n : Nat) (w : UInt32) (x : Digest) : Digest :=
  ⟨R32 x.d0 5 + f n x.d1 x.d2 x.d3 + x.d4 + w + CONST n, x.d0, R32 x.d1 30, x.d2, x.d3⟩

def compress (x : Digest) (block : Bytes) : Digest :=
  let y := (List.range 80).foldl (fun y t => round (t / 20 + 1) (word block t) y) x
  ⟨x.d0 + y.d0, x.d1 + y.d1, x.d2 + y.d2, x.d3 + y.d3, x.d4 + y.d4⟩

/-- The count of the bits, in eight bytes. -/
def lengthBytes (bits : Nat) : Bytes :=
  (List.range 8).map fun i => UInt8.ofNat (bits / 2 ^ (8 * (7 - i)))

def padding (len : Nat) : Bytes :=
  0x80 :: zeros ((119 - len % 64) % 64) ++ lengthBytes (8 * len)

def sha1 (m : Bytes) : Bytes :=
  digestBytes ((blocksOf 64 (m ++ padding m.length)).foldl compress startDigest)

/-- The key, filled up to a block, with a byte added to each of its bytes. -/
def padKey (pad : Byte) (key : Bytes) : Bytes := (key ++ zeros (64 - key.length)).map (pad ^^^ ·)

/-- HMAC with a key that is not longer than a block. -/
def hmac (key m : Bytes) : Bytes := sha1 (padKey 0x5c key ++ sha1 (padKey 0x36 key ++ m))

end Fips

/-! ## Words -/

theorem swapWord_or (x y : UInt32) : swapWord (x ||| y) = swapWord x ||| swapWord y := by
  apply UInt32.toBitVec_inj.mp
  simp only [swapWord, UInt32.toBitVec_or, UInt32.toBitVec_and, UInt32.toBitVec_shiftLeft,
    UInt32.toBitVec_shiftRight]
  ext i hi
  simp only [BitVec.getElem_or, BitVec.getElem_and]
  grind

theorem swapWord_shift : ∀ (k : Fin 4) (a : Fin 256),
    swapWord (UInt32.ofNat a <<< UInt32.ofNat (8 * k)) = UInt32.ofNat a <<< UInt32.ofNat (24 - 8 * k) := by
  decide +kernel

theorem swapWord_byte (a : Byte) :
    swapWord a.toUInt32 = a.toUInt32 <<< 24 ∧ swapWord (a.toUInt32 <<< 8) = a.toUInt32 <<< 16 ∧
      swapWord (a.toUInt32 <<< 16) = a.toUInt32 <<< 8 ∧ swapWord (a.toUInt32 <<< 24) = a.toUInt32 := by
  have ha : a.toUInt32 = UInt32.ofNat (⟨a.toNat, a.toNat_lt⟩ : Fin 256) := UInt32.toNat_inj.mp (by simp)
  have hzero : ∀ x : UInt32, x <<< 0 = x := fun x => UInt32.shiftLeft_zero
  rw [ha]
  refine ⟨?_, swapWord_shift 1 _, swapWord_shift 2 _, ?_⟩
  · have h := swapWord_shift 0 ⟨a.toNat, a.toNat_lt⟩
    rwa [show UInt32.ofNat (8 * (0 : Fin 4)) = 0 from rfl, hzero] at h
  · have h := swapWord_shift 3 ⟨a.toNat, a.toNat_lt⟩
    rwa [show UInt32.ofNat (24 - 8 * (3 : Fin 4)) = 0 from rfl, hzero] at h

/-- The bytes are read from the low one on, and swapped. -/
theorem swapWord_loadWord (dp : Bytes) : swapWord (loadWord dp) = Fips.bigEndian dp := by
  rw [loadWord, swapWord_or, swapWord_or, swapWord_or, (swapWord_byte _).1, (swapWord_byte _).2.1,
    (swapWord_byte _).2.2.1, (swapWord_byte _).2.2.2, Fips.bigEndian]

theorem loadWords_eq (n : Nat) (dp : Bytes) :
    loadWords n dp = (List.range n).map fun t => Fips.bigEndian (dp.drop (4 * t)) := by
  induction n generalizing dp with
  | zero => rfl
  | succ n ih =>
      have hmap : (List.range n).map (fun t => Fips.bigEndian ((dp.drop 4).drop (4 * t))) =
          (List.range n).map ((fun t => Fips.bigEndian (dp.drop (4 * t))) ∘ Nat.succ) := by
        refine List.map_congr_left fun t _ => ?_
        rw [Function.comp_apply, List.drop_drop, Nat.mul_succ, Nat.add_comm]
      rw [loadWords, ih, swapWord_loadWord, List.range_succ_eq_map, List.map_cons, List.map_map, hmap,
        Nat.mul_zero, List.drop_zero]

theorem extendWords_eq (block : Bytes) (turns k : Nat) (hk : 16 ≤ k) :
    extendWords turns ((List.range k).map (Fips.word block)) =
      (List.range (k + turns)).map (Fips.word block) := by
  induction turns generalizing k with
  | zero => rfl
  | succ turns ih =>
      have hget : ∀ i < k, ((List.range k).map (Fips.word block)).getD i 0 = Fips.word block i := by
        intro i hi
        rw [List.getD_eq_getElem?_getD, List.getElem?_map, List.getElem?_range hi]
        rfl
      have hword : Fips.word block k = R32 (Fips.word block (k - 3) ^^^ Fips.word block (k - 8) ^^^
          Fips.word block (k - 14) ^^^ Fips.word block (k - 16)) 1 := by
        rw [Fips.word, if_neg (Nat.not_lt.mpr hk)]
      rw [extendWords, List.length_map, List.length_range, hget _ (by omega), hget _ (by omega), hget _ (by omega), hget _ (by omega), ← hword,
        ← List.map_singleton, ← List.map_append, ← List.range_succ, ih (k + 1) (by omega),
        Nat.add_assoc, Nat.add_comm 1]

/-- **The words** of the buffer are those of the block. -/
theorem words_eq (block : Bytes) :
    extendWords 64 (loadWords 16 block) = (List.range 80).map (Fips.word block) := by
  have hload : loadWords 16 block = (List.range 16).map (Fips.word block) := by
    rw [loadWords_eq]
    refine List.map_congr_left fun t ht => ?_
    rw [Fips.word, if_pos (List.mem_range.mp ht)]
  rw [hload, extendWords_eq block 64 16 (Nat.le_refl 16)]

/-! ## Rounds -/

def Macro.next : Macro → Macro
  | FA => FB
  | FB => FC
  | FC => FD
  | FD => FE
  | FE => FT
  | FT => FA

/-- The working variables as this macro takes them. -/
def Macro.view (v : Vars) : Macro → Digest
  | FA => ⟨v.A, v.B, v.C, v.D, v.E⟩
  | FB => ⟨v.T, v.A, v.B, v.C, v.D⟩
  | FC => ⟨v.E, v.T, v.A, v.B, v.C⟩
  | FD => ⟨v.D, v.E, v.T, v.A, v.B⟩
  | FE => ⟨v.C, v.D, v.E, v.T, v.A⟩
  | FT => ⟨v.B, v.C, v.D, v.E, v.T⟩

/-- **One macro** is one round, seen by the macro behind it. -/
theorem Macro.view_run (m : Macro) (n : Nat) (w : UInt32) (v : Vars) :
    m.next.view (m.run n w v) = Fips.round n w (m.view v) := by
  cases m <;> rfl

/-- The macros come in their order; the one that would be next. -/
def chained : Macro → List (Macro × Nat) → Option Macro
  | m, [] => some m
  | m, (k, _) :: ks => if k = m then chained m.next ks else none

/-- **The unraveled rounds** are the rounds. -/
theorem view_runMacros {α : Type} {m m' : Macro} {ks : List (Macro × Nat)} {ts : List α} {g : α → Nat}
    (h : α → UInt32) (hchained : chained m ks = some m') (hks : ks.map Prod.snd = ts.map g) (v : Vars) :
    m'.view (runMacros ks (ts.map h) v) = ts.foldl (fun x t => Fips.round (g t) (h t) x) (m.view v) := by
  induction ks generalizing m ts v with
  | nil =>
      obtain rfl : ts = [] := List.map_eq_nil_iff.mp hks.symm
      rw [← Option.some.inj hchained]
      rfl
  | cons k ks ih =>
      obtain ⟨k, n⟩ := k
      cases ts with
      | nil => exact nomatch hks
      | cons t ts =>
          rw [chained] at hchained
          split at hchained
          · rename_i hk
            obtain ⟨hn, hks⟩ := List.cons.inj hks
            rw [List.map_cons, runMacros, List.tail_cons, List.headD_cons, List.foldl_cons,
              ih hchained hks, hk, Macro.view_run, ← hn]
          · exact nomatch hchained

/-- **A block** is taken as in the standard. -/
theorem shaTransform_digest (s : ShaInfo) :
    (shaTransform s).digest = Fips.compress s.digest s.data := by
  have hks : unraveled.map Prod.snd = (List.range 80).map fun t => t / 20 + 1 := by decide
  have hchained : chained .FA unraveled = some .FC := by decide
  have h := view_runMacros (Fips.word s.data) hchained hks
    ⟨0, s.digest.d0, s.digest.d1, s.digest.d2, s.digest.d3, s.digest.d4⟩
  have hstart : Macro.view ⟨0, s.digest.d0, s.digest.d1, s.digest.d2, s.digest.d3, s.digest.d4⟩ .FA =
      s.digest := rfl
  rw [hstart] at h
  rw [shaTransform, words_eq, Fips.compress]
  dsimp only
  rw [← h]
  rfl

theorem shaTransform_keeps (s : ShaInfo) :
    (shaTransform s).countLo = s.countLo ∧ (shaTransform s).countHi = s.countHi ∧
      (shaTransform s).data = s.data := by
  rw [shaTransform]
  exact ⟨rfl, rfl, rfl⟩

/-! ## Updates -/

section Buffer

variable {buf s : Bytes} {k : Nat}

theorem length_memcpy (h : k + s.length ≤ buf.length) : (memcpy buf k s).length = buf.length := by
  rw [memcpy, List.length_append, List.length_append, List.length_take, List.length_drop]
  omega

theorem take_memcpy (h : k ≤ buf.length) : (memcpy buf k s).take (k + s.length) = buf.take k ++ s := by
  have hlen : (buf.take k ++ s).length = k + s.length := by
    rw [List.length_append, List.length_take_of_le h]
  rw [memcpy, ← hlen, List.take_left]

theorem memcpy_full (h : k + s.length = buf.length) : memcpy buf k s = buf.take k ++ s := by
  rw [memcpy, List.drop_of_length_le (Nat.le_of_eq h.symm), List.append_nil]

end Buffer

/-- The digest of the blocks so far, and what waits; `total` bytes came. -/
structure Waits (s : ShaInfo) (p : Digest × Bytes) (total : Nat) : Prop where
  digest : s.digest = p.1
  data : s.data.take s.localCount = p.2
  buffer : s.data.length = 64
  left : s.localCount = total % 64
  bits : s.countHi.toNat % 4294967296 * 4294967296 + s.countLo.toNat =
    8 * total % 18446744073709551616

section Update

variable {s : ShaInfo} {p : Digest × Bytes} {total : Nat}

theorem Waits.length (h : Waits s p total) : p.2.length = total % 64 := by
  have hlt : total % 64 < 64 := Nat.mod_lt total (by decide)
  rw [← h.data, h.left, List.length_take, h.buffer]
  omega

theorem waits_init {data : Bytes} (h : data.length = 64) : Waits (shaInit data) (startDigest, []) 0 :=
  ⟨rfl, rfl, h, rfl, by simp [shaInit]⟩

/-- The blocks that are whole are taken, and what is left is less than one. -/
theorem blockLoop_absorbs {turns : Nat} {buffer : Bytes} (hs : s.data.length = 64)
    (hturns : buffer.length ≤ turns) :
    absorbAll 64 Fips.compress (s.digest, []) buffer =
        ((blockLoop turns s buffer).1.digest, (blockLoop turns s buffer).2) ∧
      (blockLoop turns s buffer).1.data.length = 64 ∧ (blockLoop turns s buffer).2.length < 64 ∧
      (blockLoop turns s buffer).1.countLo = s.countLo ∧
      (blockLoop turns s buffer).1.countHi = s.countHi := by
  have hshort : buffer.length < 64 →
      absorbAll 64 Fips.compress (s.digest, []) buffer = (s.digest, buffer) := fun h =>
    absorbAll_short (by rw [List.length_nil, Nat.zero_add]; exact h)
  induction turns generalizing s buffer with
  | zero =>
      have hnil : buffer.length < 64 := Nat.lt_of_le_of_lt hturns (by decide)
      exact ⟨hshort hnil, hs, hnil, rfl, rfl⟩
  | succ turns ih =>
      rw [blockLoop]
      split
      · rename_i hlen
        have htake : (buffer.take 64).length = 64 := List.length_take_of_le hlen
        have hne : buffer.take 64 ≠ [] := List.ne_nil_of_length_pos (by rw [htake]; decide)
        have hrest : (buffer.drop 64).length ≤ turns := by
          rw [List.length_drop]
          omega
        have habsorb : absorbAll 64 Fips.compress (s.digest, []) buffer =
            absorbAll 64 Fips.compress
              ((shaTransform { s with data := buffer.take 64 }).digest, []) (buffer.drop 64) := by
          conv_lhs => rw [← List.take_append_drop 64 buffer]
          rw [absorbAll_append, absorbAll_full (by rw [htake, List.length_nil]) hne, List.nil_append,
            shaTransform_digest]
        rw [habsorb]
        obtain ⟨hlo, hhi, hdata⟩ := shaTransform_keeps { s with data := buffer.take 64 }
        obtain ⟨h1, h2, h3, h4, h5⟩ := ih ((congrArg List.length hdata).trans htake) hrest fun h =>
          absorbAll_short (by rw [List.length_nil, Nat.zero_add]; exact h)
        exact ⟨h1, h2, h3, h4.trans hlo, h5.trans hhi⟩
      · rename_i hlen
        have hless : buffer.length < 64 := Nat.lt_of_not_le hlen
        exact ⟨hshort hless, hs, hless, rfl, rfl⟩

theorem updateBlocks_absorbs {buffer : Bytes} (hs : s.data.length = 64)
    (hbuffer : buffer.length % 64 = total % 64)
    (hbits : s.countHi.toNat % 4294967296 * 4294967296 + s.countLo.toNat =
      8 * total % 18446744073709551616) :
    Waits (updateBlocks s buffer) (absorbAll 64 Fips.compress (s.digest, []) buffer) total := by
  obtain ⟨habsorb, hdata, hless, hlo, hhi⟩ := blockLoop_absorbs hs (Nat.le_refl buffer.length)
  have hleft := length_absorbAll (f := Fips.compress) (p := (s.digest, [])) (n := 64)
    (Nat.zero_lt_succ 63) buffer
  rw [habsorb] at hleft ⊢
  rw [updateBlocks]
  refine ⟨rfl, ?_, ?_, ?_, ?_⟩
  · dsimp only
    have h := take_memcpy (s := (blockLoop buffer.length s buffer).2)
      (Nat.zero_le (blockLoop buffer.length s buffer).1.data.length)
    rwa [Nat.zero_add, List.take_zero, List.nil_append] at h
  · dsimp only
    rw [length_memcpy, hdata]
    rw [hdata, Nat.zero_add]
    exact Nat.le_of_lt hless
  · dsimp only at hleft ⊢
    rw [hleft, List.length_nil, Nat.zero_add, hbuffer]
  · dsimp only
    rw [hlo, hhi]
    exact hbits

/-- The count in two words; `c` is carried. -/
theorem carry_bits {hi lo c r q : Nat}
    (hc : c = 1 ∧ 4294967296 ≤ lo + r ∨ c = 0 ∧ lo + r < 4294967296) (hlo : lo < 4294967296)
    (hr : r < 4294967296)
    (h : hi % 4294967296 * 4294967296 + lo = total % 18446744073709551616) :
    (hi + c + q) % 4294967296 * 4294967296 + (lo + r) % 4294967296 =
      (total + (q * 4294967296 + r)) % 18446744073709551616 := by
  have hmod : ∀ x : Nat, x % 4294967296 * 4294967296 = x * 4294967296 % 18446744073709551616 := fun x =>
    (Nat.mul_mod_mul_right 4294967296 x 4294967296).symm
  have hsum : (lo + r) % 4294967296 + c * 4294967296 = lo + r := by omega
  have hlt : (hi + c + q) % 4294967296 * 4294967296 + (lo + r) % 4294967296 < 18446744073709551616 := by
    omega
  have hmodeq : (hi + c + q) % 4294967296 * 4294967296 + (lo + r) % 4294967296 ≡
      total + (q * 4294967296 + r) [MOD 18446744073709551616] := by
    rw [hmod] at h ⊢
    calc (hi + c + q) * 4294967296 % 18446744073709551616 + (lo + r) % 4294967296
      _ ≡ (hi + c + q) * 4294967296 + (lo + r) % 4294967296 [MOD 18446744073709551616] :=
          (Nat.mod_modEq _ _).add_right _
      _ = hi * 4294967296 + lo + (q * 4294967296 + r) := by
          rw [Nat.add_mul, Nat.add_mul]
          omega
      _ ≡ hi * 4294967296 % 18446744073709551616 + lo + (q * 4294967296 + r)
          [MOD 18446744073709551616] := ((Nat.mod_modEq _ _).symm.add_right _).add_right _
      _ = total % 18446744073709551616 + (q * 4294967296 + r) := by rw [h]
      _ ≡ total + (q * 4294967296 + r) [MOD 18446744073709551616] := (Nat.mod_modEq _ _).add_right _
  rw [← hmodeq, Nat.mod_eq_of_lt hlt]

/-- The count of the bits, in two words. -/
theorem count_bits {lo : UInt32} {hi : UInt64} (count : Nat)
    (h : hi.toNat % 4294967296 * 4294967296 + lo.toNat = 8 * total % 18446744073709551616) :
    ((if lo + UInt32.ofNat (count * 8) < lo then hi + 1 else hi) +
        UInt64.ofNat (count / 2 ^ 29)).toNat % 4294967296 * 4294967296 +
      (lo + UInt32.ofNat (count * 8)).toNat = 8 * (total + count) % 18446744073709551616 := by
  have hlo : lo.toNat < 4294967296 := lo.toNat_lt
  have hr : count * 8 % 4294967296 < 4294967296 := Nat.mod_lt _ (by decide)
  have hclo : (lo + UInt32.ofNat (count * 8)).toNat = (lo.toNat + count * 8 % 4294967296) % 4294967296 := by
    rw [UInt32.toNat_add, UInt32.toNat_ofNat']
  have hchi : ∀ x : UInt64, (x + UInt64.ofNat (count / 2 ^ 29)).toNat % 4294967296 =
      (x.toNat + count / 2 ^ 29) % 4294967296 := by
    intro x
    rw [UInt64.toNat_add, UInt64.toNat_ofNat', Nat.mod_mod_of_dvd _ (by decide), Nat.add_mod,
      Nat.mod_mod_of_dvd _ (by decide), ← Nat.add_mod]
  have hone : (hi + 1).toNat % 4294967296 = (hi.toNat + 1) % 4294967296 := by
    rw [UInt64.toNat_add, Nat.mod_mod_of_dvd _ (by decide)]
    rfl
  have hcount : 8 * (total + count) =
      8 * total + (count / 2 ^ 29 * 4294967296 + count * 8 % 4294967296) := by omega
  rw [hchi, hclo, hcount]
  by_cases hcarry : lo + UInt32.ofNat (count * 8) < lo
  · rw [if_pos hcarry, Nat.add_mod, hone, ← Nat.add_mod]
    rw [UInt32.lt_iff_toNat_lt, hclo] at hcarry
    exact carry_bits (.inl ⟨rfl, by omega⟩) hlo hr h
  · rw [if_neg hcarry]
    rw [UInt32.lt_iff_toNat_lt, hclo] at hcarry
    rw [← Nat.add_zero hi.toNat]
    exact carry_bits (.inr ⟨rfl, by omega⟩) hlo hr h

/-- **A part of the text.** -/
theorem shaUpdate_absorbs (h : Waits s p total) (buffer : Bytes) :
    Waits (shaUpdate s buffer) (absorbAll 64 Fips.compress p buffer) (total + buffer.length) := by
  obtain ⟨x, w⟩ := p
  have hbits := count_bits buffer.length h.bits
  have hlt : total % 64 < 64 := Nat.mod_lt total (by decide)
  have hw : w.length = total % 64 := h.length
  have hx : s.digest = x := h.digest
  have hbuf := h.buffer
  have hleft := h.left
  rw [shaUpdate]
  dsimp only
  split
  · have htake : (buffer.take (min (64 - s.localCount) buffer.length)).length =
        min (64 - s.localCount) buffer.length := by
      rw [List.length_take]
      omega
    have hfits : s.localCount + (buffer.take (min (64 - s.localCount) buffer.length)).length ≤
        s.data.length := by omega
    have hcopy := take_memcpy (s := buffer.take (min (64 - s.localCount) buffer.length))
      (Nat.le_trans (Nat.le_add_right _ _) hfits)
    rw [h.data, htake] at hcopy
    dsimp only at hcopy
    have hlength := length_memcpy hfits
    rw [hbuf] at hlength
    split
    · rename_i hfull
      have hmin : min (64 - s.localCount) buffer.length = 64 - s.localCount := by omega
      rw [hmin] at hcopy hlength htake hfull ⊢
      have hblock : memcpy s.data s.localCount (buffer.take (64 - s.localCount)) =
          w ++ buffer.take (64 - s.localCount) := by
        rw [← hcopy, hfull]
        exact (List.take_of_length_le (Nat.le_of_eq hlength)).symm
      have hne : buffer.take (64 - s.localCount) ≠ [] :=
        List.ne_nil_of_length_pos (by omega)
      have habsorb : absorbAll 64 Fips.compress (x, w) buffer =
          absorbAll 64 Fips.compress (Fips.compress x (w ++ buffer.take (64 - s.localCount)), [])
            (buffer.drop (64 - s.localCount)) := by
        conv_lhs => rw [← List.take_append_drop (64 - s.localCount) buffer]
        rw [absorbAll_append, absorbAll_full (by omega) hne]
      rw [habsorb, ← hblock, ← hx]
      have hsum : (buffer.drop (64 - s.localCount)).length % 64 = (total + buffer.length) % 64 := by
        rw [List.length_drop]
        omega
      have hdigest := shaTransform_digest
        { s with
          countLo := s.countLo + UInt32.ofNat (buffer.length * 8)
          countHi := (if s.countLo + UInt32.ofNat (buffer.length * 8) < s.countLo then s.countHi + 1
            else s.countHi) + UInt64.ofNat (buffer.length / 2 ^ 29)
          data := memcpy s.data s.localCount (buffer.take (64 - s.localCount))
          localCount := s.localCount + (64 - s.localCount) }
      dsimp only at hdigest
      rw [← hdigest]
      exact updateBlocks_absorbs hlength hsum hbits
    · rename_i hless
      have hmin : min (64 - s.localCount) buffer.length = buffer.length := by omega
      rw [hmin, List.take_length] at hcopy hlength
      rw [hmin, List.take_length]
      rw [absorbAll_short (by omega)]
      refine ⟨hx, hcopy, hlength, ?_, hbits⟩
      dsimp only
      omega
  · rename_i hzero
    have hnil : w = [] := List.eq_nil_of_length_eq_zero (by omega)
    rw [hnil, ← hx]
    have hsum : buffer.length % 64 = (total + buffer.length) % 64 := by omega
    exact updateBlocks_absorbs hbuf hsum hbits

/-- The parts of a text. -/
theorem foldl_absorbs (h : Waits s p total) (parts : List Bytes) :
    Waits (parts.foldl shaUpdate s) (absorbAll 64 Fips.compress p parts.flatten)
      (total + parts.flatten.length) := by
  induction parts generalizing s p total with
  | nil => exact h
  | cons part parts ih =>
      rw [List.foldl_cons, List.flatten_cons, absorbAll_append, List.length_append, ← Nat.add_assoc]
      exact ih (shaUpdate_absorbs h part)

/-! ## The end -/

theorem wordBytes_eq (x : UInt32) :
    wordBytes x = (List.range 4).map fun i => UInt8.ofNat (x.toNat / 2 ^ (8 * (3 - i))) := by
  have hbyte : ∀ k : UInt32, k.toNat < 32 → (x >>> k).toUInt8 = UInt8.ofNat (x.toNat / 2 ^ k.toNat) := by
    intro k hk
    apply UInt8.toNat_inj.mp
    rw [UInt32.toNat_toUInt8, UInt32.toNat_shiftRight, UInt8.toNat_ofNat', Nat.mod_eq_of_lt hk,
      Nat.shiftRight_eq_div_pow]
  have hlow : x.toUInt8 = UInt8.ofNat (x.toNat / 2 ^ 0) := by
    rw [Nat.pow_zero, Nat.div_one]
    rfl
  rw [wordBytes, hbyte 24 (by decide), hbyte 16 (by decide), hbyte 8 (by decide), hlow]
  rfl

/-- The count of the bits is written as it should be. -/
theorem lengthBytes_eq {lo : UInt32} {hi : UInt64}
    (h : hi.toNat % 4294967296 * 4294967296 + lo.toNat = 8 * total % 18446744073709551616) :
    wordBytes hi.toUInt32 ++ wordBytes lo = Fips.lengthBytes (8 * total) := by
  have hlo : lo.toNat < 4294967296 := lo.toNat_lt
  have hhi : hi.toUInt32.toNat = hi.toNat % 4294967296 := UInt64.toNat_toUInt32 hi
  have hbyte : ∀ a b : Nat, a % 256 = b % 256 → UInt8.ofNat a = UInt8.ofNat b := by
    intro a b hab
    apply UInt8.toNat_inj.mp
    rw [UInt8.toNat_ofNat', UInt8.toNat_ofNat']
    exact hab
  have hrange : List.range 8 = List.range 4 ++ (List.range 4).map (4 + ·) := by decide
  rw [wordBytes_eq, wordBytes_eq, hhi, Fips.lengthBytes, hrange, List.map_append, List.map_map]
  generalize 8 * total = bits at h ⊢
  congr 1
  · refine List.map_congr_left fun i hi => hbyte _ _ ?_
    have h4 := List.mem_range.mp hi
    interval_cases i <;> omega
  · refine List.map_congr_left fun i hi => hbyte _ _ ?_
    have h4 := List.mem_range.mp hi
    interval_cases i <;> dsimp only <;> omega

/-- Where the next byte goes. -/
theorem Waits.count (h : Waits s p total) : (s.countLo >>> 3 &&& (0x3f : UInt32)).toNat = total % 64 := by
  have hbits := h.bits
  have hlo := s.countLo.toNat_lt
  have h3 : (3 : UInt32).toNat % 32 = 3 := rfl
  have hmask : (0x3f : UInt32).toNat = 2 ^ 6 - 1 := rfl
  rw [UInt32.toNat_and, UInt32.toNat_shiftRight, h3, hmask, Nat.and_two_pow_sub_one_eq_mod,
    Nat.shiftRight_eq_div_pow]
  omega

/-- **The end of the text**: what waits is padded. -/
theorem shaFinal_absorbs (h : Waits s p total) :
    (shaFinal s).1 = digestBytes (absorbAll 64 Fips.compress p (Fips.padding total)).1 := by
  obtain ⟨x, w⟩ := p
  have hlt : total % 64 < 64 := Nat.mod_lt total (by decide)
  have hw : w.length = total % 64 := h.length
  have hdata := h.data
  have hx : s.digest = x := h.digest
  rw [h.left] at hdata
  have hbuf := h.buffer
  have hlength : (Fips.lengthBytes (8 * total)).length = 8 := by
    rw [Fips.lengthBytes, List.length_map, List.length_range]
  have hmark : memcpy s.data (total % 64) [0x80] = w ++ [0x80] ++ s.data.drop (total % 64 + 1) := by
    rw [memcpy, hdata]
    rfl
  have hmarked : (memcpy s.data (total % 64) [0x80]).length = 64 := by
    rw [length_memcpy (by rw [List.length_singleton, hbuf]; exact hlt), hbuf]
  have htake : (memcpy s.data (total % 64) [0x80]).take (total % 64 + 1) = w ++ [0x80] := by
    rw [hmark]
    exact List.take_left' (by rw [List.length_append, List.length_singleton, hw])
  have hzeros : ∀ n, (zeros n).length = n := fun n => List.length_replicate
  -- The length is put behind what is there.
  have hend : ∀ buf : Bytes, buf.length = 64 → memcpy buf 56 (Fips.lengthBytes (8 * total)) =
      buf.take 56 ++ Fips.lengthBytes (8 * total) := by
    intro buf hbuf
    rw [memcpy_full (by rw [hlength, hbuf])]
  rw [shaFinal, h.count]
  dsimp only
  rw [Fips.padding]
  by_cases hbig : 56 < total % 64 + 1
  · have hsplit : (119 - total % 64) % 64 = (63 - total % 64) + 56 := by omega
    have hzsplit : zeros ((63 - total % 64) + 56) = zeros (63 - total % 64) ++ zeros 56 :=
      List.replicate_add _ _ _
    have hblock : memcpy (memcpy s.data (total % 64) [0x80]) (total % 64 + 1)
        (zeros (64 - (total % 64 + 1))) = w ++ (0x80 :: zeros (63 - total % 64)) := by
      rw [memcpy_full (by rw [hzeros, hmarked]; omega), htake, List.append_assoc, List.singleton_append,
        show 64 - (total % 64 + 1) = 63 - total % 64 by omega]
    have hfull : (w ++ (0x80 :: zeros (63 - total % 64))).length = 64 := by
      rw [List.length_append, List.length_cons, hzeros, hw]
      omega
    have hcleared : ∀ buf : Bytes, buf.length = 64 → memcpy (memcpy buf 0 (zeros 56)) 56
        (Fips.lengthBytes (8 * total)) = zeros 56 ++ Fips.lengthBytes (8 * total) := by
      intro buf hbuf
      have h56 : 0 + (zeros 56).length ≤ buf.length := by rw [hzeros, hbuf]; decide
      have htake := take_memcpy (s := zeros 56) (Nat.zero_le buf.length)
      rw [hzeros, Nat.zero_add, List.take_zero, List.nil_append] at htake
      rw [hend _ (by rw [length_memcpy h56, hbuf]), htake]
    rw [if_pos hbig, hblock]
    dsimp only
    rw [(shaTransform_keeps _).1, (shaTransform_keeps _).2.1, (shaTransform_keeps _).2.2]
    dsimp only
    rw [lengthBytes_eq h.bits, hcleared _ hfull, shaTransform_digest]
    dsimp only
    rw [shaTransform_digest]
    dsimp only
    have hsecond : ([] : Bytes).length + (zeros 56 ++ Fips.lengthBytes (8 * total)).length = 64 := by
      rw [List.length_append, hzeros, hlength]
      rfl
    rw [hx, hsplit, hzsplit, ← List.cons_append, List.append_assoc, absorbAll_append,
      absorbAll_full (by rw [← List.length_append]; exact hfull) (List.cons_ne_nil _ _),
      absorbAll_full hsecond (by intro hnil; rw [hnil] at hsecond; exact absurd hsecond (by decide)),
      List.nil_append]
  · have hsplit : (119 - total % 64) % 64 = 56 - (total % 64 + 1) := by omega
    have htext : (memcpy (memcpy s.data (total % 64) [0x80]) (total % 64 + 1)
        (zeros (56 - (total % 64 + 1)))).take 56 = w ++ (0x80 :: zeros (56 - (total % 64 + 1))) := by
      have h := @take_memcpy (memcpy s.data (total % 64) [0x80]) (zeros (56 - (total % 64 + 1)))
        (total % 64 + 1) (by rw [hmarked]; exact hlt)
      rw [hzeros, htake, List.append_assoc, List.singleton_append,
        show total % 64 + 1 + (56 - (total % 64 + 1)) = 56 by omega] at h
      exact h
    have hlen : (memcpy (memcpy s.data (total % 64) [0x80]) (total % 64 + 1)
        (zeros (56 - (total % 64 + 1)))).length = 64 := by
      rw [length_memcpy (by rw [hzeros, hmarked]; omega), hmarked]
    have hfull : w.length + (0x80 :: zeros (56 - (total % 64 + 1)) ++
        Fips.lengthBytes (8 * total)).length = 64 := by
      rw [List.length_append, List.length_cons, hzeros, hlength, hw]
      omega
    rw [if_neg hbig]
    dsimp only
    rw [lengthBytes_eq h.bits, hend _ hlen, htext, shaTransform_digest, hsplit,
      absorbAll_full hfull (List.cons_ne_nil _ _), hx, List.append_assoc]

end Update

theorem length_padding (total : Nat) : 64 ∣ total + (Fips.padding total).length := by
  have hlength : (Fips.lengthBytes (8 * total)).length = 8 := by
    rw [Fips.lengthBytes, List.length_map, List.length_range]
  rw [Fips.padding, List.length_append, List.length_cons, hlength, zeros, List.length_replicate]
  omega

/-- **SHA-1**: of a text in parts, whatever the buffer held. -/
theorem sha1_parts (data : Bytes) (hdata : data.length = 64) (parts : List Bytes) :
    (shaFinal (parts.foldl shaUpdate (shaInit data))).1 = Fips.sha1 parts.flatten := by
  have hwaits := foldl_absorbs (waits_init hdata) parts
  rw [Nat.zero_add] at hwaits
  rw [shaFinal_absorbs hwaits, ← absorbAll_append, Fips.sha1]
  have hwhole : 64 ∣ (parts.flatten ++ Fips.padding parts.flatten.length).length := by
    rw [List.length_append]
    exact length_padding _
  conv_lhs => rw [← flatten_blocksOf hwhole]
  rw [absorbAll_flatten (by decide) fun b => length_of_mem_blocksOf]

/-! ## HMAC -/

theorem length_sha1 (m : Bytes) : (Fips.sha1 m).length = 20 := rfl

theorem xorInto_replicate {n : Nat} {pad : Byte} {key : Bytes} (h : key.length ≤ n) :
    xorInto (List.replicate n pad) key = (key ++ zeros (n - key.length)).map (pad ^^^ ·) := by
  induction key generalizing n with
  | nil =>
      have hzero : pad ^^^ 0 = pad := UInt8.xor_zero
      rw [List.length_nil, Nat.sub_zero, List.nil_append, zeros, List.map_replicate, hzero]
      cases n <;> rfl
  | cons ch key ih =>
      obtain ⟨n, rfl⟩ := Nat.exists_eq_succ_of_ne_zero (Nat.ne_zero_of_lt h)
      rw [List.length_cons] at h
      rw [List.replicate_succ, xorInto, ih (Nat.le_of_succ_le_succ h), List.length_cons,
        Nat.succ_sub_succ, List.cons_append, List.map_cons]

/-- The buffer has its length all the time. -/
theorem Waits.final {s : ShaInfo} {p : Digest × Bytes} {total : Nat} (h : Waits s p total) :
    (shaFinal s).2.data.length = 64 := by
  have hlt : total % 64 < 64 := Nat.mod_lt total (by decide)
  have hzeros : ∀ n, (zeros n).length = n := fun n => List.length_replicate
  have hword : ∀ x y : UInt32, (wordBytes x ++ wordBytes y).length = 8 := fun _ _ => rfl
  have hmarked : (memcpy s.data (total % 64) [0x80]).length = 64 := by
    rw [length_memcpy (by rw [List.length_singleton, h.buffer]; exact hlt), h.buffer]
  have hlast : ∀ (buf : Bytes) (x y : UInt32), buf.length = 64 →
      (memcpy buf 56 (wordBytes x ++ wordBytes y)).length = 64 := by
    intro buf x y hbuf
    rw [length_memcpy (by rw [hword, hbuf]), hbuf]
  rw [shaFinal, h.count]
  dsimp only
  rw [(shaTransform_keeps _).2.2]
  refine hlast _ _ _ ?_
  split
  · dsimp only
    rw [(shaTransform_keeps _).2.2]
    dsimp only
    have hfull : (memcpy (memcpy s.data (total % 64) [0x80]) (total % 64 + 1)
        (zeros (64 - (total % 64 + 1)))).length = 64 := by
      rw [length_memcpy (by rw [hzeros, hmarked]; omega), hmarked]
    rw [length_memcpy (by rw [hzeros, hfull]; decide), hfull]
  · dsimp only
    rw [length_memcpy (by rw [hzeros, hmarked]; omega), hmarked]

theorem hmac_of_key {data key : Bytes} (hdata : data.length = 64) (hkey : key.length ≤ 64)
    (parts : List Bytes) :
    hmacFini (parts.foldl hmacUpdate
        { sctx := shaUpdate (shaInit data) (xorInto (List.replicate 64 0x36) key)
          ipad := xorInto (List.replicate 64 0x36) key
          opad := xorInto (List.replicate 64 0x5c) key }) = Fips.hmac key parts.flatten := by
  have hctx : ∀ ctx : HmacCtx, parts.foldl hmacUpdate ctx =
      { ctx with sctx := parts.foldl shaUpdate ctx.sctx } := by
    intro ctx
    induction parts generalizing ctx with
    | nil => rfl
    | cons part parts ih => rw [List.foldl_cons, ih]; rfl
  have hinner := sha1_parts data hdata (xorInto (List.replicate 64 0x36) key :: parts)
  have hwaits := foldl_absorbs (waits_init hdata) (xorInto (List.replicate 64 0x36) key :: parts)
  rw [List.foldl_cons, List.flatten_cons] at hinner
  rw [List.foldl_cons] at hwaits
  rw [hctx, hmacFini]
  dsimp only
  generalize parts.foldl shaUpdate (shaUpdate (shaInit data) (xorInto (List.replicate 64 0x36) key)) = s
    at hinner hwaits
  have houter := sha1_parts (shaFinal s).2.data hwaits.final
    [xorInto (List.replicate 64 0x5c) key, (shaFinal s).1]
  rw [List.flatten_cons, List.flatten_singleton, hinner] at houter
  rw [Fips.hmac, Fips.padKey, Fips.padKey, ← xorInto_replicate hkey, ← xorInto_replicate hkey, ← houter, hinner]
  rfl

/-- **HMAC** is what it should be for a secret of a block at most. The key of a longer one is its digest up
to the first NUL in it, and if there is none, there is no telling. -/
theorem srsHmac_eq (data : Bytes) (hdata : data.length = 64) (secret : Bytes) (parts : List Bytes) :
    srsHmac data secret parts =
      if secret.length ≤ 64 then some (Fips.hmac secret parts.flatten)
      else if 0 ∈ Fips.sha1 secret then some (Fips.hmac (cstr (Fips.sha1 secret)) parts.flatten)
      else none := by
  have hdigest : shaDigest data secret = Fips.sha1 secret := by
    have h := sha1_parts data hdata [secret]
    rwa [List.flatten_singleton] at h
  rw [srsHmac, hmacInit]
  dsimp only
  by_cases hlen : secret.length ≤ 64
  · rw [if_pos hlen, if_neg (Nat.not_lt.mpr hlen), Option.map_some, Option.map_some,
      hmac_of_key hdata hlen]
  · rw [if_neg hlen, if_pos (Nat.lt_of_not_le hlen), hdigest]
    split
    · have hle : (cstr (Fips.sha1 secret)).length ≤ 64 := by
        have h := (List.takeWhile_prefix (· ≠ (0 : Byte)) (l := Fips.sha1 secret)).length_le
        rw [length_sha1] at h
        exact Nat.le_trans h (by decide)
      rw [Option.map_some, Option.map_some, hmac_of_key hdata hle]
    · rfl

/-- **`sha1.c` follows the standard**, whatever the parts of the text are and whatever its buffer held: the
digest, and the HMAC for a secret of a block at most. -/
theorem sha1_c_follows (data : Bytes) (hdata : data.length = 64) (secret : Bytes) (parts : List Bytes) :
    (shaFinal (parts.foldl shaUpdate (shaInit data))).1 = Fips.sha1 parts.flatten ∧
      srsHmac data secret parts =
        if secret.length ≤ 64 then some (Fips.hmac secret parts.flatten)
        else if 0 ∈ Fips.sha1 secret then some (Fips.hmac (cstr (Fips.sha1 secret)) parts.flatten)
        else none :=
  ⟨sha1_parts data hdata parts, srsHmac_eq data hdata secret parts⟩

/-- A secret that is one byte too long. -/
theorem sha1_c_follows_long :
    (shaFinal ([asc "a", asc "bc"].foldl shaUpdate (shaInit (zeros 64)))).1 =
        Fips.sha1 [asc "a", asc "bc"].flatten ∧
      srsHmac (zeros 64) (List.replicate 65 97) [asc "a", asc "bc"] =
        if (List.replicate 65 (97 : Byte)).length ≤ 64 then
          some (Fips.hmac (List.replicate 65 97) [asc "a", asc "bc"].flatten)
        else if 0 ∈ Fips.sha1 (List.replicate 65 97) then
          some (Fips.hmac (cstr (Fips.sha1 (List.replicate 65 97))) [asc "a", asc "bc"].flatten)
        else none :=
  sha1_c_follows (zeros 64) rfl (List.replicate 65 97) [asc "a", asc "bc"]

end IndimailMta.Srs
