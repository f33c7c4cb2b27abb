import IndimailMta.Base
import Mathlib.Data.List.Infix

/-!
# The names of domains

The name of a domain is a list of labels. Packed, every label has its length in front of it, and a length
of zero ends the name, so that a name says itself where it ends.

A function that goes over a packed name has no value here if it comes to the end of the memory.
-/

namespace IndimailMta.Resolver

open IndimailMta

/-! ## Names -/

/-- A label has 1 to 63 bytes. -/
structure Label where
  bytes : Bytes
  pos : 0 < bytes.length
  short : bytes.length ≤ 63
  deriving DecidableEq, Repr

namespace Label

/-- The length of a label is one byte. -/
def length (l : Label) : Byte := UInt8.ofNat l.bytes.length

theorem toNat_length (l : Label) : l.length.toNat = l.bytes.length := by
  have h := l.short
  rw [length, UInt8.toNat_ofNat']
  exact Nat.mod_eq_of_lt (by omega)

theorem length_ne_zero (l : Label) : l.length ≠ 0 := by
  intro h
  have hpos := l.pos
  rw [← l.toNat_length, h] at hpos
  exact absurd hpos (Nat.lt_irrefl 0)

theorem toNat_length_le (l : Label) : l.length.toNat ≤ 63 := by
  rw [l.toNat_length]
  exact l.short

theorem ext_bytes {l k : Label} (h : l.bytes = k.bytes) : l = k := by
  cases l
  cases k
  cases h
  rfl

/-- The label in lower case. -/
def lower (l : Label) : Label where
  bytes := caseLower l.bytes
  pos := by
    rw [caseLower, List.length_map]
    exact l.pos
  short := by
    rw [caseLower, List.length_map]
    exact l.short

theorem length_lower (l : Label) : l.lower.length = l.length :=
  congrArg UInt8.ofNat (List.length_map _)

/-- A label as it stands in a name. -/
def packed (l : Label) : Bytes := l.length :: l.bytes

theorem length_packed (l : Label) : l.packed.length = l.bytes.length + 1 := rfl

end Label

/-- The name of a domain. -/
abbrev Name : Type := List Label

def lowerName (n : Name) : Name := n.map Label.lower

def pack (n : Name) : Bytes := n.flatMap Label.packed ++ [0]

section Pack

variable {n m : Name} {l : Label} {rest rest' : Bytes}

@[simp] theorem pack_nil : pack [] = [0] := rfl

theorem pack_cons (l : Label) (n : Name) : pack (l :: n) = l.length :: (l.bytes ++ pack n) := by
  rw [pack, pack, List.flatMap_cons, List.append_assoc]
  rfl

theorem length_pack_pos (n : Name) : 0 < (pack n).length := by
  rw [pack, List.length_append]
  exact Nat.succ_pos _

/-- A name says itself where it ends. -/
theorem pack_append_inj (h : pack n ++ rest = pack m ++ rest') : n = m ∧ rest = rest' := by
  induction n generalizing m with
  | nil =>
      cases m with
      | nil => exact ⟨rfl, List.tail_eq_of_cons_eq h⟩
      | cons k m =>
          rw [pack_cons, List.cons_append] at h
          exact absurd (List.head_eq_of_cons_eq h).symm k.length_ne_zero
  | cons l n ih =>
      cases m with
      | nil =>
          rw [pack_cons, List.cons_append] at h
          exact absurd (List.head_eq_of_cons_eq h) l.length_ne_zero
      | cons k m =>
          rw [pack_cons, pack_cons, List.cons_append, List.cons_append, List.append_assoc, List.append_assoc] at h
          obtain ⟨hlen, htail⟩ := List.cons.inj h
          have heq : l.bytes.length = k.bytes.length := by rw [← l.toNat_length, ← k.toNat_length, hlen]
          obtain ⟨hbytes, hrest⟩ := List.append_inj htail heq
          obtain ⟨hnm, hrest⟩ := ih hrest
          exact ⟨by rw [Label.ext_bytes hbytes, hnm], hrest⟩

theorem pack_inj (h : pack n = pack m) : n = m := by
  have happ : pack n ++ [] = pack m ++ [] := by rw [h]
  exact (pack_append_inj happ).1

/-- The lengths of the labels are not letters. -/
theorem caseLower_pack (n : Name) : caseLower (pack n) = pack (lowerName n) := by
  induction n with
  | nil => rfl
  | cons l n ih =>
      have hlen : ¬ (65 ≤ l.length ∧ l.length ≤ 90) := by
        rintro ⟨h, -⟩
        have hle := l.toNat_length_le
        rw [UInt8.le_iff_toNat_le] at h
        have h65 : (65 : Byte).toNat = 65 := rfl
        omega
      rw [lowerName, List.map_cons, pack_cons, pack_cons, Label.length_lower, ← lowerName, ← ih, caseLower,
        List.map_cons, if_neg hlen, List.map_append]
      rfl

end Pack

/-! ## Functions of packed names -/

/-- The loop of `dns_domain_length`: how many bytes are to be skipped, and how many have been gone over. -/
def lengthLoop : Nat → Bytes → Nat → Option Nat
  | _, [], _ => none
  | k + 1, _ :: x, len => lengthLoop k x (len + 1)
  | 0, c :: x, len => if c = 0 then some (len + 1) else lengthLoop c.toNat x (len + 1)

def dns_domain_length (dn : Bytes) : Option Nat := lengthLoop 0 dn 0

/-- `dns_domain_copy`, when there is memory. -/
def dns_domain_copy (src : Bytes) : Option Bytes := (dns_domain_length src).map fun len => src.take len

def dns_domain_equal (dn1 dn2 : Bytes) : Option Bool := do
  let len ← dns_domain_length dn1
  let len2 ← dns_domain_length dn2
  if len ≠ len2 then return false
  return caseLower (dn1.take len) = caseLower (dn2.take len)

/-- The loop of `dns_domain_suffix`: how many bytes of `big` are to be skipped. -/
def suffixLoop (little : Bytes) : Nat → Bytes → Option Bool
  | _, [] => none
  | k + 1, _ :: big => suffixLoop little k big
  | 0, c :: big => do
      if ← dns_domain_equal (c :: big) little then return true
      if c = 0 then return false
      suffixLoop little c.toNat big

def dns_domain_suffix (big little : Bytes) : Option Bool := suffixLoop little 0 big

section Functions

variable {n m big little : Name} {rest rest' bytes : Bytes}

theorem lengthLoop_skip (bytes rest : Bytes) (len : Nat) :
    lengthLoop bytes.length (bytes ++ rest) len = lengthLoop 0 rest (len + bytes.length) := by
  induction bytes generalizing len with
  | nil => rfl
  | cons b bytes ih =>
      rw [List.length_cons, List.cons_append, lengthLoop, ih, Nat.add_assoc, Nat.add_comm 1]

theorem lengthLoop_pack (n : Name) (rest : Bytes) (len : Nat) :
    lengthLoop 0 (pack n ++ rest) len = some (len + (pack n).length) := by
  induction n generalizing len with
  | nil => rfl
  | cons l n ih =>
      rw [pack_cons, List.cons_append, List.append_assoc, lengthLoop, if_neg l.length_ne_zero, l.toNat_length,
        lengthLoop_skip, ih, List.length_cons, List.length_append]
      exact congrArg some (by omega)

theorem dns_domain_length_pack (n : Name) (rest : Bytes) :
    dns_domain_length (pack n ++ rest) = some (pack n).length := by
  rw [dns_domain_length, lengthLoop_pack, Nat.zero_add]

theorem dns_domain_copy_pack (n : Name) (rest : Bytes) : dns_domain_copy (pack n ++ rest) = some (pack n) := by
  rw [dns_domain_copy, dns_domain_length_pack, Option.map_some, List.take_left]

/-- Two names are equal if their labels are, but for the case of letters. -/
theorem dns_domain_equal_pack (n m : Name) (rest rest' : Bytes) :
    dns_domain_equal (pack n ++ rest) (pack m ++ rest') = some (decide (lowerName n = lowerName m)) := by
  have hlower : lowerName n = lowerName m ↔ caseLower (pack n) = caseLower (pack m) := by
    rw [caseLower_pack, caseLower_pack]
    exact ⟨congrArg pack, pack_inj⟩
  rw [dns_domain_equal, dns_domain_length_pack, dns_domain_length_pack]
  simp only [Option.bind_eq_bind, Option.bind_some]
  by_cases hlen : (pack n).length = (pack m).length
  · rw [if_neg (not_not_intro hlen), List.take_left, hlen, List.take_left]
    simp only [hlower]
    rfl
  · rw [if_pos hlen]
    refine congrArg some (decide_eq_false fun h => hlen ?_).symm
    have heq := congrArg List.length (hlower.mp h)
    rwa [caseLower, caseLower, List.length_map, List.length_map] at heq

theorem suffixLoop_skip (little bytes rest : Bytes) :
    suffixLoop little bytes.length (bytes ++ rest) = suffixLoop little 0 rest := by
  induction bytes with
  | nil => rfl
  | cons b bytes ih => rw [List.length_cons, List.cons_append, suffixLoop, ih]

/-- One turn of the loop. -/
theorem suffixLoop_turn {c : Byte} {x little : Bytes} {e : Bool} (h : dns_domain_equal (c :: x) little = some e) :
    suffixLoop little 0 (c :: x) =
      if e then some true else if c = 0 then some false else suffixLoop little c.toNat x := by
  rw [suffixLoop, h]
  cases e with
  | true => rfl
  | false =>
      by_cases hc : c = 0
      · simp [hc]
      · simp [hc]

/-- **A name is a suffix** if its labels are the last ones, but for the case of letters. -/
theorem dns_domain_suffix_pack (big little : Name) (rest rest' : Bytes) :
    dns_domain_suffix (pack big ++ rest) (pack little ++ rest') =
      some (decide (lowerName little <:+ lowerName big)) := by
  rw [dns_domain_suffix]
  induction big with
  | nil =>
      have hsuffix : lowerName little <:+ lowerName [] ↔ lowerName [] = lowerName little :=
        List.suffix_nil.trans eq_comm
      have hturn := suffixLoop_turn (dns_domain_equal_pack [] little rest rest')
      rw [pack_nil, List.singleton_append, decide_eq_decide.mpr hsuffix]
      refine hturn.trans ?_
      by_cases h : lowerName [] = lowerName little
      · rw [if_pos (decide_eq_true h), decide_eq_true h]
      · rw [if_neg (fun ht => h (of_decide_eq_true ht)), if_pos rfl, decide_eq_false h]
  | cons l big ih =>
      have hequal := dns_domain_equal_pack (l :: big) little rest rest'
      have hsuffix : lowerName little <:+ lowerName (l :: big) ↔
          lowerName (l :: big) = lowerName little ∨ lowerName little <:+ lowerName big :=
        List.suffix_cons_iff.trans (or_congr_left eq_comm)
      rw [pack_cons, List.cons_append, List.append_assoc] at hequal ⊢
      rw [suffixLoop_turn hequal, decide_eq_decide.mpr hsuffix]
      by_cases h : lowerName (l :: big) = lowerName little
      · rw [if_pos (decide_eq_true h), decide_eq_true (.inl h)]
      · rw [if_neg (fun ht => h (of_decide_eq_true ht)), if_neg l.length_ne_zero, l.toNat_length, suffixLoop_skip,
          ih, decide_eq_decide.mpr (or_iff_right h)]

end Functions

end IndimailMta.Resolver
