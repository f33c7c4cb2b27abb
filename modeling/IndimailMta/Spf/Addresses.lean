import IndimailMta.Ip.RoundTrip

/-!
# Mechanisms that compare addresses

`spfcheck` reads the client's address into one of two variables, by its family. `a` and `mx` compare
each address that the resolver gives with the variable of that address's family, `ip4` and `ip6`
compare their network with the variable of its own. Which variable has the client is not asked: the
other one has what was left there.

The mask of a mechanism is what follows its first slash. The parser of a dual mask starts from 0 for
what it does not find, and takes one slash in front of the second number.
-/

namespace IndimailMta.Spf

open IndimailMta Tcprules Ip

variable (tx : Texts)

/-! ## The code -/

/-- The loop of `matchip` and `matchip6`. -/
def matchOctets : Nat → Nat → Bytes → Bytes → Bool
  | left + 1, mask, n :: net, x :: ip =>
      if mask = 0 then true
      else
        let bytemask := if 8 < mask then 8 else mask
        if (n.toNat ^^^ x.toNat) &&& (256 - 1 <<< (8 - bytemask)) ≠ 0 then false
        else matchOctets left (mask - bytemask) net ip
  | _, _, _, _ => true

def matchip (net : Addr 4) (mask : Nat) (ipaddr : Addr 4) : Bool :=
  matchOctets 4 mask net.1 ipaddr.1

def matchip6 (net : Addr 16) (mask : Nat) (i6 : Addr 16) : Bool := matchOctets 16 mask net.1 i6.1

/-- `getipmask`, for the two masks; both are 0 before. No value for -1. -/
def getipmask : Option Bytes → Option (Nat × Nat)
  | none => some (32, 128)
  | some mask =>
      let r := tx.scanUlong mask
      let next := (mask.drop r.1).head?
      if r.1 = 0 ∨ next ≠ none ∧ next ≠ some 47 then none
      else if 32 < r.2 then none
      else if next = some 47 then
        let r6 := tx.scanUlong (mask.drop (r.1 + 1))
        if r6.1 = 0 then none else if 128 < r6.2 then none else some (r.2, r6.2)
      else some (r.2, 0)

/-- `getip4mask` and `getip6mask`: a number up to the mask of an address. -/
def getmask (all : Nat) : Option Bytes → Option Nat
  | none => some all
  | some mask =>
      let r := tx.scanUlong mask
      if r.1 = 0 then none else if all < r.2 then none else some r.2

def getip4mask : Option Bytes → Option Nat := getmask tx 32

def getip6mask : Option Bytes → Option Nat := getmask tx 128

/-- The variables `ip`, `ip6` and `ipv6use`. -/
structure Statics where
  ip : Addr 4
  ip6 : Addr 16
  ipv6use : Bool

/-- Octets that are written over an address. -/
def overwrite {n : Nat} (old : Addr n) (d : Bytes) : Addr n :=
  ⟨(d ++ old.1.drop d.length).take n, by
    rw [List.length_take, List.length_append, List.length_drop, old.2]
    omega⟩

/-- The octets that `ip4_scan` has written when it returns, whether it has read an address or
not. -/
def written : Nat → Bytes → Bytes
  | 0, _ => []
  | n + 1, s =>
      let r := tx.scanUlong s
      if r.1 = 0 then []
      else if 255 < r.2 then []
      else UInt8.ofNat r.2 ::
        if (s.drop r.1).head? = some 46 then written n (s.drop (r.1 + 1)) else []

/-- What `spfcheck` does with the address of the client; no value where it finds none. -/
def spfcheckIp (st : Statics) (remoteip : Bytes) : Option Statics :=
  let st := { st with ip := overwrite st.ip (written tx 4 remoteip), ipv6use := false }
  match ip4_scan tx remoteip with
  | some _ => some st
  | none =>
      match ip6_scan tx remoteip with
      | none => none
      | some (len, d) =>
          if len = 0 then none else some { st with ip6 := overwrite st.ip6 d, ipv6use := true }

/-- An address of a list, by its `af`. -/
inductive Address where
  | inet (ip : Addr 4)
  | inet6 (ip6 : Addr 16)
  | other

/-- What the resolver returns. -/
inductive Dns where
  | DNS_MEM
  | DNS_SOFT
  | DNS_HARD
  | found (ia : List Address)

inductive Result where
  | SPF_OK
  | SPF_NONE
  | SPF_SYNTAX
  | SPF_ERROR
  | SPF_NOMEM
  deriving DecidableEq, Repr

/-- The loop of `spf_a` and `spf_mx`. -/
def search (st : Statics) (ip4mask ip6mask : Nat) : List Address → Result
  | [] => .SPF_NONE
  | .inet ip :: ia =>
      if matchip ip ip4mask st.ip then .SPF_OK else search st ip4mask ip6mask ia
  | .inet6 ip6 :: ia =>
      if matchip6 ip6 ip6mask st.ip6 then .SPF_OK else search st ip4mask ip6mask ia
  | .other :: ia => search st ip4mask ip6mask ia

/-- What `spf_a` and `spf_mx` do with the addresses of a name. -/
def byDns (st : Statics) (dns : Dns) (mask : Option Bytes) : Result :=
  match getipmask tx mask with
  | none => .SPF_SYNTAX
  | some (ip4mask, ip6mask) =>
      match dns with
      | .DNS_MEM => .SPF_NOMEM
      | .DNS_SOFT => .SPF_ERROR
      | .DNS_HARD => .SPF_NONE
      | .found ia => search st ip4mask ip6mask ia

def spf_a (st : Statics) (dns_ip : Bytes → Dns) (spec : Bytes) (mask : Option Bytes) : Result :=
  byDns tx st (dns_ip spec) mask

def spf_mx (st : Statics) (dns_mxip : Bytes → Dns) (spec : Bytes) (mask : Option Bytes) : Result :=
  byDns tx st (dns_mxip spec) mask

def spf_ip6 (st : Statics) (spec : Bytes) (mask : Option Bytes) : Result :=
  match getip6mask tx mask, ip6_scan tx spec with
  | some ipmask, some (len, net) =>
      if len = 0 then .SPF_SYNTAX
      else if matchOctets 16 ipmask net st.ip6.1 then .SPF_OK else .SPF_NONE
  | _, _ => .SPF_SYNTAX

def spf_ip (st : Statics) (spec : Bytes) (mask : Option Bytes) : Result :=
  match getip4mask tx mask, ip4_scan tx spec with
  | some ipmask, some (_, net) => if matchOctets 4 ipmask net st.ip.1 then .SPF_OK else .SPF_NONE
  | _, _ => .SPF_SYNTAX

/-! ## What the texts mean -/

/-- The bits of octets. -/
def bitsOf (d : Bytes) : List Bool := d.flatMap octetBits

/-- The first `m` bits are equal. -/
def Agree (m : Nat) (a b : Bytes) : Prop := (bitsOf a).take m = (bitsOf b).take m

instance (m : Nat) (a b : Bytes) : Decidable (Agree m a b) := inferInstanceAs (Decidable (_ = _))

/-- The address of the client. -/
inductive Client where
  | inet (ip : Addr 4)
  | inet6 (ip6 : Addr 16)

inductive Client.Text : Client → Bytes → Prop
  | inet {ip : Addr 4} {t : Bytes} (h : Ip4 t ip.1) : Text (.inet ip) t
  | inet6 {ip6 : Addr 16} {t : Bytes} (h : Ip6 t ip6.1) : Text (.inet6 ip6) t

/-- An address of the client's family, whose first bits are the client's. -/
def Client.Agrees : Client → Nat → Nat → Address → Prop
  | .inet ip, m4, _, .inet d => Agree m4 d.1 ip.1
  | .inet6 ip6, _, m6, .inet6 d => Agree m6 d.1 ip6.1
  | _, _, _, _ => False

/-- A number that is written in digits. -/
structure Number (t : Bytes) (n : Nat) : Prop where
  ne_nil : t ≠ []
  digits : ∀ b ∈ t, isDigit b = true
  value : digitsValue t = n

/-- What follows a domain: nothing, `/x`, `//y` or `/x//y`, and the two masks it stands for. -/
inductive Dual : Bytes → Nat → Nat → Prop
  | absent : Dual [] 32 128
  | ip4 {t : Bytes} {m4 : Nat} (h : Number t m4) (hle : m4 ≤ 32) : Dual (47 :: t) m4 128
  | ip6 {u : Bytes} {m6 : Nat} (h : Number u m6) (hle : m6 ≤ 128) : Dual (47 :: 47 :: u) 32 m6
  | both {t u : Bytes} {m4 m6 : Nat} (h4 : Number t m4) (hle4 : m4 ≤ 32) (h6 : Number u m6)
      (hle6 : m6 ≤ 128) : Dual (47 :: (t ++ 47 :: 47 :: u)) m4 m6

/-- What follows a network: nothing, or a slash and a number. -/
inductive Single (all : Nat) : Bytes → Nat → Prop
  | absent : Single all [] all
  | mask {t : Bytes} {m : Nat} (h : Number t m) (hle : m ≤ all) : Single all (47 :: t) m

/-- The mask that a mechanism is given: `spflookup` cuts at the first slash. -/
def maskOf : Bytes → Option Bytes
  | [] => none
  | _ :: mask => some mask

/-- A second mask is written. -/
def HasSecond (suffix : Bytes) : Prop := ∃ t u, suffix = 47 :: (t ++ 47 :: 47 :: u) ∨
  suffix = 47 :: 47 :: u

/-! ## Bits -/

/-- The bits of a byte that a mask of `b` leaves. -/
theorem and_mask_eq_zero : ∀ d < 256, ∀ b ≤ 8,
    (d &&& (256 - 1 <<< (8 - b)) = 0 ↔ ∀ k < b, d.testBit (7 - k) = false) := by
  decide +kernel

theorem octetBits_take_eq {n x : Byte} {b : Nat} (hb : b ≤ 8) :
    (octetBits n).take b = (octetBits x).take b ↔
      ∀ k < b, n.toNat.testBit (7 - k) = x.toNat.testBit (7 - k) := by
  rw [octetBits, octetBits, ← List.map_take, ← List.map_take, List.take_range,
    Nat.min_eq_left hb, List.map_inj_left]
  simp only [List.mem_range]

theorem octet_agrees {n x : Byte} {b : Nat} (hb : b ≤ 8) :
    (n.toNat ^^^ x.toNat) &&& (256 - 1 <<< (8 - b)) = 0 ↔
      (octetBits n).take b = (octetBits x).take b := by
  have hlt : n.toNat ^^^ x.toNat < 256 :=
    Nat.xor_lt_two_pow (n := 8) (UInt8.toNat_lt n) (UInt8.toNat_lt x)
  rw [octetBits_take_eq hb, and_mask_eq_zero _ hlt b hb]
  simp only [Nat.testBit_xor, bne_eq_false_iff_eq]

theorem length_octetBits (b : Byte) : (octetBits b).length = 8 := rfl

/-- **The loop compares the first bits.** -/
theorem matchOctets_iff {left mask : Nat} {net ip : Bytes} (hn : net.length = left)
    (hi : ip.length = left) : matchOctets left mask net ip = true ↔ Agree mask net ip := by
  induction left generalizing mask net ip with
  | zero =>
      rw [List.length_eq_zero_iff.mp hn, List.length_eq_zero_iff.mp hi]
      exact iff_of_true rfl rfl
  | succ left ih =>
      match net, ip, hn, hi with
      | n :: net, x :: ip, hn, hi =>
          rw [List.length_cons, Nat.succ.injEq] at hn hi
          have hcons : ∀ (y : Byte) (d : Bytes), bitsOf (y :: d) = octetBits y ++ bitsOf d :=
            fun y d => rfl
          rw [matchOctets, Agree, hcons, hcons, List.take_append, List.take_append,
            length_octetBits, length_octetBits]
          by_cases h0 : mask = 0
          · rw [if_pos h0, h0]
            simp
          · rw [if_neg h0]
            dsimp only
            by_cases h8 : 8 < mask
            · have htake : ∀ y : Byte, (octetBits y).take mask = octetBits y := fun y =>
                List.take_of_length_le (by rw [length_octetBits]; omega)
              rw [if_pos h8, htake, htake]
              have hoct := @octet_agrees n x 8 (Nat.le_refl 8)
              rw [List.take_of_length_le (Nat.le_refl 8), List.take_of_length_le (Nat.le_refl 8)]
                at hoct
              by_cases hno : (n.toNat ^^^ x.toNat) &&& (256 - 1 <<< (8 - 8)) = 0
              · rw [if_neg (not_not_intro hno), ih hn hi, hoct.mp hno, Agree,
                  List.append_cancel_left_eq]
              · rw [if_pos hno]
                refine iff_of_false (by simp) fun h => hno (hoct.mpr ?_)
                exact (List.append_inj h (by rw [length_octetBits, length_octetBits])).1
            · have h0' : mask - 8 = 0 := by omega
              have hoct := @octet_agrees n x mask (by omega)
              rw [if_neg h8, h0', List.take_zero, List.take_zero, List.append_nil, List.append_nil,
                ← hoct]
              by_cases hno : (n.toNat ^^^ x.toNat) &&& (256 - 1 <<< (8 - mask)) = 0
              · rw [if_neg (not_not_intro hno), ih hn hi, Nat.sub_self]
                exact iff_of_true rfl hno
              · rw [if_pos hno]
                exact iff_of_false (by simp) hno

theorem matchip_iff (net : Addr 4) (mask : Nat) (ip : Addr 4) :
    matchip net mask ip = true ↔ Agree mask net.1 ip.1 := matchOctets_iff net.2 ip.2

theorem matchip6_iff (net : Addr 16) (mask : Nat) (ip6 : Addr 16) :
    matchip6 net mask ip6 = true ↔ Agree mask net.1 ip6.1 := matchOctets_iff net.2 ip6.2

theorem Agree.mono {m n : Nat} {a b : Bytes} (h : Agree n a b) (hle : m ≤ n) : Agree m a b := by
  have := congrArg (List.take m) h
  rwa [List.take_take, List.take_take, Nat.min_eq_left hle] at this

/-! ## What the scanners make of the texts -/

section
variable {tx : Texts} {t u rest suffix : Bytes} {n m m4 m6 all : Nat}

theorem Number.scan (h : Number t n) (hn : n < 2 ^ 64) (hr : ∀ x ∈ rest.head?, isDigit x = false) :
    tx.scanUlong (t ++ rest) = (t.length, n) := by
  rw [tx.scan_eq, scanDecimal, takeWhile_isDigit_append h.digits hr, h.value, Nat.mod_eq_of_lt hn]

theorem Number.scan_all (h : Number t n) (hn : n < 2 ^ 64) : tx.scanUlong t = (t.length, n) := by
  have := @Number.scan tx t [] n h hn (by simp)
  rwa [List.append_nil] at this

theorem scan_slash (tx : Texts) (u : Bytes) : tx.scanUlong (47 :: u) = (0, 0) := by
  rw [tx.scan_eq, scanDecimal, List.takeWhile_cons_of_neg (by decide)]
  rfl

/-- The mask of one number leaves 0 for IPv6. -/
theorem getipmask_ip4 (h : Number t m4) (hle : m4 ≤ 32) :
    getipmask tx (some t) = some (m4, 0) := by
  have hlen : t.length ≠ 0 := fun h0 => h.ne_nil (List.length_eq_zero_iff.mp h0)
  rw [getipmask, h.scan_all (by omega)]
  simp [hlen, Nat.not_lt.mpr hle]

/-- A mask whose first number is missing is an error. -/
theorem getipmask_ip6 (tx : Texts) (u : Bytes) : getipmask tx (some (47 :: u)) = none := by
  rw [getipmask, scan_slash]
  exact if_pos (.inl rfl)

/-- So is a mask with two slashes between the numbers. -/
theorem getipmask_both (h : Number t m4) (hle : m4 ≤ 32) :
    getipmask tx (some (t ++ 47 :: 47 :: u)) = none := by
  have hscan := @Number.scan tx t (47 :: 47 :: u) m4 h (by omega) (by
    intro x hx
    obtain rfl := Option.some.inj hx
    rfl)
  have hdrop : (t ++ 47 :: 47 :: u).drop t.length = 47 :: 47 :: u := List.drop_left
  have hdrop' : (t ++ 47 :: 47 :: u).drop (t.length + 1) = 47 :: u := by
    rw [← List.drop_drop, hdrop]
    rfl
  have hlen : t.length ≠ 0 := fun h0 => h.ne_nil (List.length_eq_zero_iff.mp h0)
  rw [getipmask, hscan]
  simp [hlen, hdrop, hdrop', Nat.not_lt.mpr hle, scan_slash]

theorem getmask_single (h : Single all suffix m) (hall : all ≤ 128) :
    getmask tx all (maskOf suffix) = some m := by
  cases h with
  | absent => rfl
  | @mask t m h hle =>
      have hlen : t.length ≠ 0 := fun h0 => h.ne_nil (List.length_eq_zero_iff.mp h0)
      rw [maskOf, getmask, h.scan_all (by omega)]
      simp only [if_neg hlen, if_neg (Nat.not_lt.mpr hle)]

theorem Number.not_hasSecond (h : Number t n) : ¬ HasSecond (47 :: t) := by
  rintro ⟨v, w, heq | heq⟩
  · have hmem : (47 : Byte) ∈ t := by
      rw [(List.cons.inj heq).2]
      simp
    exact absurd (h.digits 47 hmem) (by decide)
  · have hmem : (47 : Byte) ∈ t := by
      rw [(List.cons.inj heq).2]
      simp
    exact absurd (h.digits 47 hmem) (by decide)

theorem not_hasSecond_nil : ¬ HasSecond [] := by
  rintro ⟨v, w, heq | heq⟩ <;> cases heq

/-! ### The client -/

theorem written_eq {s ip : Bytes} {i : Nat} (h : scanNumbers tx n s = some (i, ip)) :
    written tx n s = ip := by
  induction n generalizing s i ip with
  | zero =>
      cases h
      rfl
  | succ n ih =>
      rw [scanNumbers] at h
      rw [written]
      split_ifs at h with h1 h2 h3 h4
      · cases h
        subst h3
        simp [h1, h2, written]
      · obtain ⟨q, hq, heq⟩ := Option.map_eq_some_iff.mp h
        cases heq
        simp [h1, h2, h4, ih hq]

theorem overwrite_eq {n : Nat} (old new : Addr n) : overwrite old new.1 = new := by
  apply Subtype.ext
  have hnil : old.1.drop new.1.length = [] := List.drop_eq_nil_of_le (by rw [old.2, new.2])
  rw [overwrite]
  simp only [hnil, List.append_nil]
  exact List.take_of_length_le (Nat.le_of_eq new.2)

/-- The variable of the client's family has the client; the other has what it had, or octets of the
text. -/
inductive Loaded (tx : Texts) (st : Statics) (t : Bytes) : Client → Statics → Prop
  | inet (ip : Addr 4) : Loaded tx st t (.inet ip) ⟨ip, st.ip6, false⟩
  | inet6 (ip6 : Addr 16) :
      Loaded tx st t (.inet6 ip6) ⟨overwrite st.ip (written tx 4 t), ip6, true⟩

theorem spfcheckIp_text {c : Client} (st : Statics) (h : c.Text t) :
    ∃ st', spfcheckIp tx st t = some st' ∧ Loaded tx st t c st' := by
  cases h with
  | @inet ip t h =>
      have hscan := @ip4_scan_ip4 tx t [] _ h (by simp)
      rw [List.append_nil] at hscan
      have hwritten := written_eq hscan
      refine ⟨⟨ip, st.ip6, false⟩, ?_, .inet ip⟩
      simp only [spfcheckIp, hwritten, overwrite_eq, hscan]
  | @inet6 ip6 t h =>
      have hip4 := @ip4_scan_ip6 tx t [] _ h
      obtain ⟨len, hlen, hip6⟩ := @ip6_scan_ip6 tx t [] _ h (by intro x hx; cases hx)
      rw [List.append_nil] at hip4 hip6
      refine ⟨_, ?_, .inet6 ip6⟩
      simp only [spfcheckIp, hip4, hip6, if_neg hlen, overwrite_eq]

/-! ### The lists -/

/-- What the loop compares an address with. -/
def Statics.Compared (st : Statics) (m4 m6 : Nat) : Address → Prop
  | .inet d => Agree m4 d.1 st.ip.1
  | .inet6 d => Agree m6 d.1 st.ip6.1
  | .other => False

theorem search_iff (st : Statics) (ia : List Address) :
    search st m4 m6 ia = .SPF_OK ↔ ∃ x ∈ ia, st.Compared m4 m6 x := by
  induction ia with
  | nil => simp [search]
  | cons x ia ih =>
      rw [List.exists_mem_cons_iff, ← ih]
      cases x with
      | inet d =>
          rw [search, Statics.Compared, ← matchip_iff]
          cases matchip d m4 st.ip <;> simp
      | inet6 d =>
          rw [search, Statics.Compared, ← matchip6_iff]
          cases matchip6 d m6 st.ip6 <;> simp
      | other => simp [search, Statics.Compared]

end

/-! ## The mechanisms -/

/-- An address of the list that is compared, and should not be: of the other family, where the
variable has what was left there or the mask is 0; or of the client's own, where the mask is 0. -/
def Misled (c : Client) (st : Statics) (suffix : Bytes) (m4 : Nat) (ia : List Address) : Prop :=
  match c with
  | .inet _ => ∃ d, .inet6 d ∈ ia ∧ (suffix ≠ [] ∨ Agree 128 d.1 st.ip6.1)
  | .inet6 _ =>
      (suffix ≠ [] ∧ ∃ d, .inet6 d ∈ ia) ∨ ∃ d, .inet d ∈ ia ∧ Agree m4 d.1 st.ip.1

theorem compared_iff {tx : Texts} {st st' : Statics} {c : Client} {t suffix : Bytes} {m4 k : Nat}
    {ia : List Address} (hst : Loaded tx st t c st') (hsecond : ¬ HasSecond suffix)
    (hzero : suffix ≠ [] → k = 0) (hall : suffix = [] → k = 128) :
    ((∃ x ∈ ia, st'.Compared m4 k x) ↔ ∃ x ∈ ia, c.Agrees m4 128 x) ↔
      (HasSecond suffix → ¬ ∃ x ∈ ia, c.Agrees m4 128 x) ∧
      (¬ HasSecond suffix → Misled c st' suffix m4 ia → ∃ x ∈ ia, c.Agrees m4 128 x) := by
  have hk : k ≤ 128 := by
    by_cases hs : suffix = []
    · rw [hall hs]
    · rw [hzero hs]
      exact Nat.zero_le _
  have hany : ∀ d b : Bytes, suffix ≠ [] ∨ Agree 128 d b ↔ Agree k d b := by
    intro d b
    by_cases hs : suffix = []
    · simp [hs, hall hs]
    · simp [hs, hzero hs, Agree]
  -- what agrees is compared, and what is compared agrees or misleads
  have hown : (∃ x ∈ ia, c.Agrees m4 128 x) → ∃ x ∈ ia, st'.Compared m4 k x := by
    rintro ⟨x, hx, hagrees⟩
    refine ⟨x, hx, ?_⟩
    cases hst <;> cases x <;> first | exact hagrees | exact hagrees.elim | exact hagrees.mono hk
  have hmisled : (∃ x ∈ ia, st'.Compared m4 k x) ↔
      (∃ x ∈ ia, c.Agrees m4 128 x) ∨ Misled c st' suffix m4 ia := by
    constructor
    · rintro ⟨x, hx, hcompared⟩
      cases hst with
      | inet ip =>
          cases x with
          | inet d => exact .inl ⟨_, hx, hcompared⟩
          | inet6 d => exact .inr ⟨d, hx, (hany d.1 _).mpr hcompared⟩
          | other => exact hcompared.elim
      | inet6 ip6 =>
          cases x with
          | inet d => exact .inr (.inr ⟨d, hx, hcompared⟩)
          | inet6 d =>
              rcases (hany d.1 _).mpr hcompared with hs | hagree
              · exact .inr (.inl ⟨hs, d, hx⟩)
              · exact .inl ⟨_, hx, hagree⟩
          | other => exact hcompared.elim
    · rintro (h | h)
      · exact hown h
      · cases hst with
        | inet ip =>
            obtain ⟨d, hd, hor⟩ := h
            exact ⟨_, hd, (hany d.1 _).mp hor⟩
        | inet6 ip6 =>
            rcases h with ⟨hs, d, hd⟩ | ⟨d, hd, hagree⟩
            · exact ⟨_, hd, (hany d.1 _).mp (.inl hs)⟩
            · exact ⟨_, hd, hagree⟩
  rw [hmisled]
  simp only [hsecond, false_implies, not_false_eq_true, true_implies, true_and]
  constructor
  · intro h hm
    exact h.mp (.inr hm)
  · intro h
    exact ⟨fun hor => hor.elim id h, .inl⟩

/-- `a` and `mx`. -/
theorem byDns_iff {tx : Texts} {st st' : Statics} {c : Client} {t suffix : Bytes} {m4 m6 : Nat}
    (hst : Loaded tx st t c st') (hmask : Dual suffix m4 m6) (ia : List Address) :
    (byDns tx st' (.found ia) (maskOf suffix) = .SPF_OK ↔ ∃ x ∈ ia, c.Agrees m4 m6 x) ↔
      (HasSecond suffix → ¬ ∃ x ∈ ia, c.Agrees m4 m6 x) ∧
      (¬ HasSecond suffix → Misled c st' suffix m4 ia → ∃ x ∈ ia, c.Agrees m4 m6 x) := by
  cases hmask with
  | absent =>
      have hcode : byDns tx st' (.found ia) (maskOf []) = search st' 32 128 ia := rfl
      rw [hcode, search_iff]
      exact compared_iff hst not_hasSecond_nil (fun h => (h rfl).elim) fun _ => rfl
  | @ip4 t m4 h hle =>
      have hcode : byDns tx st' (.found ia) (maskOf (47 :: t)) = search st' m4 0 ia := by
        rw [maskOf, byDns, getipmask_ip4 h hle]
      rw [hcode, search_iff]
      exact compared_iff hst h.not_hasSecond (fun _ => rfl) fun h => (List.cons_ne_nil _ _ h).elim
  | @ip6 u m6 h hle =>
      have hcode : byDns tx st' (.found ia) (maskOf (47 :: 47 :: u)) = .SPF_SYNTAX := by
        rw [maskOf, byDns, getipmask_ip6]
      have hsecond : HasSecond (47 :: 47 :: u) := ⟨[], u, .inr rfl⟩
      simp [hcode, hsecond]
  | @both t u m4 m6 h4 hle4 h6 hle6 =>
      have hcode : byDns tx st' (.found ia) (maskOf (47 :: (t ++ 47 :: 47 :: u))) =
          .SPF_SYNTAX := by
        rw [maskOf, byDns, getipmask_both h4 hle4]
      have hsecond : HasSecond (47 :: (t ++ 47 :: 47 :: u)) := ⟨t, u, .inl rfl⟩
      simp [hcode, hsecond]

/-- `ip4`: the client's variable has what was left there if the client has an IPv6 address. -/
theorem spf_ip_iff {tx : Texts} {st st' : Statics} {c : Client} {t spec suffix : Bytes} {m : Nat}
    (hst : Loaded tx st t c st') {net : Addr 4} (hspec : Ip4 spec net.1)
    (hmask : Single 32 suffix m) :
    (spf_ip tx st' spec (maskOf suffix) = .SPF_OK ↔ c.Agrees m 128 (.inet net)) ↔
      ∀ ip6, c = .inet6 ip6 → ¬ Agree m net.1 st'.ip.1 := by
  have hscan := @ip4_scan_ip4 tx spec [] _ hspec (by simp)
  rw [List.append_nil] at hscan
  have hcode : spf_ip tx st' spec (maskOf suffix) = .SPF_OK ↔ Agree m net.1 st'.ip.1 := by
    rw [← matchip_iff, matchip, spf_ip, getip4mask, getmask_single hmask (by decide), hscan]
    dsimp only
    cases matchOctets 4 m net.1 st'.ip.1 <;> simp
  rw [hcode]
  cases hst with
  | inet ip =>
      refine iff_of_true Iff.rfl ?_
      rintro ip6 ⟨⟩
  | inet6 ip6 =>
      constructor
      · intro h ip6' _ hagree
        exact h.mp hagree
      · intro h
        exact ⟨fun hagree => (h ip6 rfl hagree).elim, fun hno => hno.elim⟩

/-- `ip6`: so has it if the client has an IPv4 address. -/
theorem spf_ip6_iff {tx : Texts} {st st' : Statics} {c : Client} {t spec suffix : Bytes} {m : Nat}
    (hst : Loaded tx st t c st') {net : Addr 16} (hspec : Ip6 spec net.1)
    (hmask : Single 128 suffix m) :
    (spf_ip6 tx st' spec (maskOf suffix) = .SPF_OK ↔ c.Agrees 32 m (.inet6 net)) ↔
      ∀ ip, c = .inet ip → ¬ Agree m net.1 st'.ip6.1 := by
  obtain ⟨len, hlen, hscan⟩ := @ip6_scan_ip6 tx spec [] _ hspec (by intro x hx; cases hx)
  rw [List.append_nil] at hscan
  have hcode : spf_ip6 tx st' spec (maskOf suffix) = .SPF_OK ↔ Agree m net.1 st'.ip6.1 := by
    rw [← matchip6_iff, matchip6, spf_ip6, getip6mask, getmask_single hmask (by decide), hscan]
    simp only [if_neg hlen]
    cases matchOctets 16 m net.1 st'.ip6.1 <;> simp
  rw [hcode]
  cases hst with
  | inet ip =>
      constructor
      · intro h ip' _ hagree
        exact h.mp hagree
      · intro h
        exact ⟨fun hagree => (h ip rfl hagree).elim, fun hno => hno.elim⟩
  | inet6 ip6 =>
      refine iff_of_true Iff.rfl ?_
      rintro ip ⟨⟩

/-- **Mechanisms that compare addresses** match the addresses they list if and only if: no second
mask is written, unless nothing is to match; what is left in the variable of the other family does
not match, nor does a mask of 0 for IPv6, unless something is to match anyway. -/
theorem addresses_match_iff (tx : Texts) (st : Statics) {c : Client} {t : Bytes} (hc : c.Text t) :
    ∃ st', spfcheckIp tx st t = some st' ∧ Loaded tx st t c st' ∧
      (∀ dns_ip spec suffix m4 m6 ia, dns_ip spec = .found ia → Dual suffix m4 m6 →
        ((spf_a tx st' dns_ip spec (maskOf suffix) = .SPF_OK ↔ ∃ x ∈ ia, c.Agrees m4 m6 x) ↔
          (HasSecond suffix → ¬ ∃ x ∈ ia, c.Agrees m4 m6 x) ∧
          (¬ HasSecond suffix → Misled c st' suffix m4 ia → ∃ x ∈ ia, c.Agrees m4 m6 x)) ∧
        ((spf_mx tx st' dns_ip spec (maskOf suffix) = .SPF_OK ↔ ∃ x ∈ ia, c.Agrees m4 m6 x) ↔
          (HasSecond suffix → ¬ ∃ x ∈ ia, c.Agrees m4 m6 x) ∧
          (¬ HasSecond suffix → Misled c st' suffix m4 ia → ∃ x ∈ ia, c.Agrees m4 m6 x))) ∧
      (∀ spec (net : Addr 4) suffix m, Ip4 spec net.1 → Single 32 suffix m →
        ((spf_ip tx st' spec (maskOf suffix) = .SPF_OK ↔ c.Agrees m 128 (.inet net)) ↔
          ∀ ip6, c = .inet6 ip6 → ¬ Agree m net.1 st'.ip.1)) ∧
      ∀ spec (net : Addr 16) suffix m, Ip6 spec net.1 → Single 128 suffix m →
        ((spf_ip6 tx st' spec (maskOf suffix) = .SPF_OK ↔ c.Agrees 32 m (.inet6 net)) ↔
          ∀ ip, c = .inet ip → ¬ Agree m net.1 st'.ip6.1) := by
  obtain ⟨st', hcheck, hst⟩ := @spfcheckIp_text tx t c st hc
  refine ⟨st', hcheck, hst, fun dns_ip spec suffix m4 m6 ia hdns hmask => ⟨?_, ?_⟩,
    fun spec net suffix m hspec hmask => spf_ip_iff hst hspec hmask,
    fun spec net suffix m hspec hmask => spf_ip6_iff hst hspec hmask⟩
  · rw [spf_a, hdns]
    exact byDns_iff hst hmask ia
  · rw [spf_mx, hdns]
    exact byDns_iff hst hmask ia

/-- The variables of a process that has checked nothing. -/
def fresh : Statics := ⟨⟨[0, 0, 0, 0], rfl⟩, ⟨List.replicate 16 0, rfl⟩, false⟩

theorem length_client : ([192, 0, 2, 1] : Bytes).length = 4 := rfl

def client : Addr 4 := ⟨[192, 0, 2, 1], length_client⟩

def listed : Addr 16 := ⟨[32, 1, 13, 184, 0, 0, 0, 0, 0, 0, 0, 0, 0, 0, 0, 1], rfl⟩

theorem client_text : Client.Text (.inet client) (asc "192.0.2.1") := by
  have hfmt : ip4_fmt texts client.1 = asc "192.0.2.1" := by decide +kernel
  refine .inet ?_
  rw [← hfmt]
  exact ip4_fmt_ip4 texts client.2

theorem addresses_match_iff_client :
    ∃ st', spfcheckIp texts fresh (asc "192.0.2.1") = some st' ∧
      spf_a texts st' (fun _ => .found [.inet client]) (asc "example.org") (maskOf (asc "/24")) =
        .SPF_OK := by
  obtain ⟨st', hcheck, -, hdns, -⟩ := addresses_match_iff texts fresh client_text
  have h24 : Number (asc "24") 24 := ⟨by decide +kernel, by decide +kernel, by decide +kernel⟩
  have hagrees : ∃ x ∈ [Address.inet client], (Client.inet client).Agrees 24 128 x :=
    ⟨_, List.mem_singleton_self _, rfl⟩
  have hiff := (hdns (fun _ => .found [.inet client]) (asc "example.org") _ _ _ _ rfl
    (.ip4 h24 (by decide))).1
  exact ⟨st', hcheck, (hiff.mpr ⟨fun h => (h24.not_hasSecond h).elim, fun _ _ => hagrees⟩).mpr
    hagrees⟩

/-- A mask for IPv4 only makes an AAAA record match every client, a mask for both families is an
error, and an IPv4 client matches what is left for IPv6. -/
theorem mask_of_one_family_matches_all :
    spfcheckIp texts fresh (asc "192.0.2.1") = some ⟨client, fresh.ip6, false⟩ ∧
      (spf_a texts ⟨client, fresh.ip6, false⟩ (fun _ => .found [.inet6 listed]) (asc "example.org")
          (maskOf (asc "/24")) = .SPF_OK ∧
        ¬ ∃ x ∈ [Address.inet6 listed], (Client.inet client).Agrees 24 128 x) ∧
      (spf_a texts ⟨client, fresh.ip6, false⟩ (fun _ => .found [.inet client]) (asc "example.org")
          (maskOf (asc "/24//64")) = .SPF_SYNTAX ∧
        ∃ x ∈ [Address.inet client], (Client.inet client).Agrees 24 64 x) ∧
      spf_ip6 texts ⟨client, fresh.ip6, false⟩ (asc "::") (maskOf (asc "/8")) = .SPF_OK := by
  obtain ⟨st', hcheck, hst⟩ := @spfcheckIp_text texts _ _ fresh client_text
  cases hst
  refine ⟨hcheck, ⟨by decide +kernel, ?_⟩, ⟨by decide +kernel, ?_⟩, by decide +kernel⟩
  · rintro ⟨x, hx, hagrees⟩
    rw [List.mem_singleton.mp hx] at hagrees
    exact hagrees
  · exact ⟨_, List.mem_singleton_self _, rfl⟩

end IndimailMta.Spf
