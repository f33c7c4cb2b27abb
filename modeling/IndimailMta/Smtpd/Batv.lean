import IndimailMta.Base

/-!
# BATV signatures

`batv` signs an envelope sender with the day and the first bytes of a digest over
day, sender and key; `batv` and `qmail-smtpd` check the signature of an address
that bounces come to, and take it off. Both work on the address in place: the
last `@` is overwritten with a NUL while the `=` before it is searched.

The days are counted modulo 1000. The digest is a parameter.
-/

namespace IndimailMta.Batv

open IndimailMta

/-- The key, `batvkeystale`, and MD5. -/
structure Key where
  batvkey : Bytes
  batvkeystale : Int := 7
  stale_int : int32 batvkeystale = batvkeystale := by decide
  md5 : Bytes → Bytes
  md5_length : ∀ x, (md5 x).length = 16

/-- The values of `batv.h`. -/
inductive Result where
  | ok
  | nosignature
  | badformat
  | stale
  deriving DecidableEq, Repr

/-- `BATVLEN`: the bytes of the digest that are kept. -/
def BATVLEN : Nat := 3

def daynumber (now : Nat) : Nat := now / 86400 % 1000

/-! ## Signing -/

def digit (n : Nat) : Byte := UInt8.ofNat (48 + n)

/-- Format 0 and the three digits of the day. -/
def kdate (day : Nat) : Bytes := [48, digit (day / 100), digit (day / 10 % 10), digit (day % 10)]

def hex (n : Nat) : Byte := (asc "0123456789abcdef").getD n 0

def md5hex (b : Byte) : Bytes := [hex (b.toNat / 16), hex (b.toNat % 16)]

/-- `signbatv`. -/
def signbatv (k : Key) (now : Nat) (sender : Bytes) : Bytes :=
  if (asc "prvs=").isPrefixOf sender then sender
  else if (asc "sb*-").isPrefixOf sender then sender.drop 4
  else
    let date := kdate (daynumber now)
    let md5digest := k.md5 (date ++ sender ++ k.batvkey)
    asc "prvs=" ++ date ++ (md5digest.take BATVLEN).flatMap md5hex ++ asc "=" ++ sender

/-! ## Checking -/

/-- The search for the separator in the text `s` with its NUL: what is in memory after it,
and `slpos`. -/
def separator (s : Bytes) : Bytes × Nat :=
  let atpos := byteRchr (cstr s) 64
  let s := s.set atpos 0
  let slpos := byteRchr (cstr s) 61
  -- the `@` is put back, or is put in the place of the NUL
  (s.set atpos 64, slpos)

/-- A hexadecimal digit in either case. -/
def hexval (c : Byte) : Option Nat :=
  if isDigit c then some (c.toNat - 48)
  else if 97 ≤ c ∧ c ≤ 102 then some (10 + c.toNat - 97)
  else if 65 ≤ c ∧ c ≤ 70 then some (10 + c.toNat - 65)
  else none

/-- The two digits at `i`. -/
def hexPair (s : Bytes) (i : Nat) : Option Nat := do
  let x ← hexval (← s[i]?)
  let y ← hexval (← s[i + 1]?)
  some (x * 16 + y)

/-- The digits of `s` from position 9 on are those of the digest. -/
def sameDigest (s md5digest : Bytes) : Bool :=
  (List.range BATVLEN).all fun i => hexPair s (9 + 2 * i) == md5digest[i]?.map UInt8.toNat

/-- The checks `checkbatv` and `check_batv_sig` make once `slpos` is known; the text in `s` has
`len` bytes. -/
def verify (k : Key) (now : Nat) (s : Bytes) (slpos len : Nat) : Result :=
  let date := (s.drop 5).take 4
  let scan := scanDecimal (date.drop 1)
  if date.head? ≠ some 48 then .badformat
  else if scan.1 ≠ 3 then .badformat
  else if unsignedInt (daynumber now - scan.2) > unsignedInt k.batvkeystale then .stale
  else if sameDigest s (k.md5 (date ++ (s.drop (slpos + 1)).take (len - slpos - 1) ++ k.batvkey))
    then .ok
  else .badformat

/-- `checkbatv`: the result, and what is in `newsender` with its NUL. -/
def checkbatv (k : Key) (now : Nat) (sender : Bytes) : Result × Bytes :=
  let newsender := sender ++ [0]
  let len := sender.length
  if 11 + 2 * BATVLEN ≤ len ∧ (asc "prvs=").isPrefixOf newsender then
    let (newsender, slpos) := separator newsender
    match verify k now newsender slpos len with
    | .ok => (.ok, (newsender.drop (slpos + 1)).take (len - (slpos + 1)) ++ [0])
    | r => (r, newsender)
  else (.nosignature, newsender)

/-- `check_batv_sig`: the result, and what is in `addr`, whose length counts the NUL. -/
def check_batv_sig (k : Key) (now : Nat) (addr : Bytes) : Result × Bytes :=
  if 11 + 2 * BATVLEN ≤ addr.length ∧ (asc "prvs=").isPrefixOf addr then
    let (addr, slpos) := separator addr
    match verify k now addr slpos (addr.length - 1) with
    | .ok => (.ok, addr.drop (slpos + 1))
    | r => (r, addr)
  else (.nosignature, addr)

/-! ## Where the parts of a signed address are -/

theorem set_at {α : Type*} (u v : List α) (c d : α) : (u ++ c :: v).set u.length d = u ++ d :: v := by
  rw [List.set_append_right _ _ (Nat.le_refl _), Nat.sub_self, List.set_cons_zero]

/-- With an `@` the search leaves the address as it is. -/
theorem separator_at {u v w : Bytes} (hu : (0 : Byte) ∉ u) (hv : (0 : Byte) ∉ v)
    (hat : (64 : Byte) ∉ v) :
    separator (u ++ 64 :: (v ++ 0 :: w)) = (u ++ 64 :: (v ++ 0 :: w), byteRchr u 61) := by
  have hnul : (0 : Byte) ∉ u ++ 64 :: v := by
    simp only [List.mem_append, List.mem_cons, not_or]
    exact ⟨hu, by decide, hv⟩
  have hs : cstr (u ++ 64 :: (v ++ 0 :: w)) = u ++ 64 :: v := by
    rw [show u ++ (64 : Byte) :: (v ++ 0 :: w) = (u ++ 64 :: v) ++ 0 :: w by simp]
    exact cstr_append w hnul
  simp only [separator]
  rw [hs, byteRchr_append hat, set_at, cstr_append _ hu, set_at]

/-- Without one it puts an `@` in the place of the NUL. -/
theorem separator_nul {a : Bytes} (ha : (0 : Byte) ∉ a) (hat : (64 : Byte) ∉ a) :
    separator (a ++ [0]) = (a ++ [64], byteRchr a 61) := by
  simp only [separator]
  rw [cstr_append_nul ha, byteRchr_of_notMem hat, set_at, cstr_append _ ha, set_at]

/-- What stands in front of the sender in a signed address. -/
def signature (k : Key) (now : Nat) (sender : Bytes) : Bytes :=
  asc "prvs=" ++ kdate (daynumber now) ++
    ((k.md5 (kdate (daynumber now) ++ sender ++ k.batvkey)).take BATVLEN).flatMap md5hex

theorem signbatv_eq {k : Key} {now : Nat} {sender : Bytes}
    (hprvs : (asc "prvs=").isPrefixOf sender = false)
    (hsb : (asc "sb*-").isPrefixOf sender = false) :
    signbatv k now sender = signature k now sender ++ 61 :: sender := by
  rw [signbatv, if_neg (by simp [hprvs]), if_neg (by simp [hsb])]
  simp only [signature, List.append_assoc]
  rfl

/-! ## A signature is read back -/

theorem daynumber_lt (now : Nat) : daynumber now < 1000 := Nat.mod_lt _ (by decide)

theorem digit_value : ∀ n < 10, isDigit (digit n) = true ∧ (digit n).toNat - 48 = n := by decide

theorem hexval_hex : ∀ n < 16, hexval (hex n) = some n ∧ hex n ≠ 0 := by decide

/-- The three digits of a day are its number. -/
theorem scan_kdate {day : Nat} (h : day < 1000) :
    scanDecimal [digit (day / 100), digit (day / 10 % 10), digit (day % 10)] = (3, day) := by
  obtain ⟨h1, v1⟩ := digit_value (day / 100) (by omega)
  obtain ⟨h2, v2⟩ := digit_value (day / 10 % 10) (by omega)
  obtain ⟨h3, v3⟩ := digit_value (day % 10) (by omega)
  simp only [scanDecimal, List.takeWhile_cons, h1, h2, h3, if_true, List.takeWhile_nil,
    List.length_cons, List.length_nil, digitsValue, List.foldl_cons, List.foldl_nil, v1, v2, v3]
  have hday : ((0 * 10 + day / 100) * 10 + day / 10 % 10) * 10 + day % 10 = day := by omega
  rw [hday, Nat.mod_eq_of_lt (by omega)]

/-- The digest begins with three bytes. -/
theorem digest_bytes (k : Key) (x : Bytes) : ∃ a b c ds, k.md5 x = a :: b :: c :: ds := by
  have hlen := k.md5_length x
  rcases hx : k.md5 x with _ | ⟨a, _ | ⟨b, _ | ⟨c, ds⟩⟩⟩
  · simp [hx] at hlen
  · simp [hx] at hlen
  · simp [hx] at hlen
  · exact ⟨a, b, c, ds, rfl⟩

theorem length_signature (k : Key) (now : Nat) (sender : Bytes) :
    (signature k now sender).length = 15 := by
  obtain ⟨a, b, c, ds, hm⟩ := digest_bytes k (kdate (daynumber now) ++ sender ++ k.batvkey)
  rw [signature, hm]
  rfl

theorem hexPair_md5hex (s : Bytes) (i : Nat) (b : Byte) (h0 : s[i]? = some (hex (b.toNat / 16)))
    (h1 : s[i + 1]? = some (hex (b.toNat % 16))) : hexPair s i = some b.toNat := by
  have hb := b.toNat_lt
  simp only [hexPair, h0, h1, Option.bind_eq_bind, Option.bind_some,
    (hexval_hex (b.toNat / 16) (by omega)).1, (hexval_hex (b.toNat % 16) (by omega)).1]
  have hsum : b.toNat / 16 * 16 + b.toNat % 16 = b.toNat := by omega
  rw [hsum]

/-- A signature has the digits of its own digest. -/
theorem sameDigest_signature (k : Key) (now : Nat) (sender rest : Bytes) :
    sameDigest (signature k now sender ++ rest)
      (k.md5 (kdate (daynumber now) ++ sender ++ k.batvkey)) = true := by
  rw [signature]
  obtain ⟨a, b, c, ds, hm⟩ := digest_bytes k (kdate (daynumber now) ++ sender ++ k.batvkey)
  rw [hm]
  simp only [sameDigest, BATVLEN, List.all_eq_true, List.mem_range, beq_iff_eq]
  intro i hi
  obtain rfl | rfl | rfl : i = 0 ∨ i = 1 ∨ i = 2 := by omega
  · exact hexPair_md5hex _ 9 a rfl rfl
  · exact hexPair_md5hex _ 11 b rfl rfl
  · exact hexPair_md5hex _ 13 c rfl rfl

/-- The days from `s` to `t` as the checks count them are too many. -/
abbrev Over (k : Key) (s t : Nat) : Prop :=
  unsignedInt ((daynumber t : Int) - daynumber s) > unsignedInt k.batvkeystale

/-- What the checks make of a signature: its age, and then its digest. -/
theorem verify_signature (k : Key) (s t : Nat) (sender rest : Bytes) (slpos len : Nat) :
    verify k t (signature k s sender ++ rest) slpos len =
      if Over k s t then .stale
      else if sameDigest (signature k s sender ++ rest)
          (k.md5 (kdate (daynumber s) ++
            (((signature k s sender ++ rest).drop (slpos + 1)).take (len - slpos - 1)) ++
            k.batvkey)) then .ok
      else .badformat := by
  have hdate : ((signature k s sender ++ rest).drop 5).take 4 = kdate (daynumber s) := by
    simp only [signature, List.append_assoc]
    rfl
  simp only [verify, hdate]
  rw [if_neg (by simp [kdate]), show (kdate (daynumber s)).drop 1 =
    [digit (daynumber s / 100), digit (daynumber s / 10 % 10), digit (daynumber s % 10)] from rfl,
    scan_kdate (daynumber_lt s), if_neg (fun h => h rfl)]

/-! ## A signed sender -/

/-- The text of a signed sender has no NUL. -/
theorem nul_notMem_signature (k : Key) (now : Nat) (sender : Bytes) :
    (0 : Byte) ∉ signature k now sender := by
  obtain ⟨a, b, c, ds, hm⟩ := digest_bytes k (kdate (daynumber now) ++ sender ++ k.batvkey)
  have hdigit : ∀ n < 10, digit n ≠ 0 := by decide
  have hhex : ∀ x : Byte, (0 : Byte) ∉ md5hex x := by
    intro x hx
    have hlt := x.toNat_lt
    simp only [md5hex, List.mem_cons, List.not_mem_nil, or_false] at hx
    rcases hx with h | h
    · exact (hexval_hex (x.toNat / 16) (by omega)).2 h.symm
    · exact (hexval_hex (x.toNat % 16) (by omega)).2 h.symm
  have hday := daynumber_lt now
  rw [signature, hm]
  simp only [List.mem_append, not_or]
  refine ⟨⟨by decide, ?_⟩, ?_⟩
  · simp only [kdate, List.mem_cons, List.not_mem_nil, or_false, not_or]
    exact ⟨by decide, (hdigit _ (by omega)).symm, (hdigit _ (by omega)).symm,
      (hdigit _ (by omega)).symm⟩
  · simp only [List.mem_flatMap, not_exists, not_and]
    exact fun x _ => hhex x

/-- The last `=` in front of the `@` is the one behind the signature, unless the local part has
one. -/
theorem byteRchr_signed {g u : Bytes} (hg : g.length = 15) :
    byteRchr (g ++ 61 :: u) 61 = 15 ↔ (61 : Byte) ∉ u := by
  constructor
  · intro h hu
    rcases byteRchr_cases (g ++ 61 :: u) 61 with ⟨hno, -⟩ | ⟨v, w, hvw, hw, hlen⟩
    · simp at hno
    · rw [h] at hlen
      have hsplit : g = v ∧ 61 :: u = 61 :: w :=
        List.append_inj hvw (by rw [hg, hlen])
      exact hw ((List.cons.inj hsplit.2).2 ▸ hu)
  · intro hu
    rw [byteRchr_append hu, hg]

/-- Both checks see a signed sender with an `@` in it in the same way. -/
theorem checks_signed {k : Key} {s t : Nat} {u v : Bytes} (hu : (0 : Byte) ∉ u)
    (hv : (0 : Byte) ∉ v) (hat : (64 : Byte) ∉ v) :
    let text := signature k s (u ++ 64 :: v) ++ 61 :: (u ++ 64 :: v)
    let slpos := byteRchr (signature k s (u ++ 64 :: v) ++ 61 :: u) 61
    let r := verify k t (text ++ [0]) slpos text.length
    checkbatv k t text = (r, if r = .ok then text.drop (slpos + 1) ++ [0] else text ++ [0]) ∧
    check_batv_sig k t (text ++ [0]) =
      (r, if r = .ok then text.drop (slpos + 1) ++ [0] else text ++ [0]) := by
  intro text slpos r
  have hglen := length_signature k s (u ++ 64 :: v)
  have hgnul := nul_notMem_signature k s (u ++ 64 :: v)
  have htext : text ++ [0] = (signature k s (u ++ 64 :: v) ++ 61 :: u) ++ 64 :: (v ++ 0 :: []) := by
    simp [text]
  -- the last `@` is that of the address, and the `=` before it the last one of its box
  have hsep : separator (text ++ [0]) = (text ++ [0], slpos) := by
    rw [htext, separator_at _ hv hat]
    · simp only [List.mem_append, List.mem_cons, not_or]
      exact ⟨hgnul, by decide, hu⟩
  have hlen : 17 ≤ text.length := by
    simp only [text, List.length_append, List.length_cons, hglen]
    omega
  have hprvs : (asc "prvs=").isPrefixOf (text ++ [0]) = true := by
    simp only [text, signature, List.append_assoc]
    rfl
  have hslpos : slpos + 1 ≤ text.length := by
    have hle : slpos ≤ (signature k s (u ++ 64 :: v) ++ 61 :: u).length := by
      rcases byteRchr_cases (signature k s (u ++ 64 :: v) ++ 61 :: u) 61 with ⟨_, h⟩ | ⟨_, _, h, _, h'⟩
      · exact Nat.le_of_eq h
      · simp only [slpos, h', h, List.length_append]
        omega
    refine Nat.le_trans (Nat.succ_le_succ hle) ?_
    simp only [text, List.length_append, List.length_cons]
    omega
  have htake : ((text ++ [0]).drop (slpos + 1)).take (text.length - (slpos + 1)) =
      text.drop (slpos + 1) := by
    rw [List.drop_append_of_le_length hslpos, ← List.length_drop, List.take_left]
  constructor
  · rw [checkbatv, if_pos ⟨hlen, hprvs⟩, hsep]
    simp only
    rw [show verify k t (text ++ [0]) slpos text.length = r from rfl, htake]
    cases r <;> rfl
  · rw [check_batv_sig, if_pos ⟨Nat.le_trans hlen (by simp), hprvs⟩, hsep]
    simp only [List.length_append, List.length_singleton, Nat.add_sub_cancel]
    rw [show verify k t (text ++ [0]) slpos text.length = r from rfl,
      List.drop_append_of_le_length hslpos]
    cases r <;> rfl

/-! ## How long a signature is good -/

/-- The days from `s` to `t`. -/
def age (s t : Nat) : Int := ((t / 86400 : Nat) : Int) - (s / 86400 : Nat)

/-- The number of days as `unsigned` is over the limit, in terms of the two day numbers. -/
theorem over_iff (k : Key) (s t : Nat) :
    Over k s t ↔
      if 0 ≤ k.batvkeystale then
        daynumber t < daynumber s ∨ k.batvkeystale < (daynumber t : Int) - daynumber s
      else daynumber t < daynumber s ∧ (daynumber s : Int) - daynumber t < -k.batvkeystale := by
  have hs := daynumber_lt s
  have ht := daynumber_lt t
  have hint := k.stale_int
  simp only [int32] at hint
  simp only [Over, unsignedInt]
  split
  · constructor <;> intro h <;> omega
  · constructor <;> intro h <;> omega

theorem verify_eq_stale_iff {k : Key} {s t : Nat} {sender rest : Bytes} {slpos len : Nat} :
    verify k t (signature k s sender ++ rest) slpos len = .stale ↔ Over k s t := by
  rw [verify_signature]
  constructor
  · intro h
    by_contra hover
    rw [if_neg hover] at h
    split at h <;> cases h
  · intro hover
    rw [if_pos hover]

/-- A signature that is not too old is good, with the sender behind it, exactly if the search
stops at the `=` of the signature. -/
theorem verify_signed_iff {k : Key} {s t : Nat} {u v : Bytes} :
    let sender := u ++ 64 :: v
    let text := signature k s sender ++ 61 :: sender
    let slpos := byteRchr (signature k s sender ++ 61 :: u) 61
    (verify k t (text ++ [0]) slpos text.length = .ok ∧ text.drop (slpos + 1) = sender) ↔
      ¬ Over k s t ∧ (61 : Byte) ∉ u := by
  intro sender text slpos
  have hg : (signature k s sender).length = 15 := length_signature k s sender
  have htext : text ++ [0] = signature k s sender ++ (61 :: sender ++ [0]) := by simp [text]
  have hlen : text.length = sender.length + 16 := by
    simp only [text, List.length_append, List.length_cons, hg]
    omega
  rw [htext]
  constructor
  · rintro ⟨hok, hdrop⟩
    constructor
    · intro hover
      rw [verify_eq_stale_iff.mpr hover] at hok
      cases hok
    · have hdl := congrArg List.length hdrop
      rw [List.length_drop, hlen] at hdl
      have hpos : 0 < sender.length := List.length_pos_of_mem (a := 64) (by simp [sender])
      exact (byteRchr_signed hg).mp (show slpos = 15 by omega)
  · rintro ⟨hover, hu⟩
    have hslpos : slpos = 15 := (byteRchr_signed hg).mpr hu
    have hdrop : text.drop (15 + 1) = sender := by
      rw [show text = (signature k s sender ++ [61]) ++ sender by simp [text]]
      exact List.drop_left' (by simp [hg])
    refine ⟨?_, hslpos ▸ hdrop⟩
    have hsender : ((signature k s sender ++ (61 :: sender ++ [0])).drop (slpos + 1)).take
        (text.length - slpos - 1) = sender := by
      rw [hslpos, ← htext, List.drop_append_of_le_length (by omega), hdrop, hlen]
      exact List.take_left' (by omega)
    rw [verify_signature, if_neg hover, hsender, if_pos (sameDigest_signature k s sender _)]

/-! ## The two checks -/

/-- A signature made at `s` and checked at `t`: within the period the sender comes back from
both checks, and past it, while the days can be told apart, both say so. -/
def Verified (k : Key) (sender : Bytes) (s t : Nat) : Prop :=
  (age s t ≤ k.batvkeystale →
    checkbatv k t (signbatv k s sender) = (.ok, sender ++ [0]) ∧
    check_batv_sig k t (signbatv k s sender ++ [0]) = (.ok, sender ++ [0])) ∧
  (k.batvkeystale < age s t → age s t < 1000 - k.batvkeystale →
    (checkbatv k t (signbatv k s sender)).1 = .stale ∧
    (check_batv_sig k t (signbatv k s sender ++ [0])).1 = .stale)

/-- When that is so: the local part has no `=`, and the day number has not wrapped round since
the day of the signature. (With a negative period, the other way about.) -/
def ReadBack (k : Key) (sender : Bytes) (s t : Nat) : Prop :=
  (age s t ≤ k.batvkeystale →
    (61 : Byte) ∉ sender.take (byteRchr sender 64) ∧ daynumber s ≤ daynumber t) ∧
  (k.batvkeystale < 0 → age s t < 1000 - k.batvkeystale →
    daynumber t < daynumber s ∧ (daynumber s : Int) - daynumber t < -k.batvkeystale)

theorem over_within {k : Key} {s t : Nat} (hst : s ≤ t) (h : age s t ≤ k.batvkeystale) :
    ¬ Over k s t ↔ daynumber s ≤ daynumber t := by
  have hdiv : s / 86400 ≤ t / 86400 := Nat.div_le_div_right hst
  rw [over_iff]
  simp only [age, daynumber] at h ⊢
  rw [if_pos (by omega)]
  constructor <;> intro h <;> omega

theorem over_past {k : Key} {s t : Nat} (hst : s ≤ t) (h : k.batvkeystale < age s t)
    (h' : age s t < 1000 - k.batvkeystale) :
    Over k s t ↔ k.batvkeystale < 0 →
      daynumber t < daynumber s ∧ (daynumber s : Int) - daynumber t < -k.batvkeystale := by
  have hdiv : s / 86400 ≤ t / 86400 := Nat.div_le_div_right hst
  rw [over_iff]
  simp only [age, daynumber] at h h' ⊢
  by_cases hneg : k.batvkeystale < 0
  · rw [if_neg (by omega)]
    exact ⟨fun h _ => h, fun h => h hneg⟩
  · rw [if_pos (by omega)]
    exact ⟨fun _ hlt => absurd hlt hneg, fun _ => by omega⟩

theorem verified_iff {k : Key} {sender : Bytes} {s t : Nat} (hnul : (0 : Byte) ∉ sender)
    (hat : (64 : Byte) ∈ sender) (hprvs : (asc "prvs=").isPrefixOf sender = false)
    (hsb : (asc "sb*-").isPrefixOf sender = false) (hst : s ≤ t) :
    Verified k sender s t ↔ ReadBack k sender s t := by
  obtain ⟨hno, -⟩ | ⟨u, v, rfl, hv, hpos⟩ := byteRchr_cases sender 64
  · exact absurd hat hno
  have hage : 0 ≤ age s t := by
    have hdiv : s / 86400 ≤ t / 86400 := Nat.div_le_div_right hst
    simp only [age]
    omega
  simp only [List.mem_append, List.mem_cons, not_or] at hnul
  obtain ⟨hsend, hcheck⟩ := checks_signed (k := k) (s := s) (t := t) hnul.1 hnul.2.2 hv
  have hsign := verify_signed_iff (k := k) (s := s) (t := t) (u := u) (v := v)
  simp only at hsend hcheck hsign
  have hstale : verify k t (signature k s (u ++ 64 :: v) ++ 61 :: (u ++ 64 :: v) ++ [0])
      (byteRchr (signature k s (u ++ 64 :: v) ++ 61 :: u) 61)
      (signature k s (u ++ 64 :: v) ++ 61 :: (u ++ 64 :: v)).length = .stale ↔ Over k s t := by
    rw [List.append_assoc]
    exact verify_eq_stale_iff
  rw [Verified, ReadBack, signbatv_eq hprvs hsb, hsend, hcheck, hpos, List.take_left]
  refine and_congr (imp_congr_right fun hin => ?_) ?_
  · rw [and_self, ← over_within hst hin, and_comm, ← hsign, Prod.mk.injEq]
    constructor
    · rintro ⟨hr, htext⟩
      rw [if_pos hr] at htext
      exact ⟨hr, List.append_cancel_right htext⟩
    · rintro ⟨hr, htext⟩
      rw [if_pos hr, htext]
      exact ⟨hr, rfl⟩
  · rw [and_self, hstale]
    constructor
    · intro h hneg hpast
      exact (over_past hst (by omega) hpast).mp (h (by omega) hpast) hneg
    · intro h hin hpast
      exact (over_past hst hin hpast).mpr fun hneg => h hneg hpast

/-! ## An address that is refused -/

/-- A check that does not take the signature off leaves the address, and its NUL, as it was. -/
def Kept (k : Key) (now : Nat) (a : Bytes) : Prop :=
  ((checkbatv k now a).1 ≠ .ok → (checkbatv k now a).2 = a ++ [0]) ∧
  ((check_batv_sig k now (a ++ [0])).1 ≠ .ok → (check_batv_sig k now (a ++ [0])).2 = a ++ [0])

/-- `a`, a text behind `prvs=` that has no `@`, is signed: format, day and digest are right, the
digest being over what follows the last `=`. -/
structure Signed (k : Key) (now : Nat) (a : Bytes) : Prop where
  format : a[5]? = some 48
  date : (scanDecimal ((a.drop 6).take 3)).1 = 3
  fresh : unsignedInt (daynumber now - (scanDecimal ((a.drop 6).take 3)).2) ≤
    unsignedInt k.batvkeystale
  digest : ∀ i < BATVLEN, hexPair a (9 + 2 * i) =
    (k.md5 ((a.drop 5).take 4 ++ a.drop (byteRchr a 61 + 1) ++ k.batvkey))[i]?.map UInt8.toNat

theorem hexPair_append {a : Bytes} (b : Bytes) {i : Nat} (h : i + 1 < a.length) :
    hexPair (a ++ b) i = hexPair a i := by
  simp only [hexPair, List.getElem?_append_left h,
    List.getElem?_append_left (Nat.lt_of_succ_lt h)]

/-- The checks of an address without an `@`. -/
theorem verify_eq_ok_iff {k : Key} {now : Nat} {a : Bytes} (hlen : 16 ≤ a.length)
    (hslpos : byteRchr a 61 + 1 ≤ a.length) :
    verify k now (a ++ [64]) (byteRchr a 61) a.length = .ok ↔ Signed k now a := by
  have hdate : ((a ++ [64]).drop 5).take 4 = (a.drop 5).take 4 := by
    rw [List.drop_append_of_le_length (by omega),
      List.take_append_of_le_length (by rw [List.length_drop]; omega)]
  have hdigits : ((a.drop 5).take 4).drop 1 = (a.drop 6).take 3 := by
    rw [List.drop_take, List.drop_drop]
  have htext : ((a ++ [64]).drop (byteRchr a 61 + 1)).take (a.length - byteRchr a 61 - 1) =
      a.drop (byteRchr a 61 + 1) := by
    rw [List.drop_append_of_le_length hslpos, Nat.sub_sub, ← List.length_drop, List.take_left]
  have hsame : ∀ d, sameDigest (a ++ [64]) d = true ↔
      ∀ i < BATVLEN, hexPair a (9 + 2 * i) = d[i]?.map UInt8.toNat := by
    intro d
    simp only [sameDigest, List.all_eq_true, List.mem_range, beq_iff_eq]
    refine forall₂_congr fun i hi => ?_
    rw [hexPair_append _ (by simp only [BATVLEN] at hi; omega)]
  have hhead : ((a.drop 5).take 4).head? = a[5]? := by
    rw [List.head?_take, if_neg (by decide), List.head?_drop]
  simp only [verify, hdate, hdigits, htext, hhead]
  constructor
  · intro h
    split at h
    · cases h
    split at h
    · cases h
    split at h
    · cases h
    split at h
    · rename_i hformat hscan hfresh hd
      exact ⟨not_not.mp hformat, not_not.mp hscan, Int.not_lt.mp hfresh, (hsame _).mp hd⟩
    · cases h
  · intro h
    rw [if_neg (not_not.mpr h.format), if_neg (not_not.mpr h.date),
      if_neg (Int.not_lt.mpr h.fresh), if_pos ((hsame _).mpr h.digest)]

theorem prvs_append_nul {a : Bytes} (h : 5 ≤ a.length) :
    (asc "prvs=").isPrefixOf (a ++ [0]) = (asc "prvs=").isPrefixOf a := by
  rw [Bool.eq_iff_iff, List.isPrefixOf_iff_prefix, List.isPrefixOf_iff_prefix]
  constructor
  · intro hp
    exact List.prefix_of_prefix_length_le hp (List.prefix_append a [0]) h
  · exact List.prefix_append_of_prefix

/-- An address that does not look signed is not touched. -/
theorem kept_unsigned {k : Key} {now : Nat} {a : Bytes}
    (h : ¬ (11 + 2 * BATVLEN ≤ (a ++ [0]).length ∧ (asc "prvs=").isPrefixOf (a ++ [0]) = true)) :
    Kept k now a := by
  have hlonger : 11 + 2 * BATVLEN ≤ a.length → 11 + 2 * BATVLEN ≤ (a ++ [0]).length := by
    rw [List.length_append]
    exact fun h => Nat.le_add_right_of_le h
  rw [Kept, checkbatv, check_batv_sig, if_neg fun h' => h ⟨hlonger h'.1, h'.2⟩, if_neg h]
  exact ⟨fun _ => rfl, fun _ => rfl⟩

/-- Nor is one whose separator is an `@`: it is put back. -/
theorem kept_at {k : Key} {now : Nat} {u v : Bytes} (ha : (0 : Byte) ∉ u ++ 64 :: v)
    (hv : (64 : Byte) ∉ v) : Kept k now (u ++ 64 :: v) := by
  have hsep : separator (u ++ 64 :: v ++ [0]) = (u ++ 64 :: v ++ [0], byteRchr u 61) := by
    simp only [List.mem_append, List.mem_cons, not_or] at ha
    have h := separator_at (w := []) ha.1 ha.2.2 hv
    simpa using h
  by_cases hlooks : 11 + 2 * BATVLEN ≤ (u ++ 64 :: v ++ [0]).length ∧
      (asc "prvs=").isPrefixOf (u ++ 64 :: v ++ [0]) = true
  · constructor
    · rw [checkbatv]
      split
      · rw [hsep]
        simp only
        split
        · exact fun h => absurd rfl h
        · exact fun _ => rfl
      · exact fun _ => rfl
    · rw [check_batv_sig, if_pos hlooks, hsep]
      simp only
      split
      · exact fun h => absurd rfl h
      · exact fun _ => rfl
  · exact kept_unsigned hlooks

/-- Without an `@` the NUL at the end is overwritten, and only a good signature saves the
address. -/
theorem kept_nul {k : Key} {now : Nat} {a : Bytes} (ha : (0 : Byte) ∉ a) (hat : (64 : Byte) ∉ a)
    (hlooks : 11 + 2 * BATVLEN ≤ (a ++ [0]).length ∧
      (asc "prvs=").isPrefixOf (a ++ [0]) = true) :
    Kept k now a ↔ verify k now (a ++ [64]) (byteRchr a 61) a.length = .ok := by
  have hne : a ++ [64] ≠ a ++ [0] := fun h => absurd (List.append_cancel_left h) (by decide)
  rw [Kept, check_batv_sig, if_pos hlooks, separator_nul ha hat]
  simp only [List.length_append, List.length_singleton, Nat.add_sub_cancel]
  constructor
  · rintro ⟨-, h⟩
    cases hv : verify k now (a ++ [64]) (byteRchr a 61) a.length with
    | ok => rfl
    | nosignature =>
        rw [hv] at h
        exact absurd (h nofun) hne
    | badformat =>
        rw [hv] at h
        exact absurd (h nofun) hne
    | stale =>
        rw [hv] at h
        exact absurd (h nofun) hne
  · intro hr
    constructor
    · rw [checkbatv]
      split
      · rw [separator_nul ha hat]
        simp only [hr]
        exact fun h => absurd rfl h
      · exact fun _ => rfl
    · rw [hr]
      exact fun h => absurd rfl h

theorem kept_iff {k : Key} {now : Nat} {a : Bytes} (ha : (0 : Byte) ∉ a) :
    Kept k now a ↔ (64 : Byte) ∈ a ∨ a.length < 16 ∨ (asc "prvs=").isPrefixOf a = false ∨
      Signed k now a := by
  rcases Nat.lt_or_ge a.length 16 with hlen | hlen
  · -- too short for a signature
    have hshort : ¬ 11 + 2 * BATVLEN ≤ (a ++ [0]).length := by
      simp only [BATVLEN, List.length_append, List.length_singleton]
      omega
    exact iff_of_true (kept_unsigned fun h => hshort h.1) (Or.inr (Or.inl hlen))
  have hlong : 11 + 2 * BATVLEN ≤ (a ++ [0]).length := by
    simp only [BATVLEN, List.length_append, List.length_singleton]
    omega
  cases hprvs : (asc "prvs=").isPrefixOf a with
  | false =>
      have hother : (asc "prvs=").isPrefixOf (a ++ [0]) ≠ true := by
        rw [prvs_append_nul (by omega), hprvs]
        exact Bool.false_ne_true
      exact iff_of_true (kept_unsigned fun h => hother h.2) (Or.inr (Or.inr (Or.inl rfl)))
  | true =>
      have hlooks := prvs_append_nul (by omega : 5 ≤ a.length)
      rw [hprvs] at hlooks
      obtain ⟨hat, -⟩ | ⟨u, v, rfl, hv, -⟩ := byteRchr_cases a 64
      · -- the NUL is overwritten
        have hslpos : byteRchr a 61 + 1 ≤ a.length := by
          obtain ⟨hno, -⟩ | ⟨u, v, rfl, -, hpos⟩ := byteRchr_cases a 61
          · obtain ⟨w, rfl⟩ := List.isPrefixOf_iff_prefix.mp hprvs
            exact absurd (List.mem_append_left w (show (61 : Byte) ∈ asc "prvs=" by decide)) hno
          · rw [hpos]
            simp
        rw [kept_nul ha hat ⟨hlong, hlooks⟩, verify_eq_ok_iff hlen hslpos]
        simp [hat, Nat.not_lt.mpr hlen]
      · exact iff_of_true (kept_at ha hv) (Or.inl (by simp))

/-- **Signed senders.** The signature of a sender is good for the period, and then too old, in
exactly the cases of `ReadBack`; and a check that fails leaves an address as it was, unless
it is long enough for a signature, begins like one and has no `@`. -/
theorem signatures_verify (k : Key) (sender a : Bytes) (s t now : Nat) (hnul : (0 : Byte) ∉ sender)
    (hat : (64 : Byte) ∈ sender) (hprvs : (asc "prvs=").isPrefixOf sender = false)
    (hsb : (asc "sb*-").isPrefixOf sender = false) (hst : s ≤ t) (ha : (0 : Byte) ∉ a) :
    (Verified k sender s t ↔ ReadBack k sender s t) ∧
    (Kept k now a ↔ (64 : Byte) ∈ a ∨ a.length < 16 ∨ (asc "prvs=").isPrefixOf a = false ∨
      Signed k now a) :=
  ⟨verified_iff hnul hat hprvs hsb hst, kept_iff ha⟩

/-- A key for the examples; the digest is constant. -/
def testKey : Key where
  batvkey := asc "key"
  md5 _ := List.replicate 16 171
  md5_length _ := rfl

theorem signatures_verify_user :
    (Verified testKey (asc "user@example.org") 0 86400 ↔
      ReadBack testKey (asc "user@example.org") 0 86400) ∧
    (Kept testKey 0 (asc "prvs=0000ababab=") ↔ (64 : Byte) ∈ asc "prvs=0000ababab=" ∨
      (asc "prvs=0000ababab=").length < 16 ∨
      (asc "prvs=").isPrefixOf (asc "prvs=0000ababab=") = false ∨
      Signed testKey 0 (asc "prvs=0000ababab=")) :=
  signatures_verify testKey _ _ 0 86400 0 (by decide) (by decide) (by decide) (by decide)
    (by decide) (by decide)

/-- A sender with `=` in its local part, which is signed and checked at once, comes back without
what is in front of that `=`; on day 999 of a thousand a signature is good for that day only; and
the check of an address without `@` overwrites its NUL. -/
theorem signatures_lost :
    ¬ Verified testKey (asc "list-user=example.com@example.org") 0 0 ∧
    ¬ Verified testKey (asc "user@example.org") (999 * 86400) (1000 * 86400) ∧
    ¬ Kept testKey 0 (asc "prvs=0000000000=user") := by
  refine ⟨fun h => ?_, fun h => ?_, fun h => ?_⟩
  · exact absurd (h.1 (by decide)).2 (by decide +kernel)
  · exact absurd (h.1 (by decide)).2 (by decide +kernel)
  · exact absurd (h.2 (by decide +kernel)) (by decide +kernel)

end IndimailMta.Batv
