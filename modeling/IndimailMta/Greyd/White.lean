import IndimailMta.ControlList
import IndimailMta.Access.Hostaccess
import IndimailMta.Ip.RoundTrip
import IndimailMta.Lib.Words

/-!
# The greylist's whitelist

`is_white` asks `ip_match`, which has three sources: a cdb file, the lines of a control file, and
the ranges and tokens among these lines. Where the daemon was given a whitelist, the cdb file is
asked and its answer returned: the lines, which were read at the start and at each SIGHUP, are not
looked at. Without a whitelist there are no lines.

A mask is read from the second byte of its line. The shifts are those of 32 bits; a shift by another
count than 0 to 31 has no value.
-/

namespace IndimailMta.Greyd

open IndimailMta ControlList Scan Access Tcprules Ip Words

/-- What `cdb_matchaddr` finds in the place of its file. -/
inductive Cdb where
  | absent
  | unreadable
  | broken
  | keys (has : Bytes → Bool)

def Cdb.has : Cdb → Bytes → Bool
  | .keys has, ip => has ip
  | _, _ => false

/-- The control directory: `control_readfile` for a name, and the cdb file of a name. -/
structure Control where
  file : Bytes → Hostaccess.ControlFile
  cdb : Bytes → Cdb

variable (tx : Texts) (net : Net)

/-! ## The code -/

inductive Outcome where
  | returned (r : Int)
  | died
  deriving DecidableEq, Repr

/-- `whitefn`, `whitelistok`, and the lines of `whitelist`, which are those of `mapwhite`. -/
structure White where
  whitefn : Option Bytes
  whitelistok : Bool
  whitelist : List Bytes
  deriving DecidableEq, Repr

/-- `whitelist_init`; no value where it dies. -/
def whitelist_init (ctl : Control) (arg : Bytes) : Option White :=
  match ctl.file arg with
  | .unreadable => none
  | .absent => some ⟨some arg, false, []⟩
  | .lines ls => some ⟨some arg, true, ls⟩

/-- What `main` does with its option `-w`. -/
def start (ctl : Control) : Option Bytes → Option White
  | none => some ⟨none, false, []⟩
  | some arg => whitelist_init ctl arg

/-- `sighup` -/
def sighup (ctl : Control) (st : White) : Option White :=
  match st.whitelistok, st.whitefn with
  | true, some arg => whitelist_init ctl arg
  | _, _ => some st

/-- The codes of `cdb_matchaddr` other than 0 and 1 make `ip_match` die. -/
def cdb_matchaddr (cdb : Cdb) (addr : Bytes) : Option Int :=
  if addr = [] then some 0
  else
    match cdb with
    | .absent => some 0
    | .unreadable => none
    | .broken => none
    | .keys has => some (if has addr then 1 else 0)

/-- Case does not matter. -/
def constmap (lines : List Bytes) (s : Bytes) : Bool :=
  lines.any fun l => caseLower l = caseLower s

def BUILD_IP (ip : Bytes) : BitVec 32 :=
  (BitVec.ofNat 32 (ip.getD 0 0).toNat <<< 24 ||| BitVec.ofNat 32 (ip.getD 1 0).toNat <<< 16) |||
    BitVec.ofNat 32 (ip.getD 2 0).toNat <<< 8 ||| BitVec.ofNat 32 (ip.getD 3 0).toNat

/-- `1 << n` -/
def oneShifted (n : Int) : Option (BitVec 32) :=
  if 0 ≤ n ∧ n ≤ 31 then some (1#32 <<< n.toNat) else none

structure Netspec where
  min : BitVec 32
  max : BitVec 32
  deriving DecidableEq, Repr

/-- `cidr2IPrange`; -1 where it cannot read the address. -/
def cidr2IPrange (ipaddr : Bytes) (mask : Int) : Option (Except Int Netspec) :=
  match ip4_scan tx ipaddr with
  | none => some (.error (-1))
  | some (_, ip) => do
      let one ← oneShifted (32 - mask)
      let min := BUILD_IP ip &&& ~~~ (one - 1#32)
      some (.ok ⟨min, min ||| (one - 1#32)⟩)

structure St where
  content : Bytes
  len : Nat
  deriving DecidableEq, Repr

/-- The body of the loop in `ip_match`. -/
def turn (ipaddr : Bytes) (st : St) : Option (Except Int St) := do
  let ptr ← textAt st.content st.len
  match ptr.dropWhile (· ≠ 47) with
  | [] =>
      let r ← matchinet net ipaddr ptr false
      if r ≠ 0 then some (.error 1) else some (.ok { st with len := st.len + (ptr.length + 1) })
  | _ :: _ =>
      let x := (ptr.takeWhile (· ≠ 47)).length
      let content := st.content.set (st.len + x) 0
      let addr ← textAt content st.len
      let mask ← textAt content (st.len + 1)
      match ← cidr2IPrange tx addr (net.scan_int mask) with
      | .error r => some (.error r)
      | .ok netspec =>
          let content := content.set (st.len + x) 47
          match ip4_scan tx ipaddr with
          | none => some (.error 0)
          | some (_, ip) =>
              let tmp_ip := BUILD_IP ip
              if tmp_ip = netspec.min ∨ tmp_ip = netspec.max ∨
                  netspec.min < tmp_ip ∧ tmp_ip < netspec.max then some (.error 1)
              else some (.ok ⟨content, st.len + (ptr.length + 1)⟩)

def more (st : St) : Bool := st.len < st.content.length

def ip_match (ctl : Control) (st : White) (ipaddr : Bytes) : Option Outcome :=
  match st.whitefn with
  | some whitefn =>
      match cdb_matchaddr (ctl.cdb whitefn) ipaddr with
      | some x => some (.returned x)
      | none => some .died
  | none =>
      if st.whitelistok = false then some (.returned 0)
      else if constmap st.whitelist ipaddr then some (.returned 1)
      else
        let content := nuls st.whitelist
        match loop more (turn tx net ipaddr) content.length ⟨content, 0⟩ with
        | none => none
        | some (.error r) => some (.returned r)
        | some (.ok _) => some (.returned 0)

def is_white (ctl : Control) (st : White) (ip : Bytes) : Option Outcome :=
  (ip_match tx net ctl st ip).map fun
    | .returned 1 => .returned 1
    | .returned 0 => .returned 0
    | _ => .died

/-! ## What the lines say -/

/-- The address is in the range `t/u` of the line: the first bits are equal, as many as the mask
says. -/
def InRange (line ip : Bytes) : Prop :=
  ∃ t bs u xs, line = t ++ 47 :: u ∧ Ip4 t bs ∧ Ip4 ip xs ∧ u ≠ [] ∧
    (∀ b ∈ u, isDigit b = true) ∧ digitsValue u ≤ 32 ∧
    ofOctets bs / 2 ^ (32 - digitsValue u) = ofOctets xs / 2 ^ (32 - digitsValue u)

/-- A line has the address. -/
def Lists (line ip : Bytes) : Prop :=
  line = ip ∨ InRange line ip ∨ (47 : Byte) ∉ line ∧ standsFor net line ip = true

/-- The cdb file has the address. -/
def InCdb (ctl : Control) (st : White) (ip : Bytes) : Prop :=
  ∃ fn, st.whitefn = some fn ∧ (ctl.cdb fn).has ip = true

/-- What the whitelist lists, in the cdb file and in its lines. -/
def Listed (ctl : Control) (st : White) (ip : Bytes) : Prop :=
  InCdb ctl st ip ∨ ∃ line ∈ st.whitelist, Lists net line ip

/-! ## The daemon -/

/-- What the daemon has read, with whatever is in the control directory at each time. -/
inductive Reachable : White → Prop
  | start (ctl : Control) (arg : Option Bytes) {st : White} (h : start ctl arg = some st) :
      Reachable st
  | sighup (ctl : Control) {st st' : White} (hst : Reachable st) (h : sighup ctl st = some st') :
      Reachable st'

/-- Without a name there are no lines. -/
def Named (st : White) : Prop :=
  (st.whitefn = none → st.whitelistok = false) ∧ (st.whitelistok = false → st.whitelist = [])

theorem whitelist_init_named {ctl : Control} {arg : Bytes} {st : White}
    (h : whitelist_init ctl arg = some st) : Named st := by
  unfold whitelist_init at h
  split at h
  · cases h
  · cases h
    exact ⟨fun _ => rfl, fun _ => rfl⟩
  · cases h
    constructor
    · intro hfn
      cases hfn
    · intro hok
      cases hok

theorem Reachable.named {st : White} (h : Reachable st) : Named st := by
  induction h with
  | start ctl arg h =>
      cases arg with
      | none =>
          cases h
          exact ⟨fun _ => rfl, fun _ => rfl⟩
      | some arg => exact whitelist_init_named h
  | sighup ctl hst h ih =>
      unfold Greyd.sighup at h
      split at h
      · exact whitelist_init_named h
      · cases h
        exact ih

variable {tx net}

theorem is_white_iff_inCdb {ctl : Control} {st : White} (hst : Reachable st) {ip : Bytes}
    (hip : ip ≠ []) : is_white tx net ctl st ip = some (.returned 1) ↔ InCdb ctl st ip := by
  unfold is_white ip_match InCdb
  cases hfn : st.whitefn with
  | none => simp [hst.named.1 hfn]
  | some fn =>
      cases hcdb : ctl.cdb fn with
      | keys has => cases hh : has ip <;> simp [cdb_matchaddr, hip, hcdb, hh, Cdb.has]
      | absent => simp [cdb_matchaddr, hip, hcdb, Cdb.has]
      | unreadable => simp [cdb_matchaddr, hip, hcdb, Cdb.has]
      | broken => simp [cdb_matchaddr, hip, hcdb, Cdb.has]

/-! ## The lines -/

theorem toNat_BUILD_IP {ip : Bytes} (h : ip.length = 4) : (BUILD_IP ip).toNat = ofOctets ip := by
  match ip, h with
  | [a, b, c, d], _ => exact toNat_octets a b c d

/-- The range of a mask that can be shifted. -/
theorem cidr2IPrange_eq {addr bs : Bytes} {mask : Int} {i : Nat}
    (hscan : ip4_scan tx addr = some (i, bs)) (h1 : 1 ≤ mask) (h32 : mask ≤ 32) :
    cidr2IPrange tx addr mask =
      some (.ok ⟨BUILD_IP bs &&& ~~~ low 32 (32 - mask).toNat,
        (BUILD_IP bs &&& ~~~ low 32 (32 - mask).toNat) ||| low 32 (32 - mask).toNat⟩) := by
  rw [cidr2IPrange, hscan]
  simp only [oneShifted, if_pos (show 0 ≤ 32 - mask ∧ 32 - mask ≤ 31 by omega),
    Option.bind_eq_bind, Option.bind_some, low]

theorem in_range_iff (x min max : BitVec 32) (h : min ≤ max) :
    (x = min ∨ x = max ∨ min < x ∧ x < max) ↔ min ≤ x ∧ x ≤ max := by
  simp only [BitVec.le_def, BitVec.lt_def, ← BitVec.toNat_inj] at h ⊢
  omega

/-- In front of a line. -/
def At (post : List Bytes) (st : St) : Prop :=
  ∃ pre, st.content = nuls (pre ++ post) ∧ st.len = (nuls pre).length

theorem At.next {line : Bytes} {post : List Bytes} {st : St} (h : At (line :: post) st) :
    At post { st with len := st.len + (line.length + 1) } := by
  obtain ⟨pre, hcontent, hlen⟩ := h
  refine ⟨pre ++ [line], by simp [hcontent], ?_⟩
  calc st.len + (line.length + 1) = (nuls pre).length + line.length + 1 := by rw [hlen, Nat.add_assoc]
    _ = (nuls (pre ++ [line])).length := (length_nuls_snoc pre line).symm

/-- A range whose mask is also read from its second byte. -/
structure Read (net : Net) (line t bs u : Bytes) : Prop where
  eq : line = t ++ 47 :: u
  ip4 : Ip4 t bs
  mask_eq : net.scan_int t.tail = (digitsValue u : Int)
  mask_pos : 1 ≤ digitsValue u
  mask_le : digitsValue u ≤ 32

/-- The last bits, which a mask of `u` leaves. -/
def tailBits (u : Bytes) : Nat := 32 - digitsValue u

/-- What a line says about an address. -/
def answer (tx : Texts) (net : Net) (ip xs line : Bytes) : Option Int :=
  match line.dropWhile (· ≠ 47) with
  | [] => if standsFor net line ip then some 1 else none
  | _ :: u =>
      match ip4_scan tx (line.takeWhile (· ≠ 47)) with
      | none => some (-1)
      | some (_, bs) =>
          if ofOctets xs / 2 ^ tailBits u = ofOctets bs / 2 ^ tailBits u then some 1 else none

theorem takeWhile_slash {t u : Bytes} (h : (47 : Byte) ∉ t) :
    (t ++ 47 :: u).takeWhile (· ≠ 47) = t ∧ (t ++ 47 :: u).dropWhile (· ≠ 47) = 47 :: u := by
  have hp : ∀ b ∈ t, (decide (b ≠ 47)) = true := fun b hb => decide_eq_true fun heq => h (heq ▸ hb)
  rw [List.takeWhile_append_of_pos hp, List.dropWhile_append_of_pos hp]
  simp

theorem dotted_slash {t bs : Bytes} (h : Dotted t bs) : (47 : Byte) ∉ t := by
  induction h with
  | one h => exact fun hm => absurd (h.digits 47 hm) (by decide)
  | cons h hr ih =>
      rw [List.mem_append, List.mem_cons, not_or, not_or]
      exact ⟨fun hm => absurd (h.digits 47 hm) (by decide), by decide, ih⟩

/-- A line with a range. -/
theorem turn_range {ip xs line t bs u : Bytes} {post : List Bytes} {st : St} (hip : Ip4 ip xs)
    (h0 : (0 : Byte) ∉ line) (hread : Read net line t bs u) (hat : At (line :: post) st) :
    Finds (At post) Eq (turn tx net ip st) (answer tx net ip xs line) := by
  obtain ⟨pre, hcontent, hlen⟩ := id hat
  obtain ⟨htake, hdrop⟩ := @takeWhile_slash t u (dotted_slash hread.ip4.1)
  have hptr : textAt st.content st.len = some line := by
    rw [hcontent, hlen, textAt_line pre post h0]
  have h0t : (0 : Byte) ∉ t := fun hm => h0 (by rw [hread.eq]; simp [hm])
  have hcut : st.content.set (st.len + t.length) 0 = nuls (pre ++ t :: u :: post) := by
    rw [hcontent, hlen, hread.eq, set_within, nuls_cut]
  have hback : (nuls (pre ++ t :: u :: post)).set (st.len + t.length) 47 = st.content := by
    rw [← hcut, List.set_set, hcontent, hlen, hread.eq, set_within]
  have haddr : textAt (nuls (pre ++ t :: u :: post)) st.len = some t := by
    rw [hlen, textAt_line pre (u :: post) h0t]
  have hpos : 1 ≤ t.length := by
    obtain ⟨v, b, rest, -, rfl, x, w, rfl⟩ := hread.ip4.head
    simp
  have hmask : textAt (nuls (pre ++ t :: u :: post)) (st.len + 1) = some t.tail := by
    rw [hlen, textAt_within pre (u :: post) h0t hpos, List.drop_one]
  have hscan : ip4_scan tx t = some (t.length, bs) := by
    have := @ip4_scan_ip4 tx _ [] _ hread.ip4 (by simp)
    rwa [List.append_nil] at this
  have hxs : ip4_scan tx ip = some (ip.length, xs) := by
    have := @ip4_scan_ip4 tx _ [] _ hip (by simp)
    rwa [List.append_nil] at this
  have hrange := @cidr2IPrange_eq tx _ _ (digitsValue u : Int) _ hscan
    (by have := hread.mask_pos; omega) (by have := hread.mask_le; omega)
  have hbits : (32 - (digitsValue u : Int)).toNat = tailBits u := by
    unfold tailBits
    omega
  have hlt : tailBits u < 32 := by
    have := hread.mask_pos
    unfold tailBits
    omega
  rw [hbits] at hrange
  have hin : ∀ netspec : Netspec,
      netspec = ⟨BUILD_IP bs &&& ~~~ low 32 (tailBits u),
        (BUILD_IP bs &&& ~~~ low 32 (tailBits u)) ||| low 32 (tailBits u)⟩ →
      ((BUILD_IP xs = netspec.min ∨ BUILD_IP xs = netspec.max ∨
        netspec.min < BUILD_IP xs ∧ BUILD_IP xs < netspec.max) ↔
      ofOctets xs / 2 ^ tailBits u = ofOctets bs / 2 ^ tailBits u) := by
    rintro netspec rfl
    have hle : BUILD_IP bs &&& ~~~ low 32 (tailBits u) ≤
        (BUILD_IP bs &&& ~~~ low 32 (tailBits u)) ||| low 32 (tailBits u) := by
      rw [BitVec.le_def, toNat_last _ hlt, toNat_first _ hlt]
      exact Nat.le_add_right _ _
    rw [in_range_iff _ _ _ hle, between_iff _ _ hlt, toNat_BUILD_IP hip.2,
      toNat_BUILD_IP hread.ip4.2]
  have hline : line.takeWhile (· ≠ 47) = t ∧ line.dropWhile (· ≠ 47) = 47 :: u := by
    rw [hread.eq]
    exact ⟨htake, hdrop⟩
  simp only [turn, answer, hptr, hline, hcut, hback, haddr, hmask, hread.mask_eq, hrange, hscan, hxs,
    Option.bind_eq_bind, Option.bind_some]
  rw [if_congr (hin _ rfl) rfl rfl]
  by_cases heq : ofOctets xs / 2 ^ tailBits u = ofOctets bs / 2 ^ tailBits u
  · rw [if_pos heq, if_pos heq]
    rfl
  · rw [if_neg heq, if_neg heq]
    exact hat.next

/-- A line with a token. -/
theorem turn_token {ip xs line : Bytes} {post : List Bytes} {st : St} (hip : IpText ip)
    (h0 : (0 : Byte) ∉ line) (hline : (47 : Byte) ∉ line) (hcomp : Comparable net line ip)
    (hat : At (line :: post) st) :
    Finds (At post) Eq (turn tx net ip st) (answer tx net ip xs line) := by
  obtain ⟨pre, hcontent, hlen⟩ := id hat
  have hptr : textAt st.content st.len = some line := by
    rw [hcontent, hlen, textAt_line pre post h0]
  have hdrop : line.dropWhile (· ≠ 47) = [] :=
    List.dropWhile_eq_nil_iff.mpr fun b hb => decide_eq_true fun heq => hline (heq ▸ hb)
  simp only [turn, answer, hptr, hdrop, matchinet_eq hip hcomp, Option.bind_eq_bind,
    Option.bind_some]
  cases standsFor net line ip with
  | true => rfl
  | false => exact hat.next

/-- A line that the loop can look at: a range whose mask is also read from its second byte, or a
token that can be compared. -/
def Legible (net : Net) (ip line : Bytes) : Prop :=
  (∃ t bs u, Read net line t bs u ∧ u ≠ [] ∧ ∀ b ∈ u, isDigit b = true) ∨
    (47 : Byte) ∉ line ∧ Comparable net line ip

theorem ip4_unique (tx : Texts) {t bs cs : Bytes} (h : Ip4 t bs) (h' : Ip4 t cs) : bs = cs := by
  have h1 := @ip4_scan_ip4 tx _ [] _ h (by simp)
  have h2 := @ip4_scan_ip4 tx _ [] _ h' (by simp)
  rw [h1] at h2
  exact (Prod.mk.inj (Option.some.inj h2)).2

/-- The line says 1 where it has the address, and nothing where not. -/
def Says (tx : Texts) (net : Net) (ip xs line : Bytes) : Prop :=
  (answer tx net ip xs line = some 1 ↔ Lists net line ip) ∧
    ∀ r, answer tx net ip xs line = some r → r = 1

theorem says_of_ite {ip xs line : Bytes} {P : Prop} [Decidable P] (hl : Lists net line ip ↔ P)
    (ha : answer tx net ip xs line = if P then some 1 else none) : Says tx net ip xs line := by
  rw [Says, ha, hl]
  by_cases hP : P <;> simp [hP]

/-- A range says what it lists. -/
theorem says_range {ip xs line t bs u : Bytes} (hip : Ip4 ip xs)
    (hread : Read net line t bs u) (hne : u ≠ []) (hd : ∀ b ∈ u, isDigit b = true) :
    Says tx net ip xs line := by
  obtain ⟨htake, hdrop⟩ := @takeWhile_slash t u (dotted_slash hread.ip4.1)
  have hscan : ip4_scan tx t = some (t.length, bs) := by
    have := @ip4_scan_ip4 tx _ [] _ hread.ip4 (by simp)
    rwa [List.append_nil] at this
  have hslash : (47 : Byte) ∈ line := by
    rw [hread.eq]
    simp
  have hlists : Lists net line ip ↔
      ofOctets xs / 2 ^ tailBits u = ofOctets bs / 2 ^ tailBits u := by
    constructor
    · rintro (rfl | ⟨t', bs', u', xs', hline, ht', hip', -, -, -, heq⟩ | ⟨hno, -⟩)
      · exact absurd hslash (dotted_slash hip.1)
      · obtain ⟨htake', hdrop'⟩ := @takeWhile_slash t' u' (dotted_slash ht'.1)
        rw [← hline, hread.eq] at htake' hdrop'
        obtain rfl : t = t' := htake.symm.trans htake'
        obtain rfl : u = u' := (List.cons.inj (hdrop.symm.trans hdrop')).2
        rw [ip4_unique tx hip hip', ip4_unique tx hread.ip4 ht']
        exact heq.symm
      · exact absurd hslash hno
    · intro heq
      exact .inr (.inl ⟨t, bs, u, xs, hread.eq, hread.ip4, hip, hne, hd, hread.mask_le, heq.symm⟩)
  refine says_of_ite hlists ?_
  rw [answer, hread.eq, hdrop]
  simp only [htake, hscan]

/-- So does a token. -/
theorem says_token {ip xs line : Bytes} (hno : (47 : Byte) ∉ line) : Says tx net ip xs line := by
  have hdrop : line.dropWhile (· ≠ 47) = [] :=
    List.dropWhile_eq_nil_iff.mpr fun b hb => decide_eq_true fun heq => hno (heq ▸ hb)
  have hlists : Lists net line ip ↔ standsFor net line ip = true := by
    constructor
    · rintro (rfl | ⟨t, bs, u, xs, rfl, -⟩ | ⟨-, hst⟩)
      · simp [standsFor]
      · exact absurd (by simp) hno
      · exact hst
    · exact fun hst => .inr (.inr ⟨hno, hst⟩)
  refine says_of_ite hlists ?_
  rw [answer, hdrop]

theorem Legible.answered {ip xs line : Bytes} (hip : Ip4 ip xs) (h : Legible net ip line) :
    Says tx net ip xs line := by
  rcases h with ⟨t, bs, u, hread, hne, hd⟩ | ⟨hno, -⟩
  · exact says_range hip hread hne hd
  · exact says_token hno

/-- Case does not matter for an IPv4 address. -/
theorem eq_of_caseLower {ip xs line : Bytes} (hip : Ip4 ip xs)
    (h : caseLower line = caseLower ip) : line = ip := by
  have hbyte : ∀ b ∈ ip, b ≤ 57 := by
    have hd : ∀ {t bs : Bytes}, Dotted t bs → ∀ b ∈ t, b ≤ 57 := by
      intro t bs hd
      have hdigit : ∀ b, isDigit b = true → b ≤ 57 := fun b hb => by
        simp only [isDigit, Bool.and_eq_true, decide_eq_true_eq] at hb
        exact hb.2
      induction hd with
      | one h => exact fun b hb => hdigit b (h.digits b hb)
      | cons h hr ih =>
          intro b hb
          rcases List.mem_append.mp hb with hb | hb
          · exact hdigit b (h.digits b hb)
          · rcases List.mem_cons.mp hb with rfl | hb
            · decide
            · exact ih b hb
    exact hd hip.1
  have hlow : ∀ x b : Byte, b ≤ 57 →
      (if 65 ≤ x ∧ x ≤ 90 then x + 32 else x) = (if 65 ≤ b ∧ b ≤ 90 then b + 32 else b) → x = b := by
    intro x b hb h
    have hb' : ¬ (65 ≤ b ∧ b ≤ 90) := fun h65 => absurd (UInt8.le_trans h65.1 hb) (by decide)
    rw [if_neg hb'] at h
    split at h
    · next hx =>
        rw [UInt8.le_iff_toNat_le, UInt8.le_iff_toNat_le] at hx
        rw [UInt8.le_iff_toNat_le, ← h, UInt8.toNat_add] at hb
        simp at hb hx
        omega
    · exact h
  clear hip
  induction ip generalizing line with
  | nil => simpa [caseLower] using h
  | cons b ip ih =>
      cases line with
      | nil => simp [caseLower] at h
      | cons x line =>
          simp only [caseLower, List.map_cons, List.cons.injEq] at h
          rw [hlow x b (hbyte b List.mem_cons_self) h.1,
            ih h.2 fun c hc => hbyte c (List.mem_cons_of_mem b hc)]

/-- **The lines mean what they list**, where no cdb file is asked and every mask is read from the
second byte of its line. -/
theorem is_white_lines {ctl : Control} {st : White} {ip xs : Bytes} (hfn : st.whitefn = none)
    (hok : st.whitelistok = true) (hip : IpText ip) (hip4 : Ip4 ip xs) (h0 : Plain st.whitelist)
    (hleg : ∀ line ∈ st.whitelist, Legible net ip line) :
    is_white tx net ctl st ip = some (.returned 1) ↔ ∃ line ∈ st.whitelist, Lists net line ip := by
  have hnil : ∀ s, Plain [] ∧ (∀ line ∈ [], Legible net ip line) ∧ At [] s → more s = false := by
    rintro s ⟨-, -, pre, hcontent, hlen⟩
    simp [more, hcontent, hlen]
  have hcons : ∀ line post s,
      Plain (line :: post) ∧ (∀ l ∈ line :: post, Legible net ip l) ∧ At (line :: post) s →
      more s = true ∧
        Finds (fun s => Plain post ∧ (∀ l ∈ post, Legible net ip l) ∧ At post s) Eq
          (turn tx net ip s) (answer tx net ip xs line) := by
    rintro line post s ⟨hp, hl, hat⟩
    obtain ⟨h0, hpost⟩ := hp.of_cons
    have hturn : Finds (At post) Eq (turn tx net ip s) (answer tx net ip xs line) := by
      rcases hl line List.mem_cons_self with ⟨t, bs, u, hread, -, -⟩ | ⟨hno, hcomp⟩
      · exact turn_range hip4 h0 hread hat
      · exact turn_token hip h0 hno hcomp hat
    refine ⟨?_, hturn.mono fun s h => ⟨hpost, fun l hm => hl l (List.mem_cons_of_mem line hm), h⟩⟩
    obtain ⟨pre, hcontent, hlen⟩ := hat
    rw [more, hcontent, hlen, length_nuls_split, decide_eq_true_iff]
    omega
  have hloop := loop_finds (R := fun post s =>
      Plain post ∧ (∀ l ∈ post, Legible net ip l) ∧ At post s) (Q := Eq) hnil hcons
    (s := ⟨nuls st.whitelist, 0⟩) ⟨h0, hleg, [], rfl, rfl⟩ (length_le_nuls st.whitelist)
  have hfirst : (st.whitelist.findSome? (answer tx net ip xs) = some 1 ↔
      ∃ line ∈ st.whitelist, Lists net line ip) ∧
      ∀ r, st.whitelist.findSome? (answer tx net ip xs) = some r → r = 1 := by
    have hanswer := fun line hline => @Legible.answered tx net _ _ _ hip4 (hleg line hline)
    have hone : ∀ r, st.whitelist.findSome? (answer tx net ip xs) = some r →
        ∃ line ∈ st.whitelist, answer tx net ip xs line = some r := fun r hr =>
      List.exists_of_findSome?_eq_some hr
    refine ⟨⟨fun h => ?_, ?_⟩, fun r hr => ?_⟩
    · obtain ⟨line, hline, hans⟩ := hone 1 h
      exact ⟨line, hline, (hanswer line hline).1.mp hans⟩
    · rintro ⟨line, hline, hlists⟩
      have hans := (hanswer line hline).1.mpr hlists
      cases hf : st.whitelist.findSome? (answer tx net ip xs) with
      | none =>
          rw [List.findSome?_eq_none_iff.mp hf line hline] at hans
          cases hans
      | some r =>
          obtain ⟨line', hline', hans'⟩ := hone r hf
          rw [(hanswer line' hline').2 r hans']
    · obtain ⟨line, hline, hans⟩ := hone r hr
      exact (hanswer line hline).2 r hans
  unfold is_white ip_match
  rw [hfn, hok]
  simp only [Bool.true_eq_false, if_false]
  by_cases hmap : constmap st.whitelist ip = true
  · rw [if_pos hmap]
    obtain ⟨line, hline, heq⟩ := List.any_eq_true.mp hmap
    exact iff_of_true rfl ⟨line, hline, .inl (eq_of_caseLower hip4 (of_decide_eq_true heq))⟩
  · rw [if_neg hmap, ← hfirst.1]
    cases hf : st.whitelist.findSome? (answer tx net ip xs) with
    | some r =>
        rw [hf] at hloop
        obtain ⟨r', hr', rfl⟩ := hloop.some_inv
        obtain rfl := hfirst.2 r' hf
        simp [hr']
    | none =>
        rw [hf] at hloop
        obtain ⟨s', hs', -⟩ := hloop.none_inv
        simp [hs']

/-- The mask of `10.0.0.0/8` is read as 0. -/
example : turn texts Hostaccess.decimalNet (asc "10.1.2.3") ⟨nuls [asc "10.0.0.0/8"], 0⟩ = none := by
  decide +kernel

/-! ## The whitelist -/

/-- **The whitelist of a running daemon** means what it lists if and only if the cdb file has every
address that the lines list. -/
theorem is_white_iff_listed (tx : Texts) (net : Net) (ctl : Control) {st : White}
    (hst : Reachable st) {ip : Bytes} (hip : ip ≠ []) :
    (is_white tx net ctl st ip = some (.returned 1) ↔ Listed net ctl st ip) ↔
      ((∃ line ∈ st.whitelist, Lists net line ip) → InCdb ctl st ip) := by
  rw [is_white_iff_inCdb hst hip, Listed]
  constructor
  · intro h hline
    exact h.mpr (.inr hline)
  · intro h
    exact ⟨.inl, fun hl => hl.elim id h⟩

/-- A whitelist of one range, and no cdb file. -/
def oneRange : Control where
  file _ := .lines [asc "10.0.0.0/8"]
  cdb _ := .absent

def oneRangeRead : White := ⟨some (asc "white"), true, [asc "10.0.0.0/8"]⟩

/-- The files at a SIGHUP: the cdb file has an address of the range. -/
def rangeAndKey : Control where
  file _ := .lines [asc "10.0.0.0/8", asc "192.168.1.1"]
  cdb _ := .keys fun addr => addr == asc "10.1.2.3"

/-- The lines list the address, as a range, and the cdb file has it. -/
theorem is_white_iff_listed_rangeAndKey :
    let st : White := ⟨some (asc "white"), true, [asc "10.0.0.0/8", asc "192.168.1.1"]⟩
    sighup rangeAndKey oneRangeRead = some st ∧ InCdb rangeAndKey st (asc "10.1.2.3") ∧
    ((is_white texts Hostaccess.decimalNet rangeAndKey st (asc "10.1.2.3") = some (.returned 1) ↔
        Listed Hostaccess.decimalNet rangeAndKey st (asc "10.1.2.3")) ↔
      ((∃ line ∈ st.whitelist, Lists Hostaccess.decimalNet line (asc "10.1.2.3")) →
        InCdb rangeAndKey st (asc "10.1.2.3"))) :=
  ⟨rfl, ⟨asc "white", rfl, by decide +kernel⟩,
    is_white_iff_listed texts Hostaccess.decimalNet rangeAndKey
      (.sighup rangeAndKey (.start oneRange (some (asc "white")) rfl) rfl) (by decide +kernel)⟩

/-- The range has the address, and it is not white. -/
theorem range_is_not_looked_at :
    start oneRange (some (asc "white")) = some oneRangeRead ∧
      Listed Hostaccess.decimalNet oneRange oneRangeRead (asc "10.1.2.3") ∧
      is_white texts Hostaccess.decimalNet oneRange oneRangeRead (asc "10.1.2.3") =
        some (.returned 0) := by
  have hnet : ip4_fmt texts [10, 0, 0, 0] = asc "10.0.0.0" := by decide +kernel
  have hip : ip4_fmt texts [10, 1, 2, 3] = asc "10.1.2.3" := by decide +kernel
  refine ⟨rfl, .inr ⟨asc "10.0.0.0/8", List.mem_singleton.mpr rfl, .inr (.inl ?_)⟩, by decide +kernel⟩
  refine ⟨asc "10.0.0.0", [10, 0, 0, 0], asc "8", [10, 1, 2, 3], by decide +kernel, ?_, ?_,
    by decide +kernel, by decide +kernel, by decide +kernel, by decide +kernel⟩
  · rw [← hnet]
    exact ip4_fmt_ip4 texts rfl
  · rw [← hip]
    exact ip4_fmt_ip4 texts rfl

end IndimailMta.Greyd
