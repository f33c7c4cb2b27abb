import Mathlib.Data.List.Induction
import Mathlib.Tactic.SplitIfs
import IndimailMta.Dkim.Alone

/-!
# The limits of a signature

A signature tells how much of the body it is over (`l=`), and when it ends (`x=`). The numbers are
read with 32 bits; one that is too large is to become the greatest `unsigned long`, which is `-1` where
it is kept, and no limit.
-/

namespace IndimailMta.Dkim

open IndimailMta

/-! ## The code -/

def isDigit (ch : Byte) : Bool := decide (48 ≤ ch ∧ ch ≤ 57)

/-- The loop of `ParseUnsigned`, for the text that is left. -/
def parseLoop (temp last : Nat) (overflowed : Bool) : Bytes → Option Nat
  | [] => none
  | ch :: s =>
      if !isDigit ch then none
      else
        let temp := (temp * 10 + (ch.toNat - 48)) % 4294967296
        let overflowed := overflowed || decide (temp < last)
        let last := temp
        if s = [] then some (if overflowed then 18446744073709551615 else temp)
        else parseLoop temp last overflowed s

/-- `ParseUnsigned`, on the content of a C string. -/
def parseUnsigned (s : Bytes) : Option Nat := parseLoop 0 0 false s

/-- An `unsigned long` that is stored in a `long`. -/
def longOf (x : Nat) : Int :=
  if x < 9223372036854775808 then x else (x : Int) - 18446744073709551616

/-- `strtok_r`. -/
def strtok (delims s : Bytes) : Option (Bytes × Bytes) :=
  let s := s.dropWhile (· ∈ delims)
  if s = [] then none
  else some (s.takeWhile (· ∉ delims), (s.dropWhile (· ∉ delims)).tail)

def isDns (s : Bytes) : Bool :=
  (asc "dns").isPrefixOf s && (s.length = 3 || (s.drop 3).head? = some 47)

/-- The loop over the query methods: the first is searched with other separators. -/
def hasDNS : Nat → Bytes → Bytes → Bool
  | 0, _, _ => false
  | turns + 1, delims, s =>
      match strtok delims s with
      | none => false
      | some (tok, rest) => isDns tok || hasDNS turns (asc ": \t") rest

def badSyntax : Int := -2

def signatureExpired : Int := -5

/-- A tag with a number; `-1` if there is none. -/
def parseTag : Option Bytes → Option Int
  | none => some (-1)
  | some s => (parseUnsigned s).map longOf

/-- `ParseDKIMSignature`, from the body count to the expiration time: `BodyLength` and
`ExpireTime`, or the status. -/
def parseLimits (honor : Bool) (l q t x : Option Bytes) (curtime : Int) : Except Int (Int × Int) :=
  match (if honor then parseTag l else some (-1)) with
  | none => .error badSyntax
  | some bodyLength =>
      if q.any fun q => !hasDNS (q.length + 1) (asc ":") q then .error badSyntax
      else
        match parseTag t with
        | none => .error badSyntax
        | some signedTime =>
            match x, parseTag x with
            | none, _ => .ok (bodyLength, -1)
            | some _, none => .error badSyntax
            | some _, some expireTime =>
                if expireTime ≠ -1 then
                  if signedTime ≠ -1 ∧ expireTime ≤ signedTime then .error badSyntax
                  else if expireTime < curtime then .error signatureExpired
                  else .ok (bodyLength, expireTime)
                else .ok (bodyLength, expireTime)

/-- `BodyLength` as a limit. -/
def limitOf (bodyLength : Int) : Option Nat :=
  if bodyLength = -1 then none else some bodyLength.toNat

/-- The chunks of the body, for one signature. -/
def hashChunks (chunks : List Bytes) (p : SignatureInfo × Bytes) : SignatureInfo × Bytes :=
  chunks.foldl (fun p b => hashBody b p) p

/-! ## Numbers -/

/-- The value of a decimal text. -/
def decimalValue (s : Bytes) : Nat := s.foldl (fun v ch => v * 10 + (ch.toNat - 48)) 0

def isDecimal (s : Bytes) : Bool := !s.isEmpty && s.all isDigit

/-- What is to be read. -/
def exactly (s : Bytes) : Option Nat :=
  if isDecimal s then
    some (if decimalValue s < 4294967296 then decimalValue s else 18446744073709551615)
  else none

/-- With one more digit of the text the value gets smaller, in 32 bits. -/
def Noticed (s : Bytes) : Prop :=
  ∃ u ch v, s = u ++ ch :: v ∧
    decimalValue (u ++ [ch]) % 4294967296 < decimalValue u % 4294967296

theorem decimalValue_append (u : Bytes) (ch : Byte) :
    decimalValue (u ++ [ch]) = decimalValue u * 10 + (ch.toNat - 48) := by
  rw [decimalValue, List.foldl_append]
  rfl

theorem decimalValue_le (u v : Bytes) : decimalValue u ≤ decimalValue (u ++ v) := by
  induction v using List.reverseRecOn with
  | nil => exact Nat.le_of_eq (congrArg decimalValue (List.append_nil u).symm)
  | append_singleton v ch ih =>
      rw [← List.append_assoc, decimalValue_append]
      omega

/-- The value gets smaller somewhere in `s`, behind `u`. -/
def wraps (u : Bytes) : Bytes → Bool
  | [] => false
  | ch :: s =>
      decide (decimalValue (u ++ [ch]) % 4294967296 < decimalValue u % 4294967296) ||
        wraps (u ++ [ch]) s

theorem wraps_iff (u s : Bytes) :
    wraps u s = true ↔ ∃ w ch v, s = w ++ ch :: v ∧
      decimalValue (u ++ w ++ [ch]) % 4294967296 < decimalValue (u ++ w) % 4294967296 := by
  induction s generalizing u with
  | nil => simp [wraps]
  | cons ch s ih =>
      rw [wraps, Bool.or_eq_true, decide_eq_true_iff, ih]
      constructor
      · rintro (h | ⟨w, c, v, rfl, h⟩)
        · exact ⟨[], ch, s, rfl, by rwa [List.append_nil]⟩
        · exact ⟨ch :: w, c, v, rfl, by simpa using h⟩
      · rintro ⟨w, c, v, hs, h⟩
        cases w with
        | nil =>
            obtain ⟨rfl, rfl⟩ := List.cons.inj hs
            exact .inl (by rwa [List.append_nil] at h)
        | cons d w =>
            obtain ⟨rfl, rfl⟩ := List.cons.inj hs
            exact .inr ⟨w, c, v, rfl, by simpa using h⟩

/-- The loop reads a text that goes on behind `u`. -/
theorem parseLoop_eq (u s : Bytes) (overflowed : Bool) :
    parseLoop (decimalValue u % 4294967296) (decimalValue u % 4294967296) overflowed s =
      if isDecimal s then
        some (if overflowed || wraps u s then 18446744073709551615
          else decimalValue (u ++ s) % 4294967296)
      else none := by
  induction s generalizing u overflowed with
  | nil => rfl
  | cons ch s ih =>
      have hstep : (decimalValue u % 4294967296 * 10 + (ch.toNat - 48)) % 4294967296 =
          decimalValue (u ++ [ch]) % 4294967296 := by
        rw [decimalValue_append]
        omega
      rw [parseLoop]
      dsimp only
      rw [hstep]
      by_cases hdigit : isDigit ch = true
      · rw [hdigit, Bool.not_true, if_neg Bool.false_ne_true]
        by_cases hs : s = []
        · subst hs
          simp [isDecimal, hdigit, wraps]
        · have hdecimal : isDecimal (ch :: s) = isDecimal s := by
            simp [isDecimal, hdigit, hs]
          rw [if_neg hs, ih, hdecimal, wraps, Bool.or_assoc, List.append_assoc,
            List.singleton_append]
      · have hdecimal : isDecimal (ch :: s) = false := by simp [isDecimal, hdigit]
        rw [hdecimal, if_neg Bool.false_ne_true, if_pos (by simpa using hdigit)]

/-- **`ParseUnsigned`** reads the value modulo 2^32, unless it noticed that it is too large. -/
theorem parseUnsigned_eq (s : Bytes) :
    parseUnsigned s =
      if isDecimal s then
        some (if wraps [] s then 18446744073709551615 else decimalValue s % 4294967296)
      else none :=
  parseLoop_eq [] s false

/-- A value that fits does not wrap. -/
theorem wraps_eq_false {s : Bytes} (h : decimalValue s < 4294967296) : wraps [] s = false := by
  by_contra hne
  obtain ⟨w, ch, v, rfl, hlt⟩ := (wraps_iff [] s).mp (by simpa using hne)
  have hle := decimalValue_le (w ++ [ch]) v
  have hstep := decimalValue_append w ch
  rw [List.append_assoc, List.singleton_append] at hle
  rw [List.nil_append, Nat.mod_eq_of_lt (by omega), Nat.mod_eq_of_lt (by omega)] at hlt
  omega

/-- A text is read exactly if its value fits, or is noticed not to. -/
theorem parseUnsigned_iff {s : Bytes} (hs : isDecimal s = true) :
    parseUnsigned s = exactly s ↔ decimalValue s < 4294967296 ∨ Noticed s := by
  rw [parseUnsigned_eq, exactly, if_pos hs, if_pos hs, Option.some_inj]
  have hnoticed : Noticed s ↔ wraps [] s = true := (wraps_iff [] s).symm
  rw [hnoticed]
  by_cases hlt : decimalValue s < 4294967296
  · rw [if_pos hlt, wraps_eq_false hlt, if_neg Bool.false_ne_true, Nat.mod_eq_of_lt hlt]
    exact iff_of_true rfl (.inl hlt)
  · rw [if_neg hlt]
    cases wraps [] s with
    | true => exact iff_of_true rfl (.inr rfl)
    | false =>
        have := Nat.mod_lt (decimalValue s) (show 0 < 4294967296 by decide)
        refine iff_of_false (fun h => ?_) fun h => h.elim hlt Bool.false_ne_true
        rw [if_neg Bool.false_ne_true] at h
        omega

/-! ## The body -/

/-- Where the bytes of the body go. -/
def SignatureInfo.body (i : SignatureInfo) : Bytes := if i.sig.bodyHash = [] then i.hdr else i.bdy

theorem hashBody_body (b : Bytes) (p : SignatureInfo × Bytes) :
    (hashBody b p).1.sig = p.1.sig ∧ (hashBody b p).1.status = p.1.status ∧
      (hashBody b p).1.body = p.1.body ++ (limit b p.1).1 ∧
      (hashBody b p).1.verifiedBodyCount = (limit b p.1).2.verifiedBodyCount ∧
      (hashBody b p).1.unverifiedBodyCount = (limit b p.1).2.unverifiedBodyCount := by
  have hlimit : (limit b p.1).2.sig = p.1.sig ∧ (limit b p.1).2.status = p.1.status ∧
      (limit b p.1).2.hdr = p.1.hdr ∧ (limit b p.1).2.bdy = p.1.bdy := by
    rw [limit]
    split
    · exact ⟨rfl, rfl, rfl, rfl⟩
    · dsimp only
      split_ifs <;> exact ⟨rfl, rfl, rfl, rfl⟩
  obtain ⟨hsig, hstatus, hhdr, hbdy⟩ := hlimit
  rw [hashBody]
  dsimp only
  rw [hsig]
  by_cases hhash : p.1.sig.bodyHash = []
  · rw [if_neg (by simpa using hhash)]
    refine ⟨hsig, hstatus, ?_, rfl, rfl⟩
    rw [SignatureInfo.body, SignatureInfo.body, if_pos hhash, hashHeader]
    dsimp only
    rw [hsig, if_pos hhash, hhdr]
  · rw [if_pos hhash]
    refine ⟨rfl, hstatus, ?_, rfl, rfl⟩
    rw [SignatureInfo.body, SignatureInfo.body, if_neg hhash]
    dsimp only
    rw [if_neg hhash, hbdy]

/-- What is hashed of a body, and the counts, when `before` was hashed for it. -/
structure Limited (len : Nat) (start before : Bytes) (i : SignatureInfo) : Prop where
  body : i.body = start ++ before.take len
  verified : i.verifiedBodyCount = min len before.length
  unverified : i.unverifiedBodyCount = before.length - len

theorem Limited.step {len : Nat} {start before b : Bytes} {p : SignatureInfo × Bytes}
    (h : Limited len start before p.1) (hlen : p.1.sig.bodyLength = some len) :
    Limited len start (before ++ b) (hashBody b p).1 := by
  obtain ⟨-, -, hbody, hverified, hunverified⟩ := hashBody_body b p
  have htake : (before ++ b).take len = before.take len ++ b.take (len - before.length) :=
    List.take_append
  rw [limit, hlen] at hbody hverified hunverified
  dsimp only at hbody hverified hunverified
  rw [h.verified] at hbody hverified hunverified
  by_cases hover : len < min len before.length + b.length
  · rw [if_pos hover] at hbody hverified hunverified
    dsimp only at hbody hverified hunverified
    refine ⟨?_, ?_, ?_⟩
    · rw [hbody, h.body, htake, List.append_assoc]
      congr 3
      omega
    · rw [hverified, List.length_append]
      omega
    · rw [hunverified, h.unverified, List.length_append]
      omega
  · rw [if_neg hover] at hbody hverified hunverified
    dsimp only at hbody hverified hunverified
    refine ⟨?_, ?_, ?_⟩
    · rw [hbody, h.body, htake, List.append_assoc]
      congr 2
      by_cases hb : b = []
      · rw [hb, List.take_nil]
      · have := List.length_pos_of_ne_nil hb
        rw [List.take_of_length_le]
        omega
    · rw [hverified, List.length_append]
      omega
    · rw [hunverified, h.unverified, List.length_append]
      omega

/-- **The chunks of a body** are hashed up to the limit. -/
theorem Limited.run {len : Nat} {start before : Bytes} (chunks : List Bytes)
    {p : SignatureInfo × Bytes} (h : Limited len start before p.1)
    (hlen : p.1.sig.bodyLength = some len) :
    Limited len start (before ++ chunks.flatten) (hashChunks chunks p).1 := by
  induction chunks generalizing before p with
  | nil => rwa [List.flatten_nil, List.append_nil]
  | cons b chunks ih =>
      rw [List.flatten_cons, ← List.append_assoc]
      exact ih (h.step hlen) (by rw [(hashBody_body b p).1, hlen])

/-- Without a limit nothing is counted. -/
theorem hashChunks_unlimited (chunks : List Bytes) {p : SignatureInfo × Bytes}
    (hlen : p.1.sig.bodyLength = none) :
    (hashChunks chunks p).1.body = p.1.body ++ chunks.flatten ∧
      (hashChunks chunks p).1.verifiedBodyCount = p.1.verifiedBodyCount ∧
      (hashChunks chunks p).1.unverifiedBodyCount = p.1.unverifiedBodyCount := by
  induction chunks generalizing p with
  | nil => exact ⟨(List.append_nil _).symm, rfl, rfl⟩
  | cons b chunks ih =>
      obtain ⟨hsig, -, hbody, hverified, hunverified⟩ := hashBody_body b p
      rw [limit, hlen] at hbody hverified hunverified
      obtain ⟨h1, h2, h3⟩ := @ih (hashBody b p) (by rw [hsig, hlen])
      refine ⟨?_, h2.trans hverified, h3.trans hunverified⟩
      rw [List.flatten_cons, ← List.append_assoc, ← hbody]
      exact h1

theorem hashChunks_status (chunks : List Bytes) (p : SignatureInfo × Bytes) :
    (hashChunks chunks p).1.status = p.1.status := by
  induction chunks generalizing p with
  | nil => rfl
  | cons b chunks ih => exact (ih _).trans (hashBody_body b p).2.1

theorem verdict_zero {i : SignatureInfo} {sel : SelectorInfo} {res : Int}
    (h : verdict i sel res = 0) : i.unverifiedBodyCount = 0 := by
  by_contra hne
  rw [verdict, if_neg hne] at h
  split_ifs at h
  exact absurd h (by decide)

/-- A signature that does not cover all of the body is no success. -/
theorem result_success {env : Env} {p r : SignatureInfo × Bytes} (h : result env p = some r)
    (h0 : p.1.status = 0) (hr : r.1.status = 0) : p.1.unverifiedBodyCount = 0 := by
  obtain ⟨i, b⟩ := p
  dsimp only at h0 ⊢
  cases hsel : i.selector with
  | none => simp [result, h0, hsel] at h
  | some sel =>
      by_cases hm : i.sig.bodyHash ≠ [] ∧ env.digest i.sig.hash i.bdy ≠ i.sig.bodyHash
      · have hrun : result env (i, b) =
            some ({ i with status := if sel.testing then -4 else -15 }, b) := by
          simp [result, h0, hsel, hm]
        rw [← Option.some.inj (hrun.symm.trans h)] at hr
        dsimp only at hr
        split_ifs at hr
      · have hrun := result_checked env h0 hsel hm b
        rw [← Option.some.inj (hrun.symm.trans h)] at hr
        exact verdict_zero hr

/-! ## The claim -/

/-- A signature whose header was hashed. -/
def opened (s : Signature) (sel : Option SelectorInfo) (hdr : Bytes) : SignatureInfo :=
  { sig := s, status := 0, selector := sel, hdr := hdr }

/-- Of a body the first `l` bytes are hashed, the others are counted, and a signature over more is no
success. -/
def BodyExact (env : Env) (s : Signature) (sel : Option SelectorInfo) (hdr sigHdr : Bytes)
    (chunks : List Bytes) (l : Nat) : Prop :=
  let p := hashChunks chunks (opened s sel hdr, sigHdr)
  let total := chunks.flatten.length
  p.1.body = (opened s sel hdr).body ++ chunks.flatten.take l ∧
    p.1.verifiedBodyCount = min l total ∧
    p.1.unverifiedBodyCount = total - l ∧
    ∀ r, result env p = some r → r.1.status = 0 → total ≤ l

theorem bodyExact_limited (env : Env) {s : Signature} (sel : Option SelectorInfo) (hdr sigHdr : Bytes)
    (chunks : List Bytes) {l : Nat} (hl : s.bodyLength = some l) :
    BodyExact env s sel hdr sigHdr chunks l := by
  have hstart : Limited l (opened s sel hdr).body [] (opened s sel hdr, sigHdr).1 :=
    ⟨by rw [List.take_nil, List.append_nil], (Nat.min_zero l).symm, (Nat.zero_sub l).symm⟩
  have hrun := hstart.run chunks hl
  rw [List.nil_append] at hrun
  refine ⟨hrun.body, hrun.verified, hrun.unverified, fun r hr h0 => ?_⟩
  have := result_success hr (hashChunks_status chunks _) h0
  rw [hrun.unverified] at this
  omega

theorem bodyExact_unlimited (env : Env) {s : Signature} (sel : Option SelectorInfo)
    (hdr sigHdr : Bytes) (chunks : List Bytes) {l : Nat} (hl : s.bodyLength = none) (hpos : 0 < l) :
    BodyExact env s sel hdr sigHdr chunks l ↔ chunks.flatten = [] := by
  obtain ⟨hbody, hverified, hunverified⟩ :=
    @hashChunks_unlimited chunks (opened s sel hdr, sigHdr) hl
  constructor
  · rintro ⟨-, hcount, -, -⟩
    rw [hverified] at hcount
    have hzero : 0 = min l chunks.flatten.length := hcount
    exact List.eq_nil_of_length_eq_zero (by omega)
  · intro hnil
    rw [hnil] at hbody
    refine ⟨?_, ?_, ?_, fun _ _ _ => ?_⟩
    · rw [hbody, hnil, List.take_nil]
    · rw [hverified, hnil, List.length_nil, Nat.min_zero]
      rfl
    · rw [hunverified, hnil, List.length_nil, Nat.zero_sub]
      rfl
    · rw [hnil]
      exact Nat.zero_le l

theorem limitOf_longOf {v : Nat} (h : v < 4294967296) : limitOf (longOf v) = some v := by
  rw [longOf, if_pos (by omega), limitOf, if_neg (by omega), Int.toNat_natCast]

theorem parseLimits_bodyLength {l : Nat} {text : Bytes} {q t x : Option Bytes}
    {curtime bodyLength expireTime : Int} (hl : parseUnsigned text = some l)
    (h : parseLimits true (some text) q t x curtime = .ok (bodyLength, expireTime)) :
    bodyLength = longOf l := by
  rw [parseLimits, if_pos rfl, parseTag, hl, Option.map_some] at h
  dsimp only at h
  split at h
  · exact nomatch h
  · split at h
    · exact nomatch h
    · split at h
      · exact (congrArg Prod.fst (Except.ok.inj h)).symm
      · exact nomatch h
      · split_ifs at h
        · exact (congrArg Prod.fst (Except.ok.inj h)).symm
        · exact (congrArg Prod.fst (Except.ok.inj h)).symm

/-- A text that is read as it is tells no signature to be expired before its time. -/
theorem parseLimits_expired {honor : Bool} {l q t : Option Bytes} {x : Bytes} {curtime : Int}
    (hx : decimalValue x < 4294967296 ∨ Noticed x) (hdecimal : isDecimal x = true)
    (hfuture : curtime < decimalValue x) :
    parseLimits honor l q t (some x) curtime ≠ .error signatureExpired := by
  have hparse := (parseUnsigned_iff hdecimal).mpr hx
  rw [exactly, if_pos hdecimal] at hparse
  rw [parseLimits]
  split
  · exact fun h => absurd (Except.error.inj h) (by decide)
  · split_ifs
    · exact fun h => absurd (Except.error.inj h) (by decide)
    · cases parseTag t with
      | none => exact fun h => absurd (Except.error.inj h) (by decide)
      | some signedTime =>
          rw [parseTag, hparse, Option.map_some]
          dsimp only
          by_cases hlt : decimalValue x < 4294967296
          · have hlong : longOf (decimalValue x) = decimalValue x := if_pos (by omega)
            rw [if_pos hlt, hlong]
            split_ifs
            · exact fun h => absurd (Except.error.inj h) (by decide)
            · omega
            · exact nofun
            · exact nofun
          · rw [if_neg hlt, if_neg (by decide)]
            exact nofun

/-- **The body length limit is exact** if and only if the number fits into 32 bits, or its first
overflow is noticed and there is no body. -/
theorem body_length_limit_exact_iff (env : Env) (s : Signature) (sel : Option SelectorInfo)
    (hdr sigHdr : Bytes) (chunks : List Bytes) (text : Bytes) :
    (parseUnsigned text = exactly text ∧
      (∀ l q t x curtime bodyLength expireTime, parseUnsigned text = some l →
        parseLimits true (some text) q t x curtime = .ok (bodyLength, expireTime) →
          BodyExact env { s with bodyLength := limitOf bodyLength } sel hdr sigHdr chunks l) ∧
      (∀ honor l q t (curtime : Int), isDecimal text = true → curtime < decimalValue text →
        parseLimits honor l q t (some text) curtime ≠ .error signatureExpired)) ↔
    (isDecimal text = true →
      decimalValue text < 4294967296 ∨ (Noticed text ∧ chunks.flatten = [])) := by
  constructor
  · rintro ⟨hparse, hbody, -⟩ hdecimal
    rcases (parseUnsigned_iff hdecimal).mp hparse with hlt | hnoticed
    · exact .inl hlt
    · by_cases hlt : decimalValue text < 4294967296
      · exact .inl hlt
      · rw [exactly, if_pos hdecimal, if_neg hlt] at hparse
        have hlimits : parseLimits true (some text) none none none 0 = .ok (-1, -1) := by
          have htag : parseTag (some text) = some (-1) := by
            rw [parseTag, hparse]
            rfl
          rw [parseLimits, if_pos rfl, htag]
          rfl
        exact .inr ⟨hnoticed, (bodyExact_unlimited env sel hdr sigHdr chunks rfl (by decide)).mp
          (hbody _ _ _ _ _ _ _ hparse hlimits)⟩
  · intro h
    cases hdecimal : isDecimal text with
    | false =>
        have hnone : parseUnsigned text = none := by
          rw [parseUnsigned_eq, hdecimal, if_neg Bool.false_ne_true]
        refine ⟨?_, fun l _ _ _ _ _ _ hl => ?_, fun _ _ _ _ _ hd => absurd hd Bool.false_ne_true⟩
        · rw [hnone, exactly, hdecimal, if_neg Bool.false_ne_true]
        · rw [hnone] at hl
          exact absurd hl (Option.some_ne_none l).symm
    | true =>
        have hnoticed : decimalValue text < 4294967296 ∨ Noticed text := (h hdecimal).imp id And.left
        have hparse := (parseUnsigned_iff hdecimal).mpr hnoticed
        refine ⟨hparse, fun l q t x curtime bodyLength expireTime hl hlimits => ?_,
          fun _ _ _ _ _ _ hfuture => parseLimits_expired hnoticed hdecimal hfuture⟩
        have hlength : bodyLength = longOf l := parseLimits_bodyLength hl hlimits
        rw [hparse, exactly, if_pos hdecimal] at hl
        by_cases hlt : decimalValue text < 4294967296
        · rw [if_pos hlt] at hl
          rw [← Option.some.inj hl] at hlength ⊢
          exact bodyExact_limited env sel hdr sigHdr chunks (by rw [hlength, limitOf_longOf hlt])
        · rw [if_neg hlt] at hl
          rw [← Option.some.inj hl] at hlength ⊢
          exact (bodyExact_unlimited env sel hdr sigHdr chunks (by rw [hlength]; rfl) (by decide)).mpr
            ((h hdecimal).resolve_left hlt).2

/-- Ten billions are read as 1410065408. -/
theorem overflow_is_not_noticed :
    ¬ parseUnsigned (asc "10000000000") = exactly (asc "10000000000") := by
  decide +kernel

end IndimailMta.Dkim
