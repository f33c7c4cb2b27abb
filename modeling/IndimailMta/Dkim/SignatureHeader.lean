import IndimailMta.Dkim.TagList
import IndimailMta.Dkim.Canonical

/-!
# The header of a signature

`ParseDKIMSignature` makes a signature of a header, and `GetResults` takes the value of `b=` out of
the header before it hashes it.
-/

namespace IndimailMta.Dkim

open IndimailMta Lib.Splits

/-! ## Values -/

/-- `tohex`. -/
def tohex (ch : Byte) : Option Byte :=
  if 48 ≤ ch ∧ ch ≤ 57 then some (ch - 48)
  else if 65 ≤ ch ∧ ch ≤ 70 then some (ch - 55)
  else if 97 ≤ ch ∧ ch ≤ 102 then some (ch - 87)
  else none

/-- `DecodeQuotedPrintable`. -/
def decodeQuotedPrintable : Bytes → Bytes
  | 61 :: a :: b :: s =>
      match tohex a, tohex b with
      | some x, some y => (x * 16 + y) :: decodeQuotedPrintable s
      | _, _ => 61 :: decodeQuotedPrintable (a :: b :: s)
  | ch :: s => ch :: decodeQuotedPrintable s
  | [] => []

/-- `base64_table`. -/
def base64Value (ch : Byte) : Option Nat :=
  if 65 ≤ ch ∧ ch ≤ 90 then some (ch.toNat - 65)
  else if 97 ≤ ch ∧ ch ≤ 122 then some (ch.toNat - 71)
  else if 48 ≤ ch ∧ ch ≤ 57 then some (ch.toNat + 4)
  else if ch = 43 then some 62
  else if ch = 47 then some 63
  else none

/-- The loop of `DecodeBase64`. -/
def base64Loop (b64accum b64shift : Nat) : Bytes → Bytes
  | [] => []
  | ch :: s =>
      match base64Value ch with
      | none => base64Loop b64accum b64shift s
      | some value =>
          let b64accum := (b64accum * 64 + value) % 4294967296
          if 8 ≤ b64shift + 6 then
            UInt8.ofNat (b64accum / 2 ^ (b64shift - 2)) :: base64Loop b64accum (b64shift - 2) s
          else base64Loop b64accum (b64shift + 6) s

/-- `DecodeBase64`. -/
def decodeBase64 (b : Bytes) : Bytes := base64Loop 0 0 b

/-! ## `ParseDKIMSignature` -/

/-- The options, and the time. -/
structure Options where
  honorBodyLengthTag : Bool
  subjectIsRequired : Bool
  curtime : Int

def statIncompat : Int := -17

def badIdentity : Int := -19

/-- A failure with this status, unless there is a value. -/
def orFail {α : Type} (status : Int) : Option α → Except Int α
  | none => .error status
  | some a => .ok a

def ensure (status : Int) (c : Bool) : Except Int Unit := if c then .ok () else .error status

/-- Whether the version is one before 0.2. -/
def parseVersion : Option Bytes → Option Bool
  | none => some true
  | some v => if v ∈ [asc "1", asc "0.5", asc "0.4", asc "0.3", asc "0.2"] then some false else none

def parseAlgorithm (a : Bytes) : Option HashAlg :=
  if a = asc "rsa-sha1" then some .sha1
  else if a = asc "rsa-sha256" ∨ a = asc "ed25519-sha256" then some .sha256
  else none

def parseBodyHash (pre02 : Bool) : Option Bytes → Option Bytes
  | none => if pre02 then some [] else none
  | some bh => if decodeBase64 bh = [] then none else some (decodeBase64 bh)

def canonOf (c : Bytes) : Option Canon :=
  if c = asc "simple" then some .simple else if c = asc "relaxed" then some .relaxed else none

def parseCanon (pre02 : Bool) : Option Bytes → Option (Canon × Canon)
  | none => some (.simple, .simple)
  | some c =>
      if pre02 ∧ c = asc "nowsp" then some (.nowsp, .nowsp)
      else
        match canonOf (c.takeWhile (· ≠ 47)),
          if 47 ∈ c then canonOf (c.dropWhile (· ≠ 47)).tail else some .simple with
        | some header, some body => some (header, body)
        | _, _ => none

/-- The local part and the domain of the identity. -/
def parseIdentity (d : Bytes) : Option Bytes → Option (Bytes × Bytes)
  | none => some ([], d)
  | some i =>
      let i := cstr (decodeQuotedPrintable i)
      let place := byteRchr i 64
      let idomain := i.drop (place + 1)
      let front := idomain.length - d.length
      if place = i.length then none
      else if idomain.length < d.length then none
      else if ¬ strieq (idomain.drop front) d then none
      else if d.length < idomain.length ∧ idomain.getD (front - 1) 0 ≠ 46 then none
      else some (i.take place, idomain)

/-- The names of the headers that are signed. -/
def headerNames : Nat → Bytes → List Bytes
  | 0, _ => []
  | turns + 1, s =>
      match strtok (asc ":") s with
      | none => []
      | some (tok, rest) => tok :: headerNames turns rest

/-- What is behind the first colon, all of it if there is none. -/
def behindColon (sHeader : Bytes) : Bytes :=
  if 58 ∈ sHeader then (sHeader.dropWhile (· ≠ 58)).tail else sHeader

def signatureTags : List Bytes :=
  [asc "v", asc "a", asc "b", asc "d", asc "h", asc "s", asc "c", asc "i", asc "l", asc "q", asc "t",
    asc "x", asc "bh"]

/-- The header without the value of `b=`, as `GetResults` cuts it out: it counts from behind
"DKIM-Signature:". -/
def sSignedSig (sHeader : Bytes) : Bytes :=
  match (parseTagValueList (behindColon sHeader) [asc "b"]).bind (·.lookup (asc "b")) with
  | none => sHeader
  | some (place, value) =>
      let siglen := 15
      sHeader.take (siglen + place) ++ sHeader.drop (siglen + place + value.length)

def parseDKIMSignature (o : Options) (sHeader : Bytes) : Except Int Signature := do
  let values ← orFail badSyntax (parseTagValueList (behindColon sHeader) signatureTags)
  let value (tag : String) : Option Bytes := (values.lookup (asc tag)).map Prod.snd
  let pre02 ← orFail statIncompat (parseVersion (value "v"))
  let a ← orFail badSyntax (value "a")
  let b ← orFail badSyntax (value "b")
  let d ← orFail badSyntax (value "d")
  let h ← orFail badSyntax (value "h")
  let s ← orFail badSyntax (value "s")
  let hash ← orFail badSyntax (parseAlgorithm a)
  ensure badSyntax (decodeBase64 b ≠ [])
  let bodyHash ← orFail badSyntax (parseBodyHash pre02 (value "bh"))
  ensure badSyntax (d ≠ [] && h ≠ [] && s ≠ [])
  let canon ← orFail badSyntax (parseCanon pre02 (value "c"))
  let identity ← orFail badIdentity (parseIdentity d (value "i"))
  let limits ← parseLimits o.honorBodyLengthTag (value "l") (value "q") (value "t") (value "x")
    o.curtime
  let names := headerNames (h.length + 1) (removeSWSP h)
  ensure badSyntax (names.any fun name => strieq name (asc "From"))
  ensure badSyntax (!o.subjectIsRequired || names.any fun name => strieq name (asc "Subject"))
  return {
    status := 0
    hash := hash
    domain := d
    selector := s
    signatureData := decodeBase64 b
    bodyHash := bodyHash
    identityLocalPart := identity.1
    identityDomain := identity.2
    signedHeaders := names
    bodyLength := limitOf limits.1
    headerCanon := canon.1
    bodyCanon := canon.2
    stripped := sSignedSig sHeader }

/-- A signature as it is put into the list; where the header is not one, only the status is looked
at. -/
def signatureOf (o : Options) (sHeader : Bytes) : Signature :=
  match parseDKIMSignature o sHeader with
  | .ok s => s
  | .error status => ⟨status, .sha1, [], [], [], [], [], [], [], none, .simple, .simple, []⟩

/-- The signatures that `ProcessHeaders` finds, at most `MAX_SIGNATURES`. -/
def signatures (o : Options) (headers : List Bytes) : List Signature :=
  ((headers.filter (isHeader (asc "DKIM-Signature"))).take 10).map (signatureOf o)

/-! ## What is parsed -/

section Parse

variable {α : Type} {o : Options} {sHeader : Bytes} {s : Signature}

theorem orFail_ok {status : Int} {x : Option α} {a : α} (h : orFail status x = .ok a) : x = some a := by
  cases x with
  | none => exact nomatch h
  | some b => rw [Except.ok.inj h]

/-- A signature that is parsed has its `b=` and its `h=`. -/
theorem parseDKIMSignature_ok (hs : parseDKIMSignature o sHeader = .ok s) :
    ∃ values b h, parseTagValueList (behindColon sHeader) signatureTags = some values ∧
      (values.lookup (asc "b")).map Prod.snd = some b ∧
      (values.lookup (asc "h")).map Prod.snd = some h ∧
      s.signedHeaders = headerNames (h.length + 1) (removeSWSP h) ∧
      s.stripped = sSignedSig sHeader := by
  obtain ⟨values, hvalues, hs⟩ := except_bind_ok.mp hs
  obtain ⟨pre02, -, hs⟩ := except_bind_ok.mp hs
  obtain ⟨a, -, hs⟩ := except_bind_ok.mp hs
  obtain ⟨b, hb, hs⟩ := except_bind_ok.mp hs
  obtain ⟨d, -, hs⟩ := except_bind_ok.mp hs
  obtain ⟨h, hh, hs⟩ := except_bind_ok.mp hs
  obtain ⟨selector, -, hs⟩ := except_bind_ok.mp hs
  obtain ⟨hash, -, hs⟩ := except_bind_ok.mp hs
  obtain ⟨_, -, hs⟩ := except_bind_ok.mp hs
  obtain ⟨bodyHash, -, hs⟩ := except_bind_ok.mp hs
  obtain ⟨_, -, hs⟩ := except_bind_ok.mp hs
  obtain ⟨canon, -, hs⟩ := except_bind_ok.mp hs
  obtain ⟨identity, -, hs⟩ := except_bind_ok.mp hs
  obtain ⟨limits, -, hs⟩ := except_bind_ok.mp hs
  obtain ⟨_, -, hs⟩ := except_bind_ok.mp hs
  obtain ⟨_, -, hs⟩ := except_bind_ok.mp hs
  rw [← Except.ok.inj hs]
  exact ⟨values, b, h, orFail_ok hvalues, orFail_ok hb, orFail_ok hh, rfl, rfl⟩

/-! A failure has a status of its own. -/

theorem bind_ne_zero {x : Except Int α} {f : α → Except Int β} (hx : x ≠ .error 0)
    (hf : ∀ a, f a ≠ .error 0) : (x >>= f) ≠ .error 0 := by
  cases x with
  | error status => exact fun h => hx (congrArg Except.error (Except.error.inj h))
  | ok a => exact hf a

theorem orFail_ne_zero {status : Int} (h : status ≠ 0) (x : Option α) : orFail status x ≠ .error 0 := by
  cases x with
  | none => exact fun heq => h (Except.error.inj heq)
  | some a => exact nofun

theorem ensure_ne_zero {status : Int} (h : status ≠ 0) (c : Bool) : ensure status c ≠ .error 0 := by
  cases c with
  | false => exact fun heq => h (Except.error.inj heq)
  | true => exact nofun

theorem parseLimits_ne_zero (honor : Bool) (l q t x : Option Bytes) (curtime : Int) :
    parseLimits honor l q t x curtime ≠ .error 0 := by
  have hsyntax : (.error badSyntax : Except Int (Int × Int)) ≠ .error 0 := by decide
  have hexpired : (.error signatureExpired : Except Int (Int × Int)) ≠ .error 0 := by decide
  have hfine : ∀ p, (.ok p : Except Int (Int × Int)) ≠ .error 0 := by
    intro p h
    cases h
  rw [parseLimits]
  split
  · exact hsyntax
  · split
    · exact hsyntax
    · split
      · exact hsyntax
      · split
        · exact hfine _
        · exact hsyntax
        · split
          · split
            · exact hsyntax
            · split
              · exact hexpired
              · exact hfine _
          · exact hfine _

theorem parseDKIMSignature_ne_zero : parseDKIMSignature o sHeader ≠ .error 0 := by
  have hsyntax : badSyntax ≠ 0 := by decide
  refine bind_ne_zero (orFail_ne_zero hsyntax _) fun values => ?_
  refine bind_ne_zero (orFail_ne_zero (by decide) _) fun pre02 => ?_
  refine bind_ne_zero (orFail_ne_zero hsyntax _) fun a => ?_
  refine bind_ne_zero (orFail_ne_zero hsyntax _) fun b => ?_
  refine bind_ne_zero (orFail_ne_zero hsyntax _) fun d => ?_
  refine bind_ne_zero (orFail_ne_zero hsyntax _) fun h => ?_
  refine bind_ne_zero (orFail_ne_zero hsyntax _) fun selector => ?_
  refine bind_ne_zero (orFail_ne_zero hsyntax _) fun hash => ?_
  refine bind_ne_zero (ensure_ne_zero hsyntax _) fun _ => ?_
  refine bind_ne_zero (orFail_ne_zero hsyntax _) fun bodyHash => ?_
  refine bind_ne_zero (ensure_ne_zero hsyntax _) fun _ => ?_
  refine bind_ne_zero (orFail_ne_zero hsyntax _) fun canon => ?_
  refine bind_ne_zero (orFail_ne_zero (by decide) _) fun identity => ?_
  refine bind_ne_zero (parseLimits_ne_zero _ _ _ _ _ _) fun limits => ?_
  refine bind_ne_zero (ensure_ne_zero hsyntax _) fun _ => ?_
  refine bind_ne_zero (ensure_ne_zero hsyntax _) fun _ => ?_
  exact nofun

/-- Only a header that is parsed makes a signature that is looked at. -/
theorem signatureOf_status (h : (signatureOf o sHeader).status = 0) :
    parseDKIMSignature o sHeader = .ok (signatureOf o sHeader) := by
  rw [signatureOf] at h ⊢
  cases hp : parseDKIMSignature o sHeader with
  | ok s => rfl
  | error status =>
      rw [hp] at h
      exact absurd (hp.trans (congrArg Except.error h)) parseDKIMSignature_ne_zero

end Parse

/-! ## Names -/

def isColon (ch : Byte) : Bool := ch = 58

/-- The names between the colons. -/
theorem headerNames_eq {turns : Nat} {s : Bytes} (hturns : s.length < turns) :
    headerNames turns s = words isColon s := by
  have hmem : (fun ch : Byte => decide (ch ∈ asc ":")) = isColon := by
    funext ch
    have hasc : asc ":" = [58] := rfl
    rw [hasc]
    simp only [List.mem_singleton, isColon]
  have hnot : (fun ch : Byte => decide (ch ∉ asc ":")) = fun ch => !isColon ch := by
    funext ch
    rw [← hmem, decide_not]
  induction turns generalizing s with
  | zero => exact absurd hturns (Nat.not_lt_zero _)
  | succ turns ih =>
      have hskip : words isColon s = words isColon (s.dropWhile isColon) := by
        conv_lhs => rw [← List.takeWhile_append_dropWhile (p := isColon) (l := s)]
        exact words_append_of_sep (fun ch h => List.mem_takeWhile_imp h) _
      have hlen : (s.dropWhile isColon).length ≤ s.length := List.length_dropWhile_le _ _
      have hhead := head_dropWhile isColon s
      rw [headerNames, strtok, hmem, hnot, hskip]
      generalize s.dropWhile isColon = u at hlen hhead
      cases u with
      | nil => rfl
      | cons ch u =>
          have hch : isColon ch = false := hhead
          rw [if_neg (List.cons_ne_nil _ _)]
          dsimp only
          have hne : (ch :: u).takeWhile (fun ch => !isColon ch) ≠ [] := by
            rw [List.takeWhile_cons_of_pos (by rw [hch]; rfl)]
            exact List.cons_ne_nil _ _
          have hplain : ∀ ch' ∈ (ch :: u).takeWhile (fun ch => !isColon ch), isColon ch' = false := by
            intro ch' h
            simpa using List.mem_takeWhile_imp h
          have hstop := head_dropWhile (fun ch => !isColon ch) (ch :: u)
          have hless : ((ch :: u).dropWhile fun ch => !isColon ch).tail.length < turns := by
            have hdrop := List.length_dropWhile_le (fun ch => !isColon ch) (ch :: u)
            rw [List.length_tail]
            rw [List.length_cons] at hdrop hlen
            omega
          conv_rhs => rw [← List.takeWhile_append_dropWhile (p := fun ch => !isColon ch) (l := ch :: u)]
          rw [words_append_stop hne hplain hstop, ih hless]
          cases hrest : (ch :: u).dropWhile fun ch => !isColon ch with
          | nil => rfl
          | cons c v =>
              rw [hrest] at hstop
              have hc : isColon c = true := by simpa using hstop
              rw [words_cons_of_sep hc, List.tail_cons]

end IndimailMta.Dkim
