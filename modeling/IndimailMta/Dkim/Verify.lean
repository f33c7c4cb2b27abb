import IndimailMta.Base

/-!
# DKIM verification

`CDKIMVerify` judges all the signatures of a message in one pass. The signatures have
a `SignatureInfo` each; what they share is the line that `ProcessBody` canonicalizes
in place, the list of selectors, and `SigHdr`, in which the bytes of headers are
collected for signatures that are checked over the bytes themselves (ed25519).

A signature is modelled from where its header was parsed. What the library `EVP` and
the DNS compute are arbitrary functions (`Env`).
-/

namespace IndimailMta.Dkim

open IndimailMta

/-! ## Canonicalization -/

inductive Canon
  | simple
  | nowsp
  | relaxed
  deriving DecidableEq, Repr

def isswsp (ch : Byte) : Bool := ch = 32 || ch = 9 || ch = 13 || ch = 10

/-- `RemoveSWSP`. -/
def removeSWSP (b : Bytes) : Bytes := b.filter fun ch => !isswsp ch

/-- `CompressSWSP`; `ws` tells that white space was skipped. -/
def compressLoop (ws : Bool) : Bytes → Bytes
  | [] => []
  | ch :: rest =>
      if isswsp ch then compressLoop true rest
      else (if ws then [32] else []) ++ ch :: compressLoop false rest

def compressSWSP (b : Bytes) : Bytes := compressLoop false b

def lower (ch : Byte) : Byte := if 65 ≤ ch ∧ ch ≤ 90 then ch + 32 else ch

/-- `RelaxHeader`. -/
def relaxHeader (h : Bytes) : Bytes :=
  let t := compressSWSP h
  match t.findIdx? (· = 58) with
  | none => t
  | some cpos =>
      let name := (t.take cpos).map lower
      let value := t.drop (cpos + 1)
      let value := if value.head? = some 32 then value.tail else value
      let name := if name.getLast? = some 32 then name.dropLast else name
      name ++ 58 :: value

/-- The characters before a colon, in lower case. -/
def lowerName : Bytes → Bytes
  | [] => []
  | ch :: rest => if ch = 0 ∨ ch = 58 then ch :: rest else lower ch :: lowerName rest

def canonHeader : Canon → Bytes → Bytes
  | .simple, h => h
  | .relaxed, h => relaxHeader h
  | .nowsp, h => lowerName (removeSWSP h)

/-- A line of the body as it is hashed, and as it is left behind. -/
def canonLine : Canon → Bytes → Bytes
  | .simple, b => b
  | .relaxed, b => compressSWSP b
  | .nowsp, b => removeSWSP b

/-! ## Signatures -/

inductive HashAlg
  | sha1
  | sha256
  deriving DecidableEq, Repr

inductive Method
  | rsa
  | ed25519
  deriving DecidableEq, Repr

/-- What `ParseDKIMSignature` makes of a header: `status` is what it returns, `stripped` the
header without the value of `b=`. -/
structure Signature where
  status : Int
  hash : HashAlg
  domain : Bytes
  selector : Bytes
  signatureData : Bytes
  bodyHash : Bytes
  identityLocalPart : Bytes
  identityDomain : Bytes
  signedHeaders : List Bytes
  bodyLength : Option Nat
  headerCanon : Canon
  bodyCanon : Canon
  stripped : Bytes
  deriving DecidableEq, Repr

/-- `SelectorInfo`; `keyEd` tells that the key is one for ed25519. -/
structure SelectorInfo where
  status : Int
  granularity : Bytes
  allowSHA1 : Bool
  allowSHA256 : Bool
  testing : Bool
  sameDomain : Bool
  method : Method
  keyEd : Bool
  publicKey : Bytes
  deriving DecidableEq, Repr

/-- What is outside: the record of a selector and a domain, the digest, `EVP_VerifyFinal` and
`EVP_DigestVerify`; and the option for From headers that are not signed. -/
structure Env where
  record : Bytes → Bytes → SelectorInfo
  digest : HashAlg → Bytes → Bytes
  verifyFinal : HashAlg → Bytes → Bytes → Bytes → Int
  digestVerify : Bytes → Bytes → Bytes → Int
  allowUnsignedFrom : Bool

/-- `SignatureInfo`. `hdr` and `bdy` are the bytes that were put into its digests, `checked` the
bytes its signature was checked over. -/
structure SignatureInfo where
  sig : Signature
  status : Int
  selector : Option SelectorInfo := none
  hdr : Bytes := []
  bdy : Bytes := []
  emptyLineCount : Nat := 0
  verifiedBodyCount : Nat := 0
  unverifiedBodyCount : Nat := 0
  checked : Option Bytes := none
  deriving DecidableEq, Repr

def Signature.info (s : Signature) : SignatureInfo := { sig := s, status := s.status }

/-- `Hash`, for what is not of the body: the digest and `SigHdr`. -/
def hashHeader (b : Bytes) (p : SignatureInfo × Bytes) : SignatureInfo × Bytes :=
  ({ p.1 with hdr := p.1.hdr ++ b }, p.2 ++ b)

/-- The bytes of `b` within the length of the body that is signed, and the counts. -/
def limit (b : Bytes) (i : SignatureInfo) : Bytes × SignatureInfo :=
  match i.sig.bodyLength with
  | none => (b, i)
  | some len =>
      let count := i.verifiedBodyCount + b.length
      if len < count then
        (b.take (len - i.verifiedBodyCount),
          { i with
            unverifiedBodyCount := i.unverifiedBodyCount + (count - len)
            verifiedBodyCount := len })
      else (b, { i with verifiedBodyCount := count })

/-- `Hash`, for the body: without a body hash it goes where the headers go. -/
def hashBody (b : Bytes) (p : SignatureInfo × Bytes) : SignatureInfo × Bytes :=
  let (b, i) := limit b p.1
  if i.sig.bodyHash ≠ [] then ({ i with bdy := i.bdy ++ b }, p.2) else hashHeader b (i, p.2)

/-! ## Headers -/

/-- `_strnicmp` finds no difference in the first `n` characters. -/
def strnieq (a b : Bytes) (n : Nat) : Bool :=
  ((cstr a).take n).map lower = ((cstr b).take n).map lower

/-- The header `h` is one of the name `name`. -/
def isHeader (name h : Bytes) : Bool :=
  strnieq h name name.length &&
    (((cstr h).drop name.length).dropWhile fun ch => ch = 32 || ch = 9).head? = some 58

/-- The last header of the name that is not in `used`. -/
def pick (headers : List Bytes) (used : List Nat) (name : Bytes) : Option Nat :=
  (List.range headers.length).reverse.find? fun k =>
    isHeader name (headers.getD k []) && !used.contains k

/-- The headers that are signed, in the order they are hashed, by their places in the message. -/
def usedHeaders (headers : List Bytes) (names : List Bytes) : List Nat :=
  names.foldl (fun used name =>
    match pick headers used name with
    | none => used
    | some k => used ++ [k]) []

/-- The bytes of the headers that are hashed. -/
def headerBytes (headers : List Bytes) (s : Signature) : Bytes :=
  ((usedHeaders headers s.signedHeaders).flatMap fun k =>
    canonHeader s.headerCanon (headers.getD k []) ++ [13, 10]) ++
      if s.bodyHash = [] then [13, 10] else []

/-- There is a From header that is not signed. -/
def unsignedFrom (headers : List Bytes) (s : Signature) : Bool :=
  (List.range headers.length).any fun k =>
    isHeader (asc "From") (headers.getD k []) && !(usedHeaders headers s.signedHeaders).contains k

/-- `WildcardMatch`. -/
def wildcardMatch (p s : Bytes) : Bool :=
  if p = [] then false
  else
    match p.findIdx? (· = 42) with
    | none => s = p
    | some k =>
        decide ((p.take k).length + (p.drop (k + 1)).length ≤ s.length) &&
          s.take k = p.take k && (p.drop (k + 1)).isSuffixOf s

/-- The selectors that were asked for, with the names that were used. -/
abbrev Selectors := List ((Bytes × Bytes) × SelectorInfo)

/-- `_stricmp` finds no difference. -/
def strieq (a b : Bytes) : Bool := (cstr a).map lower = (cstr b).map lower

/-- `GetSelector`. -/
def getSelector (env : Env) (selectors : Selectors) (selector domain : Bytes) :
    SelectorInfo × Selectors :=
  match selectors.find? fun e => strieq e.1.1 selector && strieq e.1.2 domain with
  | some e => (e.2, selectors)
  | none =>
      (env.record selector domain, selectors ++ [((selector, domain), env.record selector domain)])

/-- The status after the checks of a signature against its selector. -/
def checkSelector (s : Signature) (sel : SelectorInfo) : Int :=
  let status := 0
  let status := if !wildcardMatch sel.granularity s.identityLocalPart then -7 else status
  let status :=
    if (s.hash = .sha1 && !sel.allowSHA1) || (s.hash = .sha256 && !sel.allowSHA256) then -16
    else status
  if sel.sameDomain && !strieq s.domain s.identityDomain then -19 else status

/-- What the signatures share. -/
structure Shared where
  selectors : Selectors := []
  sigHdr : Bytes := []

/-- One round of the loop of `ProcessHeaders`, and whether it returns there. -/
def startSignature (env : Env) (headers : List Bytes) (sh : Shared) (i : SignatureInfo) :
    SignatureInfo × Shared × Bool :=
  if i.status ≠ 0 then (i, sh, false)
  else
    let (sel, selectors) := getSelector env sh.selectors i.sig.selector i.sig.domain
    let sh := { sh with selectors := selectors }
    let i := { i with selector := some sel }
    if sel.status ≠ 0 then ({ i with status := sel.status }, sh, true)
    else
      let i := { i with status := checkSelector i.sig sel }
      if i.status ≠ 0 then (i, sh, false)
      else
        let sigHdr := if i.sig.hash = .sha256 then [] else sh.sigHdr
        let (i, sigHdr) := hashHeader (headerBytes headers i.sig) (i, sigHdr)
        let sh := { sh with sigHdr := sigHdr }
        if !env.allowUnsignedFrom && unsignedFrom headers i.sig then
          ({ i with status := -18 }, sh, false)
        else (i, sh, false)

/-- The loop. -/
def startSignatures (env : Env) (headers : List Bytes) :
    Shared → List SignatureInfo → List SignatureInfo × Shared × Bool
  | sh, [] => ([], sh, false)
  | sh, i :: is =>
      match startSignature env headers sh i with
      | (i, sh, true) => (i :: is, sh, true)
      | (i, sh, false) =>
          let (is, e) := startSignatures env headers sh is
          (i :: is, e)

/-- `ProcessHeaders`, from the signatures that were found: the last component tells whether it
returns `DKIM_SUCCESS`. -/
def processHeaders (env : Env) (headers : List Bytes) (sigs : List Signature) :
    List SignatureInfo × Bytes × Bool :=
  let (is, sh, stopped) := startSignatures env headers {} (sigs.map Signature.info)
  (is, sh.sigHdr, !stopped && is.any fun i => i.status = 0)

/-! ## The body -/

/-- The empty lines that were put off. -/
def hashEmptyLines : Nat → SignatureInfo × Bytes → SignatureInfo × Bytes
  | 0, p => p
  | n + 1, p => hashEmptyLines n (hashBody [13, 10] p)

/-- One signature, for the line `b` as it is canonicalized for it. -/
def bodyLine (bEOF : Bool) (b : Bytes) (p : SignatureInfo × Bytes) : SignatureInfo × Bytes :=
  match p.1.sig.bodyCanon with
  | .simple =>
      if b ≠ [] then
        let p := hashEmptyLines p.1.emptyLineCount ({ p.1 with emptyLineCount := 0 }, p.2)
        hashBody [13, 10] (hashBody b p)
      else
        let p := ({ p.1 with emptyLineCount := p.1.emptyLineCount + 1 }, p.2)
        if bEOF then hashBody [13, 10] p else p
  | .relaxed =>
      if b ≠ [] then
        let p := hashEmptyLines p.1.emptyLineCount ({ p.1 with emptyLineCount := 0 }, p.2)
        let p := hashBody b p
        if bEOF then p else hashBody [13, 10] p
      else ({ p.1 with emptyLineCount := p.1.emptyLineCount + 1 }, p.2)
  | .nowsp => hashBody b p

/-- `ProcessBody`: every signature leaves the line as it was canonicalized for it. -/
def processBody (bEOF : Bool) : Bytes → Bytes → List SignatureInfo → List SignatureInfo × Bytes
  | _, sigHdr, [] => ([], sigHdr)
  | szBuffer, sigHdr, i :: is =>
      if i.status ≠ 0 then
        let (is, sigHdr) := processBody bEOF szBuffer sigHdr is
        (i :: is, sigHdr)
      else
        let szBuffer := canonLine i.sig.bodyCanon szBuffer
        let (i, sigHdr) := bodyLine bEOF szBuffer (i, sigHdr)
        let (is, sigHdr) := processBody bEOF szBuffer sigHdr is
        (i :: is, sigHdr)

def processLines : List (Bytes × Bool) → Bytes → List SignatureInfo → List SignatureInfo × Bytes
  | [], sigHdr, is => (is, sigHdr)
  | (b, bEOF) :: rest, sigHdr, is =>
      let (is, sigHdr) := processBody bEOF b sigHdr is
      processLines rest sigHdr is

/-! ## Results -/

/-- The header of the signature as it is hashed. -/
def signedSig (s : Signature) : Bytes :=
  match s.headerCanon with
  | .simple => s.stripped
  | .relaxed => relaxHeader s.stripped
  | .nowsp => asc "dkim-signature" ++ (removeSWSP s.stripped).drop 14

/-- One round of the loop of `GetResults`; `none` where a null selector is used. -/
def result (env : Env) (p : SignatureInfo × Bytes) : Option (SignatureInfo × Bytes) :=
  let i := p.1
  if i.status ≠ 0 then some p
  else
    match i.selector with
    | none => none
    | some sel =>
        if i.sig.bodyHash ≠ [] ∧ env.digest i.sig.hash i.bdy ≠ i.sig.bodyHash then
          some ({ i with status := if sel.testing then -4 else -15 }, p.2)
        else
          let p := if i.sig.bodyHash = [] then hashHeader [13, 10] p else p
          let (i, sigHdr) := hashHeader (signedSig i.sig) p
          let (res, checked) :=
            if sel.method = .rsa then
              (env.verifyFinal i.sig.hash i.hdr i.sig.signatureData sel.publicKey, some i.hdr)
            else if sel.keyEd then
              (env.digestVerify sigHdr i.sig.signatureData sel.publicKey, some sigHdr)
            else (-1, some [])
          let status :=
            if res = 1 then (if i.unverifiedBodyCount = 0 then 0 else 4)
            else if sel.testing then -4 else -3
          some ({ i with status := status, checked := checked },
            sigHdr.take (sigHdr.length - (signedSig i.sig).length))

/-- `GetResults`, the loop. -/
def getResults (env : Env) : Bytes → List SignatureInfo → Option (List SignatureInfo)
  | _, [] => some []
  | sigHdr, i :: is => do
      let (i, sigHdr) ← result env (i, sigHdr)
      let is ← getResults env sigHdr is
      return i :: is

/-- A message is processed: its headers, and the lines of its body, each with `bEOF`; there is no
body where the headers do not end. Where `ProcessHeaders` fails, the callers ask for nothing
more, unless it is called at the end. `none` where a null selector is used. -/
def verify (env : Env) (headers : List Bytes) (body : Option (List (Bytes × Bool)))
    (sigs : List Signature) : Option (List SignatureInfo) :=
  let (is, sigHdr, ok) := processHeaders env headers sigs
  match body with
  | some lines =>
      if ok then
        let (is, sigHdr) := processLines lines sigHdr is
        getResults env sigHdr is
      else some is
  | none =>
      let (is, sigHdr) := processBody true [] sigHdr is
      getResults env sigHdr is

end IndimailMta.Dkim
