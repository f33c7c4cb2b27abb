import IndimailMta.Lib.Splits
import IndimailMta.Spf.Addresses

/-!
# Macros

`spfexpand` copies a text and has `spfsubst` append what each macro stands for. `spfsubst` loads the
value of the letter into a buffer that keeps its content between macros, cuts parts off it by its
delimiters, and appends them to the output, in their order or in reverse.

The delimiters of a macro that is not reversed are replaced in the whole output. A letter without a
value leaves the buffer as it is.
-/

namespace IndimailMta.Spf

open IndimailMta Tcprules Ip Lib.Splits

/-! ## The code -/

/-- `byte_cspn`: the first byte that is one of `c`, the length if there is none. -/
def byteCspn (s c : Bytes) : Nat := s.findIdx fun x => decide (x ∈ c)

/-- `byte_rcspn`: the last byte that is one of `c`, the length if there is none. -/
def byteRcspn (s c : Bytes) : Nat :=
  match s.reverse.findIdx? fun x => decide (x ∈ c) with
  | some k => s.length - 1 - k
  | none => s.length

/-- What the resolver returns for the client's address. -/
inductive DnsPtr where
  | DNS_MEM
  | DNS_SOFT
  | DNS_HARD
  | found (ssa : List Bytes)

/-- What a check has set before it expands: the sender without its NUL, the names, the address of
the client, the time, and the resolver. -/
structure Site where
  tx : Texts
  addr : Bytes
  helohost : Bytes
  localhost : Bytes
  expdomain : Bytes
  statics : Statics
  now : Nat
  dns_ptr : DnsPtr
  dns_ip : Bytes → Dns

/-- What macros leave to those behind them: the buffer, the name of the client, and the text of the
last error. -/
structure Held where
  sa : Bytes
  sender_fqdn : Bytes
  errormsg : Bytes
  deriving DecidableEq, Repr

/-- The domain is the name, or the end of it behind a dot. -/
def endsIn (spec name : Bytes) : Bool :=
  let pos := name.length - spec.length
  spec.length ≤ name.length && (pos == 0 || (name.take pos).getLast? == some 46) &&
    caseLower (name.drop pos) == caseLower spec

/-- The addresses of one name: the name that is kept, and the result. -/
def overAddresses (st : Statics) (spec name : Bytes) (r : Result) :
    Bytes → List Address → Bytes × Result
  | sender_fqdn, [] => (sender_fqdn, r)
  | sender_fqdn, x :: ia =>
      let matched := match x with
        | .inet ip => matchip ip 32 st.ip
        | .inet6 ip6 => matchip6 ip6 128 st.ip6
        | .other => false
      if matched then
        let sender_fqdn := if sender_fqdn = [] then name else sender_fqdn
        if endsIn spec name then (name, .SPF_OK)
        else overAddresses st spec name r sender_fqdn ia
      else overAddresses st spec name r sender_fqdn ia

/-- The names of the client. -/
def overNames (e : Site) (spec : Bytes) : Held → Result → List Bytes → Held × Result
  | h, r, [] => (h, r)
  | h, r, name :: ssa =>
      match e.dns_ip name with
      | .DNS_MEM => (h, .SPF_NOMEM)
      | .DNS_SOFT => ({ h with errormsg := asc "DNS problem" }, .SPF_ERROR)
      | .DNS_HARD => overNames e spec h r ssa
      | .found ia =>
          let q := overAddresses e.statics spec name r h.sender_fqdn ia
          overNames e spec { h with sender_fqdn := q.1 } q.2 ssa

def spf_ptr (e : Site) (h : Held) (spec : Bytes) : Held × Result :=
  if h.sender_fqdn = asc "unknown" then (h, .SPF_NONE)
  else if h.sender_fqdn ≠ [] ∧ endsIn spec h.sender_fqdn then (h, .SPF_OK)
  else
    let q := match e.dns_ptr with
      | .DNS_MEM => (h, .SPF_NOMEM)
      | .DNS_SOFT => ({ h with errormsg := asc "DNS problem" }, .SPF_ERROR)
      | .DNS_HARD => (h, .SPF_NONE)
      | .found ssa => overNames e spec h .SPF_NONE ssa
    if q.2 ≠ .SPF_NOMEM ∧ q.1.sender_fqdn = [] then
      ({ q.1 with sender_fqdn := asc "unknown" }, q.2)
    else q

/-- The `switch` of `spfsubst`. -/
def load (e : Site) (h : Held) (domain_p : Bytes) (ch : Byte) : Held :=
  -- l
  if ch = 108 then
    let pos := byteRchr (e.addr ++ [0]) 64
    { h with sa := if pos < e.addr.length + 1 then e.addr.take pos else asc "postmaster" }
  -- s
  else if ch = 115 then { h with sa := e.addr }
  -- o
  else if ch = 111 then
    let pos := byteRchr (e.addr ++ [0]) 64 + 1
    if e.addr.length + 1 < pos then h else { h with sa := e.addr.drop pos }
  -- d
  else if ch = 100 then { h with sa := domain_p }
  -- i
  else if ch = 105 then
    { h with
      sa := if e.statics.ipv6use then ip6_fmt e.tx e.statics.ip6.1
        else ip4_fmt e.tx e.statics.ip.1 }
  -- t
  else if ch = 116 then { h with sa := e.tx.fmtUlong e.now }
  -- p
  else if ch = 112 then
    let h := if h.sender_fqdn = [] then (spf_ptr e h domain_p).1 else h
    { h with sa := if h.sender_fqdn ≠ [] then h.sender_fqdn else asc "unknown" }
  -- v
  else if ch = 118 then
    { h with sa := if e.statics.ipv6use then asc "ip6" else asc "in-addr" }
  -- h
  else if ch = 104 then { h with sa := e.helohost }
  -- E
  else if ch = 69 then if h.errormsg ≠ [] then { h with sa := h.errormsg } else h
  -- R
  else if ch = 82 then { h with sa := e.localhost }
  -- S
  else if ch = 83 then
    { h with
      sa := if e.expdomain ≠ [] then asc "SPF record at " ++ cstr e.expdomain
        else asc "local policy" }
  else h

/-- The loop over digits. No value where it has not ended in so many turns. -/
def digitsLoop : Nat → Int → Bytes → Option (Int × Bytes)
  | 0, _, _ => none
  | _ + 1, digits, [] => some (digits, [])
  | turns + 1, digits, x :: spec =>
      if isDigit x then
        let digits := if digits < 0 then 0 else digits
        -- the text is not advanced
        if 1000000 ≤ digits then digitsLoop turns 10000000 (x :: spec)
        else digitsLoop turns (digits * 10 + (x.toNat - 48 : Nat)) spec
      else some (digits, x :: spec)

def isLetter (x : Byte) : Bool := 97 ≤ x && x ≤ 122 || 65 ≤ x && x ≤ 90

/-- The loop over letters. -/
def lettersLoop : Bool → Bytes → Bool × Bytes
  | reverse, x :: spec =>
      if isLetter x then lettersLoop (if x = 114 then true else reverse) spec
      else (reverse, x :: spec)
  | reverse, [] => (reverse, [])

/-- The first loop of a reversed macro: the position behind the parts that are kept. -/
def keepFront (sa split : Bytes) : Nat → Nat → Int → Nat
  | 0, pos, _ => pos
  | turns + 1, pos, digits =>
      if digits = 0 then pos
      else
        let pos := pos + byteCspn (sa.drop pos) split
        if sa.length ≤ pos then pos
        else if digits - 1 = 0 then pos
        else keepFront sa split turns (pos + 1) (digits - 1)

/-- The second loop: what is appended. The last turn leaves -1, which ends the loop as 0 does. -/
def emit (sa split : Bytes) : Nat → Nat → Bytes
  | 0, _ => []
  | turns + 1, pos =>
      if pos = 0 then []
      else
        let i := byteRcspn (sa.take pos) split + 1
        let i := if pos < i then 0 else i
        (sa.take pos).drop i ++
          ((if 0 < i then [46] else []) ++ emit sa split turns (i - 1))

/-- The first loop of the others: the position of the parts that are kept. -/
def keepBack (sa split : Bytes) : Nat → Nat → Int → Nat
  | 0, pos, _ => pos
  | turns + 1, pos, digits =>
      if digits = 0 then pos
      else
        let i := byteRcspn (sa.take pos) split + 1
        if pos < i then 0
        else if digits - 1 = 0 then i
        else keepBack sa split turns (i - 1) (digits - 1)

/-- `urlchr_table`, up to DEL; every byte behind it is 1. -/
def urlchr_table : List Nat :=
  [1, 1, 1, 1, 1, 1, 1, 1,
   1, 1, 1, 1, 1, 1, 1, 1,
   1, 1, 1, 1, 1, 1, 1, 1,
   1, 1, 1, 1, 1, 1, 1, 1,
   1, 0, 1, 1, 0, 1, 1, 0,
   0, 0, 0, 1, 0, 0, 0, 1,
   0, 0, 0, 0, 0, 0, 0, 0,
   0, 0, 1, 1, 1, 1, 1, 1,
   1, 0, 0, 0, 0, 0, 0, 0,
   0, 0, 0, 0, 0, 0, 0, 0,
   0, 0, 0, 0, 0, 0, 0, 0,
   0, 0, 0, 1, 1, 1, 1, 0,
   1, 0, 0, 0, 0, 0, 0, 0,
   0, 0, 0, 0, 0, 0, 0, 0,
   0, 0, 0, 0, 0, 0, 0, 0,
   0, 0, 0, 1, 1, 1, 1, 1]

def hexdigits : Bytes := asc "0123456789abcdef"

/-- One turn of the loop that escapes. -/
def urlByte (ch : Byte) : Bytes :=
  if urlchr_table.getD ch.toNat 1 ≠ 0 then
    [37, hexdigits.getD (ch.toNat / 16) 0, hexdigits.getD (ch.toNat % 16) 0]
  else [ch]

def urlencode (sa : Bytes) : Bytes := sa.flatMap urlByte

/-- `spfsubst`, behind the text of the macro: what is left, and the output. -/
def substWith (e : Site) (h : Held) (expand domain_p : Bytes) (ch : Byte) (escaped : Bool)
    (digits : Int) (reverse : Bool) (split : Bytes) : Held × Bytes :=
  let start := expand.length
  let h := load e h domain_p ch
  let expand :=
    if reverse then
      expand ++ emit h.sa split (h.sa.length + 1)
        (keepFront h.sa split (h.sa.length + 1) 0 digits)
    else
      let expand := expand ++ h.sa.drop
        (keepBack h.sa split (h.sa.length + 1) h.sa.length digits)
      if split ≠ [46] then expand.map fun x => if x ∈ split then 46 else x else expand
  if escaped then
    ({ h with sa := expand.drop start }, expand.take start ++ urlencode (expand.drop start))
  else (h, expand)

def spfsubst (e : Site) (turns : Nat) (h : Held) (expand spec domain_p : Bytes) :
    Option (Held × Bytes) :=
  let i := spec.head? = some 120
  match (if i then spec.tail else spec) with
  | [] => some (h, expand)
  | ch :: spec =>
      let escaped := decide (65 ≤ ch ∧ ch ≤ 90)
      let ch := if escaped then ch + 32 else ch
      let ch := if i then ch - 32 else ch
      match digitsLoop turns (-1) spec with
      | none => none
      | some (digits, spec) =>
          let r := lettersLoop false spec
          let split := if r.2 ≠ [] then r.2 else [46]
          some (substWith e h expand domain_p ch escaped digits r.1 split)

/-- The loop of `spfexpand`, with the turns that it may take and those of each loop over digits. -/
def expandLoop (e : Site) (domain_p : Bytes) (n : Nat) :
    Nat → Held → Bytes → Bytes → Option (Held × Bytes)
  | 0, _, _, _ => none
  | _ + 1, h, sa, [] => some (h, sa)
  | turns + 1, h, sa, c :: p =>
      if c = 37 then
        match p with
        | 37 :: p => expandLoop e domain_p n turns h (sa ++ [37]) p
        | 95 :: p => expandLoop e domain_p n turns h (sa ++ [32]) p
        | 45 :: p => expandLoop e domain_p n turns h (sa ++ asc "%20") p
        | 123 :: q =>
            if 125 ∈ q then
              match spfsubst e n h sa (q.takeWhile (· ≠ 125)) domain_p with
              | none => none
              | some r => expandLoop e domain_p n turns r.1 r.2 (q.dropWhile (· ≠ 125)).tail
            else expandLoop e domain_p n turns h (sa ++ [37]) (123 :: q)
        | p => expandLoop e domain_p n turns h (sa ++ [37]) p
      else expandLoop e domain_p n turns h (sa ++ [c]) p

def spfexpand (e : Site) (n : Nat) (h : Held) (spec domain_p : Bytes) : Option (Held × Bytes) :=
  expandLoop e domain_p n (spec.length + 1) h [] spec

end IndimailMta.Spf
