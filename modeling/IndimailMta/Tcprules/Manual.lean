import IndimailMta.Tcprules.Compile

/-!
# What the rules mean

What `tcprules(1)` says, in its own terms. A line is an address, a colon and instructions
(`Reads`); a range is an abbreviation for several addresses; an address stands for connections
(`Denotes`), at one of the levels in which rules are looked for. `Selected` is the first rule of
the first level that has one.
-/

namespace IndimailMta.Tcprules

open IndimailMta Lines

/-! ## Lines -/

/-- The text of an instruction. The quotes around a value may be any byte that is not in it. -/
inductive OpText : Op → Bytes → Prop
  | set {var value : Bytes} {q : Byte} (hvar : 61 ∉ var ∧ 44 ∉ var) (hq : q ∉ value) :
      OpText (.set var value) (44 :: var ++ 61 :: q :: value ++ [q])
  | unset {var : Bytes} (hne : var ≠ []) (hvar : 61 ∉ var ∧ 44 ∉ var) :
      OpText (.unset var) (44 :: 33 :: var)

/-- The text of a list of instructions, without `allow` or `deny`. -/
inductive OpsText : List Op → Bytes → Prop
  | nil : OpsText [] []
  | cons {op : Op} {ops : List Op} {t rest : Bytes} (h : OpText op t) (hr : OpsText ops rest) :
      OpsText (op :: ops) (t ++ rest)

/-- A line: the address is what is before the first colon that `allow` or `deny` follows. -/
def LineText (address : Bytes) (i : Instructions) (line : Bytes) : Prop :=
  ∃ t, OpsText i.ops t ∧
    line = address ++ 58 :: ((if i.deny then Tcprules.deny else allow) ++ t) ∧
    ∀ p q, address = p ++ 58 :: q →
      verbAt (q ++ 58 :: ((if i.deny then Tcprules.deny else allow) ++ t)) = false

/-- `1.2.3.37-53`: two numbers with a dash between them, after a dot or at the beginning. -/
structure IsRange (a pre lo hi post : Bytes) : Prop where
  eq : a = pre ++ lo ++ 45 :: hi ++ post
  plain : 61 ∉ a ∧ 64 ∉ a
  pre_eq : 45 ∉ pre ∧ (pre = [] ∨ pre.getLast? = some 46)
  lo_digits : ∀ b ∈ lo, isDigit b = true
  hi_digits : ∀ b ∈ hi, isDigit b = true
  post_eq : post = [] ∨ post.head? = some 46

/-- A range is an abbreviation for `1.2.3.37` and so on up to `1.2.3.53`. -/
inductive Addresses (sc : Scanners) (a : Bytes) : List Bytes → Prop
  | one (h : 61 ∈ a ∨ 64 ∈ a ∨ 45 ∉ a) : Addresses sc a [a]
  | range {pre lo hi post : Bytes} (h : IsRange a pre lo hi post) :
      Addresses sc a (((List.range 256).filter fun k => digitsValue lo ≤ k ∧ k ≤ digitsValue hi).map
        fun k => pre ++ sc.fmtUlong k ++ post)

/-- A rule. -/
structure Rule where
  address : Bytes
  instructions : Instructions

/-- The rules of a line. -/
def LineRules (sc : Scanners) (line : Bytes) (rs : List Rule) : Prop :=
  ∃ a i as, LineText a i (stripped line) ∧ Addresses sc a as ∧ rs = as.map fun x => ⟨x, i⟩

/-- A comment, or nothing. -/
def Comment (line : Bytes) : Prop := line.head? = some 35 ∨ line.head? = some 10

instance (line : Bytes) : Decidable (Comment line) := inferInstanceAs (Decidable (_ ∨ _))

/-- The rules of a text; every line that is no comment has at least one. -/
def Reads (sc : Scanners) (text : Bytes) (rs : List Rule) : Prop :=
  ∃ rss, List.Forall₂ (fun line rs => LineRules sc line rs ∧ rs ≠ [])
    ((lines 10 text).filter fun line => ¬ Comment line) rss ∧ rs = rss.flatten

/-! ## Addresses -/

/-- The text of an address, and its octets. -/
def IpText (t bs : Bytes) : Prop := Ip4 t bs ∨ Ip6 t bs

/-- Two notations of one address. -/
def SameIp (t ip : Bytes) : Prop := ∃ bs, IpText t bs ∧ IpText ip bs

/-- The number of bits that a prefix ending with a dot gives. -/
def prefixBits (ip a : Bytes) : Nat := 8 * a.count 46 + if 58 ∈ ip then 96 else 0

/-- A prefix of the address that ends with a dot, of `n` bits. -/
def DottedPrefix (ip : Bytes) (n : Nat) (a : Bytes) : Prop :=
  a <+: ip ∧ a.getLast? = some 46 ∧ prefixBits ip a = n

/-- A net in CIDR notation, of `n` bits; the octets that follow them may be left out. -/
def Cidr (ip : Bytes) (n : Nat) (a : Bytes) : Prop :=
  ∃ t mask net bs, a = t ++ 47 :: mask ∧ mask ≠ [] ∧ (∀ b ∈ mask, isDigit b = true) ∧
    digitsValue mask = n ∧ IpText ip bs ∧ n ≤ 8 * bs.length ∧
    (Ip6 t net ∧ bs.length = 16 ∨ Dotted t net ∧ bs.length = 4 ∧ net.length ≤ 4) ∧
    n ≤ 8 * net.length ∧ (net.flatMap octetBits).take n = (bs.flatMap octetBits).take n

/-! ## Levels -/

/-- A connection: its address, its host name, and what its host says of it. -/
structure Remote where
  ip : Bytes
  host : Option Bytes
  info : Option Bytes

/-- Where a rule is looked for. -/
inductive Level
  | infoIp
  | infoHost
  | ip
  | host
  | net (bits : Nat)
  | suffix (len : Nat)
  | equals
  | empty
  deriving DecidableEq, Repr

/-- The place of a level, and of a net or a suffix among them: the longest is the first. -/
def Level.place : Level → Nat × Nat
  | .infoIp => (0, 0)
  | .infoHost => (1, 0)
  | .ip => (2, 0)
  | .host => (3, 0)
  | .net n => (4, n)
  | .suffix n => (5, n)
  | .equals => (6, 0)
  | .empty => (7, 0)

/-- One level comes before another. -/
def Level.before (l k : Level) : Prop :=
  l.place.1 < k.place.1 ∨ l.place.1 = k.place.1 ∧ k.place.2 < l.place.2

/-- The address of a rule stands for a connection, at a level. -/
def Denotes (r : Remote) : Level → Bytes → Prop
  | .infoIp, a => ∃ i n, r.info = some i ∧ a = i ++ 64 :: n ∧ SameIp n r.ip
  | .infoHost, a => ∃ i h, r.info = some i ∧ r.host = some h ∧ a = i ++ 64 :: 61 :: h
  | .ip, a => SameIp a r.ip
  | .host, a => ∃ h, r.host = some h ∧ a = 61 :: h
  | .net n, a => DottedPrefix r.ip n a ∨ Cidr r.ip n a
  | .suffix n, a => ∃ h s, r.host = some h ∧ s <:+ h ∧ s.head? = some 46 ∧ s.length = n ∧
      a = 61 :: s
  | .equals, a => r.host ≠ none ∧ a = [61]
  | .empty, a => a = []

/-- The first rule of the first level that has one. -/
def SelectedAt (rs : List Rule) (r : Remote) (l : Level) (rule : Rule) : Prop :=
  (∃ pre post, rs = pre ++ rule :: post ∧ ∀ x ∈ pre, ¬ Denotes r l x.address) ∧
    Denotes r l rule.address ∧
    ∀ k, k.before l → ∀ x ∈ rs, ¬ Denotes r k x.address

/-- **The rule that is followed**, if there is one. -/
inductive Selected (rs : List Rule) (r : Remote) : Option Rule → Prop
  | some (l : Level) (rule : Rule) (h : SelectedAt rs r l rule) : Selected rs r (some rule)
  | none (h : ∀ l, ∀ x ∈ rs, ¬ Denotes r l x.address) : Selected rs r none

end IndimailMta.Tcprules
