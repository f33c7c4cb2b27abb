import IndimailMta.Dns.Records
import IndimailMta.Ip.Text
import IndimailMta.Lib.SwapRemove

/-!
# The addresses of a domain

`dns_mxip` asks for the MX records of a domain and appends the addresses of each of them, those with
the smallest preference first. `dns_ipplus` asks for the AAAA and then for the A records of one name;
a name that is an address is not asked for. Each of the two lookups has an error of its own, and one
of them is returned if there are both.

What the resolver makes of a name and a type is an argument. The program is compiled with IPv6 and
with TLS, and there is memory for the lists.
-/

namespace IndimailMta.Dns

open IndimailMta Ip SwapRemove

/-- `af` and `addr` of an address. -/
inductive Addr where
  | ip (d : Bytes)
  | ip6 (d : Bytes)
  deriving DecidableEq, Repr

/-- `struct ip_mx`. -/
structure IpMx where
  addr : Addr
  pref : Nat
  fqdn : Option Bytes
  deriving DecidableEq, Repr

/-- `struct mx` of `dns_mxip`. -/
structure Mx where
  sa : Bytes
  p : Nat
  deriving DecidableEq, Repr

def tA : Nat := 1

def tMX : Nat := 15

def tAAAA : Nat := 28

variable (tx : Texts) (net : Bytes → Nat → Net)

/-- A name is read to its end. -/
def toEnd (s : Bytes) : Option (Nat × Bytes) → Option Bytes
  | none => none
  | some (len, ip) => if len = s.length then some ip else none

/-- The address that a name is, bare or in brackets. -/
def literal (s : Bytes) : Option Bytes :=
  if s = [] then none
  else
    match toEnd s (ip4_scan tx s) with
    | some ip => some ip
    | none => toEnd s (ip4_scanbracket tx s)

/-- `while ((r = find(wanttype)) != 2)`: an item for each record of the type, up to a soft error, and
the error. -/
def collect {α : Type} (find : State → Answer) (item : State → α) : Nat → State → List α × Int
  | 0, _ => ([], 0)
  | n + 1, s =>
      let a := find s
      if a.code = 2 then ([], 0)
      else if a.code = dnsSoft then ([], dnsSoft)
      else
        let r := collect find item n a.state
        if a.code = 1 then (item a.state :: r.1, r.2) else r

/-- A lookup with the loop behind it. -/
def lookup {α : Type} (find : Response → Nat → State → Answer) (item : State → α) (wanttype : Nat)
    (domain : Bytes) : List α × Int :=
  let r := resolve (net domain wanttype)
  match r.found with
  | none => ([], r.code)
  | some (rsp, s) => collect (find rsp wanttype) item s.numanswers s

def lookupIp6 (domain : Bytes) : List Bytes × Int := lookup net findip6 State.ip6 tAAAA domain

def lookupIp (domain : Bytes) : List Bytes × Int := lookup net findip State.ip tA domain

def lookupMx (domain : Bytes) : List Mx × Int :=
  lookup net findmx (fun s => ⟨s.name, s.pref⟩) tMX domain

/-- `dns_ipplus`, for the content of `sa`. -/
def dns_ipplus (ia : List IpMx) (glue : Bytes) (prefv : Nat) : Int × List IpMx :=
  match literal tx glue with
  | some ip => (0, ia ++ [⟨.ip ip, 0, none⟩])
  | none =>
      let six := lookupIp6 net glue
      let ia := ia ++ six.1.map fun ip6 => ⟨.ip6 ip6, prefv, some glue⟩
      let four := lookupIp net glue
      let ia := ia ++ four.1.map fun ip => ⟨.ip ip, prefv, some glue⟩
      (if four.2 ≠ 0 ∧ six.2 ≠ 0 then four.2 else 0, ia)

def dns_ip (glue : Bytes) : Int × List IpMx := dns_ipplus tx net [] glue 0

/-- The variables of the search for the smallest preference. -/
structure Pick where
  i : Nat
  numsame : Nat
  random : UInt64

def Pick.step (mx : List Mx) (s : Pick) (j : Nat) : Pick :=
  if (mx.getD j ⟨[], 0⟩).p < (mx.getD s.i ⟨[], 0⟩).p then ⟨j, 1, s.random⟩
  else if (mx.getD j ⟨[], 0⟩).p = (mx.getD s.i ⟨[], 0⟩).p then
    let random := s.random * 69069 + 1
    if (random / 2).toNat < 2147483647 / (s.numsame + 1) then ⟨j, s.numsame + 1, random⟩
    else ⟨s.i, s.numsame + 1, random⟩
  else s

/-- The place that is found, and the new value of `random`. -/
def pick (random : UInt64) (mx : List Mx) : Nat × UInt64 :=
  let s := ((List.range (mx.length - 1)).map (· + 1)).foldl (Pick.step mx) ⟨0, 1, random⟩
  (s.i, s.random)

/-- `while (nummx > 0)`. -/
def expand : Nat → UInt64 → List Mx → Int → List IpMx → Int × List IpMx
  | 0, _, _, flagsoft, ia => (flagsoft, ia)
  | nummx + 1, random, mx, flagsoft, ia =>
      let r := pick random mx
      let m := mx.getD r.1 ⟨[], 0⟩
      let s := dns_ipplus tx net ia m.sa m.p
      let flagsoft := if s.1 = dnsMem ∨ s.1 = dnsSoft then 1 else flagsoft
      expand nummx r.2 (swapRemove mx r.1) flagsoft s.2

/-- `dns_mxip`, for the content of `sa`. -/
def dns_mxip (glue : Bytes) (random : UInt64) : Int × List IpMx :=
  match literal tx glue with
  | some ip => (0, [⟨.ip ip, 0, some glue⟩])
  | none =>
      let mx := lookupMx net glue
      if mx.2 = dnsHard then dns_ip tx net glue
      else if mx.2 ≠ 0 then (mx.2, [])
      else if mx.1 = [] then dns_ip tx net glue
      else expand tx net mx.1.length random mx.1 0 []

end IndimailMta.Dns
