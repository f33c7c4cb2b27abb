import IndimailMta.Tcprules.Manual

/-!
# rules

How `rules` looks a connection up in the `cdb` file: the keys it tries, one after the other. What
`stralloc` leaves after the string that was copied last is a `Z` and bytes of earlier strings
(`beyond`); `ip6tobitstring` and the copies of `ipstring` read on into it.
-/

namespace IndimailMta.Tcprules

open IndimailMta

variable (sc : Scanners) (db : List Record)

/-- `dorule`: the first record of the key. -/
def dorule (rules_name : Bytes) : Option Record := db.find? fun r => r.key = rules_name

/-- A loop over keys. -/
def dorules (names : List Bytes) : Option Record := names.findSome? (dorule db)

/-- The buffer of a string. -/
def buffer (s beyond : Bytes) : Bytes := s ++ 90 :: beyond

/-- 1. and 2. An address that cannot be expanded adds nothing to the name. -/
def infoRules (ipv6 : Bool) (ip : Bytes) (host info : Option Bytes) : Option Record :=
  match info with
  | none => none
  | some info =>
      let r := dorule db (info ++ 64 ::
        if ipv6 then (ip6_expandaddr sc ip).getD [] else ip)
      match r, host with
      | some r, _ => some r
      | none, some host => dorule db (info ++ 64 :: 61 :: host)
      | none, none => none

/-- 3. -/
def ipRules (ipv6 : Bool) (ip : Bytes) : Option Record :=
  (if ipv6 then (ip6_expandaddr sc ip).bind (dorule db) else none).or (dorule db ip)

/-- 4. -/
def hostRule (host : Option Bytes) : Option Record :=
  host.bind fun host => dorule db (61 :: host)

/-- 5. The shorter and shorter prefixes that end with a dot, or a colon. -/
def prefixes (ip : Bytes) : List Bytes :=
  ((List.range ip.length).map fun k => ip.take (ip.length - k)).filter fun p =>
    p.getLast? = some 46 || p.getLast? = some 58

/-- The lengths of the bit strings, the longest first. -/
def bitKeys (letter : Byte) (ipstring beyond : Bytes) (most : Nat) : List Bytes :=
  (List.range most).map fun k => letter :: (buffer ipstring beyond).take (most + 1 - k)

/-- 6. What is in the buffer of `rules_name` is the name that was looked for last. -/
def netRules (beyond : Bytes) (ipv6 : Bool) (ip : Bytes) (host : Option Bytes) : Option Record :=
  if ipv6 then
    let rules_name := match host with
      | none => ip
      | some host => 61 :: host
    match ip6tobitstring sc (buffer rules_name beyond) 128 with
    | none => none
    | some ipstring => dorules db (bitKeys 94 ipstring beyond 128)
  else
    (dorules db (prefixes ip)).or
      (dorules db (bitKeys 95 (getaddressasbit sc ip 32) beyond 32))

/-- 7. and 8. -/
def suffixRules (host : Option Bytes) : Option Record :=
  match host with
  | none => none
  | some host =>
      (dorules db ((host.tails.filter fun s => s.head? = some 46).map fun s => 61 :: s)).or
        (dorule db [61])

/-- `rules`: the record it calls back with. -/
def rules (beyond : Bytes) (ip : Bytes) (host info : Option Bytes) : Option Record :=
  let ipv6 : Bool := 58 ∈ ip
  (infoRules sc db ipv6 ip host info).or <| (ipRules sc db ipv6 ip).or <| (hostRule db host).or <|
    (netRules sc db beyond ipv6 ip host).or <| (suffixRules db host).or <| dorule db []

end IndimailMta.Tcprules
