import IndimailMta.Base

/-!
# Reading the answers of the DNS

`resolve` looks a domain up and goes over the questions of the response; each `find` function reads one
answer behind them. A position is an offset into the buffer, in which there is something at every
offset: what was read, from the header on, is recorded.

`dn_expand` is in the library of the system. It reads a name that is inside of the response, or none.
For a text that was found there is memory.
-/

namespace IndimailMta.Dns

open IndimailMta

/-- A response of `len` bytes in the buffer; `expand` is `dn_expand`, the bytes it went over and the
name. -/
structure Response where
  mem : Nat → Byte
  len : Nat
  expand : Nat → Option (Nat × Bytes)
  len_pos : 0 < len
  inside : ∀ pos i name, expand pos = some (i, name) → pos + i ≤ len

def dnsSoft : Int := -1

def dnsHard : Int := -2

def dnsMem : Int := -3

/-- `MAXDNAME`. -/
def maxdname : Nat := 1025

/-- `QFIXEDSZ`. -/
def qfixedsz : Nat := 4

variable (rsp : Response)

/-- `get_short`. -/
def Response.getShort (c : Nat) : Nat := (rsp.mem c).toNat * 256 + (rsp.mem (c + 1)).toNat

/-- `n` bytes. -/
def Response.bytes (c n : Nat) : Bytes := (List.range n).map fun k => rsp.mem (c + k)

/-- The variables of the file. -/
structure State where
  responsepos : Nat
  numanswers : Nat
  name : Bytes := []
  ip : Bytes := []
  ip6 : Bytes := []
  pref : Nat := 0
  txt : Bytes := []
  deriving DecidableEq, Repr

/-- What a function returns, the offsets of the bytes it reads, and the variables behind it. -/
structure Answer where
  code : Int
  reads : List Nat
  state : State
  deriving DecidableEq, Repr

/-! ## The records -/

/-- One answer: `wanted` is what is done with the data of a record of the type. -/
def find (wanted : Nat → State → Answer) (wanttype : Nat) (s : State) : Answer :=
  if s.numanswers = 0 then ⟨2, [], s⟩
  else
    let s := { s with numanswers := s.numanswers - 1 }
    if s.responsepos = rsp.len then ⟨dnsSoft, [], s⟩
    else
      match rsp.expand s.responsepos with
      | none => ⟨dnsSoft, [], s⟩
      | some (i, name) =>
          let s := { s with name := name, responsepos := s.responsepos + i }
          if rsp.len < s.responsepos + 10 then ⟨dnsSoft, [], s⟩
          else
            let rrtype := rsp.getShort s.responsepos
            let rrdlen := rsp.getShort (s.responsepos + 8)
            let reads := [s.responsepos, s.responsepos + 1, s.responsepos + 8, s.responsepos + 9]
            let s := { s with responsepos := s.responsepos + 10 }
            if rrtype = wanttype then
              let a := wanted rrdlen s
              if a.code = 1 then
                ⟨1, reads ++ a.reads,
                  { a.state with responsepos := a.state.responsepos + rrdlen }⟩
              else ⟨a.code, reads ++ a.reads, a.state⟩
            else ⟨0, reads, { s with responsepos := s.responsepos + rrdlen }⟩

def findname : Nat → State → Answer :=
  find rsp fun _ s =>
    match rsp.expand s.responsepos with
    | none => ⟨dnsSoft, [], s⟩
    | some (_, name) => ⟨1, [], { s with name := name }⟩

/-- The bytes of an address. -/
def address (size : Nat) (store : Bytes → State → State) (rrdlen : Nat) (s : State) : Answer :=
  if rrdlen < size then ⟨dnsSoft, [], s⟩
  else
    ⟨1, (List.range size).map (s.responsepos + ·), store (rsp.bytes s.responsepos size) s⟩

def findip : Nat → State → Answer := find rsp (address rsp 4 fun b s => { s with ip := b })

def findip6 : Nat → State → Answer := find rsp (address rsp 16 fun b s => { s with ip6 := b })

def findmx : Nat → State → Answer :=
  find rsp fun rrdlen s =>
    if rrdlen < 3 then ⟨dnsSoft, [], s⟩
    else
      let reads := [s.responsepos, s.responsepos + 1]
      let s := { s with pref := rsp.getShort s.responsepos }
      match rsp.expand (s.responsepos + 2) with
      | none => ⟨dnsSoft, reads, s⟩
      | some (_, name) => ⟨1, reads, { s with name := name }⟩

/-- The loop over the strings of a text: the text, and what is read. -/
def txtLoop (start rrdlen : Nat) : Nat → Nat → Bytes × List Nat
  | 0, _ => ([], [])
  | turns + 1, txtpos =>
      if txtpos < rrdlen then
        let txtlen := min (rsp.mem (start + txtpos)).toNat (rrdlen - (txtpos + 1))
        let r := txtLoop start rrdlen turns (txtpos + 1 + txtlen)
        (rsp.bytes (start + (txtpos + 1)) txtlen ++ r.1,
          (start + txtpos) :: (List.range txtlen).map (start + (txtpos + 1) + ·) ++ r.2)
      else ([], [])

def findtxt : Nat → State → Answer :=
  find rsp fun rrdlen s =>
    let r := txtLoop rsp s.responsepos rrdlen rrdlen 0
    ⟨1, r.2, { s with txt := r.1 }⟩

def findstring : Nat → State → Answer :=
  find rsp fun _ s =>
    let i := (rsp.mem s.responsepos).toNat
    if maxdname - 1 < i then ⟨dnsSoft, [s.responsepos], s⟩
    else if rsp.len < s.responsepos + i then ⟨dnsSoft, [s.responsepos], s⟩
    else
      ⟨1, s.responsepos :: (List.range i).map (s.responsepos + 1 + ·),
        { s with name := rsp.bytes (s.responsepos + 1) i }⟩

/-! ## The response -/

/-- What a resolver call makes: nothing, with an error that may be one for now, or a response. -/
inductive Lookup where
  | fails (soft : Bool)
  | answers (rsp : Response)

/-- The buffer, whether there is memory for it and for a larger one, and the two calls. -/
structure Net where
  responsebuflen : Nat
  alloc : Bool
  alloc_re : Bool
  first : Lookup
  second : Lookup

/-- `resolve` returns a code, or goes on with a response. -/
structure Resolved where
  code : Int
  reads : List (Response × Nat)
  found : Option (Response × State)

/-- The loop over the questions: the position behind them. -/
def questions : Nat → Nat → Option Nat
  | 0, pos => some pos
  | n + 1, pos =>
      match rsp.expand pos with
      | none => none
      | some (i, _) =>
          if rsp.len < pos + i + qfixedsz then none else questions n (pos + i + qfixedsz)

/-- `resolve`, for the response it goes on with. -/
def header (reads : List (Response × Nat)) : Resolved :=
  let reads := reads ++ [(rsp, 4), (rsp, 5)]
  match questions rsp (rsp.getShort 4) 12 with
  | none => ⟨dnsSoft, reads, none⟩
  | some pos => ⟨0, reads ++ [(rsp, 6), (rsp, 7)], some (rsp, ⟨pos, rsp.getShort 6, [], [], [], 0, []⟩)⟩

def noAnswer (reads : List (Response × Nat)) (soft : Bool) : Resolved :=
  ⟨if soft then dnsSoft else dnsHard, reads, none⟩

/-- The response is a part of the answer. -/
def Response.tc : Bool := (rsp.mem 2).toNat / 2 % 2 = 1

def resolve (net : Net) : Resolved :=
  if net.responsebuflen = 0 ∧ net.alloc = false then ⟨dnsMem, [], none⟩
  else
    let responsebuflen := if net.responsebuflen = 0 then 513 else net.responsebuflen
    match net.first with
    | .fails soft => noAnswer [] soft
    | .answers rsp =>
        let reads := if responsebuflen ≤ rsp.len then [] else [(rsp, 2)]
        if responsebuflen ≤ rsp.len ∨ rsp.tc = true then
          if responsebuflen < 65536 ∧ net.alloc_re = false then ⟨dnsMem, reads, none⟩
          else
            match net.second with
            | .fails soft => noAnswer reads soft
            | .answers rsp => header rsp reads
        else header rsp reads

/-! ## A lookup with its answers -/

inductive Find where
  | name
  | ip
  | ip6
  | mx
  | txt
  | string
  deriving DecidableEq, Repr

def Find.run : Find → Response → Nat → State → Answer
  | .name => findname
  | .ip => findip
  | .ip6 => findip6
  | .mx => findmx
  | .txt => findtxt
  | .string => findstring

/-- The calls behind `resolve`, each with the variables it finds. -/
def calls : State → List (Find × Nat) → List (Find × Nat × State)
  | _, [] => []
  | s, (k, wanttype) :: rest => (k, wanttype, s) :: calls (k.run rsp wanttype s).state rest

end IndimailMta.Dns
