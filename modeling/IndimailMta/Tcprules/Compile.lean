import IndimailMta.Lib.Lines
import IndimailMta.Tcprules.Addresses

/-!
# tcprules

How `tcprules` makes records of the rules, and how `tcpserver` reads the data of a record
(`found`). A line is what `getln` leaves in its buffer; `beyond` is what is after it there.
-/

namespace IndimailMta.Tcprules

open IndimailMta Lines

variable (sc : Scanners)

/-- `tcprules` ends: it finds no colon in a line, or cannot parse it. -/
inductive Failure
  | noColon
  | bad
  deriving DecidableEq, Repr

/-- A record of the `cdb` file. -/
structure Record where
  key : Bytes
  data : Bytes
  deriving DecidableEq, Repr

/-! ## The address -/

/-- The copy that is scanned ends with a NUL. -/
def getnum (buf : Bytes) : Except Failure Nat :=
  let r := sc.scanUlong (buf ++ [0])
  if ((buf ++ [0]).drop r.1).head? = some 0 then .ok r.2 else .error .bad

/-- The keys under which `doaddressdata` adds the data. -/
def doaddressdata (address : Bytes) : Except Failure (List Bytes) :=
  if 61 ∉ address ∧ 64 ∉ address ∧ 45 ∈ address then
    let dash := byteChr address 45
    let dot := byteRchr (address.take dash) 46
    let left := if dot = dash then 0 else dot + 1
    let i := dash + 1
    let right := i + byteChr (address.drop i) 46
    do
      let bot ← getnum sc ((address.drop left).take (i - 1 - left))
      let top ← getnum sc ((address.drop i).take (right - i))
      let top := if 255 < top then 255 else top
      .ok ((List.range (top + 1 - bot)).map fun k =>
        address.take left ++ sc.fmtUlong (bot + k) ++ address.drop right)
  else .ok [address]

/-! ## The instructions -/

/-- The loop over the instructions: what it appends to `data`. -/
def instructions : Nat → Bytes → Except Failure Bytes
  | _, [] => .ok []
  | 0, _ :: _ => .error .bad
  | n + 1, c :: rest =>
      let e := byteChr rest 44
      let i := byteChr (c :: rest) 61
      if c ≠ 44 then .error .bad
      else if e < i then
        if e < 2 ∨ rest.head? ≠ some 33 then .error .bad
        else do
          let data ← instructions n (rest.drop e)
          .ok (45 :: (rest.drop 1).take (e - 1) ++ 0 :: data)
      else
        match rest.drop i with
        | [] => .error .bad
        | ch :: x =>
            if byteChr x ch = x.length then .error .bad
            else do
              let data ← instructions n (x.drop (byteChr x ch + 1))
              .ok (43 :: rest.take i ++ x.take (byteChr x ch) ++ 0 :: data)

/-! ## A line -/

def isBlank (b : Byte) : Bool := b = 10 || b = 32 || b = 9

/-- The line without the blanks at its end. -/
def stripped (line : Bytes) : Bytes := (line.reverse.dropWhile isBlank).reverse

def allow : Bytes := asc "allow"

def deny : Bytes := asc "deny"

/-- Does `allow` or `deny` stand here? -/
def verbAt (s : Bytes) : Bool := deny.isPrefixOf s || allow.isPrefixOf s

/-- The colon before the instructions; the length of the line if there is none. -/
def findColon (x beyond : Bytes) : Nat → Nat → Except Failure Nat
  | 0, _ => .error .bad
  | n + 1, colon =>
      let tmp := byteChr (x.drop colon) 58
      if colon = 0 ∧ tmp = x.length then .error .noColon
      else if colon + tmp = x.length then .ok (colon + tmp)
      else if verbAt ((x ++ beyond).drop (colon + tmp + 1)) then .ok (colon + tmp)
      else findColon x beyond n (colon + tmp + 1)

/-- What `main` does with a line. The blanks at its end are still in the buffer. -/
def doLine (beyond line : Bytes) : Except Failure (List Record) :=
  if line.head? = some 35 then .ok []
  else if line.head? = some 10 then .ok []
  else
    let x := stripped line
    do
      let colon ← findColon x (line.drop x.length ++ beyond) (x.length + 1) 0
      if colon = x.length then .ok []
      else
        let rest := x.drop (colon + 1)
        if deny.isPrefixOf rest then do
          let data ← instructions rest.length (rest.drop 4)
          let keys ← doaddressdata sc (x.take colon)
          .ok (keys.map fun key => ⟨key, 68 :: 0 :: data⟩)
        else if allow.isPrefixOf rest then do
          let data ← instructions rest.length (rest.drop 5)
          let keys ← doaddressdata sc (x.take colon)
          .ok (keys.map fun key => ⟨key, data⟩)
        else .error .bad

/-- **`tcprules`**: the records, in the order of the lines. -/
def compile (beyond text : Bytes) : Except Failure (List Record) := do
  let records ← (lines 10 text).mapM (doLine sc beyond)
  .ok records.flatten

/-! ## The data of a record -/

/-- A change of the environment. -/
inductive Op
  | set (var value : Bytes)
  | unset (var : Bytes)
  deriving DecidableEq, Repr

/-- What a connection is to be done with. -/
structure Instructions where
  deny : Bool
  ops : List Op
  deriving DecidableEq, Repr

/-- One turn of the loop of `found`, for a string of the data; what is after the last NUL is no
string. -/
def foundOne (i : Instructions) (s : Bytes) : Instructions :=
  if s.getLast? = some 0 then
    match s with
    | 68 :: _ => { i with deny := true }
    | 43 :: t =>
        let split := byteChr (cstr t) 61
        if split < (cstr t).length then
          { i with ops := i.ops ++ [.set ((cstr t).take split) ((cstr t).drop (split + 1))] }
        else i
    | 45 :: t => { i with ops := i.ops ++ [.unset (cstr t)] }
    | _ => i
  else i

/-- `found`. -/
def found (data : Bytes) : Instructions := (lines 0 data).foldl foundOne ⟨false, []⟩

end IndimailMta.Tcprules
