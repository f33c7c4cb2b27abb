import IndimailMta.Base
import IndimailMta.Lib.Links

/-!
# The DANE cache

The records of `qmail-daned`, `struct danerec`: in a list from `head` through `next` to `tail`,
and by their domains in a hash table. `hsearch` has a table of the domains and of a record of
each; the text of a domain is in that record itself.

A function stops where the program exits for want of memory, which includes a hash table that
is full, and where it uses memory it must not use.
-/

namespace IndimailMta.Daned

open IndimailMta Links

/-! ## Records -/

def RECORD_NEW : Byte := 0
def RECORD_WHITE : Byte := 1
def RECORD_OK : Byte := 2
def RECORD_NOVRFY : Byte := 3
def RECORD_FAIL : Byte := 4
def RECORD_OLD : Byte := 5

/-- `struct danerec`, without its links; `data` is `none` where it is a null pointer. -/
structure Entry where
  domain : Bytes
  data : Option Bytes
  datalen : Int
  timestamp : Int
  attempts : Int
  status : Byte
  deriving DecidableEq, Repr

/-- The options, and what is outside: how many entries a table made by `hcreate` takes, which is
not less than it was asked for, and `is_white` and `is_tlsadomain` where there are such lists. -/
structure Conf where
  timeout : Nat
  fr_int : Nat
  hash_size : Nat
  verbose : Int
  room : Nat → Nat
  is_white : Option (Bytes → Bool)
  is_tlsadomain : Option (Bytes → Bool)
  fr_int_pos : 0 < fr_int
  hash_size_pos : 0 < hash_size
  le_room : ∀ n, n ≤ room n

/-- Conversion to `time_t`. -/
def time_t (x : Int) : Int :=
  if x % 18446744073709551616 < 9223372036854775808 then x % 18446744073709551616
  else x % 18446744073709551616 - 18446744073709551616

/-- `cur_time - timeout`, as a time is compared with it: both are `unsigned long`. -/
def Conf.horizon (c : Conf) (cur_time : Int) : Nat := unsignedLong (cur_time - c.timeout)

/-- `start = cur_time - timeout`, a `time_t`. -/
def Conf.start (c : Conf) (cur_time : Int) : Int := time_t (cur_time - c.timeout)

structure Store extends Heap Entry where
  dane_count : Int := 0
  table : List (Bytes × Addr) := []
  size : Nat := 0
  hcount : Nat := 0
  h_allocated : Nat := 0

namespace Store

/-- Fields of the record a pointer points to are assigned. -/
def modify (σ : Store) (p : Ptr) (f : Node Entry → Node Entry) : Except Stop Store := do
  let h ← σ.toHeap.modify p f
  .ok { σ with toHeap := h }

/-- Those of its fields that are not links. -/
def assign (σ : Store) (p : Ptr) (f : Entry → Entry) : Except Stop Store :=
  σ.modify p fun n => { n with val := f n.val }

/-- `hsearch(e, FIND)`. -/
def find (σ : Store) (key : Bytes) : Option Addr :=
  (σ.table.find? fun e => e.1 = key).map Prod.snd

/-! ## `create_hash` -/

/-- One record, in the loop of `create_hash`; where the table is full, the callers exit. -/
def addEntry (σ : Store) (a : Addr) : Except Stop Store := do
  let n ← σ.read (some a)
  match σ.find n.val.domain with
  | some _ => .ok σ
  | none =>
      if σ.table.length < σ.size then
        .ok { σ with table := σ.table ++ [(n.val.domain, a)], hcount := σ.hcount + 1 }
      else .error .nomem

/-- The loop over the list. -/
def addEntries : Nat → Ptr → Store → Except Stop Store
  | _, none, σ => .ok σ
  | 0, some _, _ => .error .endless
  | k + 1, some a, σ => do
      let σ ← σ.addEntry a
      let n ← σ.read (some a)
      addEntries k n.next σ

/-- `hcreate((125 * hash_size * h_allocated)/100)`, in an `int`. -/
def hcreate (c : Conf) (σ : Store) : Except Stop Store :=
  if 125 * c.hash_size * σ.h_allocated < 2147483648 then
    .ok { σ with table := [], size := c.room (125 * c.hash_size * σ.h_allocated / 100) }
  else .error .overflow

/-- The loop of `create_hash`: over the list, or for one record. -/
def fill (σ : Store) (curr : Ptr) : Except Stop Store :=
  match curr with
  | some a => σ.addEntry a
  | none => addEntries σ.fresh σ.head σ

/-- `create_hash`. -/
def create_hash (c : Conf) (curr : Ptr) (σ : Store) : Except Stop Store := do
  let σ := if curr = none then { σ with table := [], size := 0, h_allocated := 0, hcount := 0 } else σ
  if σ.hcount % c.hash_size = 0 then
    -- `if (h_allocated++)`: a table that was full is destroyed, and all records are added again
    let curr := if σ.h_allocated = 0 then curr else none
    let hcount := if σ.h_allocated = 0 then σ.hcount else 0
    let σ ← hcreate c { σ with h_allocated := σ.h_allocated + 1, hcount := hcount }
    σ.fill curr
  else σ.fill curr

/-! ## `expire_records` -/

/-- The body of the loop, for a record that is expired. -/
def removeRecord (σ : Store) (a : Addr) : Except Stop Store := do
  let n ← σ.read (some a)
  let σ := { σ with dane_count := σ.dane_count - 1 }
  let σ ←
    if some a = σ.head then
      ({ σ with head := n.next } : Store).modify n.next fun m => { m with prev := none }
    else .ok σ
  let h ← σ.toHeap.unlink a
  .ok { σ with toHeap := h }

/-- The loop over the list. -/
def expireLoop (c : Conf) (cur_time : Int) : Nat → Ptr → Store → Except Stop Store
  | _, none, σ => .ok σ
  | 0, some _, _ => .error .endless
  | k + 1, some a, σ => do
      let n ← σ.read (some a)
      if c.start cur_time ≤ n.val.timestamp then expireLoop c cur_time k n.next σ
      else
        let x := n.next
        let σ ← σ.removeRecord a
        expireLoop c cur_time k x σ

/-- `expire_records`. -/
def expire_records (c : Conf) (cur_time : Int) (σ : Store) : Except Stop Store := do
  let σ ← expireLoop c cur_time σ.fresh σ.head σ
  σ.create_hash c none

/-! ## `add_record` -/

/-- A record at the end of the list; `n` is what is in its memory. Where there are others its
`next` is not assigned. -/
def link (σ : Store) (n : Node Entry) : Except Stop (Addr × Store) :=
  if σ.head = none then
    let h := σ.malloc { n with prev := none, next := none }
    .ok (σ.fresh, { σ with toHeap := { h with head := some σ.fresh, tail := some σ.fresh } })
  else do
    let h ← (σ.malloc { n with prev := σ.tail }).modify σ.tail fun m =>
      { m with next := some σ.fresh }
    .ok (σ.fresh, { σ with toHeap := { h with tail := some σ.fresh } })

/-- `add_record`; `mem` is what is in the memory `malloc` returns, which `datalen` keeps. -/
def add_record (mem : Node Entry) (now : Int) (domain : Bytes) (status : Byte) (σ : Store) :
    Except Stop (Addr × Store) := do
  let (a, σ) ← σ.link
    { mem with
      val :=
        { mem.val with
          domain := domain, data := none, timestamp := now, attempts := 1, status := status } }
  .ok (a, { σ with dane_count := σ.dane_count + 1 })

/-- The part of `send_response` that copies `save` to a record. -/
def copySave (save : Bytes) (p : Ptr) (σ : Store) : Except Stop Store :=
  if save = [] then .ok σ
  else σ.assign p fun e => { e with data := some save, datalen := save.length }

end Store

end IndimailMta.Daned
