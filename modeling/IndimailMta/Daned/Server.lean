import IndimailMta.Daned.Context

/-!
# The requests of qmail-daned

A request is a letter and a domain. What is outside comes with it: the time it is looked up,
the time in a record it adds, what `get_dane_records` returns and leaves in `save`, and what is
in the memory of a new record. `save` is one buffer for all requests.
-/

namespace IndimailMta.Daned

open IndimailMta Links

/-- The types of requests that have an answer. -/
inductive Kind
  | E
  | q
  | S
  | F
  | D
  deriving DecidableEq, Repr

def Kind.ofByte (b : Byte) : Option Kind :=
  if b = 69 then some .E
  else if b = 113 then some .q
  else if b = 83 then some .S
  else if b = 70 then some .F
  else if b = 68 then some .D
  else none

structure Request where
  qmr : Byte
  domain : Bytes
  now : Int
  added : Int
  dane : Byte × Bytes
  mem : Node Entry
  deriving DecidableEq, Repr

structure Server where
  store : Store := {}
  save : Bytes := []

/-! ## `search_record` -/

namespace Store

/-- `for (ptr = head;ptr && ptr->timestamp < start; ptr = ptr->next);`, and whether it ended at
a record. -/
def someAlive (c : Conf) (cur_time : Int) (σ : Store) : Nat → Ptr → Except Stop Bool
  | _, none => .ok false
  | 0, some _ => .error .endless
  | k + 1, some a => do
      let n ← σ.read (some a)
      if n.val.timestamp < c.start cur_time then someAlive c cur_time σ k n.next else .ok true

/-- `search_record`, from where the list is known to have a record that is not expired. -/
def lookup (c : Conf) (cur_time : Int) (domain : Bytes) (σ : Store) :
    Except Stop (Store × Ptr × Byte) :=
  match σ.find domain with
  | none => .ok (σ, none, RECORD_NEW)
  | some a => do
      let σ ← σ.assign (some a) fun e => { e with attempts := e.attempts + 1 }
      let n ← σ.read (some a)
      if n.val.status = RECORD_OK ∧ c.horizon cur_time < unsignedLong n.val.timestamp then
        .ok (σ, some a, RECORD_OK)
      else .ok (σ, some a, RECORD_OLD)

/-- `search_record`: the store, the record that was found, and what it is. -/
def search_record (c : Conf) (cur_time : Int) (domain : Bytes) (σ : Store) :
    Except Stop (Store × Ptr × Byte) :=
  if (c.is_white.any fun f => f domain) = true then .ok (σ, none, RECORD_WHITE)
  else if σ.head = none then .ok (σ, none, RECORD_NEW)
  else do
    let h ← σ.read σ.head
    if unsignedLong h.val.timestamp < c.horizon cur_time then
      if cur_time % c.fr_int = 0 then
        let σ ← σ.expire_records c cur_time
        if σ.head = none then .ok (σ, none, RECORD_NEW) else σ.lookup c cur_time domain
      else
        if ← someAlive c cur_time σ σ.fresh σ.head then σ.lookup c cur_time domain
        else .ok (σ, none, RECORD_NEW)
    else σ.lookup c cur_time domain

end Store

/-! ## `send_response` -/

/-- The start of the text `get_dane_records` leaves where there are no TLSA records. -/
def noDaneData : Bytes := asc "dane_query_tlsa: No DANE data were found"

/-- What the answer says of a verification. -/
def verdict (dane : Byte × Bytes) : Byte :=
  if dane.2 = [] ∨ dane.2.take 40 = noDaneData then RECORD_OK else dane.1

/-- The two bytes of an answer. -/
def okFirst (state : Byte) : Bytes := [if state = RECORD_OK then 1 else 0, state]

/-- What an `E` request is sent after the status: the data of the record, if there is one. What
the kernel does not take is not sent. -/
def sendData (k : Kind) (dnrecord : Ptr) (σ : Store) : Except Stop (List Bytes) :=
  if k = .E then
    match dnrecord with
    | none => .ok []
    | some a => do
        let n ← σ.read (some a)
        let d ← writeData n.val
        .ok d.toList
  else .ok []

/-- What `main` logs of the record. -/
def printData (c : Conf) (dnrecord : Ptr) (σ : Store) : Except Stop Unit :=
  match dnrecord with
  | none => .ok ()
  | some a =>
      if c.verbose = 0 then .ok ()
      else do
        let n ← σ.read (some a)
        if n.val.datalen ≤ 0 then .ok ()
        else
          match n.val.data with
          | none => .error .null
          | some d => if n.val.datalen ≤ d.length then .ok () else .error .overread

/-- The state of a record that is added. -/
def newState (k : Kind) (q : Request) : Byte :=
  match k with
  | .S => RECORD_OK
  | .F => RECORD_NOVRFY
  | _ => verdict q.dane

/-- `case RECORD_NEW`: the new state, the record that was added, and the answer. -/
def respondNew (k : Kind) (q : Request) (s : Server) : Except Stop (Server × Ptr × Bytes) :=
  if k = .q then .ok (s, none, [0, RECORD_NEW])
  else do
    let save := if k = .D ∨ k = .E then q.dane.2 else s.save
    let dane_state := newState k q
    let (a, σ) ← s.store.add_record q.mem q.added q.domain dane_state
    let σ ← σ.copySave save (some a)
    let first := if k = .S ∨ k = .F then 1 else if dane_state = RECORD_OK then 1 else 0
    .ok (⟨σ, save⟩, some a, [first, dane_state])

/-- `case RECORD_WHITE` and `case RECORD_OK`. -/
def respondOk (k : Kind) (state : Byte) (dnrecord : Ptr) (s : Server) :
    Except Stop (Server × Bytes) :=
  match k with
  | .S => do
      let σ ← s.store.assign dnrecord fun e => { e with status := RECORD_OK }
      .ok ({ s with store := σ }, [1, RECORD_OK])
  | .F => do
      let σ ← s.store.assign dnrecord fun e => { e with status := RECORD_NOVRFY }
      .ok ({ s with store := σ }, [1, RECORD_NOVRFY])
  | _ => .ok (s, [1, state])

/-- `case RECORD_OLD`; the time of the record stays. -/
def respondOld (k : Kind) (q : Request) (dnrecord : Ptr) (s : Server) : Except Stop (Server × Bytes) :=
  match k with
  | .q => .ok (s, [1, RECORD_OLD])
  | .S => do
      let σ ← s.store.assign dnrecord fun e => { e with status := RECORD_OK }
      .ok ({ s with store := σ }, okFirst RECORD_OK)
  | .F => do
      let σ ← s.store.assign dnrecord fun e => { e with status := RECORD_NOVRFY }
      .ok ({ s with store := σ }, okFirst RECORD_NOVRFY)
  | _ => do
      let σ ← s.store.assign dnrecord fun e => { e with status := q.dane.1 }
      let σ ← σ.copySave q.dane.2 dnrecord
      .ok (⟨σ, q.dane.2⟩, okFirst (verdict q.dane))

/-- `send_response`, and what `main` does with the record: the new state, and what was sent. -/
def send_response (c : Conf) (k : Kind) (q : Request) (s : Server) :
    Except Stop (Server × List Bytes) :=
  if (c.is_tlsadomain.any fun f => !f q.domain) = true then .ok (s, [[1, RECORD_NOVRFY]])
  else do
    let (σ, dnrecord, state) ← s.store.search_record c q.now q.domain
    let s := { s with store := σ }
    if state = RECORD_NEW then
      let (s, added, resp) ← respondNew k q s
      let data ← sendData k added s.store
      printData c added s.store
      match added with
      | none => .ok (s, resp :: data)
      | some a => do
          let σ ← s.store.create_hash c (some a)
          .ok ({ s with store := σ }, resp :: data)
    else
      let (s, resp) ←
        if state = RECORD_OLD then respondOld k q dnrecord s else respondOk k state dnrecord s
      let data ← sendData k dnrecord s.store
      printData c dnrecord s.store
      .ok (s, resp :: data)

/-- What `main` does with a packet. -/
def serve (c : Conf) (q : Request) (s : Server) : Except Stop (Server × List Bytes) :=
  match Kind.ofByte q.qmr with
  | none => .ok (s, [])
  | some k => if q.domain = [] then .ok (s, []) else send_response c k q s

end IndimailMta.Daned
