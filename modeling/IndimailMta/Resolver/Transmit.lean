import IndimailMta.Resolver.Packet

/-!
# A question to the servers

`dns_transmit_start` and `dns_transmit_get` ask up to 16 servers one after the other, in up to four rounds
over UDP, and once more over TCP when an answer has no room in a packet. A call of `dns_transmit_get` takes
one event: the socket is ready, or it is not and the deadline may be over.

What a system call gives is part of the event. The sockets are left out: there is one at a time, and what
comes from it comes from the server that was asked last. What was tried, what was asked and what was written
are recorded.
-/

namespace IndimailMta.Resolver

open IndimailMta

/-! ## Events -/

/-- What comes of the attempt to ask a server: there is no socket, or no port for it; it is not reached; the
connection is in progress; or it is made, and over UDP the query is sent. -/
inductive Reached where
  | nosocket
  | failed
  | inprogress
  | connected
  deriving DecidableEq, Repr

/-- An attempt: the random number of the query, what comes of it, and the time. -/
structure Try where
  id : Byte × Byte
  reached : Reached
  now : Nat

/-- What `dns_transmit_get` finds: `revents`, `when`, and, in case it makes the call, what `recv` or `read`
gives, whether it fails with ECONNREFUSED, what `socket_connected` and `write` return, the time, and the
attempts it makes. -/
structure Event where
  revents : Bool
  time : Nat
  received : Option Bytes
  refused : Bool
  connected : Bool
  wrote : Nat
  now : Nat
  tries : Nat → Try

/-- A query that was sent, or for which a connection was begun. -/
structure Asked where
  tcp : Bool
  udploop : Nat
  curserver : Nat
  server : Bytes
  query : Bytes
  deriving DecidableEq, Repr

/-- An attempt to ask a server, and what came of it. -/
structure Attempt where
  tcp : Bool
  udploop : Nat
  curserver : Nat
  reached : Reached
  deriving DecidableEq, Repr

/-- `struct dns_transmit`. -/
structure Transmit where
  query : Bytes
  packet : Bytes
  packetlen : Nat
  tcpstate : Nat
  udploop : Nat
  curserver : Nat
  deadline : Nat
  pos : Nat
  servers : Bytes
  qtype : Bytes
  asked : List Asked
  attempts : List Attempt
  written : Bytes
  deriving DecidableEq, Repr

/-- What a function returns: 0, 1 or -1. If it reads behind the end of the query, nothing is known. -/
inductive Got where
  | again (d : Transmit)
  | done (d : Transmit)
  | failed (d : Transmit)
  | undefined (d : Transmit)

/-! ## Answers that are taken -/

def serverwantstcp (buf : Bytes) : Bool :=
  match dns_packet_copy buf 0 12 with
  | none => true
  | some (out, _) => out.getD 2 0 &&& 2 ≠ 0

def serverfailed (buf : Bytes) : Bool :=
  match dns_packet_copy buf 0 12 with
  | none => true
  | some (out, _) => out.getD 3 0 &&& 15 ≠ 0 && out.getD 3 0 &&& 15 ≠ 3

/-- The name in the query is packed, so that there is something to compare with. -/
def irrelevant (d : Transmit) (buf : Bytes) : Bool :=
  match dns_packet_copy buf 0 12 with
  | none => true
  | some (out, pos) =>
      if out.take 2 ≠ (d.query.drop 2).take 2 then true
      else if out.getD 4 0 ≠ 0 then true
      else if out.getD 5 0 ≠ 1 then true
      else
        match dns_packet_getname buf pos with
        | none => true
        | some (dn, pos) =>
            if dns_domain_equal dn (d.query.drop 14) ≠ some true then true
            else
              match dns_packet_copy buf pos 4 with
              | none => true
              | some (out, _) => if out.take 2 ≠ d.qtype then true else out.drop 2 ≠ [0, 1]

/-! ## Servers -/

namespace Transmit

variable (d : Transmit)

/-- `ip`. -/
def server : Bytes := (d.servers.drop (16 * d.curserver)).take 16

def setId (id : Byte × Byte) : Transmit := { d with query := (d.query.set 2 id.1).set 3 id.2 }

/-- The attempt is recorded. -/
def tried (tcp : Bool) (reached : Reached) : Transmit :=
  { d with attempts := ⟨tcp, d.udploop, d.curserver, reached⟩ :: d.attempts }

/-- The query is recorded. -/
def ask (tcp : Bool) : Transmit :=
  { d with asked := ⟨tcp, d.udploop, d.curserver, d.server, d.query⟩ :: d.asked }

end Transmit

/-- `V6any`. -/
def v6any : Bytes := List.replicate 16 0

def timeouts (udploop : Nat) : Nat := [1, 3, 11, 45].getD udploop 0

/-- The loops of `thisudp`, in at most `fuel` turns; `k` attempts have been made. -/
def thisudpLoop (tries : Nat → Try) : Nat → Nat → Transmit → Got
  | 0, _, d => .failed d
  | fuel + 1, k, d =>
      if d.udploop < 4 then
        if d.curserver < 16 then
          if d.server = v6any then thisudpLoop tries fuel k { d with curserver := d.curserver + 1 }
          else
            let d := (d.setId (tries k).id).tried false (tries k).reached
            match (tries k).reached with
            | .nosocket => .failed d
            | .connected =>
                .again { d.ask false with deadline := (tries k).now + timeouts d.udploop, tcpstate := 0 }
            | _ => thisudpLoop tries fuel (k + 1) { d with curserver := d.curserver + 1 }
        else thisudpLoop tries fuel k { d with udploop := d.udploop + 1, curserver := 0 }
      else .failed d

def thisudp (tries : Nat → Try) (d : Transmit) : Got := thisudpLoop tries 69 0 d

def firstudp (tries : Nat → Try) (d : Transmit) : Got := thisudp tries { d with curserver := 0 }

def nextudp (tries : Nat → Try) (d : Transmit) : Got := thisudp tries { d with curserver := d.curserver + 1 }

/-- The loop of `thistcp`. -/
def thistcpLoop (tries : Nat → Try) : Nat → Nat → Transmit → Got
  | 0, _, d => .failed d
  | fuel + 1, k, d =>
      if d.curserver < 16 then
        if d.server = v6any then thistcpLoop tries fuel k { d with curserver := d.curserver + 1 }
        else
          let d := (d.setId (tries k).id).tried true (tries k).reached
          match (tries k).reached with
          | .nosocket => .failed d
          | .connected =>
              .again { d.ask true with deadline := (tries k).now + 10, tcpstate := 2, written := [] }
          | .inprogress =>
              .again { d.ask true with deadline := (tries k).now + 10, tcpstate := 1, written := [] }
          | .failed =>
              thistcpLoop tries fuel (k + 1)
                { d with deadline := (tries k).now + 10, curserver := d.curserver + 1 }
      else .failed d

def thistcp (tries : Nat → Try) (d : Transmit) : Got := thistcpLoop tries 17 0 { d with packet := [] }

def firsttcp (tries : Nat → Try) (d : Transmit) : Got := thistcp tries { d with curserver := 0 }

def nexttcp (tries : Nat → Try) (d : Transmit) : Got := thistcp tries { d with curserver := d.curserver + 1 }

/-! ## Start -/

/-- The query for a packed name. -/
def queryFor (flagrecursive : Bool) (q qtype : Bytes) (len : Nat) : Bytes :=
  [UInt8.ofNat ((len + 16) / 256), UInt8.ofNat ((len + 16) % 256)] ++
    [0, 0, if flagrecursive then 1 else 0, 0, 0, 1, 0, 0, 0, 0, 0, 0] ++ q.take len ++ qtype ++ [0, 1]

/-- `old` has what was there before, of which `pos` is left as it is. If the name has no end, nothing is
known. -/
def dns_transmit_start (tries : Nat → Try) (old : Transmit) (servers : Bytes) (flagrecursive : Bool)
    (q qtype : Bytes) : Got :=
  match dns_domain_length q with
  | none => .undefined old
  | some len =>
      let d : Transmit := { old with
        query := queryFor flagrecursive q qtype len
        packet := []
        qtype := qtype
        servers := servers
        udploop := if flagrecursive then 1 else 0
        asked := []
        attempts := []
        written := [] }
      if 512 < len + 16 then firsttcp tries d else firstudp tries d

/-! ## Events -/

/-- What `recv` or `read` gives of at most `n` bytes, if it is more than nothing. -/
def Event.read (e : Event) (n : Nat) : Option Bytes := (e.received.map (·.take n)).filter (· ≠ [])

/-- An answer over UDP. -/
def getUdp (d : Transmit) (e : Event) : Got :=
  match e.read 513 with
  | none => if e.refused ∧ d.udploop = 2 then .again d else nextudp e.tries d
  | some udpbuf =>
      if 513 < udpbuf.length + 1 then .again d
      else if irrelevant d udpbuf then .again d
      else if serverwantstcp udpbuf then firsttcp e.tries d
      else if serverfailed udpbuf then if d.udploop = 2 then .again d else nextudp e.tries d
      else .done { d with packet := udpbuf, packetlen := udpbuf.length }

/-- The query is sent over TCP. -/
def getWrite (d : Transmit) (e : Event) : Got :=
  if d.query.length < d.pos then .undefined d
  else
    let r := min e.wrote (d.query.length - d.pos)
    if r = 0 then nexttcp e.tries d
    else
      let d := { d with pos := d.pos + r, written := d.written ++ (d.query.drop d.pos).take r }
      if d.pos = d.query.length then .again { d with deadline := e.now + 10, tcpstate := 3 }
      else .again d

/-- The packet is read over TCP. -/
def getRead (d : Transmit) (e : Event) : Got :=
  match e.read (d.packetlen - d.pos) with
  | none => nexttcp e.tries d
  | some b =>
      let d := { d with packet := d.packet ++ b, pos := d.pos + b.length }
      if d.pos < d.packetlen then .again d
      else if irrelevant d d.packet then nexttcp e.tries d
      else if serverwantstcp d.packet then nexttcp e.tries d
      else if serverfailed d.packet then nexttcp e.tries d
      else .done d

def dns_transmit_get (d : Transmit) (e : Event) : Got :=
  if e.revents = false then
    if e.time < d.deadline then .again d
    else if d.tcpstate = 0 then nextudp e.tries d
    else nexttcp e.tries d
  else if d.tcpstate = 0 then getUdp d e
  else if d.tcpstate = 1 then
    if e.connected = false then nexttcp e.tries d else .again { d with pos := 0, tcpstate := 2 }
  else if d.tcpstate = 2 then getWrite d e
  else if d.tcpstate = 3 then
    match e.read 1 with
    | none => nexttcp e.tries d
    | some b => .again { d with packetlen := (b.getD 0 0).toNat, tcpstate := 4 }
  else if d.tcpstate = 4 then
    match e.read 1 with
    | none => nexttcp e.tries d
    | some b =>
        .again { d with
          packetlen := d.packetlen * 256 + (b.getD 0 0).toNat, tcpstate := 5, pos := 0, packet := [] }
  else if d.tcpstate = 5 then getRead d e
  else .again d

/-- The loop of `dns_resolve`. -/
def resolveLoop : Got → List Event → Got
  | .again d, e :: es => resolveLoop (dns_transmit_get d e) es
  | r, _ => r

/-- `dns_resolve`, as long as there are events. `conf` is what `dns_resolvconfip` gives: the servers, if the
configuration can be read. -/
def dns_resolve (tries : Nat → Try) (old : Transmit) (conf : Option Bytes) (q qtype : Bytes) (es : List Event) :
    Got :=
  match conf with
  | none => .failed { old with asked := [], attempts := [], written := [] }
  | some servers => resolveLoop (dns_transmit_start tries old servers true q qtype) es

/-! ## What a call gives -/

theorem Got.of_ite {P : Got → Prop} (c : Prop) [Decidable c] {r r' : Got} (hpos : P r) (hneg : P r') :
    P (if c then r else r') := by
  by_cases h : c
  · rw [if_pos h]
    exact hpos
  · rw [if_neg h]
    exact hneg

/-- What the loops return: no packet, and if they go on, more than `m` queries were asked, and nothing was read
since the last one. -/
def Got.Next (m : Nat) : Got → Prop
  | .again d => d.tcpstate ≤ 2 ∧ m < d.asked.length
  | .done _ => False
  | _ => True

section Next

variable {tries : Nat → Try} {d : Transmit} {m : Nat}

theorem thisudpLoop_next (fuel k : Nat) (h : m ≤ d.asked.length) : (thisudpLoop tries fuel k d).Next m := by
  induction fuel generalizing k d with
  | zero => trivial
  | succ fuel ih =>
      rw [thisudpLoop]
      refine Got.of_ite _ (Got.of_ite _ (Got.of_ite _ (ih k h) ?_) (ih k h)) trivial
      cases (tries k).reached with
      | nosocket => trivial
      | failed => exact ih (k + 1) h
      | inprogress => exact ih (k + 1) h
      | connected => exact ⟨Nat.zero_le 2, Nat.lt_succ_of_le h⟩

theorem thistcpLoop_next (fuel k : Nat) (h : m ≤ d.asked.length) : (thistcpLoop tries fuel k d).Next m := by
  induction fuel generalizing k d with
  | zero => trivial
  | succ fuel ih =>
      rw [thistcpLoop]
      refine Got.of_ite _ (Got.of_ite _ (ih k h) ?_) trivial
      cases (tries k).reached with
      | nosocket => trivial
      | failed => exact ih (k + 1) h
      | inprogress => exact ⟨Nat.le_succ 1, Nat.lt_succ_of_le h⟩
      | connected => exact ⟨Nat.le_refl 2, Nat.lt_succ_of_le h⟩

theorem nextudp_next (h : m ≤ d.asked.length) : (nextudp tries d).Next m := thisudpLoop_next 69 0 h

theorem firsttcp_next (h : m ≤ d.asked.length) : (firsttcp tries d).Next m := by
  rw [firsttcp, thistcp]
  exact thistcpLoop_next 17 0 h

theorem nexttcp_next (h : m ≤ d.asked.length) : (nexttcp tries d).Next m := thistcpLoop_next 17 0 h

end Next

/-- The states have the same question, and an answer is waited for from the same server. -/
structure Transmit.Same (d d' : Transmit) : Prop where
  servers : d'.servers = d.servers
  qtype : d'.qtype = d.qtype
  query : d'.query = d.query
  udploop : d'.udploop = d.udploop
  curserver : d'.curserver = d.curserver
  tcp : d'.tcpstate ≠ 0 ↔ d.tcpstate ≠ 0
  asked : d'.asked = d.asked
  attempts : d'.attempts = d.attempts

theorem Transmit.Same.refl (d : Transmit) : d.Same d := ⟨rfl, rfl, rfl, rfl, rfl, Iff.rfl, rfl, rfl⟩

/-- **A call** goes on with the same query, or asks the next one, or is over. -/
theorem dns_transmit_get_cases {P : Got → Prop} {e : Event} {d : Transmit}
    (hagain : ∀ d', d.Same d' → P (.again d')) (hdone : ∀ d', d.Same d' → P (.done d'))
    (hundefined : P (.undefined d)) (hudp : d.tcpstate = 0 → P (nextudp e.tries d))
    (hfirst : d.tcpstate = 0 → P (firsttcp e.tries d))
    (htcp : d.tcpstate ≠ 0 → ∀ d', d.Same d' → P (nexttcp e.tries d')) : P (dns_transmit_get d e) := by
  have hsame : P (.again d) := hagain d (.refl d)
  rw [dns_transmit_get]
  by_cases hstate : d.tcpstate = 0
  · have hnext := hudp hstate
    rw [if_pos hstate, if_pos hstate, getUdp]
    refine Got.of_ite _ (Got.of_ite _ hsame hnext) ?_
    cases e.read 513 with
    | none => exact Got.of_ite _ hsame hnext
    | some udpbuf =>
        refine Got.of_ite _ hsame (Got.of_ite _ hsame (Got.of_ite _ (hfirst hstate) ?_))
        refine Got.of_ite _ (Got.of_ite _ hsame hnext) ?_
        exact hdone _ ⟨rfl, rfl, rfl, rfl, rfl, Iff.rfl, rfl, rfl⟩
  · have hnext := htcp hstate d (.refl d)
    have hiff : ∀ n, n + 1 ≠ 0 ↔ d.tcpstate ≠ 0 := fun n => iff_of_true (Nat.succ_ne_zero n) hstate
    rw [if_neg hstate, if_neg hstate]
    refine Got.of_ite _ (Got.of_ite _ hsame hnext) (Got.of_ite _ (Got.of_ite _ hnext ?_) (Got.of_ite _ ?_ ?_))
    · exact hagain _ ⟨rfl, rfl, rfl, rfl, rfl, hiff 1, rfl, rfl⟩
    · rw [getWrite]
      refine Got.of_ite _ hundefined (Got.of_ite _ hnext (Got.of_ite _ ?_ ?_))
      · exact hagain _ ⟨rfl, rfl, rfl, rfl, rfl, hiff 2, rfl, rfl⟩
      · exact hagain _ ⟨rfl, rfl, rfl, rfl, rfl, Iff.rfl, rfl, rfl⟩
    refine Got.of_ite _ ?_ (Got.of_ite _ ?_ (Got.of_ite _ ?_ hsame))
    · cases e.read 1 with
      | none => exact hnext
      | some b => exact hagain _ ⟨rfl, rfl, rfl, rfl, rfl, hiff 3, rfl, rfl⟩
    · cases e.read 1 with
      | none => exact hnext
      | some b => exact hagain _ ⟨rfl, rfl, rfl, rfl, rfl, hiff 4, rfl, rfl⟩
    · rw [getRead]
      cases e.read (d.packetlen - d.pos) with
      | none => exact hnext
      | some b =>
          have hread : d.Same { d with packet := d.packet ++ b, pos := d.pos + b.length } :=
            ⟨rfl, rfl, rfl, rfl, rfl, Iff.rfl, rfl, rfl⟩
          have hlater := htcp hstate _ hread
          exact Got.of_ite _ (hagain _ hread) (Got.of_ite _ hlater (Got.of_ite _ hlater
            (Got.of_ite _ hlater (hdone _ hread))))

/-- **A run** keeps what each of its calls keeps. -/
theorem resolveLoop_keeps {P : Got → Prop} {r : Got} {es : List Event} (h : P r)
    (hstep : ∀ e ∈ es, ∀ d, P (.again d) → P (dns_transmit_get d e)) : P (resolveLoop r es) := by
  induction es generalizing r with
  | nil => cases r <;> exact h
  | cons e es ih =>
      cases r with
      | again d =>
          exact ih (hstep e List.mem_cons_self d h) fun e' he' => hstep e' (List.mem_cons_of_mem e he')
      | _ => exact h

end IndimailMta.Resolver
