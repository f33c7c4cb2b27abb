import IndimailMta.Resolver.Transmit

/-!
# The order of the queries

A query has a turn: 16 servers in a round, four rounds over UDP, and then one over TCP. Whatever the servers
and the sockets do, a query is asked at a later turn than those before it. So no server is asked twice in a
round, and the number of queries is bounded.
-/

namespace IndimailMta.Resolver

open IndimailMta

def Asked.turn (a : Asked) : Nat := if a.tcp then 64 + a.curserver else 16 * a.udploop + a.curserver

def withId (query : Bytes) (id : Byte × Byte) : Bytes := (query.set 2 id.1).set 3 id.2

theorem withId_withId (query : Bytes) (i j : Byte × Byte) : withId (withId query i) j = withId query j := by
  rw [withId, withId, List.set_comm _ _ (by decide), List.set_set, List.set_comm _ _ (by decide), List.set_set,
    withId]

/-- The query an answer is waited for. -/
def Transmit.lastAsked (d : Transmit) : Asked :=
  ⟨d.tcpstate ≠ 0, d.udploop, d.curserver, d.server, d.query⟩

/-- What was to be asked: the servers, the type, the query without an id, and the round to begin with. -/
structure Question where
  servers : Bytes
  qtype : Bytes
  query : Bytes
  first : Nat

namespace Question

variable (q : Question)

/-- A query for it. -/
structure Permits (a : Asked) : Prop where
  query : ∃ id, a.query = withId q.query id
  server : a.server = (q.servers.drop (16 * a.curserver)).take 16
  known : a.server ≠ v6any
  curserver : a.curserver < 16
  round : a.tcp = false → q.first ≤ a.udploop ∧ a.udploop < 4

/-- What holds of all states. -/
structure Kept (d : Transmit) : Prop where
  servers : d.servers = q.servers
  qtype : d.qtype = q.qtype
  query : ∃ id, d.query = withId q.query id
  first : q.first ≤ d.udploop
  permits : ∀ a ∈ d.asked, q.Permits a
  order : d.asked.Pairwise fun a b => b.turn < a.turn

/-- The query that was asked last is the one an answer is waited for. -/
structure Waits (d : Transmit) : Prop extends q.Kept d where
  last : ∃ earlier, d.asked = d.lastAsked :: earlier

end Question

section Steps

variable {q : Question} {d d' : Transmit} {tries : Nat → Try} {id : Byte × Byte}

theorem Question.Kept.congr (h : q.Kept d) (hservers : d'.servers = d.servers) (hqtype : d'.qtype = d.qtype)
    (hquery : d'.query = d.query) (hfirst : d.udploop ≤ d'.udploop) (hasked : d'.asked = d.asked) :
    q.Kept d' where
  servers := hservers.trans h.servers
  qtype := hqtype.trans h.qtype
  query := hquery ▸ h.query
  first := h.first.trans hfirst
  permits := hasked ▸ h.permits
  order := hasked ▸ h.order

theorem Question.Kept.setId (h : q.Kept d) (id : Byte × Byte) : q.Kept (d.setId id) where
  servers := h.servers
  qtype := h.qtype
  query := by
    obtain ⟨i, hi⟩ := h.query
    refine ⟨id, ?_⟩
    rw [← withId_withId q.query i, ← hi]
    rfl
  first := h.first
  permits := h.permits
  order := h.order

/-- A query that comes after the others. -/
theorem Question.Kept.ask {tcp : Bool} (h : q.Kept d) (hknown : d.server ≠ v6any) (hserver : d.curserver < 16)
    (hround : tcp = false → d.udploop < 4)
    (hturn : ∀ a ∈ d.asked, a.turn < if tcp then 64 + d.curserver else 16 * d.udploop + d.curserver) :
    q.Kept (d.ask tcp) where
  servers := h.servers
  qtype := h.qtype
  query := h.query
  first := h.first
  permits := by
    intro a ha
    rcases List.mem_cons.mp ha with rfl | ha
    · exact ⟨h.query, by rw [← h.servers]; rfl, hknown, hserver, fun htcp => ⟨h.first, hround htcp⟩⟩
    · exact h.permits a ha
  order := List.pairwise_cons.mpr ⟨hturn, h.order⟩

/-- What a function returns. -/
def Question.Gives (q : Question) : Got → Prop
  | .again d => q.Waits d
  | .done d => q.Waits d
  | .failed d => q.Kept d
  | .undefined d => q.Kept d

/-- The turns of UDP: one more query at most, and a later one. -/
theorem thisudpLoop_gives (fuel k : Nat) (h : q.Kept d) (hserver : d.curserver ≤ 16)
    (hturn : ∀ a ∈ d.asked, a.turn < 16 * d.udploop + d.curserver) : q.Gives (thisudpLoop tries fuel k d) := by
  induction fuel generalizing k d with
  | zero => exact h
  | succ fuel ih =>
      rw [thisudpLoop]
      by_cases hround : d.udploop < 4
      · rw [if_pos hround]
        by_cases hlt : d.curserver < 16
        · have hnext : ∀ a ∈ d.asked, a.turn < 16 * d.udploop + (d.curserver + 1) := by
            intro a ha
            exact Nat.lt_succ_of_lt (hturn a ha)
          rw [if_pos hlt]
          by_cases hany : d.server = v6any
          · rw [if_pos hany]
            exact ih k (h.congr rfl rfl rfl le_rfl rfl) hlt hnext
          · have hid : ∀ reached, q.Kept ((d.setId (tries k).id).tried false reached) :=
              fun _ => (h.setId (tries k).id).congr rfl rfl rfl le_rfl rfl
            have hasked : ∀ reached, q.Kept (((d.setId (tries k).id).tried false reached).ask false) :=
              fun reached => (hid reached).ask hany hlt (fun _ => hround) hturn
            rw [if_neg hany]
            cases (tries k).reached with
            | nosocket => exact hid .nosocket
            | failed => exact ih (k + 1) ((hid .failed).congr rfl rfl rfl le_rfl rfl) hlt hnext
            | inprogress => exact ih (k + 1) ((hid .inprogress).congr rfl rfl rfl le_rfl rfl) hlt hnext
            | connected => exact ⟨(hasked .connected).congr rfl rfl rfl le_rfl rfl, _, rfl⟩
        · rw [if_neg hlt]
          refine ih k (h.congr rfl rfl rfl (Nat.le_succ _) rfl) (Nat.zero_le 16) ?_
          intro a ha
          have hle := hturn a ha
          dsimp only
          omega
      · rw [if_neg hround]
        exact h

/-- The turns of TCP. -/
theorem thistcpLoop_gives (fuel k : Nat) (h : q.Kept d) (hturn : ∀ a ∈ d.asked, a.turn < 64 + d.curserver) :
    q.Gives (thistcpLoop tries fuel k d) := by
  induction fuel generalizing k d with
  | zero => exact h
  | succ fuel ih =>
      rw [thistcpLoop]
      by_cases hlt : d.curserver < 16
      · have hnext : ∀ a ∈ d.asked, a.turn < 64 + (d.curserver + 1) := by
          intro a ha
          exact Nat.lt_succ_of_lt (hturn a ha)
        rw [if_pos hlt]
        by_cases hany : d.server = v6any
        · rw [if_pos hany]
          exact ih k (h.congr rfl rfl rfl le_rfl rfl) hnext
        · have hid : ∀ reached, q.Kept ((d.setId (tries k).id).tried true reached) :=
            fun _ => (h.setId (tries k).id).congr rfl rfl rfl le_rfl rfl
          have hround : true = false → d.udploop < 4 := by
            intro h
            cases h
          have hasked : ∀ reached, q.Kept (((d.setId (tries k).id).tried true reached).ask true) :=
            fun reached => (hid reached).ask hany hlt hround hturn
          rw [if_neg hany]
          cases (tries k).reached with
          | nosocket => exact hid .nosocket
          | failed => exact ih (k + 1) ((hid .failed).congr rfl rfl rfl le_rfl rfl) hnext
          | inprogress => exact ⟨(hasked .inprogress).congr rfl rfl rfl le_rfl rfl, _, rfl⟩
          | connected => exact ⟨(hasked .connected).congr rfl rfl rfl le_rfl rfl, _, rfl⟩
      · rw [if_neg hlt]
        exact h

theorem thistcp_gives (h : q.Kept d) (hturn : ∀ a ∈ d.asked, a.turn < 64 + d.curserver) :
    q.Gives (thistcp tries d) :=
  thistcpLoop_gives 17 0 (h.congr rfl rfl rfl le_rfl rfl) hturn

/-! ## The next query -/

theorem Question.Waits.same (h : q.Waits d) (hs : d.Same d') : q.Waits d' where
  toKept := h.toKept.congr hs.servers hs.qtype hs.query hs.udploop.ge hs.asked
  last := by
    obtain ⟨earlier, hlast⟩ := h.last
    refine ⟨earlier, ?_⟩
    rw [hs.asked, hlast, Transmit.lastAsked, Transmit.lastAsked, Transmit.server, Transmit.server, hs.servers,
      hs.query, hs.udploop, hs.curserver, decide_eq_decide.mpr hs.tcp]

/-- The turn of the query that was asked last. -/
theorem Question.Waits.turns (h : q.Waits d) : ∀ a ∈ d.asked,
    a.turn ≤ if d.tcpstate ≠ 0 then 64 + d.curserver else 16 * d.udploop + d.curserver := by
  obtain ⟨earlier, hlast⟩ := h.last
  have horder := h.order
  have hturn : d.lastAsked.turn = if d.tcpstate ≠ 0 then 64 + d.curserver else 16 * d.udploop + d.curserver :=
    ite_congr decide_eq_true_eq (fun _ => rfl) (fun _ => rfl)
  intro a ha
  rw [hlast] at ha horder
  rw [← hturn]
  rcases List.mem_cons.mp ha with rfl | ha
  · exact le_rfl
  · exact ((List.pairwise_cons.mp horder).1 a ha).le

theorem Question.Waits.curserver_lt (h : q.Waits d) : d.curserver < 16 := by
  obtain ⟨earlier, hlast⟩ := h.last
  exact (h.permits _ (hlast ▸ List.mem_cons_self)).curserver

theorem nextudp_gives (h : q.Waits d) (hstate : d.tcpstate = 0) : q.Gives (nextudp tries d) := by
  refine thisudpLoop_gives 69 0 (h.toKept.congr rfl rfl rfl le_rfl rfl) h.curserver_lt ?_
  intro a ha
  have hle := h.turns a ha
  rw [if_neg (not_not_intro hstate)] at hle
  exact Nat.lt_succ_of_le hle

/-- After UDP comes TCP. -/
theorem firsttcp_gives (h : q.Waits d) (hstate : d.tcpstate = 0) : q.Gives (firsttcp tries d) := by
  rw [firsttcp]
  refine thistcp_gives (h.toKept.congr rfl rfl rfl le_rfl rfl) ?_
  intro a ha
  have hle := h.turns a ha
  have hserver := h.curserver_lt
  obtain ⟨earlier, hlast⟩ := h.last
  have hround : d.udploop < 4 :=
    ((h.permits _ (hlast ▸ List.mem_cons_self)).round (decide_eq_false (not_not_intro hstate))).2
  rw [if_neg (not_not_intro hstate)] at hle
  dsimp only
  omega

theorem nexttcp_gives (h : q.Waits d) (hstate : d.tcpstate ≠ 0) : q.Gives (nexttcp tries d) := by
  rw [nexttcp]
  refine thistcp_gives (h.toKept.congr rfl rfl rfl le_rfl rfl) ?_
  intro a ha
  have hle := h.turns a ha
  rw [if_pos hstate] at hle
  exact Nat.lt_succ_of_le hle

/-! ## Runs -/

/-- **One event** leads to one more query at most, which has a later turn than the others. -/
theorem dns_transmit_get_gives (h : q.Waits d) (e : Event) : q.Gives (dns_transmit_get d e) := by
  refine dns_transmit_get_cases (fun d' hs => h.same hs) (fun d' hs => h.same hs) h.toKept ?_ ?_ ?_
  · exact nextudp_gives h
  · exact firsttcp_gives h
  · intro hstate d' hs
    exact nexttcp_gives (h.same hs) (hs.tcp.mpr hstate)

theorem resolveLoop_gives {r : Got} (h : q.Gives r) (es : List Event) : q.Gives (resolveLoop r es) :=
  resolveLoop_keeps h fun e _ _ hd => dns_transmit_get_gives hd e

end Steps

/-- The question for a packed name. -/
def questionFor (servers : Bytes) (flagrecursive : Bool) (name qtype : Bytes) (len : Nat) : Question where
  servers := servers
  qtype := qtype
  query := queryFor flagrecursive name qtype len
  first := if flagrecursive then 1 else 0

section Start

variable {old : Transmit} {servers name qtype : Bytes} {flagrecursive : Bool} {len : Nat}

theorem dns_transmit_start_gives (tries : Nat → Try) (hlen : dns_domain_length name = some len) :
    (questionFor servers flagrecursive name qtype len).Gives
      (dns_transmit_start tries old servers flagrecursive name qtype) := by
  have hnone : ∀ (t : Nat) (a : Asked), a ∈ [] → a.turn < t := fun _ _ ha => absurd ha List.not_mem_nil
  rw [dns_transmit_start, hlen]
  refine Got.of_ite _ ?_ ?_
  · rw [firsttcp]
    exact thistcp_gives ⟨rfl, rfl, ⟨(0, 0), rfl⟩, le_rfl, fun a ha => absurd ha List.not_mem_nil, .nil⟩ (hnone _)
  · rw [firstudp]
    refine thisudpLoop_gives 69 0 ?_ (Nat.zero_le 16) (hnone _)
    exact ⟨rfl, rfl, ⟨(0, 0), rfl⟩, le_rfl, fun a ha => absurd ha List.not_mem_nil, .nil⟩

end Start

/-! ## Each server -/

theorem length_of_decreasing {l : List Nat} {lo hi : Nat} (h : l.Pairwise fun a b => b < a)
    (hin : ∀ x ∈ l, lo ≤ x ∧ x < hi) : l.length ≤ hi - lo := by
  induction l generalizing hi with
  | nil => exact Nat.zero_le _
  | cons x l ih =>
      obtain ⟨hlt, htail⟩ := List.pairwise_cons.mp h
      have hle : l.length ≤ x - lo :=
        ih htail fun y hy => ⟨(hin y (List.mem_cons_of_mem x hy)).1, hlt y hy⟩
      have hx := hin x List.mem_cons_self
      rw [List.length_cons]
      omega

section Each

variable {q : Question} {d : Transmit}

theorem Asked.turn_eq (a : Asked) : a.turn = 16 * (if a.tcp then 4 else a.udploop) + a.curserver := by
  rw [Asked.turn]
  cases a.tcp <;> rfl

/-- **Each server** is asked at most once in each round over UDP, and once over TCP. -/
theorem Question.Kept.each_server (h : q.Kept d) (hfirst : q.first ≤ 4) (c : Nat) :
    (d.asked.filter fun a => a.curserver = c).length ≤ 5 - q.first := by
  have horder := h.order.filter fun a : Asked => decide (a.curserver = c)
  have hrounds : ((d.asked.filter fun a => a.curserver = c).map fun a => if a.tcp then 4 else a.udploop).Pairwise
      fun r s => s < r := by
    rw [List.pairwise_map]
    refine horder.imp_of_mem ?_
    intro a b ha hb hlt
    have hac := of_decide_eq_true (List.mem_filter.mp ha).2
    have hbc := of_decide_eq_true (List.mem_filter.mp hb).2
    rw [a.turn_eq, b.turn_eq, hac, hbc] at hlt
    omega
  rw [← List.length_map]
  refine length_of_decreasing hrounds ?_
  intro r hr
  obtain ⟨a, ha, rfl⟩ := List.mem_map.mp hr
  have hround := (h.permits a (List.mem_filter.mp ha).1).round
  cases htcp : a.tcp with
  | true => exact ⟨hfirst, Nat.lt_succ_self 4⟩
  | false => exact ⟨(hround htcp).1, Nat.lt_succ_of_lt (hround htcp).2⟩

end Each

/-- Where a function leaves the state. -/
def Got.state : Got → Transmit
  | .again d => d
  | .done d => d
  | .failed d => d
  | .undefined d => d

theorem Question.Gives.kept {q : Question} {r : Got} (h : q.Gives r) : q.Kept r.state := by
  cases r with
  | again d => exact h.toKept
  | done d => exact h.toKept
  | failed d => exact h
  | undefined d => exact h

theorem dns_resolve_gives (tries : Nat → Try) (old : Transmit) (servers : Bytes) (n : Name)
    (rest qtype : Bytes) (es : List Event) :
    (questionFor servers true (pack n ++ rest) qtype (pack n).length).Gives
      (dns_resolve tries old (some servers) (pack n ++ rest) qtype es) :=
  resolveLoop_gives (dns_transmit_start_gives tries (dns_domain_length_pack n rest)) es

/-- **The queries** for a name. Each is for it, and is asked at a later turn than those before it: in any run,
each server is asked in each of three rounds at most once, and then at most once over TCP. -/
theorem dns_resolve_queries (tries : Nat → Try) (old : Transmit) (conf : Option Bytes) (n : Name)
    (rest qtype : Bytes) (es : List Event) :
    let d := (dns_resolve tries old conf (pack n ++ rest) qtype es).state
    (∀ a ∈ d.asked, ∃ servers, conf = some servers ∧
        (questionFor servers true (pack n ++ rest) qtype (pack n).length).Permits a) ∧
      (d.asked.Pairwise fun a b => b.turn < a.turn) ∧
      ∀ c, (d.asked.filter fun a => a.curserver = c).length ≤ 4 := by
  cases conf with
  | none => exact ⟨fun a ha => absurd ha List.not_mem_nil, .nil, fun _ => Nat.zero_le 4⟩
  | some servers =>
      have h := (dns_resolve_gives tries old servers n rest qtype es).kept
      exact ⟨fun a ha => ⟨servers, rfl, h.permits a ha⟩, h.order, h.each_server (Nat.succ_le_succ (Nat.zero_le 3))⟩

/-! ## Giving up -/

def serverAt (servers : Bytes) (c : Nat) : Bytes := (servers.drop (16 * c)).take 16

/-- Server `c` was asked in round `u`, or an attempt to reach it was in vain. -/
def Transmit.Tried (d : Transmit) (tcp : Bool) (u c : Nat) : Prop :=
  (∃ a ∈ d.asked, a.tcp = tcp ∧ a.udploop = u ∧ a.curserver = c) ∨
    ∃ a ∈ d.attempts, a.tcp = tcp ∧ a.udploop = u ∧ a.curserver = c ∧ a.reached ≠ .connected

/-- Over UDP, all servers from the round `first` on and in front of server `c` of round `u` were tried. -/
def Transmit.TriedUdp (d : Transmit) (first u c : Nat) : Prop :=
  ∀ v e, first ≤ v → e < 16 → 16 * v + e < 16 * u + c → serverAt d.servers e ≠ v6any → d.Tried false v e

/-- Over TCP, all servers in front of server `c` were tried. -/
def Transmit.TriedTcp (d : Transmit) (c : Nat) : Prop :=
  ∀ e, e < c → serverAt d.servers e ≠ v6any → d.Tried true d.udploop e

/-- There was no socket for the attempt that was made last. -/
def Transmit.NoSocket (d : Transmit) : Prop :=
  ∃ last earlier, d.attempts = last :: earlier ∧ last.reached = .nosocket

/-- A function goes on where all servers in front were tried, and gives up where there is no socket, or all
were tried. -/
def Got.Goes (servers : Bytes) (first : Nat) : Got → Prop
  | .again d => d.servers = servers ∧ d.curserver < 16 ∧
      (d.tcpstate = 0 → d.TriedUdp first d.udploop (d.curserver + 1)) ∧
      (d.tcpstate ≠ 0 → d.TriedTcp (d.curserver + 1))
  | .failed d => d.servers = servers ∧ (d.NoSocket ∨ d.TriedUdp first 4 0 ∨ d.TriedTcp 16)
  | _ => True

section GivingUp

variable {d d' : Transmit} {servers : Bytes} {first u c : Nat} {tries : Nat → Try}

theorem Transmit.Tried.mono {tcp : Bool} (h : d.Tried tcp u c) (hasked : ∀ a ∈ d.asked, a ∈ d'.asked)
    (hattempts : ∀ a ∈ d.attempts, a ∈ d'.attempts) : d'.Tried tcp u c := by
  rcases h with ⟨a, ha, heq⟩ | ⟨a, ha, heq⟩
  · exact .inl ⟨a, hasked a ha, heq⟩
  · exact .inr ⟨a, hattempts a ha, heq⟩

theorem Transmit.TriedUdp.mono {v e : Nat} (h : d.TriedUdp first u c) (hle : 16 * v + e ≤ 16 * u + c)
    (hservers : d'.servers = d.servers) (hasked : ∀ a ∈ d.asked, a ∈ d'.asked)
    (hattempts : ∀ a ∈ d.attempts, a ∈ d'.attempts) : d'.TriedUdp first v e := by
  intro w f hw hf hlt hserver
  rw [hservers] at hserver
  exact (h w f hw hf (hlt.trans_le hle) hserver).mono hasked hattempts

theorem Transmit.TriedTcp.mono (h : d.TriedTcp c) (hservers : d'.servers = d.servers)
    (hudploop : d'.udploop = d.udploop) (hasked : ∀ a ∈ d.asked, a ∈ d'.asked)
    (hattempts : ∀ a ∈ d.attempts, a ∈ d'.attempts) : d'.TriedTcp c := by
  intro e hlt hserver
  rw [hservers] at hserver
  rw [hudploop]
  exact (h e hlt hserver).mono hasked hattempts

/-- One more server: it is none, or it was tried. -/
theorem Transmit.TriedUdp.next (h : d.TriedUdp first d.udploop d.curserver) (hlt : d.curserver < 16)
    (hserver : d.server ≠ v6any → d.Tried false d.udploop d.curserver) :
    d.TriedUdp first d.udploop (d.curserver + 1) := by
  intro v e hv he hturn hne
  by_cases hfront : 16 * v + e < 16 * d.udploop + d.curserver
  · exact h v e hv he hfront hne
  · obtain ⟨rfl, rfl⟩ : v = d.udploop ∧ e = d.curserver := by omega
    exact hserver hne

theorem Transmit.TriedTcp.next (h : d.TriedTcp d.curserver)
    (hserver : d.server ≠ v6any → d.Tried true d.udploop d.curserver) : d.TriedTcp (d.curserver + 1) := by
  intro e hlt hne
  rcases Nat.lt_succ_iff_lt_or_eq.mp hlt with hfront | rfl
  · exact h e hfront hne
  · exact hserver hne

/-- The turns of the loop are enough. -/
theorem thisudpLoop_goes (fuel k : Nat) (hservers : d.servers = servers) (hserver : d.curserver ≤ 16)
    (hfuel : 17 * (4 - d.udploop) ≤ fuel + d.curserver) (h : d.TriedUdp first d.udploop d.curserver) :
    (thisudpLoop tries fuel k d).Goes servers first := by
  induction fuel generalizing k d with
  | zero => exact ⟨hservers, .inr (.inl (h.mono (by omega) rfl (fun _ ha => ha) fun _ ha => ha))⟩
  | succ fuel ih =>
      rw [thisudpLoop]
      by_cases hround : d.udploop < 4
      · rw [if_pos hround]
        by_cases hlt : d.curserver < 16
        · have hnext : 17 * (4 - d.udploop) ≤ fuel + (d.curserver + 1) := by omega
          rw [if_pos hlt]
          by_cases hany : d.server = v6any
          · -- no server is configured at this place
            rw [if_pos hany]
            refine ih k hservers hlt hnext ?_
            exact (h.next hlt fun hne => absurd hany hne).mono le_rfl rfl (fun _ ha => ha) fun _ ha => ha
          · -- an attempt is made, whatever becomes of it
            have hfront : ∀ reached, ((d.setId (tries k).id).tried false reached).TriedUdp first d.udploop
                d.curserver :=
              fun _ => h.mono le_rfl rfl (fun _ ha => ha) fun a ha => List.mem_cons_of_mem _ ha
            have hvain : ∀ reached, reached ≠ .connected →
                ((d.setId (tries k).id).tried false reached).TriedUdp first d.udploop (d.curserver + 1) :=
              fun reached hne => Transmit.TriedUdp.next (hfront reached) hlt fun _ =>
                .inr ⟨_, List.mem_cons_self, rfl, rfl, rfl, hne⟩
            rw [if_neg hany]
            cases (tries k).reached with
            | nosocket => exact ⟨hservers, .inl ⟨_, _, rfl, rfl⟩⟩
            | failed => exact ih (k + 1) hservers hlt hnext (hvain .failed (by decide))
            | inprogress => exact ih (k + 1) hservers hlt hnext (hvain .inprogress (by decide))
            | connected =>
                refine ⟨hservers, hlt, fun _ => ?_, fun hne => absurd rfl hne⟩
                refine Transmit.TriedUdp.next ?_ hlt fun _ => .inl ⟨_, List.mem_cons_self, rfl, rfl, rfl⟩
                exact (hfront .connected).mono le_rfl rfl (fun a ha => List.mem_cons_of_mem _ ha) fun _ ha => ha
        · -- the next round begins with the first server
          rw [if_neg hlt]
          refine ih k hservers (Nat.zero_le 16) ?_ (h.mono ?_ rfl (fun _ ha => ha) fun _ ha => ha)
          · dsimp only
            omega
          · dsimp only
            omega
      · -- the rounds are over
        rw [if_neg hround]
        exact ⟨hservers, .inr (.inl (h.mono (by omega) rfl (fun _ ha => ha) fun _ ha => ha))⟩

theorem thistcpLoop_goes (fuel k : Nat) (hservers : d.servers = servers) (hserver : d.curserver ≤ 16)
    (hfuel : 16 ≤ fuel + d.curserver) (h : d.TriedTcp d.curserver) :
    (thistcpLoop tries fuel k d).Goes servers first := by
  induction fuel generalizing k d with
  | zero =>
      obtain hc : d.curserver = 16 := by omega
      exact ⟨hservers, .inr (.inr (hc ▸ h))⟩
  | succ fuel ih =>
      have hnext : 16 ≤ fuel + (d.curserver + 1) := by omega
      rw [thistcpLoop]
      by_cases hlt : d.curserver < 16
      · rw [if_pos hlt]
        by_cases hany : d.server = v6any
        · rw [if_pos hany]
          refine ih k hservers hlt hnext ?_
          exact (h.next fun hne => absurd hany hne).mono rfl rfl (fun _ ha => ha) fun _ ha => ha
        · have hfront : ∀ reached, ((d.setId (tries k).id).tried true reached).TriedTcp d.curserver :=
            fun _ => h.mono rfl rfl (fun _ ha => ha) fun a ha => List.mem_cons_of_mem _ ha
          have hasked : ∀ reached, (((d.setId (tries k).id).tried true reached).ask true).TriedTcp
              (d.curserver + 1) := by
            intro reached
            refine Transmit.TriedTcp.next ?_ fun _ => .inl ⟨_, List.mem_cons_self, rfl, rfl, rfl⟩
            exact (hfront reached).mono rfl rfl (fun a ha => List.mem_cons_of_mem _ ha) fun _ ha => ha
          rw [if_neg hany]
          cases (tries k).reached with
          | nosocket => exact ⟨hservers, .inl ⟨_, _, rfl, rfl⟩⟩
          | failed =>
              have hvain : Reached.failed ≠ .connected := by decide
              refine ih (k + 1) hservers hlt hnext ?_
              exact Transmit.TriedTcp.next (hfront .failed) fun _ =>
                .inr ⟨_, List.mem_cons_self, rfl, rfl, rfl, hvain⟩
          | inprogress =>
              exact ⟨hservers, hlt, fun hz => absurd hz (Nat.succ_ne_zero 0), fun _ => hasked .inprogress⟩
          | connected =>
              exact ⟨hservers, hlt, fun hz => absurd hz (Nat.succ_ne_zero 1), fun _ => hasked .connected⟩
      · obtain hc : d.curserver = 16 := by omega
        rw [if_neg hlt]
        exact ⟨hservers, .inr (.inr (hc ▸ h))⟩

theorem firsttcp_goes (hservers : d.servers = servers) : (firsttcp tries d).Goes servers first := by
  rw [firsttcp, thistcp]
  exact thistcpLoop_goes 17 0 hservers (Nat.zero_le 16) (Nat.le_succ 16) fun e he => absurd he (Nat.not_lt_zero e)

/-- A state that goes on, as the call finds it. -/
theorem dns_transmit_get_goes (h : (Got.again d).Goes servers first) (e : Event) :
    (dns_transmit_get d e).Goes servers first := by
  have hsame : ∀ d', d.Same d' → (Got.again d').Goes servers first := by
    rintro d' hs
    obtain ⟨hservers, hlt, hudp, htcp⟩ := h
    refine ⟨hs.servers.trans hservers, hs.curserver ▸ hlt, fun hz => ?_, fun hne => ?_⟩
    · rw [hs.udploop, hs.curserver]
      exact (hudp (not_not.mp fun hne => hs.tcp.mpr hne hz)).mono le_rfl hs.servers
        (fun a ha => hs.asked ▸ ha) fun a ha => hs.attempts ▸ ha
    · rw [hs.curserver]
      exact (htcp (hs.tcp.mp hne)).mono hs.servers hs.udploop (fun a ha => hs.asked ▸ ha)
        fun a ha => hs.attempts ▸ ha
  refine dns_transmit_get_cases hsame (fun _ _ => trivial) trivial ?_ ?_ ?_
  · intro hz
    obtain ⟨hservers, hlt, hudp, -⟩ := h
    refine thisudpLoop_goes 69 0 hservers hlt ?_ ((hudp hz).mono le_rfl rfl (fun _ ha => ha) fun _ ha => ha)
    omega
  · exact fun _ => firsttcp_goes h.1
  · intro hne d' hs
    obtain ⟨hservers, hlt, -, htcp⟩ := hsame d' hs
    refine thistcpLoop_goes 17 0 hservers hlt ?_ ?_
    · dsimp only
      omega
    · exact (htcp (hs.tcp.mpr hne)).mono rfl rfl (fun _ ha => ha) fun _ ha => ha

theorem dns_transmit_start_goes {old : Transmit} {name qtype : Bytes} :
    (dns_transmit_start tries old servers true name qtype).Goes servers 1 := by
  rw [dns_transmit_start]
  cases dns_domain_length name with
  | none => trivial
  | some len =>
      have hfuel : 17 * (4 - 1) ≤ 69 + 0 := by decide
      refine Got.of_ite _ (firsttcp_goes rfl) ?_
      rw [firstudp]
      refine thisudpLoop_goes 69 0 rfl (Nat.zero_le 16) hfuel ?_
      intro v e hv he hturn
      dsimp only at hturn
      rw [if_pos rfl] at hturn
      omega

end GivingUp

section Resolve

variable {tries : Nat → Try} {old d : Transmit} {conf : Option Bytes} {n : Name} {rest qtype : Bytes}
  {es : List Event}

/-- **It gives up** when the configuration cannot be read, when there is no socket for an attempt, or when
every server was asked, or could not be reached, in each of the rounds 1, 2 and 3 over UDP, or else over TCP. -/
theorem dns_resolve_gives_up (h : dns_resolve tries old conf (pack n ++ rest) qtype es = .failed d) :
    conf = none ∨ d.NoSocket ∨ ∃ servers, conf = some servers ∧
      ((∀ u c, 1 ≤ u → u < 4 → c < 16 → serverAt servers c ≠ v6any → d.Tried false u c) ∨
        ∀ c, c < 16 → serverAt servers c ≠ v6any → d.Tried true d.udploop c) := by
  cases conf with
  | none => exact .inl rfl
  | some servers =>
      have hgoes : (resolveLoop (dns_transmit_start tries old servers true (pack n ++ rest) qtype) es).Goes
          servers 1 :=
        resolveLoop_keeps dns_transmit_start_goes fun e _ _ hd => dns_transmit_get_goes hd e
      rw [← dns_resolve, h] at hgoes
      obtain ⟨rfl, hnosocket | hudp | htcp⟩ := hgoes
      · exact .inr (.inl hnosocket)
      · refine .inr (.inr ⟨d.servers, rfl, .inl ?_⟩)
        intro u c hu hlt hc hne
        exact hudp u c hu hc (by omega) hne
      · exact .inr (.inr ⟨d.servers, rfl, .inr htcp⟩)

end Resolve

/-! ## Two servers, one that does not answer and one that is not reached -/

namespace Silent

/-- 127.0.0.1 and 127.0.0.2. -/
def servers : Bytes :=
  [0, 0, 0, 0, 0, 0, 0, 0, 0, 0, 255, 255, 127, 0, 0, 1, 0, 0, 0, 0, 0, 0, 0, 0, 0, 0, 255, 255, 127, 0, 0, 2] ++
    List.replicate 224 0

def fresh : Transmit := ⟨[], [], 0, 0, 0, 0, 0, 0, [], [], [], [], []⟩

def connects : Nat → Try := fun _ => ⟨(7, 9), .connected, 100⟩

/-- The second server comes first, as the first one was waited for. -/
def again : Nat → Try
  | 0 => ⟨(7, 9), .failed, 200⟩
  | _ => ⟨(7, 9), .connected, 200⟩

def late : Event := ⟨false, 200, none, false, false, 0, 200, again⟩

def query : Bytes := [0, 17, 7, 9, 1, 0, 0, 1, 0, 0, 0, 0, 0, 0, 0, 0, 1, 0, 1]

def gaveUp : Transmit :=
  { fresh with
    query := query
    udploop := 4
    deadline := 245
    servers := servers
    qtype := [0, 1]
    asked := [⟨false, 3, 0, servers.take 16, query⟩, ⟨false, 2, 0, servers.take 16, query⟩,
      ⟨false, 1, 0, servers.take 16, query⟩]
    attempts := [⟨false, 3, 1, .failed⟩, ⟨false, 3, 0, .connected⟩, ⟨false, 2, 1, .failed⟩,
      ⟨false, 2, 0, .connected⟩, ⟨false, 1, 1, .failed⟩, ⟨false, 1, 0, .connected⟩] }

/-- It may be late in the last round only. -/
def latest : Event := { late with time := 300 }

theorem run : dns_resolve connects fresh (some servers) (pack [] ++ []) [0, 1] [late, latest, latest] =
    .failed gaveUp := rfl

end Silent

theorem dns_resolve_gives_up_silent : some Silent.servers = none ∨ Silent.gaveUp.NoSocket ∨
    ∃ servers, some Silent.servers = some servers ∧
      ((∀ u c, 1 ≤ u → u < 4 → c < 16 → serverAt servers c ≠ v6any → Silent.gaveUp.Tried false u c) ∨
        ∀ c, c < 16 → serverAt servers c ≠ v6any → Silent.gaveUp.Tried true Silent.gaveUp.udploop c) :=
  dns_resolve_gives_up Silent.run

end IndimailMta.Resolver
