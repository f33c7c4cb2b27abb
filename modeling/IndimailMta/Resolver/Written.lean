import IndimailMta.Resolver.Queries

/-!
# The query over TCP

The query is written from `pos` on, and `pos` is set to 0 when a connection that was in progress is made. A
connection that is made at once leaves `pos` as it was. From then on the server gets the query without its
first `pos` bytes.
-/

namespace IndimailMta.Resolver

open IndimailMta

/-- At least `m` queries were asked, in a state that goes on. -/
def Got.Asks (m : Nat) : Got → Prop
  | .again d => m ≤ d.asked.length
  | _ => True

section Asks

variable {r : Got} {m : Nat}

theorem Got.Asks.le {k : Nat} (h : r.Asks m) (hle : k ≤ m) : r.Asks k := by
  cases r with
  | again d => exact hle.trans h
  | _ => trivial

theorem Got.Next.asks (h : r.Next m) : r.Asks (m + 1) := by
  cases r with
  | again d => exact h.2
  | _ => trivial

end Asks

/-! ## One connection -/

/-- Over a connection, the query was written from `p` on, or a part of it. -/
def Transmit.Wrote (query : Bytes) (p : Nat) (d : Transmit) : Prop :=
  d.query = query ∧
    (d.tcpstate = 2 ∧ d.pos = p + d.written.length ∧ d.written = (query.drop p).take d.written.length ∨
      3 ≤ d.tcpstate ∧ d.written = query.drop p)

/-- A state that goes on has this connection still, or a later query. -/
def Got.Wrote (query : Bytes) (p m : Nat) : Got → Prop
  | .again d => d.Wrote query p ∨ m < d.asked.length
  | _ => True

section Wrote

variable {d d' : Transmit} {e : Event} {r : Got} {query : Bytes} {p m : Nat}

theorem Got.Asks.wrote (h : r.Asks (m + 1)) : r.Wrote query p m := by
  cases r with
  | again d => exact .inr h
  | _ => trivial

/-- The bytes that are written come after those that were. -/
theorem take_drop_append (query : Bytes) (p k r : Nat) :
    (query.drop p).take k ++ (query.drop (p + k)).take r = (query.drop p).take (k + r) := by
  rw [← List.drop_drop, List.take_add]

theorem getWrite_wrote (h : d.Wrote query p) (hstate : d.tcpstate = 2) (hm : m ≤ d.asked.length) :
    (getWrite d e).Wrote query p m := by
  obtain ⟨hquery, ⟨-, hpos, hwritten⟩ | ⟨hge, -⟩⟩ := h
  case inr => exact absurd hge (by rw [hstate]; decide)
  rw [getWrite]
  by_cases hover : d.query.length < d.pos
  · rw [if_pos hover]
    trivial
  rw [if_neg hover]
  dsimp only
  refine Got.of_ite _ (nexttcp_next hm).asks.wrote ?_
  have hr : min e.wrote (d.query.length - d.pos) ≤ d.query.length - d.pos := min_le_right _ _
  generalize min e.wrote (d.query.length - d.pos) = r at hr
  rw [hquery] at hr hover ⊢
  have hlen : ((query.drop d.pos).take r).length = r := by
    rw [List.length_take, List.length_drop]
    exact min_eq_left hr
  have happ : d.written ++ (query.drop d.pos).take r = (query.drop p).take (d.written.length + r) := by
    conv_lhs => rw [hwritten, hpos]
    exact take_drop_append query p d.written.length r
  by_cases hend : d.pos + r = query.length
  · have hall : (query.drop p).length ≤ d.written.length + r := by
      rw [List.length_drop]
      omega
    rw [if_pos hend]
    refine .inl ⟨rfl, .inr ⟨le_rfl, ?_⟩⟩
    exact happ.trans (List.take_of_length_le hall)
  · have hmore : (d.written ++ (query.drop d.pos).take r).length = d.written.length + r := by
      rw [List.length_append, hlen]
    rw [if_neg hend]
    refine .inl ⟨rfl, .inl ⟨hstate, ?_, ?_⟩⟩
    · dsimp only
      rw [hmore, hpos, Nat.add_assoc]
    · dsimp only
      rw [hmore]
      exact happ

theorem Transmit.Wrote.congr (h : d.Wrote query p) (hge : 3 ≤ d.tcpstate) (hquery : d'.query = d.query)
    (hwritten : d'.written = d.written) (hge' : 3 ≤ d'.tcpstate) : d'.Wrote query p := by
  obtain ⟨hq, ⟨hstate, -⟩ | ⟨-, hw⟩⟩ := h
  · exact absurd hge (by rw [hstate]; decide)
  · exact ⟨hquery.trans hq, .inr ⟨hge', hwritten.trans hw⟩⟩

theorem getRead_wrote (h : d.Wrote query p) (hge : 3 ≤ d.tcpstate) (hm : m ≤ d.asked.length) :
    (getRead d e).Wrote query p m := by
  have hnext : ∀ d' : Transmit, d'.asked = d.asked → (nexttcp e.tries d').Wrote query p m :=
    fun d' hasked => (nexttcp_next (hm.trans_eq (congrArg List.length hasked.symm))).asks.wrote
  rw [getRead]
  cases e.read (d.packetlen - d.pos) with
  | none => exact hnext d rfl
  | some b =>
      refine Got.of_ite _ (.inl (h.congr hge rfl rfl hge)) (Got.of_ite _ (hnext _ rfl) ?_)
      refine Got.of_ite _ (hnext _ rfl) ?_
      exact Got.of_ite _ (hnext _ rfl) trivial

/-- **One event** of a connection. -/
theorem dns_transmit_get_wrote (h : d.Wrote query p) (hm : m ≤ d.asked.length) (e : Event) :
    (dns_transmit_get d e).Wrote query p m := by
  have hnext : (nexttcp e.tries d).Wrote query p m := (nexttcp_next hm).asks.wrote
  have hge : 2 ≤ d.tcpstate := by
    obtain ⟨-, ⟨hstate, -⟩ | ⟨hge, -⟩⟩ := h
    · exact hstate.ge
    · exact Nat.le_of_succ_le hge
  have hudp : d.tcpstate ≠ 0 := by omega
  have hprogress : d.tcpstate ≠ 1 := by omega
  rw [dns_transmit_get, if_neg hudp, if_neg hudp, if_neg hprogress]
  refine Got.of_ite _ (Got.of_ite _ (.inl h) hnext) ?_
  by_cases hwrite : d.tcpstate = 2
  · rw [if_pos hwrite]
    exact getWrite_wrote h hwrite hm
  have hthree : 3 ≤ d.tcpstate := by omega
  rw [if_neg hwrite]
  refine Got.of_ite _ ?_ (Got.of_ite _ ?_ (Got.of_ite _ (getRead_wrote h hthree hm) (.inl h)))
  · cases e.read 1 with
    | none => exact hnext
    | some b => exact .inl (h.congr hthree rfl rfl (Nat.le_succ 3))
  · cases e.read 1 with
    | none => exact hnext
    | some b => exact .inl (h.congr hthree rfl rfl (Nat.le_add_right 3 2))

/-- An event does not make the queries that were asked fewer. -/
theorem dns_transmit_get_asks (h : m ≤ d.asked.length) (e : Event) : (dns_transmit_get d e).Asks m := by
  refine dns_transmit_get_cases ?_ (fun _ _ => trivial) trivial ?_ ?_ ?_
  · intro d' hs
    exact h.trans_eq (congrArg List.length hs.asked.symm)
  · exact fun _ => (nextudp_next h).asks.le (Nat.le_succ m)
  · exact fun _ => (firsttcp_next h).asks.le (Nat.le_succ m)
  · intro _ d' hs
    exact (nexttcp_next (h.trans_eq (congrArg List.length hs.asked.symm))).asks.le (Nat.le_succ m)

theorem resolveLoop_wrote {r : Got} (h : r.Wrote query p m) (hm : r.Asks m) (es : List Event) :
    (resolveLoop r es).Wrote query p m := by
  have hboth : (resolveLoop r es).Wrote query p m ∧ (resolveLoop r es).Asks m := by
    refine resolveLoop_keeps (P := fun r => r.Wrote query p m ∧ r.Asks m) ⟨h, hm⟩ ?_
    rintro e - d ⟨hd, hasks⟩
    refine ⟨?_, dns_transmit_get_asks hasks e⟩
    rcases hd with hd | hlater
    · exact dns_transmit_get_wrote hd hasks e
    · have hmore : (dns_transmit_get d e).Asks (m + 1) := dns_transmit_get_asks hlater e
      exact hmore.wrote
  exact hboth.1

end Wrote

section Resolve

variable {tries : Nat → Try} {old d d' : Transmit} {conf : Option Bytes} {qtype rest : Bytes} {n : Name}
  {es es' : List Event}

/-- **A connection that was just made.** While it lasts, and once the writing is over, the server has got the
query without its first `pos` bytes: the whole query if and only if `pos` was 0. -/
theorem dns_resolve_written (hrun : dns_resolve tries old conf (pack n ++ rest) qtype es = .again d)
    (hmade : d.tcpstate = 2) (hnothing : d.written = []) (hrest : resolveLoop (.again d) es' = .again d')
    (hlasts : d'.asked.length = d.asked.length) (hover : 3 ≤ d'.tcpstate) :
    d'.query = d.query ∧ d'.written = d.query.drop d.pos ∧ (d'.written = d.query ↔ d.pos = 0) := by
  have hfirst : d.Wrote d.query d.pos := by
    refine ⟨rfl, .inl ⟨hmade, ?_, ?_⟩⟩
    · rw [hnothing]
      rfl
    · rw [hnothing]
      rfl
  have hquery : 0 < d.query.length := by
    cases conf with
    | none => cases hrun
    | some servers =>
        have hgives := dns_resolve_gives tries old servers n rest qtype es
        rw [hrun] at hgives
        obtain ⟨id, hid⟩ := hgives.query
        rw [hid, withId, List.length_set, List.length_set]
        exact Nat.succ_pos _
  have hhere : (Got.again d).Wrote d.query d.pos d.asked.length := Or.inl hfirst
  have hwrote := resolveLoop_wrote hhere (le_refl d.asked.length) es'
  rw [hrest] at hwrote
  rcases hwrote with ⟨hsame, ⟨hstate, -⟩ | ⟨-, hwritten⟩⟩ | hlater
  · exact absurd hover (by rw [hstate]; decide)
  · refine ⟨hsame, hwritten, ?_⟩
    rw [hwritten]
    constructor
    · intro hwhole
      have hlen := congrArg List.length hwhole
      rw [List.length_drop] at hlen
      omega
    · intro hpos
      rw [hpos]
      rfl
  · exact absurd hlater (by omega)

end Resolve

/-! ## A connection that is made at once -/

namespace Again

/-- 127.0.0.1, and no other. -/
def server : Bytes := [0, 0, 0, 0, 0, 0, 0, 0, 0, 0, 255, 255, 127, 0, 0, 1]

def servers : Bytes := server ++ List.replicate 240 0

/-- Five bytes of a packet were read when the last question was given up. -/
def old : Transmit := ⟨[], [], 30, 5, 1, 15, 90, 5, servers, [0, 1], [], [], []⟩

def tries : Nat → Try := fun _ => ⟨(7, 9), .connected, 100⟩

/-- The reply is not whole. -/
def cut : Event :=
  ⟨true, 100, some [7, 9, 130, 0, 0, 1, 0, 0, 0, 0, 0, 0, 0, 0, 1, 0, 1], false, false, 0, 100, tries⟩

/-- There is room for all of it. -/
def room : Event := ⟨true, 100, none, false, false, 512, 100, tries⟩

def query : Bytes := [0, 17, 7, 9, 1, 0, 0, 1, 0, 0, 0, 0, 0, 0, 0, 0, 1, 0, 1]

/-- The connection is made. -/
def made : Transmit :=
  ⟨query, [], 30, 2, 1, 0, 110, 5, servers, [0, 1],
    [⟨true, 1, 0, server, query⟩, ⟨false, 1, 0, server, query⟩],
    [⟨true, 1, 0, .connected⟩, ⟨false, 1, 0, .connected⟩], []⟩

def sent : Transmit := { made with tcpstate := 3, pos := 19, written := query.drop 5 }

theorem run : dns_resolve tries old (some servers) (pack [] ++ []) [0, 1] [cut] = .again made := rfl

theorem rest : resolveLoop (.again made) [room] = .again sent := rfl

end Again

theorem dns_resolve_written_again : Again.sent.query = Again.made.query ∧
    Again.sent.written = Again.made.query.drop Again.made.pos ∧
    (Again.sent.written = Again.made.query ↔ Again.made.pos = 0) :=
  dns_resolve_written Again.run rfl rfl Again.rest rfl (by decide)

end IndimailMta.Resolver
