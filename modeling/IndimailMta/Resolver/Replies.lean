import IndimailMta.Resolver.Answers
import IndimailMta.Resolver.Queries

/-!
# The answers that are taken

`dns_transmit_get` takes a packet if it replies to the query that was asked last: the id is that of the query,
the question is the same but for the case of letters, the packet is whole, and the server did not fail.
-/

namespace IndimailMta.Resolver

open IndimailMta

/-- A packet that replies to a query. Its code says that there is no error, or no such name. -/
structure Replies (n : Name) (qtype query buf : Bytes) : Prop where
  header : 12 ≤ buf.length
  id : buf.take 2 = (query.drop 2).take 2
  whole : buf.getD 2 0 &&& 2 = 0
  code : buf.getD 3 0 &&& 15 = 0 ∨ buf.getD 3 0 &&& 15 = 3
  one : buf.getD 4 0 = 0 ∧ buf.getD 5 0 = 1
  question : ∃ m j next, NameAt buf 12 m j next ∧ (pack m).length ≤ 255 ∧ (pack m).length + j < 1000 ∧
    lowerName m = lowerName n ∧ (buf.drop next).take 4 = qtype ++ [0, 1]

section Accepted

variable {d : Transmit} {n : Name} {qtype rest buf : Bytes} {flagrecursive : Bool} {id : Byte × Byte}

theorem ite_true_eq_false {c : Prop} [Decidable c] {b : Bool} :
    (if c then true else b) = false ↔ ¬ c ∧ b = false := by
  by_cases h : c
  · rw [if_pos h]
    exact iff_of_false (by decide) fun hand => hand.1 h
  · rw [if_neg h]
    exact (and_iff_right h).symm

theorem getD_take_header (buf : Bytes) {i : Nat} (h : i < 12) : (buf.take 12).getD i 0 = buf.getD i 0 := by
  rw [List.getD_eq_getElem?_getD, List.getD_eq_getElem?_getD, List.getElem?_take_of_lt h]

theorem serverwantstcp_eq_false (h : 12 ≤ buf.length) :
    serverwantstcp buf = false ↔ buf.getD 2 0 &&& 2 = 0 := by
  have hcopy : dns_packet_copy buf 0 12 = some (buf.take 12, 12) := dns_packet_copy_some h
  rw [serverwantstcp, hcopy]
  dsimp only
  rw [getD_take_header buf (by decide), decide_eq_false_iff_not, not_not]

theorem serverfailed_eq_false (h : 12 ≤ buf.length) :
    serverfailed buf = false ↔ buf.getD 3 0 &&& 15 = 0 ∨ buf.getD 3 0 &&& 15 = 3 := by
  have hcopy : dns_packet_copy buf 0 12 = some (buf.take 12, 12) := dns_packet_copy_some h
  rw [serverfailed, hcopy]
  dsimp only
  rw [getD_take_header buf (by decide), Bool.and_eq_false_iff, decide_eq_false_iff_not, not_not,
    decide_eq_false_iff_not, not_not]

/-- The name that was asked for stands in the query. -/
theorem drop_query
    (hquery : d.query = withId (queryFor flagrecursive (pack n ++ rest) qtype (pack n).length) id) :
    d.query.drop 14 = pack n ++ (qtype ++ [0, 1]) := by
  have hdrop : d.query.drop 14 = (pack n ++ rest).take (pack n).length ++ qtype ++ [0, 1] := by
    rw [hquery]
    rfl
  rw [hdrop, List.take_left, List.append_assoc]

theorem take_four (hlen : qtype.length = 2) (next : Nat) :
    (buf.drop next).take 4 = qtype ++ [0, 1] ↔
      ∃ out pos, dns_packet_copy buf next 4 = some (out, pos) ∧ out.take 2 = qtype ∧ out.drop 2 = [0, 1] := by
  constructor
  · intro h
    have hle : next + 4 ≤ buf.length := by
      have hfour := congrArg List.length h
      rw [List.length_take, List.length_drop, List.length_append, hlen] at hfour
      have hmin : min 4 (buf.length - next) = 4 := hfour
      omega
    refine ⟨_, _, dns_packet_copy_some hle, ?_, ?_⟩
    · rw [h, ← hlen, List.take_left]
    · rw [h, ← hlen, List.drop_left]
  · rintro ⟨out, pos, hcopy, htype, hclass⟩
    by_cases hle : next + 4 ≤ buf.length
    · rw [dns_packet_copy_some hle] at hcopy
      cases hcopy
      rw [← htype, ← hclass, List.take_append_drop]
    · rw [dns_packet_copy_none (by decide) hle] at hcopy
      cases hcopy

/-- What comes after the header of a packet that is not irrelevant. -/
theorem irrelevant_eq_false (h : 12 ≤ buf.length) :
    irrelevant d buf = false ↔ buf.take 2 = (d.query.drop 2).take 2 ∧ (buf.getD 4 0 = 0 ∧ buf.getD 5 0 = 1) ∧
      ∃ dn next out pos, dns_packet_getname buf 12 = some (dn, next) ∧
        dns_domain_equal dn (d.query.drop 14) = some true ∧
        dns_packet_copy buf next 4 = some (out, pos) ∧ out.take 2 = d.qtype ∧ out.drop 2 = [0, 1] := by
  have hcopy : dns_packet_copy buf 0 12 = some (buf.take 12, 12) := dns_packet_copy_some h
  rw [irrelevant, hcopy]
  dsimp only
  rw [List.take_take, getD_take_header buf (by decide), getD_take_header buf (by decide), ite_true_eq_false,
    ite_true_eq_false, ite_true_eq_false, not_not, not_not, not_not, and_assoc]
  refine and_congr_right fun _ => and_congr_right fun _ => and_congr_right fun _ => ?_
  cases hname : dns_packet_getname buf 12 with
  | none => simp
  | some x =>
      obtain ⟨dn, next⟩ := x
      dsimp only
      rw [ite_true_eq_false, not_not]
      cases hfour : dns_packet_copy buf next 4 with
      | none => simp [hfour]
      | some y =>
          obtain ⟨out, pos⟩ := y
          simp [hfour]

/-- **A packet is taken** if and only if it replies to the query. -/
theorem accepted_iff
    (hquery : d.query = withId (queryFor flagrecursive (pack n ++ rest) qtype (pack n).length) id)
    (htype : d.qtype = qtype) (hlen : qtype.length = 2) :
    (irrelevant d buf = false ∧ serverwantstcp buf = false ∧ serverfailed buf = false) ↔
      Replies n qtype d.query buf := by
  by_cases h : 12 ≤ buf.length
  · rw [irrelevant_eq_false h, serverwantstcp_eq_false h, serverfailed_eq_false h, drop_query hquery, htype]
    constructor
    · rintro ⟨⟨hid, hone, dn, next, out, pos, hname, hequal, hfour⟩, hwhole, hcode⟩
      obtain ⟨m, j, hm, rfl, hshort, hjumps⟩ := (dns_packet_getname_iff buf 12 dn next).mp hname
      have hlower : lowerName m = lowerName n := by
        have hpack := dns_domain_equal_pack m n [] (qtype ++ [0, 1])
        rw [List.append_nil, hequal] at hpack
        exact of_decide_eq_true (Option.some.inj hpack).symm
      exact ⟨h, hid, hwhole, hcode, hone, m, j, next, hm, hshort, hjumps, hlower,
        (take_four hlen next).mpr ⟨out, pos, hfour⟩⟩
    · rintro ⟨-, hid, hwhole, hcode, hone, m, j, next, hm, hshort, hjumps, hlower, hfour⟩
      obtain ⟨out, pos, hfour⟩ := (take_four hlen next).mp hfour
      have hequal : dns_domain_equal (pack m) (pack n ++ (qtype ++ [0, 1])) = some true := by
        have hpack := dns_domain_equal_pack m n [] (qtype ++ [0, 1])
        rwa [List.append_nil, decide_eq_true hlower] at hpack
      exact ⟨⟨hid, hone, pack m, next, out, pos,
        (dns_packet_getname_iff buf 12 _ next).mpr ⟨m, j, hm, rfl, hshort, hjumps⟩, hequal, hfour⟩, hwhole, hcode⟩
  · refine iff_of_false ?_ fun hreplies => h hreplies.header
    have hnone : dns_packet_copy buf 0 12 = none := dns_packet_copy_none (by decide) (by omega)
    rw [serverfailed, hnone]
    rintro ⟨-, -, hfailed⟩
    cases hfailed

end Accepted

/-! ## Packets that are returned -/

/-- How much of a packet is there. -/
def Transmit.Reads (d : Transmit) : Prop := d.tcpstate = 5 → d.pos = d.packet.length ∧ d.pos ≤ d.packetlen

/-- What holds of a packet that is returned. -/
structure Transmit.Accepted (d : Transmit) : Prop where
  relevant : irrelevant d d.packet = false
  whole : serverwantstcp d.packet = false
  succeeded : serverfailed d.packet = false
  length : d.packetlen = d.packet.length

/-- What a function returns, as to the packet. -/
def Got.Reads : Got → Prop
  | .again d => d.Reads
  | .done d => d.Accepted
  | _ => True

section Returned

variable {d : Transmit} {tries : Nat → Try} {e : Event} {r : Got}

/-- A state in which no packet is read over TCP. -/
theorem reads_of_ne (h : d.tcpstate ≠ 5) : d.Reads := fun hread => absurd hread h

theorem Got.Next.reads {m : Nat} (h : r.Next m) : r.Reads := by
  cases r with
  | again d => exact reads_of_ne (Nat.ne_of_lt (Nat.lt_of_le_of_lt h.1 (Nat.le_add_left 3 2)))
  | done d => exact absurd h not_false
  | _ => trivial

theorem nextudp_reads : (nextudp tries d).Reads := (nextudp_next (Nat.zero_le _)).reads

theorem firsttcp_reads : (firsttcp tries d).Reads := (firsttcp_next (Nat.zero_le _)).reads

theorem nexttcp_reads : (nexttcp tries d).Reads := (nexttcp_next (Nat.zero_le _)).reads

/-- The three checks of a packet. -/
theorem checks_reads {irr wants fails : Bool} {r₁ r₂ r₃ : Got} (h₁ : r₁.Reads) (h₂ : r₂.Reads) (h₃ : r₃.Reads)
    (h : irr = false → wants = false → fails = false → d.Accepted) :
    (if irr then r₁ else if wants then r₂ else if fails then r₃ else .done d).Reads := by
  cases irr with
  | true => exact h₁
  | false =>
      cases wants with
      | true => exact h₂
      | false =>
          cases fails with
          | true => exact h₃
          | false => exact h rfl rfl rfl

theorem getUdp_reads (h : d.tcpstate = 0) : (getUdp d e).Reads := by
  have hagain : d.Reads := reads_of_ne (by rw [h]; decide)
  rw [getUdp]
  cases e.read 513 with
  | none => exact Got.of_ite _ hagain nextudp_reads
  | some udpbuf =>
      refine Got.of_ite _ hagain (checks_reads hagain firsttcp_reads (Got.of_ite _ hagain nextudp_reads) ?_)
      intro hrelevant hwhole hsucceeded
      exact ⟨hrelevant, hwhole, hsucceeded, rfl⟩

theorem Event.length_read {n : Nat} {b : Bytes} (h : e.read n = some b) : b.length ≤ n := by
  obtain ⟨hread, -⟩ := Option.filter_eq_some_iff.mp h
  obtain ⟨received, -, rfl⟩ := Option.map_eq_some_iff.mp hread
  exact List.length_take_le n received

theorem getRead_reads (h : d.Reads) (hstate : d.tcpstate = 5) : (getRead d e).Reads := by
  obtain ⟨hpos, hle⟩ := h hstate
  rw [getRead]
  cases hread : e.read (d.packetlen - d.pos) with
  | none => exact nexttcp_reads
  | some b =>
      have hb := e.length_read hread
      have hlen : d.pos + b.length = (d.packet ++ b).length := by rw [List.length_append, hpos]
      dsimp only
      by_cases hmore : d.pos + b.length < d.packetlen
      · rw [if_pos hmore]
        exact fun _ => ⟨hlen, hmore.le⟩
      rw [if_neg hmore]
      refine checks_reads nexttcp_reads nexttcp_reads nexttcp_reads ?_
      intro hrelevant hwhole hsucceeded
      refine ⟨hrelevant, hwhole, hsucceeded, ?_⟩
      dsimp only
      omega

theorem dns_transmit_get_reads (h : d.Reads) (e : Event) : (dns_transmit_get d e).Reads := by
  rw [dns_transmit_get]
  by_cases hudp : d.tcpstate = 0
  · rw [if_pos hudp, if_pos hudp]
    exact Got.of_ite _ (Got.of_ite _ h nextudp_reads) (getUdp_reads hudp)
  rw [if_neg hudp, if_neg hudp]
  refine Got.of_ite _ (Got.of_ite _ h nexttcp_reads) (Got.of_ite _ (Got.of_ite _ nexttcp_reads ?_) ?_)
  · exact reads_of_ne (Nat.ne_of_lt (Nat.le_add_left 3 2))
  by_cases hwrite : d.tcpstate = 2
  · have hagain : ∀ d' : Transmit, d'.tcpstate = d.tcpstate → d'.Reads := by
      intro d' hstate
      exact reads_of_ne (by rw [hstate, hwrite]; decide)
    rw [if_pos hwrite, getWrite]
    refine Got.of_ite _ trivial (Got.of_ite _ nexttcp_reads (Got.of_ite _ ?_ (hagain _ rfl)))
    exact reads_of_ne (Nat.ne_of_lt (Nat.le_add_left 4 1))
  rw [if_neg hwrite]
  refine Got.of_ite _ ?_ (Got.of_ite _ ?_ ?_)
  · cases e.read 1 with
    | none => exact nexttcp_reads
    | some b => exact reads_of_ne (Nat.ne_of_lt (Nat.le_add_left 5 0))
  · cases e.read 1 with
    | none => exact nexttcp_reads
    | some b => exact fun _ => ⟨rfl, Nat.zero_le _⟩
  · by_cases hread : d.tcpstate = 5
    · rw [if_pos hread]
      exact getRead_reads h hread
    · rw [if_neg hread]
      exact h

theorem dns_transmit_start_reads (tries : Nat → Try) (old : Transmit) (servers name qtype : Bytes)
    (flagrecursive : Bool) : (dns_transmit_start tries old servers flagrecursive name qtype).Reads := by
  rw [dns_transmit_start]
  cases dns_domain_length name with
  | none => trivial
  | some len => exact Got.of_ite _ firsttcp_reads (thisudpLoop_next 69 0 (Nat.zero_le _)).reads

theorem resolveLoop_reads (h : r.Reads) (es : List Event) : (resolveLoop r es).Reads :=
  resolveLoop_keeps h fun e _ _ hd => dns_transmit_get_reads hd e

end Returned

section Resolve

variable {tries : Nat → Try} {old d : Transmit} {conf : Option Bytes} {qtype rest : Bytes} {n : Name}
  {es : List Event} {e : Event}

/-- **The packet that is returned** replies to the query that was asked last, which went to one of the
servers. Its length is `packetlen`. -/
theorem dns_resolve_replies (hlen : qtype.length = 2)
    (h : dns_resolve tries old conf (pack n ++ rest) qtype es = .done d) :
    ∃ servers last earlier, conf = some servers ∧ d.asked = last :: earlier ∧
      (questionFor servers true (pack n ++ rest) qtype (pack n).length).Permits last ∧
      Replies n qtype last.query d.packet ∧ d.packetlen = d.packet.length := by
  cases conf with
  | none => cases h
  | some servers =>
      have hgives := dns_resolve_gives tries old servers n rest qtype es
      have hreads := resolveLoop_reads (dns_transmit_start_reads tries old servers (pack n ++ rest) qtype true) es
      rw [← dns_resolve, h] at hreads
      rw [h] at hgives
      obtain ⟨earlier, hlast⟩ := hgives.last
      obtain ⟨id, hquery⟩ := hgives.query
      refine ⟨servers, d.lastAsked, earlier, rfl, hlast, hgives.permits _ (hlast ▸ List.mem_cons_self), ?_,
        hreads.length⟩
      exact (accepted_iff hquery hgives.qtype hlen).mp ⟨hreads.relevant, hreads.whole, hreads.succeeded⟩

end Resolve

/-! ## A question for a name of one letter -/

namespace Letter

def name : Name := Mixed.question

/-- 127.0.0.1. -/
def server : Bytes := v4mapped ++ [127, 0, 0, 1]

/-- There is no other. -/
def servers : Bytes := server ++ List.replicate 240 0

def fresh : Transmit := ⟨[], [], 0, 0, 0, 0, 0, 0, [], [], [], [], []⟩

def tries : Nat → Try := fun _ => ⟨(7, 9), .connected, 100⟩

def query : Bytes := [0, 19, 7, 9, 1, 0, 0, 1, 0, 0, 0, 0, 0, 0, 1, 97, 0, 0, 1, 0, 1]

/-- The letter is in upper case in the reply. -/
def reply : Bytes := [7, 9, 128, 0, 0, 1, 0, 0, 0, 0, 0, 0, 1, 65, 0, 0, 1, 0, 1]

def event : Event := ⟨true, 100, some reply, false, false, 0, 100, tries⟩

/-- The state in which the reply is waited for. -/
def waiting : Transmit :=
  { fresh with
    query := query
    udploop := 1
    deadline := 103
    servers := servers
    qtype := DNS_T_A
    asked := [⟨false, 1, 0, server, query⟩]
    attempts := [⟨false, 1, 0, .connected⟩] }

theorem start : dns_resolve tries fresh (some servers) (pack name ++ []) DNS_T_A [] = .again waiting := rfl

theorem replied : dns_resolve tries fresh (some servers) (pack name ++ []) DNS_T_A [event] =
    .done { waiting with packet := reply, packetlen := 19 } := rfl

end Letter

theorem dns_resolve_replies_letter : ∃ servers last earlier, some Letter.servers = some servers ∧
    Letter.waiting.asked = last :: earlier ∧
    (questionFor servers true (pack Letter.name ++ []) DNS_T_A (pack Letter.name).length).Permits last ∧
    Replies Letter.name DNS_T_A last.query Letter.reply ∧ 19 = Letter.reply.length :=
  dns_resolve_replies rfl Letter.replied

section Resolve

variable {tries : Nat → Try} {old d : Transmit} {conf : Option Bytes} {qtype rest : Bytes} {n : Name}
  {es : List Event} {e : Event}

theorem resolveLoop_concat {r : Got} (h : resolveLoop r es = .again d) (e : Event) :
    resolveLoop r (es ++ [e]) = dns_transmit_get d e := by
  induction es generalizing r with
  | nil =>
      cases r with
      | again d' =>
          cases h
          rw [List.nil_append, resolveLoop]
          cases dns_transmit_get d e <;> rfl
      | _ => cases h
  | cons e' es ih =>
      cases r with
      | again d' => exact ih h
      | _ => cases h

theorem Event.read_of_received {buf : Bytes} (hreceived : e.received = some buf) (hne : buf ≠ [])
    {k : Nat} (hle : buf.length ≤ k) : e.read k = some buf := by
  rw [Event.read, hreceived, Option.map_some, List.take_of_length_le hle]
  exact Option.filter_some_pos (decide_eq_true hne)

/-- **A reply** over UDP to the query that was asked last is returned as soon as it comes. -/
theorem dns_resolve_takes {buf : Bytes} (hlen : qtype.length = 2)
    (h : dns_resolve tries old conf (pack n ++ rest) qtype es = .again d) (hudp : d.tcpstate = 0)
    (hready : e.revents = true) (hreceived : e.received = some buf) (hshort : buf.length ≤ 512)
    (hreplies : Replies n qtype d.query buf) :
    dns_resolve tries old conf (pack n ++ rest) qtype (es ++ [e]) =
      .done { d with packet := buf, packetlen := buf.length } := by
  cases conf with
  | none => cases h
  | some servers =>
      have hgives := dns_resolve_gives tries old servers n rest qtype es
      rw [h] at hgives
      obtain ⟨id, hquery⟩ := hgives.query
      obtain ⟨hrelevant, hwhole, hsucceeded⟩ := (accepted_iff hquery hgives.qtype hlen).mpr hreplies
      have hne : buf ≠ [] := by
        rintro rfl
        exact absurd hreplies.header (by decide)
      have hread : e.read 513 = some buf := Event.read_of_received hreceived hne (Nat.le_succ_of_le hshort)
      have hroom : ¬ 513 < buf.length + 1 := by omega
      rw [dns_resolve] at h ⊢
      rw [resolveLoop_concat h, dns_transmit_get, hready, if_neg (by decide), if_pos hudp, getUdp, hread]
      dsimp only
      rw [if_neg hroom, hrelevant, hwhole, hsucceeded]
      rfl

end Resolve

theorem Letter.replies : Replies Letter.name DNS_T_A Letter.waiting.query Letter.reply := by
  have hquery : Letter.waiting.query =
      withId (queryFor true (pack Letter.name ++ []) DNS_T_A (pack Letter.name).length) (7, 9) := rfl
  exact (accepted_iff hquery rfl rfl).mp ⟨rfl, rfl, rfl⟩

theorem dns_resolve_takes_letter :
    dns_resolve Letter.tries Letter.fresh (some Letter.servers) (pack Letter.name ++ []) DNS_T_A
        ([] ++ [Letter.event]) =
      .done { Letter.waiting with packet := Letter.reply, packetlen := Letter.reply.length } :=
  dns_resolve_takes rfl Letter.start rfl rfl rfl (by decide) Letter.replies

end IndimailMta.Resolver
