import IndimailMta.Qmtp.Server

/-!
# QMTP sessions

A session is a list of turns, one for each message that is read to its end, and what
is read of the message it breaks off at. What the server owes for a turn is
`Answered`; when it gives that is read off the message and the text of `qmail_close`
(`Meets`). The responses reach the client unless the program exits, with something
other than 0, before it has to read again (`LastSent`).
-/

namespace IndimailMta.Qmtp

open IndimailMta Dialogue

/-- A message that is read to its end: what is read, what stands there, what the calls return, and
what is made of it. -/
structure Turn where
  input : List (Bool × Byte)
  frame : Frame
  ans : Answers
  message : Message

/-- The turn is one of a session. -/
structure Turn.Ok (nm : Numerals) (conf : Conf) (t : Turn) : Prop where
  text : text t.input = t.frame.bytes
  complete : t.frame.Complete conf t.ans
  message : t.message = t.frame.handled nm conf t.ans

def Turn.round (nm : Numerals) (t : Turn) : Round Byte := (t.input, t.message.responses nm)

/-! ## §1 The session, turn by turn -/

theorem length_frame_pos (f : Frame) : 0 < f.bytes.length := by
  rw [Frame.bytes, List.length_append, Field.length_bytes]
  omega

/-- **A session is its turns**, and something that is not a message. -/
theorem main_turns {nm : Numerals} {ssout : Buffering Byte} {conf : Conf} {n : Nat}
    {ans : Nat → Answers} {s s' : Io} {ms : List Message} {code : Option Nat}
    (hn : s.input.length < n) (h : main nm ssout conf n ans s = (ms, code, s')) :
    ∃ (turns : List Turn) (v : List (Bool × Byte)) (c : Nat),
      code = some c ∧ s.input = turns.flatMap Turn.input ++ v ++ s'.input ∧
      (∀ t ∈ turns, t.Ok nm conf) ∧ (∀ k t, turns[k]? = some t → t.ans = ans k) ∧
      ms = turns.map Turn.message ∧
      s'.out = if c = 0 then (s.out.rounds ssout (turns.map (Turn.round nm))).flush
        else (s.out.rounds ssout (turns.map (Turn.round nm))).read v := by
  induction n generalizing ans s ms with
  | zero => omega
  | succ n ih =>
      rw [main] at h
      cases hm : message nm conf (ans 0) s with
      | error e =>
          obtain ⟨c, t⟩ := e
          rw [hm] at h
          -- the reader exits in the middle of a message
          obtain ⟨rfl, rfl, rfl⟩ : [] = ms ∧ some c = code ∧ t = s' := by simpa using h
          have hends := ends_message conf (ans 0) nm s
          rw [hm] at hends
          obtain ⟨v, hinput, hout⟩ := hends
          exact ⟨[], v, c, rfl, hinput, by simp, by simp, rfl, hout⟩
      | ok p =>
          obtain ⟨m, t⟩ := p
          rw [hm] at h
          obtain ⟨w, f, hw, htext, hf, hmessage⟩ := message_iff.mp hm
          -- a message takes a byte at least, which is what the fuel counts
          have hpos := length_frame_pos f
          rw [← htext, length_text] at hpos
          have hlen : t.input.length < n := by
            rw [hw.1, List.length_append] at hn
            omega
          cases hrest : main nm ssout conf n (fun k => ans (k + 1))
              { t with out := t.out.puts ssout (m.responses nm) } with
          | mk ms' e =>
              obtain ⟨code', u⟩ := e
              simp only [hrest, Prod.mk.injEq] at h
              obtain ⟨rfl, rfl, rfl⟩ := h
              obtain ⟨turns, v, c, hcode, hinput, hok, hans, hms, hout⟩ :=
                ih (s := { t with out := t.out.puts ssout (m.responses nm) }) hlen hrest
              refine ⟨⟨w, f, ans 0, m⟩ :: turns, v, c, hcode, ?_, ?_, ?_, ?_, ?_⟩
              · rw [hw.1, List.flatMap_cons, List.append_assoc, List.append_assoc]
                rw [List.append_assoc] at hinput
                rw [← hinput]
              · intro t' ht'
                rcases List.mem_cons.mp ht' with rfl | ht'
                · exact ⟨htext, hf, hmessage⟩
                · exact hok t' ht'
              · intro k t' hk
                cases k with
                | zero =>
                    cases hk
                    rfl
                | succ k => exact hans k t' hk
              · rw [hms, List.map_cons]
              · rw [hout, hw.2]
                rfl

/-! ## §2 What is owed for a message -/

/-- Every recipient has one response, a netstring; where it begins with a K, the message is in the
queue and has the recipient in its envelope; and `buf` is not overrun. -/
structure Answered (nm : Numerals) (conf : Conf) (t : Turn) : Prop where
  one_each : (t.message.responses nm).length = t.frame.rcpts.length
  netstrings : ∀ r ∈ t.message.responses nm, ∃ g : Field, g.Proper ∧ r = g.bytes
  accepted : ∀ p ∈ t.frame.rcpts.zip (t.message.responses nm), ∀ g : Field,
    g.Proper → p.2 = g.bytes → g.data.head? = some 75 →
      p.1.data ++ conf.relayclient.getD [] ∈ t.message.recipients ∧ t.ans.close = []
  inside : ∀ e ∈ t.message.extents, e ≤ 1000

/-- The text of `qmail_close` is not used: the sender is refused, or the message is too long. -/
def Overruled (conf : Conf) (f : Frame) : Prop :=
  (sender f.sender.data).2 = false ∨
    conf.databytes ≠ 0 ∧ (putMessage conf (f.message.data.headD 0) f.data).2 = 0

/-- The text of `qmail_close` fits `buf` with its length, the colon and the comma; and where it
begins with a K, there is no recipient that gets it. -/
def Meets (nm : Numerals) (conf : Conf) (ans : Answers) (f : Frame) : Prop :=
  Overruled conf f ∨
    (nm.fmtUlong ans.close.length).length + ans.close.length + 2 ≤ 1000 ∧
      (ans.close.head? = some 75 → ∀ r ∈ f.rcptsJudged conf ans, r.failure ≠ 0)

section Owed

variable {nm : Decimals} {conf : Conf} {ans : Answers} {f : Frame} {t : Turn}

theorem result_overruled (nm : Decimals) (ans : Answers) (h : Overruled conf f) :
    result nm.toNumerals conf ans (sender f.sender.data).2
        (putMessage conf (f.message.data.headD 0) f.data).2 ∈
      [asc "Dunacceptable sender (#5.1.7)",
        asc "Dsorry, that message size exceeds my databytes limit (#5.3.4)"] := by
  have hne : asc "Dunacceptable sender (#5.1.7)" ≠ [] := by decide
  have hne' : asc "Dsorry, that message size exceeds my databytes limit (#5.3.4)" ≠ [] := by decide
  unfold result
  by_cases hbig : conf.databytes ≠ 0 ∧ (putMessage conf (f.message.data.headD 0) f.data).2 = 0
  · simp only [if_pos hbig]
    rw [if_pos hne']
    exact List.mem_cons_of_mem _ List.mem_cons_self
  · have hs := h.resolve_right hbig
    simp only [if_neg hbig, hs, Bool.false_eq_true, not_false_eq_true, if_true]
    rw [if_pos hne]
    exact List.mem_cons_self

theorem result_not_overruled (h : ¬ Overruled conf f) :
    result nm.toNumerals conf ans (sender f.sender.data).2
        (putMessage conf (f.message.data.headD 0) f.data).2 =
      if ans.close ≠ [] then ans.close
      else asc "Kok " ++ nm.fmtUlong ans.now.toNat ++ asc " qp " ++ nm.fmtUlong ans.qp.toNat := by
  obtain ⟨hs, hbig⟩ := not_or.mp h
  rw [Bool.not_eq_false] at hs
  unfold result
  simp only [if_neg hbig, hs, not_true_eq_false, if_false]

/-- The text that is written fits `buf`, with its length, the colon and the comma. -/
def Fits (nm : Numerals) (text : Bytes) : Prop :=
  (nm.fmtUlong text.length).length + text.length + 2 ≤ 1000

theorem fits_of_length (nm : Decimals) {text : Bytes} (h : text.length ≤ 900) :
    Fits nm.toNumerals text := by
  have hfmt := nm.fmt_fits text.length (by omega)
  have h40 : FMT_ULONG = 40 := rfl
  unfold Fits
  omega

theorem length_kok (now qp : UInt64) :
    (asc "Kok " ++ nm.fmtUlong now.toNat ++ asc " qp " ++ nm.fmtUlong qp.toNat).length ≤ 900 := by
  have hnow := nm.fmt_fits now.toNat now.toNat_lt
  have hqp := nm.fmt_fits qp.toNat qp.toNat_lt
  have h40 : FMT_ULONG = 40 := rfl
  have h1 : (asc "Kok ").length = 4 := by decide
  have h2 : (asc " qp ").length = 4 := by decide
  simp only [List.length_append]
  omega

theorem fits_result :
    Fits nm.toNumerals (result nm.toNumerals conf ans (sender f.sender.data).2
        (putMessage conf (f.message.data.headD 0) f.data).2) ↔
      Overruled conf f ∨ Fits nm.toNumerals ans.close := by
  by_cases h : Overruled conf f
  · refine iff_of_true ?_ (.inl h)
    have hmem := result_overruled nm ans h
    simp only [List.mem_cons, List.not_mem_nil, or_false] at hmem
    rcases hmem with heq | heq
    · rw [heq]
      exact fits_of_length nm (by decide)
    · rw [heq]
      exact fits_of_length nm (by decide)
  · rw [result_not_overruled h]
    by_cases hclose : ans.close = []
    · refine iff_of_true ?_ (.inr (fits_of_length nm (by simp [hclose])))
      rw [if_neg (by simp [hclose])]
      exact fits_of_length nm (length_kok _ _)
    · rw [if_pos hclose]
      simp [h]

/-- What is written for a recipient stays in `buf`. -/
theorem extent_le {data : Bytes} {r : Rcpt} (h : rcpt conf ans data = some r) : r.extent ≤ 1000 := by
  unfold rcpt at h
  simp only at h
  split at h
  · cases h
    simp
  · rename_i hlen
    split at h
    · cases h
      simp only
      omega
    · split at h
      · cases h
      · cases h
        simp only
        omega

/-- A recipient that is not at fault is in the envelope. -/
theorem qmailTo_eq {data : Bytes} {r : Rcpt} (h : rcpt conf ans data = some r) :
    r.qmailTo = if r.failure = 0 then some (data ++ conf.relayclient.getD []) else none := by
  unfold rcpt at h
  simp only at h
  split at h
  · cases h
    rfl
  · split at h
    · rename_i relayclient hrelay
      cases h
      simp [hrelay]
    · rename_i hrelay
      split at h
      · cases h
      · cases h
        simp [hrelay]

/-- The recipients and the judgements on them. -/
theorem zip_judged {α γ δ : Type} {g : α → Option γ} {l : List α} (hl : ∀ a ∈ l, g a ≠ none)
    (h : γ → δ) : l.zip ((l.filterMap g).map h) =
      l.filterMap fun a => (g a).map fun r => (a, h r) := by
  induction l with
  | nil => rfl
  | cons a l ih =>
      obtain ⟨r, hr⟩ := Option.ne_none_iff_exists'.mp (hl a List.mem_cons_self)
      have ih := ih fun b hb => hl b (List.mem_cons_of_mem a hb)
      rw [List.filterMap_cons_some hr, List.map_cons, List.zip_cons_cons, ih]
      rw [List.filterMap_cons_some (by rw [hr]; rfl)]

theorem responses_eq (ht : t.Ok nm.toNumerals conf) :
    t.message.responses nm.toNumerals = (t.frame.rcptsJudged conf t.ans).map fun r =>
      response nm.toNumerals t.message.result r.failure := by
  rw [ht.message]
  simp [Message.responses, Frame.handled, handled, List.map_map, Function.comp_def]

/-- A recipient with its response, and the judgement behind it. -/
theorem mem_zip_responses (ht : t.Ok nm.toNumerals conf) {p : Field × Bytes} :
    p ∈ t.frame.rcpts.zip (t.message.responses nm.toNumerals) ↔
      p.1 ∈ t.frame.rcpts ∧ ∃ r, rcpt conf t.ans p.1.data = some r ∧
        p.2 = response nm.toNumerals t.message.result r.failure := by
  rw [responses_eq ht, Frame.rcptsJudged, zip_judged ht.complete.judged, List.mem_filterMap]
  constructor
  · rintro ⟨g, hg, hp⟩
    obtain ⟨r, hr, rfl⟩ := Option.map_eq_some_iff.mp hp
    exact ⟨hg, r, hr, rfl⟩
  · rintro ⟨hg, r, hr, hp⟩
    refine ⟨p.1, hg, ?_⟩
    rw [hr, Option.map_some, ← hp]

/-- The netstrings that are written as they stand. -/
def norcpthosts : Field :=
  ⟨asc "66", asc "Dsorry, that domain isn't in my list of allowed rcpthosts (#5.7.1)"⟩

def norecipient : Field := ⟨asc "46", asc "Dsorry, I can't handle that recipient (#5.1.3)"⟩

theorem norcpthosts_spec : norcpthosts.Proper ∧ norcpthosts.bytes =
    asc "66:Dsorry, that domain isn't in my list of allowed rcpthosts (#5.7.1)," ∧
    norcpthosts.data.head? = some 68 ∧ norcpthosts.data.length ≤ 66 := by
  rw [norcpthosts]
  repeat rw [asc_ofList]
  decide +kernel

theorem norecipient_spec : norecipient.Proper ∧ norecipient.bytes =
    asc "46:Dsorry, I can't handle that recipient (#5.1.3)," ∧
    norecipient.data.head? = some 68 ∧ norecipient.data.length ≤ 66 := by
  rw [norecipient]
  repeat rw [asc_ofList]
  decide +kernel

/-- A response is the netstring of a text. -/
theorem response_eq (nm : Decimals) (text : Bytes) (failure : Byte) :
    ∃ g : Field, g.Proper ∧ response nm.toNumerals text failure = g.bytes ∧
      if failure = 0 then g.data = text else g.data.head? = some 68 ∧ g.data.length ≤ 66 := by
  unfold response
  split
  · refine ⟨nm.field text, nm.field_proper text, ?_, rfl⟩
    have hcolon : asc ":" = [58] := by decide
    have hcomma : asc "," = [44] := by decide
    simp [Numerals.field, Field.bytes, hcolon, hcomma]
  split
  · obtain ⟨hproper, hbytes, hdata⟩ := norcpthosts_spec
    exact ⟨norcpthosts, hproper, hbytes.symm, hdata⟩
  · obtain ⟨hproper, hbytes, hdata⟩ := norecipient_spec
    exact ⟨norecipient, hproper, hbytes.symm, hdata⟩

theorem message_result (ht : t.Ok nm.toNumerals conf) :
    t.message.result = result nm.toNumerals conf t.ans (sender t.frame.sender.data).2
      (putMessage conf (t.frame.message.data.headD 0) t.frame.data).2 := by
  rw [ht.message]
  rfl

/-- Where a text begins with a K, it is the text of `qmail_close` or the program's own. -/
theorem head_result (h : (result nm.toNumerals conf ans (sender f.sender.data).2
    (putMessage conf (f.message.data.headD 0) f.data).2).head? = some 75) :
    ¬ Overruled conf f ∧ (ans.close = [] ∨ ans.close.head? = some 75) := by
  have hnot : ¬ Overruled conf f := by
    intro hover
    have hmem := result_overruled nm ans hover
    simp only [List.mem_cons, List.not_mem_nil, or_false] at hmem
    rcases hmem with heq | heq
    · rw [heq] at h
      exact absurd h (by decide)
    · rw [heq] at h
      exact absurd h (by decide)
  refine ⟨hnot, ?_⟩
  rw [result_not_overruled hnot] at h
  by_cases hclose : ans.close = []
  · exact .inl hclose
  · rw [if_pos hclose] at h
    exact .inr h

/-- What the message and `qmail_close` have to be for the server to give what it owes. -/
theorem answered_iff (ht : t.Ok nm.toNumerals conf) :
    Answered nm.toNumerals conf t ↔ Meets nm.toNumerals conf t.ans t.frame := by
  have hextents : t.message.extents =
      (if 1000 ≤ t.frame.sender.data.length then 1 else t.frame.sender.data.length + 1) ::
        ((t.frame.rcptsJudged conf t.ans).map Rcpt.extent ++
          [(nm.fmtUlong t.message.result.length).length + t.message.result.length + 2]) := by
    rw [ht.message]
    rfl
  have hfits : (∀ e ∈ t.message.extents, e ≤ 1000) ↔
      Overruled conf t.frame ∨ Fits nm.toNumerals t.ans.close := by
    rw [← fits_result, ← message_result ht, hextents]
    constructor
    · intro h
      exact h _ (by simp)
    · intro h e he
      rcases List.mem_cons.mp he with rfl | he
      · split <;> omega
      rcases List.mem_append.mp he with he | he
      · obtain ⟨r, hr, rfl⟩ := List.mem_map.mp he
        obtain ⟨g, -, hg⟩ := List.mem_filterMap.mp hr
        exact extent_le hg
      · rw [List.mem_singleton.mp he]
        exact h
  constructor
  · intro h
    rcases hfits.mp h.inside with hover | hclose
    · exact .inl hover
    by_cases hover : Overruled conf t.frame
    · exact .inl hover
    refine .inr ⟨hclose, fun hk r hr h0 => ?_⟩
    obtain ⟨g, hg, hjudged⟩ := List.mem_filterMap.mp hr
    have hne : t.ans.close ≠ [] := by
      intro hnil
      rw [hnil] at hk
      cases hk
    have hresult : t.message.result = t.ans.close := by
      rw [message_result ht, result_not_overruled hover, if_pos hne]
    obtain ⟨e, he, hbytes, hdata⟩ := response_eq nm t.message.result r.failure
    rw [if_pos h0] at hdata
    have hp := (mem_zip_responses ht (p := (g, response nm.toNumerals t.message.result r.failure))).mpr
      ⟨hg, r, hjudged, rfl⟩
    exact hne (h.accepted _ hp e he hbytes (by rw [hdata, hresult, hk])).2
  · intro h
    refine ⟨?_, ?_, ?_, ?_⟩
    · have hlen := congrArg List.length (map_eq_map_some.mpr ⟨ht.complete.judged, rfl⟩)
      rw [List.length_map, List.length_map] at hlen
      rw [responses_eq ht, List.length_map, hlen]
      rfl
    · intro r hr
      rw [responses_eq ht] at hr
      obtain ⟨j, -, rfl⟩ := List.mem_map.mp hr
      obtain ⟨g, hg, hbytes, -⟩ := response_eq nm t.message.result j.failure
      exact ⟨g, hg, hbytes⟩
    · rintro p hp g hg hbytes hk
      obtain ⟨hmem, r, hr, hp⟩ := (mem_zip_responses ht).mp hp
      obtain ⟨e, he, heq, hdata⟩ := response_eq nm t.message.result r.failure
      obtain rfl : e = g := Field.eq_of_bytes_eq he hg (by rw [← heq, ← hp, hbytes])
      by_cases h0 : r.failure = 0
      · rw [if_pos h0] at hdata
        have hjudged : r ∈ t.frame.rcptsJudged conf t.ans := List.mem_filterMap.mpr ⟨p.1, hmem, hr⟩
        rw [hdata, message_result ht] at hk
        obtain ⟨hover, hclose⟩ := head_result hk
        refine ⟨?_, hclose.resolve_right fun hk' =>
          (h.resolve_left hover).2 hk' r hjudged h0⟩
        rw [ht.message]
        refine List.mem_filterMap.mpr ⟨r, hjudged, ?_⟩
        rw [qmailTo_eq hr, if_pos h0]
      · rw [if_neg h0, hk] at hdata
        exact absurd hdata.1 (by decide)
    · rcases h with hover | ⟨hclose, -⟩
      · exact hfits.mpr (.inl hover)
      · exact hfits.mpr (.inr hclose)

end Owed

/-! ## §3 Sessions -/

theorem response_ne_nil (nm : Decimals) (text : Bytes) (failure : Byte) :
    response nm.toNumerals text failure ≠ [] := by
  obtain ⟨g, -, hg, -⟩ := response_eq nm text failure
  intro h
  have hlen := g.length_bytes
  rw [← hg, h, List.length_nil] at hlen
  omega

/-- **A session is answered exactly** when every message that is read to its end has a text of
`qmail_close` that fits, and that is not taken for a success; and the program does not exit with
the last response in `ssout`. -/
theorem session_answered_iff (nm : Decimals) (ssout : Buffering Byte) (conf : Conf)
    (ans : Nat → Answers) (reads : List Bytes) :
    ∃ (turns : List Turn) (v : List (Bool × Byte)) (code : Nat) (s' : Io),
      main nm.toNumerals ssout conf ((marked reads).length + 1) ans ⟨marked reads, {}⟩ =
        (turns.map Turn.message, some code, s') ∧
      marked reads = turns.flatMap Turn.input ++ v ++ s'.input ∧
      (∀ t ∈ turns, t.Ok nm.toNumerals conf) ∧ (∀ k t, turns[k]? = some t → t.ans = ans k) ∧
      ((s'.out.sent = (turns.flatMap fun t => t.message.responses nm.toNumerals).flatten ∧
          ∀ t ∈ turns, Answered nm.toNumerals conf t) ↔
        (∀ t ∈ turns, Meets nm.toNumerals conf t.ans t.frame) ∧
          (code = 0 ∨ LastSent ssout.size (turns.map (Turn.round nm.toNumerals)) v)) := by
  cases h : main nm.toNumerals ssout conf ((marked reads).length + 1) ans ⟨marked reads, {}⟩ with
  | mk ms e =>
      obtain ⟨c, s'⟩ := e
      obtain ⟨turns, v, code, rfl, hinput, hok, hans, rfl, hout⟩ := main_turns (by simp) h
      refine ⟨turns, v, code, s', rfl, hinput, hok, hans, ?_⟩
      have hall : s'.out.all = (turns.flatMap fun t => t.message.responses nm.toNumerals).flatten := by
        have hrounds := Out.all_rounds ssout ({} : Out Byte) (turns.map (Turn.round nm.toNumerals))
        rw [List.flatMap_map] at hrounds
        rw [hout]
        split
        · rw [Out.all_flush, hrounds]
          rfl
        · rw [Out.all_read, hrounds]
          rfl
      have hsent : s'.out.sent = (turns.flatMap fun t => t.message.responses nm.toNumerals).flatten ↔
          s'.out.held = [] := by
        rw [← hall]
        exact List.self_eq_append_right
      have hheld : s'.out.held = [] ↔
          code = 0 ∨ LastSent ssout.size (turns.map (Turn.round nm.toNumerals)) v := by
        rw [hout]
        split
        · rename_i h0
          exact iff_of_true rfl (.inl h0)
        · rename_i h0
          rw [Out.held_rounds ssout ({} : Out Byte) ?_ v]
          · simp [h0]
          · intro r hr d hd
            obtain ⟨t, ht, rfl⟩ := List.mem_map.mp hr
            obtain ⟨f, -, rfl⟩ := List.mem_map.mp hd
            exact response_ne_nil nm _ f
      have hanswered : (∀ t ∈ turns, Answered nm.toNumerals conf t) ↔
          ∀ t ∈ turns, Meets nm.toNumerals conf t.ans t.frame :=
        forall₂_congr fun t ht => answered_iff (hok t ht)
      rw [hsent, hheld, hanswered]
      exact and_comm

/-- The program with an `ssoutbuf` of 256 bytes, `databytes` and RELAYCLIENT not set, every message
being closed with the text `close`. -/
def answer (close : Bytes) (reads : List Bytes) : List Message × Option Nat × Io :=
  main decimal (buffering Byte 256) ⟨none, 0⟩ 100 (fun _ => ⟨true, 7, fun _ => 1, close, 1⟩)
    ⟨marked reads, {}⟩

/-- A text of 996 bytes is written over the end of `buf`; a text that begins with a K is sent as
the response; and the response to a message is lost when the next bytes are at hand and are not a
length. -/
theorem session_not_answered :
    ((answer (68 :: List.replicate 995 97) [asc "3:\nhi,3:a@b,6:3:c@d,,"]).1.map
      Message.extents = [[4, 4, 1001]]) ∧
    (answer (asc "Killed") [asc "3:\nhi,3:a@b,6:3:c@d,,"]).2.2.out.sent = asc "6:Killed," ∧
    ((answer [] [asc "3:\nhi,3:a@b,6:3:c@d,,x"]).1.map fun m => m.responses decimal) =
      [[asc "10:Kok 1 qp 7,"]] ∧
    (answer [] [asc "3:\nhi,3:a@b,6:3:c@d,,x"]).2.1 = some 100 ∧
    (answer [] [asc "3:\nhi,3:a@b,6:3:c@d,,x"]).2.2.out.sent = [] := by
  refine ⟨?_, ?_, ?_, ?_, ?_⟩ <;> decide +kernel

end IndimailMta.Qmtp
