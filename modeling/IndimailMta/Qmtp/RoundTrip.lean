import IndimailMta.Qmtp.Client
import IndimailMta.Qmtp.Session

/-!
# What QMTP transfers

qmail-qmtpd receives what `qmtp` in qmail-remote sends, and `qmtp` reports what
qmail-qmtpd responds. On any other stream `qmtp` reports what it has read as
responses, and then a temporary failure.
-/

namespace IndimailMta.Qmtp

open IndimailMta Dialogue

/-! ## §1 The request -/

/-- A recipient the server takes: it fits `buf`, with what is put behind it, and its domain is
allowed. -/
def Allowed (conf : Conf) (ans : Answers) (r : Bytes) : Prop :=
  0 ∉ r ∧ r.length + (conf.relayclient.getD []).length < 1000 ∧
    (conf.relayclient = none → ans.rcpthosts r ≠ -1 ∧ ans.rcpthosts r ≠ 0)

theorem rcpt_allowed {conf : Conf} {ans : Answers} {r : Bytes} (h : Allowed conf ans r) :
    ∃ e, rcpt conf ans r = some ⟨0, some (r ++ conf.relayclient.getD []), e⟩ := by
  obtain ⟨hnul, hlen, hrcpthosts⟩ := h
  unfold rcpt
  simp only
  rw [if_neg (by omega)]
  cases hrelay : conf.relayclient with
  | some relayclient =>
      refine ⟨r.length + relayclient.length + 1, ?_⟩
      simp [hnul]
  | none =>
      obtain ⟨hfail, hno⟩ := hrcpthosts hrelay
      refine ⟨r.length + 1, ?_⟩
      simp [hnul, hfail, hno]

/-- The fields of a request. -/
def sent (nm : Numerals) (message sender : Bytes) (rcpts : List Bytes) : Frame where
  message := nm.field (10 :: message)
  sender := nm.field sender
  rcptlen := nm.fmtUlong (rcpts.flatMap nm.netstring).length
  rcpts := rcpts.map nm.field

theorem bytes_sent (nm : Numerals) (message sender : Bytes) (rcpts : List Bytes) :
    (sent nm message sender rcpts).bytes = request nm message sender rcpts := by
  rw [request_eq, Frame.bytes, Frame.outer, sent, List.flatMap_map]
  rfl

theorem sized_field (nm : Decimals) {data : Bytes} (h : data.length ≤ 200000000) :
    Sized (nm.field data) :=
  ⟨nm.fmt_isDigit _, nm.fmt_value _, h⟩

theorem length_le_of_mem {nm : Numerals} {rcpts : List Bytes} {r : Bytes} (h : r ∈ rcpts) :
    r.length ≤ (rcpts.flatMap nm.netstring).length := by
  obtain ⟨before, after, rfl⟩ := List.append_of_mem h
  have hlen := (nm.field r).length_bytes
  have hdata : (nm.field r).data = r := rfl
  rw [List.flatMap_append, List.flatMap_cons, List.length_append, List.length_append,
    Numerals.netstring, hlen, hdata]
  omega

/-- A request within the limits is a message the server reads to its end. -/
theorem sent_complete (nm : Decimals) {conf : Conf} {ans : Answers} {body sender : Bytes}
    {rcpts : List Bytes} (hbody : body.length < 200000000) (hsender : sender.length < 1000)
    (hrcpts : ∀ r ∈ rcpts, Allowed conf ans r)
    (htotal : (rcpts.flatMap nm.netstring).length ≤ 200000000) (hopen : ans.openOk = true) :
    (sent nm.toNumerals body sender rcpts).Complete conf ans := by
  refine ⟨?_, ?_, ?_, ?_, hopen, .inl rfl, ?_⟩
  · exact sized_field nm (by rw [List.length_cons]; omega)
  · exact sized_field nm (by omega)
  · rw [Frame.outer, sent, List.flatMap_map]
    exact sized_field nm htotal
  · intro f hf
    obtain ⟨r, hr, rfl⟩ := List.mem_map.mp hf
    exact sized_field nm ((length_le_of_mem hr).trans htotal)
  · intro f hf hnone
    obtain ⟨r, hr, rfl⟩ := List.mem_map.mp hf
    obtain ⟨e, he⟩ := rcpt_allowed (hrcpts r hr)
    rw [show (nm.field r).data = r from rfl, he] at hnone
    cases hnone

/-- The message of a request, as the server has it. -/
structure Received (conf : Conf) (message qmtp_sender : Bytes) (rcpts : List Bytes)
    (m : Message) : Prop where
  body : m.body = message
  sender : m.sender = qmtp_sender
  recipients : m.recipients = rcpts.map fun r => r ++ conf.relayclient.getD []
  failure : m.failure = rcpts.map fun _ => 0
  fail : m.fail = true ↔ conf.databytes ≠ 0 ∧ conf.databytes < message.length ∨ rcpts = []

/-- The server reads a request, and what follows it is left. -/
theorem message_request (nm : Decimals) {conf : Conf} {ans : Answers} {body sender : Bytes}
    {rcpts : List Bytes} (hbody : body.length < 200000000) (hnul : 0 ∉ sender)
    (hsender : sender.length < 1000) (hrcpts : ∀ r ∈ rcpts, Allowed conf ans r)
    (htotal : (rcpts.flatMap nm.netstring).length ≤ 200000000) (hopen : ans.openOk = true)
    {s : Io} {rest : Bytes}
    (hs : text s.input = request nm.toNumerals body sender rcpts ++ rest) :
    ∃ m s', message nm.toNumerals conf ans s = .ok (m, s') ∧ text s'.input = rest ∧
      Received conf body sender rcpts m := by
  obtain ⟨w, v, hinput, hw, hv⟩ := text_eq_append hs
  have hjudged : ∀ r ∈ rcpts, ∃ e, rcpt conf ans r = some ⟨0, some (r ++ conf.relayclient.getD []), e⟩ :=
    fun r hr => rcpt_allowed (hrcpts r hr)
  have hcomplete := sent_complete nm hbody hsender hrcpts htotal hopen
  have hread : message nm.toNumerals conf ans s = .ok
      ((sent nm.toNumerals body sender rcpts).handled nm.toNumerals conf ans,
        ⟨v, s.out.read w⟩) := by
    refine message_iff.mpr ⟨w, _, ⟨hinput, rfl⟩, ?_, hcomplete, rfl⟩
    rw [hw, bytes_sent]
  refine ⟨_, _, hread, hv, ?_⟩
  have hlist : (sent nm.toNumerals body sender rcpts).rcptsJudged conf ans =
      rcpts.filterMap fun r => rcpt conf ans r := by
    rw [Frame.rcptsJudged, sent, List.filterMap_map]
    rfl
  have hputs : putMessage conf ((nm.field (10 :: body)).data.headD 0) body =
      if conf.databytes ≠ 0 ∧ conf.databytes < body.length then (body, 0)
      else (body, if conf.databytes = 0 then 0 else conf.databytes + 1) := rfl
  have hsenderOk : Qmtp.sender sender = (sender, true) := by
    rw [Qmtp.sender, if_neg (by omega), cstr_eq hnul]
    simp [hnul]
  have hto : (rcpts.filterMap fun r => rcpt conf ans r).filterMap Rcpt.qmailTo =
      rcpts.map fun r => r ++ conf.relayclient.getD [] := by
    rw [List.filterMap_filterMap, ← List.filterMap_eq_map]
    refine List.filterMap_congr fun r hr => ?_
    obtain ⟨e, he⟩ := hjudged r hr
    rw [he]
    rfl
  have hfailure : (rcpts.filterMap fun r => rcpt conf ans r).map Rcpt.failure =
      rcpts.map fun _ => 0 := by
    rw [List.map_filterMap, ← List.filterMap_eq_map]
    refine List.filterMap_congr fun r hr => ?_
    obtain ⟨e, he⟩ := hjudged r hr
    rw [he]
    rfl
  have hany : ((rcpts.filterMap fun r => rcpt conf ans r).any fun r => r.failure = 0) =
      !decide (rcpts = []) := by
    cases rcpts with
    | nil => rfl
    | cons r rcpts =>
        obtain ⟨e, he⟩ := hjudged r List.mem_cons_self
        rw [List.filterMap_cons_some he]
        simp
  refine ⟨?_, ?_, ?_, ?_, ?_⟩
  · change (putMessage conf ((nm.field (10 :: body)).data.headD 0) body).1 = body
    rw [hputs]
    split <;> rfl
  · change (Qmtp.sender sender).1 = sender
    rw [hsenderOk]
  · change ((sent nm.toNumerals body sender rcpts).rcptsJudged conf ans).filterMap Rcpt.qmailTo = _
    rw [hlist, hto]
  · change ((sent nm.toNumerals body sender rcpts).rcptsJudged conf ans).map Rcpt.failure = _
    rw [hlist, hfailure]
  · change (decide (conf.databytes ≠ 0 ∧
      (putMessage conf ((nm.field (10 :: body)).data.headD 0) body).2 = 0) ||
      !(Qmtp.sender sender).2 ||
      !((sent nm.toNumerals body sender rcpts).rcptsJudged conf ans).any fun r => r.failure = 0) =
        true ↔ _
    rw [hlist, hany, hsenderOk, hputs]
    by_cases hbytes : conf.databytes = 0
    · simp [hbytes]
    by_cases hbig : conf.databytes < body.length
    · simp [hbytes, hbig]
    · simp [hbytes, hbig]

/-! ## §2 The responses -/

/-- Every text the server responds with is one the client knows, where the text of `qmail_close`
is. -/
theorem response_result {conf : Conf} {t : Turn} (nm : Decimals) (ht : t.Ok nm.toNumerals conf)
    (hclose : t.ans.close = [] ∨ Response t.ans.close) : Response t.message.result := by
  rw [message_result ht]
  by_cases hover : Overruled conf t.frame
  · have hmem := result_overruled nm t.ans hover
    simp only [List.mem_cons, List.not_mem_nil, or_false] at hmem
    rcases hmem with heq | heq
    · rw [heq]
      exact .inr (.inl (by decide))
    · rw [heq]
      exact .inr (.inl (by decide))
  · rw [result_not_overruled hover]
    rcases hclose with hclose | hclose
    · rw [if_neg (by simp [hclose])]
      exact .inr (.inr rfl)
    · have hne : t.ans.close ≠ [] := by
        intro hnil
        rw [hnil] at hclose
        simp [Response] at hclose
      rw [if_pos hne]
      exact hclose

/-- The client reads the responses to a message, and no more. -/
theorem getresponses_responses {conf : Conf} {t : Turn} (nm : Decimals)
    (ht : t.Ok nm.toNumerals conf) (hclose : t.ans.close = [] ∨ Response t.ans.close)
    (hlen : t.message.result.length < 2000000010) (smtptext rest : Bytes) :
    ∃ u, (getresponses t.frame.rcpts.length
          ⟨(t.message.responses nm.toNumerals).flatten ++ rest, smtptext⟩).2 = .ok ⟨rest, u⟩ ∧
      (getresponses t.frame.rcpts.length
          ⟨(t.message.responses nm.toNumerals).flatten ++ rest, smtptext⟩).1.map Report.letter =
        t.message.failure.map fun c => if c = 0 then letter t.message.result else 104 := by
  have hresponse := response_result nm ht hclose
  have hcount : t.message.failure.length = t.frame.rcpts.length := by
    have hmap := congrArg List.length (map_eq_map_some.mpr ⟨ht.complete.judged, rfl⟩)
    rw [List.length_map, List.length_map] at hmap
    rw [ht.message, hmap]
    exact List.length_map _
  have hfields : ∃ fs : List Field, t.message.responses nm.toNumerals = fs.map Field.bytes ∧
      (fs.map fun f => letter f.data) =
        (t.message.failure.map fun c => if c = 0 then letter t.message.result else 104) ∧
      (∀ f ∈ fs, f.Proper) ∧ (∀ f ∈ fs, f.data.length < 2000000010) ∧
      ∀ f ∈ fs, Response f.data := by
    rw [Message.responses]
    induction t.message.failure with
    | nil => exact ⟨[], rfl, rfl, by simp, by simp, by simp⟩
    | cons c cs ih =>
        obtain ⟨fs, hbytes, hletters, hproper, hsizes, hheads⟩ := ih
        obtain ⟨g, hg, hgbytes, hdata⟩ := response_eq nm t.message.result c
        have hgdata : Response g.data ∧ g.data.length < 2000000010 ∧
            letter g.data = if c = 0 then letter t.message.result else 104 := by
          by_cases h0 : c = 0
          · rw [if_pos h0] at hdata ⊢
            rw [hdata]
            exact ⟨hresponse, hlen, rfl⟩
          · rw [if_neg h0] at hdata ⊢
            refine ⟨.inr (.inl hdata.1), by omega, ?_⟩
            rw [letter, hdata.1]
            rfl
        refine ⟨g :: fs, ?_, ?_, ?_, ?_, ?_⟩
        · rw [List.map_cons, List.map_cons, hbytes, hgbytes]
        · rw [List.map_cons, List.map_cons, hletters, hgdata.2.2]
        · simpa using ⟨hg, hproper⟩
        · simpa using ⟨hgdata.2.1, hsizes⟩
        · simpa using ⟨hgdata.1, hheads⟩
  obtain ⟨fs, hbytes, hletters, hproper, hsizes, hheads⟩ := hfields
  have hn : fs.length = t.frame.rcpts.length := by
    have h := congrArg List.length hletters
    rw [List.length_map, List.length_map, hcount] at h
    exact h
  obtain ⟨u, hrest, hread⟩ := getresponses_fields hproper hsizes hheads smtptext rest
  rw [hn] at hrest hread
  rw [hbytes, ← List.flatMap_def]
  exact ⟨u, hrest, hread.trans hletters⟩

/-! ## §3 Both -/

/-- **QMTP is lossless** for what the server takes: it receives the message, the sender and the
recipients; the client reads exactly the responses, and reports each of them. Whatever the stream
is, the client reports nothing but responses it has read, and then a temporary failure. -/
theorem qmtp_lossless (nm : Decimals) (conf : Conf) :
    (∀ (ans : Answers) (body sender : Bytes) (rcpts : List Bytes),
      ans.openOk = true → body.length < 200000000 → 0 ∉ sender → sender.length < 1000 →
      (∀ r ∈ rcpts, Allowed conf ans r) → (rcpts.flatMap nm.netstring).length ≤ 200000000 →
      ∀ (s : Io) (rest : Bytes),
        text s.input = request nm.toNumerals body sender rcpts ++ rest →
        ∃ m s', message nm.toNumerals conf ans s = .ok (m, s') ∧ text s'.input = rest ∧
          Received conf body sender rcpts m) ∧
    (∀ t : Turn, t.Ok nm.toNumerals conf → (t.ans.close = [] ∨ Response t.ans.close) →
      t.message.result.length < 2000000010 → ∀ smtptext rest : Bytes,
      ∃ u, (getresponses t.frame.rcpts.length
            ⟨(t.message.responses nm.toNumerals).flatten ++ rest, smtptext⟩).2 = .ok ⟨rest, u⟩ ∧
        (getresponses t.frame.rcpts.length
            ⟨(t.message.responses nm.toNumerals).flatten ++ rest, smtptext⟩).1.map Report.letter =
          t.message.failure.map fun c => if c = 0 then letter t.message.result else 104) ∧
    (∀ (n : Nat) (s : From), ∃ (fs : List Field) (rest : Bytes),
      s.input = fs.flatMap Field.bytes ++ rest ∧
      (∀ f ∈ fs, f.ProperIfDigits ∧ Response f.data) ∧
      (getresponses n s).1.map Report.letter = (fs.map fun f => letter f.data) ∧
      match (getresponses n s).2 with
      | .ok s' => fs.length = n ∧ s'.input = rest
      | .error _ => fs.length < n) := by
  refine ⟨?_, ?_, getresponses_spec⟩
  · intro ans body sender rcpts hopen hbody hnul hsender hrcpts htotal s rest hs
    exact message_request nm hbody hnul hsender hrcpts htotal hopen hs
  · intro t ht hclose hlen smtptext rest
    exact getresponses_responses nm ht hclose hlen smtptext rest

/-- The answers of the calls for a message that is taken. -/
def taken : Answers := ⟨true, 7, fun _ => 1, [], 1⟩

theorem allowed_taken {r : Bytes} (hnul : 0 ∉ r) (hlen : r.length < 1000) :
    Allowed ⟨none, 0⟩ taken r :=
  ⟨hnul, hlen, fun _ => ⟨show (1 : Int) ≠ -1 by decide, show (1 : Int) ≠ 0 by decide⟩⟩

/-- A message to two recipients, as a turn of a session. -/
def hello : Turn where
  input := marked [request decimal (asc "hello") (asc "a@b") [asc "c@d", asc "e@f"]]
  frame := sent decimal (asc "hello") (asc "a@b") [asc "c@d", asc "e@f"]
  ans := taken
  message := (sent decimal (asc "hello") (asc "a@b") [asc "c@d", asc "e@f"]).handled decimal
    ⟨none, 0⟩ taken

theorem text_hello :
    text hello.input = request decimal (asc "hello") (asc "a@b") [asc "c@d", asc "e@f"] := by
  rw [hello, text_marked, List.flatten_singleton]

/-- One message to two recipients, there and back. -/
theorem qmtp_lossless_hello :
    (∃ m s', message decimal ⟨none, 0⟩ taken ⟨hello.input, {}⟩ = .ok (m, s') ∧
      text s'.input = [] ∧
      Received ⟨none, 0⟩ (asc "hello") (asc "a@b") [asc "c@d", asc "e@f"] m) ∧
    (∃ u, (getresponses hello.frame.rcpts.length
          ⟨(hello.message.responses decimal).flatten ++ asc "more", []⟩).2 = .ok ⟨asc "more", u⟩ ∧
      (getresponses hello.frame.rcpts.length
          ⟨(hello.message.responses decimal).flatten ++ asc "more", []⟩).1.map Report.letter =
        hello.message.failure.map fun c => if c = 0 then letter hello.message.result else 104) := by
  have hrcpts : ∀ r ∈ [asc "c@d", asc "e@f"], Allowed ⟨none, 0⟩ taken r := by
    intro r hr
    simp only [List.mem_cons, List.not_mem_nil, or_false] at hr
    rcases hr with rfl | rfl
    · exact allowed_taken (by decide) (by decide)
    · exact allowed_taken (by decide) (by decide)
  have htotal : ([asc "c@d", asc "e@f"].flatMap decimals.netstring).length ≤ 200000000 := by
    decide +kernel
  constructor
  · exact (qmtp_lossless decimals ⟨none, 0⟩).1 taken (asc "hello") (asc "a@b")
      [asc "c@d", asc "e@f"] rfl (by decide) (by decide) (by decide) hrcpts htotal
      ⟨hello.input, {}⟩ [] (by rw [List.append_nil]; exact text_hello)
  · have ht : hello.Ok decimals.toNumerals ⟨none, 0⟩ := by
      refine ⟨text_hello.trans (bytes_sent _ _ _ _).symm, ?_, rfl⟩
      exact sent_complete decimals (by decide) (by decide) hrcpts htotal rfl
    exact (qmtp_lossless decimals ⟨none, 0⟩).2.1 hello ht (.inl rfl) (by decide +kernel) []
      (asc "more")

/-- A recipient is received with the suffix of RELAYCLIENT; a message of 200000001 bytes is
refused; and a response is taken whose length is `1.`. -/
theorem qmtp_altered :
    ((message decimal ⟨some (asc ".x"), 0⟩ taken
        ⟨marked [request decimal (asc "hello") (asc "a@b") [asc "c@d"]], {}⟩).map
      fun r => r.1.recipients) = .ok [asc "c@d.x"] ∧
    (message decimal ⟨none, 0⟩ taken ⟨marked [asc "200000001:"], {}⟩ =
      .error (111, ⟨[(false, 58)], ⟨[], []⟩⟩)) ∧
    (getresponses 1 ⟨asc "1.:Kabcdefg,", []⟩).1.map Report.letter = [114] ∧
    ¬ ∃ f : Field, f.Proper ∧ asc "1.:Kabcdefg," = f.bytes := by
  refine ⟨?_, ?_, ?_, ?_⟩
  · decide +kernel
  · decide +kernel
  · decide +kernel
  · rintro ⟨f, hf, hbytes⟩
    have hlen : (f.len ++ 58 :: (f.data ++ [44])).takeWhile isDigit = f.len :=
      takeWhile_isDigit_append hf.1 (by simp [isDigit])
    rw [← Field.bytes, ← hbytes] at hlen
    have h1 : f.len = asc "1" := by
      rw [← hlen]
      decide +kernel
    rw [Field.bytes, h1] at hbytes
    have hdot : some (46 : Byte) = some 58 := congrArg (fun l => (List.drop 1 l).head?) hbytes
    exact absurd hdot (by decide)

end IndimailMta.Qmtp
