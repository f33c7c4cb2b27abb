import IndimailMta.Queue.Qmail

/-!
# Handing a message over

The two ends together: whatever order of puts, `qmail_from`, `qmail_to` and
`qmail_fail` fills the pipes, and whichever writes fail, qmail-queue queues either
the message, the sender and the recipients that were passed, or nothing; and an
address that is too long always makes it fail.
-/

namespace IndimailMta.Queue

open IndimailMta Exits Output

/-! ## §1 The envelopes that are accepted -/

theorem accepts_mono : ∀ {pos : Option Nat} {p e : Bytes}, p <+: e → accepts pos p = true →
    accepts pos e = true
  | _, [], _, _, h => by simp [accepts] at h
  | pos, ch :: p, e, hp, h => by
      obtain ⟨tail, rfl⟩ := hp
      cases pos with
      | none =>
          simp only [accepts, Bool.or_eq_true, Bool.and_eq_true, List.cons_append] at h ⊢
          rcases h with h | h
          · exact .inl h
          · exact .inr ⟨h.1, accepts_mono (List.prefix_append p tail) h.2⟩
      | some len =>
          simp only [accepts, List.cons_append] at h ⊢
          by_cases h0 : ch = 0
          · rw [if_pos h0] at h ⊢
            exact accepts_mono (List.prefix_append p tail) h
          · rw [if_neg h0, Bool.and_eq_true] at h ⊢
            exact ⟨h.1, accepts_mono (List.prefix_append p tail) h.2⟩

theorem acceptsEnvelope_mono {p e : Bytes} (hp : p <+: e) (h : acceptsEnvelope p = true) :
    acceptsEnvelope e = true := by
  obtain ⟨tail, rfl⟩ := hp
  cases p with
  | nil => simp [acceptsEnvelope] at h
  | cons ch p =>
      by_cases hF : ch = 70
      · subst hF
        exact accepts_mono (List.prefix_append p tail) h
      · simp [acceptsEnvelope, hF] at h

/-- An address is read if it is short enough. -/
theorem accepts_address : ∀ {a : Bytes} {len : Nat} (rest : Bytes), 0 ∉ a → len < ADDR →
    accepts (some len) (a ++ 0 :: rest) = (decide (len + a.length < ADDR) && accepts none rest)
  | [], len, rest, _, hlen => by simp [accepts, hlen]
  | ch :: a, len, rest, ha, _ => by
      have h0 : ch ≠ 0 := fun h => ha (by simp [h])
      rw [List.cons_append, accepts, if_neg h0, List.length_cons]
      by_cases hlt : len + 1 < ADDR
      · rw [accepts_address rest (fun h => ha (List.mem_cons_of_mem ch h)) hlt]
        simp only [hlt, decide_true, Bool.true_and, Nat.add_assoc, Nat.add_comm 1]
      · have hlong : ¬ len + (a.length + 1) < ADDR := by omega
        simp [hlt, hlong]

theorem accepts_records : ∀ {rs : List Bytes} (rest : Bytes), (∀ r ∈ rs, 0 ∉ r) →
    accepts none (rs.flatMap recordOf ++ rest) =
      (rs.all (fun r => decide (r.length < ADDR)) && accepts none rest)
  | [], rest, _ => by simp
  | r :: rs, rest, hrs => by
      have hsplit : (r :: rs).flatMap recordOf ++ rest =
          84 :: (r ++ 0 :: (rs.flatMap recordOf ++ rest)) := by simp [recordOf]
      rw [hsplit, accepts, accepts_address _ (hrs r List.mem_cons_self) (by decide),
        accepts_records rest fun r' h' => hrs r' (List.mem_cons_of_mem r h')]
      simp [Bool.and_assoc]

theorem acceptsEnvelope_records {s : Bytes} {rs : List Bytes} (rest : Bytes) (hs : 0 ∉ s)
    (hrs : ∀ r ∈ rs, 0 ∉ r) :
    acceptsEnvelope (senderRecord s ++ rs.flatMap recordOf ++ rest) =
      (decide (s.length < ADDR) && (rs.all (fun r => decide (r.length < ADDR)) &&
        accepts none rest)) := by
  have hsplit : senderRecord s ++ rs.flatMap recordOf ++ rest =
      70 :: (s ++ 0 :: (rs.flatMap recordOf ++ rest)) := by simp [senderRecord]
  rw [hsplit, acceptsEnvelope, accepts_address _ hs (by decide), accepts_records rest hrs,
    Nat.zero_add]

/-! ## §2 Sessions -/

/-- The sender and the recipients are shorter than `ADDR`. -/
def Session.Short (S : Session) : Prop :=
  S.from_.length < ADDR ∧ ∀ r ∈ S.recipients, r.length < ADDR

theorem nul_notMem_from (S : Session) : (0 : Byte) ∉ S.from_ := nul_notMem_cstr S.sender

theorem nul_notMem_recipients (S : Session) : ∀ r ∈ S.recipients, (0 : Byte) ∉ r := by
  intro r hr
  obtain ⟨c, _, hc⟩ := List.mem_flatMap.mp hr
  cases c with
  | sendTo x =>
      rw [List.mem_singleton.mp hc]
      exact nul_notMem_cstr x
  | put rs =>
      obtain ⟨x, _, rfl⟩ := List.mem_map.mp hc
      exact nul_notMem_cstr x
  | fail => simp [EnvelopeCall.recipients] at hc

/-- The envelope of a session that is not short is not accepted. -/
theorem refused_of_not_short {S : Session} (h : ¬ S.Short) :
    acceptsEnvelope (senderRecord S.from_ ++ S.recipients.flatMap recordOf ++ [0]) = false := by
  rw [acceptsEnvelope_records [0] (nul_notMem_from S) (nul_notMem_recipients S)]
  by_contra hacc
  simp only [Bool.not_eq_false, Bool.and_eq_true, decide_eq_true_eq, List.all_eq_true] at hacc
  exact h ⟨hacc.1, hacc.2.1⟩

/-- Without the final NUL no envelope of a session is accepted. -/
theorem refused_of_initial {S : Session} {e : Bytes}
    (h : e <+: senderRecord S.from_ ++ S.recipients.flatMap recordOf) :
    acceptsEnvelope e = false := by
  by_contra hacc
  rw [Bool.not_eq_false] at hacc
  have hall := acceptsEnvelope_mono h hacc
  rw [← List.append_nil (senderRecord S.from_ ++ _),
    acceptsEnvelope_records [] (nul_notMem_from S) (nul_notMem_recipients S)] at hall
  simp [accepts] at hall

theorem closed_ne_ok {O : OutStream Byte} {q : Qmail O} {code : Nat}
    (h : code ≠ 0 ∨ q.flagerr = true) : qmailClosed q code ≠ .ok := by
  by_cases h0 : code = 0
  · have herr := h.resolve_left (fun hne => hne h0)
    simp [qmailClosed, h0, herr]
  · rw [qmailClosed, if_neg h0]
    split <;> decide

/-- **What was passed is queued exactly, or nothing is.** -/
theorem session_queued {O : OutStream Byte} (s : O.State) (S : Session) (env : Env)
    (answers : List Answer) (chunks : List Bytes) :
    (Failed S.calls (runCalls s S.calls) →
      ∃ code w, main { env with envelope := (runCalls s S.calls).envelope }
          { answers := answers } = (.error code, w) ∧
        Uncommitted w ∧ qmailClosed (runCalls s S.calls) code ≠ .ok) ∧
    (¬ S.Short →
      ∃ code w, main (env.plain chunks (runCalls s S.calls).envelope) { answers := answers } =
          (.error code, w) ∧
        code ≠ 0 ∧ Uncommitted w ∧ qmailClosed (runCalls s S.calls) code ≠ .ok) ∧
    (¬ Failed S.calls (runCalls s S.calls) → S.Short →
      chunks.flatten = (runCalls s S.calls).message →
      ∃ w, main (env.plain chunks (runCalls s S.calls).envelope) {} = (.error 0, w) ∧
        w.exist .todo = true ∧ w.mess = env.trace ++ S.body ∧
        w.intd = env.intdHead ++ senderRecord S.from_ ++ S.recipients.flatMap recordOf ++
          env.intdTail ∧
        qmailClosed (runCalls s S.calls) 0 = .ok) := by
  obtain ⟨hfailed, hsent⟩ := session_pipes s S rfl
  rw [← flagerr_iff]
  generalize runCalls s S.calls = q at hfailed hsent
  refine ⟨fun herr => ?_, fun hlong => ?_, fun hok hshort hchunks => ?_⟩
  · obtain ⟨code, w, hmain, hw⟩ := @main_refused
      { env with envelope := q.envelope } (refused_of_initial (hfailed herr)) answers
    exact ⟨code, w, hmain, hw.1, closed_ne_ok (.inr herr)⟩
  · have hrefused : acceptsEnvelope q.envelope = false := by
      by_cases herr : q.flagerr = true
      · exact refused_of_initial (hfailed herr)
      · rw [(hsent (by simpa using herr)).2]
        exact refused_of_not_short hlong
    obtain ⟨code, w, hmain, hw⟩ := @main_refused (env.plain chunks q.envelope)
      hrefused answers
    have hcode : code ≠ 0 := fun h0 => hw.2 h0 rfl
    exact ⟨code, w, hmain, hcode, hw.1, closed_ne_ok (.inl hcode)⟩
  · have hok : q.flagerr = false := by simpa using hok
    obtain ⟨hmessage, henvelope⟩ := hsent hok
    obtain ⟨w, hmain, hexist, hmess, hintd⟩ := main_plain env chunks (nul_notMem_from S)
      hshort.1 fun r hr => ⟨nul_notMem_recipients S r hr, hshort.2 r hr⟩
    rw [hchunks, hmessage] at hmess
    rw [henvelope]
    exact ⟨w, hmain, hexist, hmess, hintd, by simp [qmailClosed, hok]⟩

/-- A message, a sender and two recipients. -/
def smallSession : Session :=
  ⟨[.puts (asc "hello\n")], asc "s@x", [.sendTo (asc "r@y"), .put [asc "t@z"]]⟩

/-- A buffer of eight bytes, and a descriptor every write to which works. -/
def eightBytes : (buffered Byte 8).State := ({} : Buffer Byte)

/-- The small session is queued. -/
theorem session_queued_small :
    ∃ w, main (Env.plain { nm := decimal, received := asc "Received: x\n" } [asc "hello\n"]
        (runCalls eightBytes smallSession.calls).envelope) {} = (.error 0, w) ∧
      w.exist .todo = true ∧ w.mess = asc "Received: x\nhello\n" ∧
      w.intd = asc "u0" ++ [0] ++ asc "p0" ++ [0] ++ asc "Fs@x" ++ [0] ++ asc "Tr@y" ++ [0] ++
        asc "Tt@z" ++ [0] := by
  obtain ⟨w, hmain, hexist, hmess, hintd, _⟩ := (session_queued eightBytes
    smallSession { nm := decimal, received := asc "Received: x\n" } [] [asc "hello\n"]).2.2
    (by rw [← flagerr_iff]; decide +kernel) ⟨by decide +kernel, by decide +kernel⟩
    (by decide +kernel)
  refine ⟨w, hmain, hexist, hmess.trans (by decide +kernel), hintd.trans (by decide +kernel)⟩

/-- Calls out of order: with no `qmail_from` no call fails, and nothing is queued; and a
`qmail_put` behind `qmail_from` can end the envelope, so that a later `qmail_fail` comes too
late. -/
theorem calls_out_of_order :
    (¬ Failed [] (runCalls eightBytes []) ∧
      (main (Env.plain { nm := decimal } [] (runCalls eightBytes []).envelope) {}).2.exist .todo =
        false) ∧
    (main (Env.plain { nm := decimal } [] (runCalls eightBytes
      [.sendFrom (asc "s@x"), .put (asc "Tr@y" ++ [0, 0]), .put (asc "12345678"),
        .fail]).envelope) {}).2.exist .todo = true := by
  refine ⟨⟨?_, by decide +kernel⟩, by decide +kernel⟩
  rw [← flagerr_iff]
  decide +kernel

end IndimailMta.Queue
