import IndimailMta.Dkim.Canonical

/-!
# The body of a message, from its buffers

A message with CRLF line ends is cut into its lines, the signer hashes the lines of its body, and a
signature that is verified by itself hashes the same bytes, up to its limit. They are the canonical
body if and only if the end of the body is not one that the code misses.
-/

namespace IndimailMta.Dkim

open IndimailMta

/-! ## The lines of a message -/

section Lines

variable {accepts : List Bytes → Bool} {bEOF cr : Bool} {s : Base} {m : Message}

/-- Bytes that are no line end. -/
theorem scan_plain {line : Bytes} (hp : 13 ∉ line ∧ 10 ∉ line) (hs : s.refused = false) :
    scan accepts bEOF false line s = { s with line := s.line ++ line } := by
  induction line generalizing s with
  | nil => rw [List.append_nil, scan]
  | cons ch rest ih =>
      have h10 : ch ≠ 10 := fun h => hp.2 (h ▸ List.mem_cons_self)
      have h13 : ch ≠ 13 := fun h => hp.1 (h ▸ List.mem_cons_self)
      have hrest : 13 ∉ rest ∧ 10 ∉ rest :=
        ⟨fun h => hp.1 (List.mem_cons_of_mem _ h), fun h => hp.2 (List.mem_cons_of_mem _ h)⟩
      have hnext := ih (s := { s with line := s.line ++ [ch] }) hrest hs
      rw [scan, if_neg (by simp [hs]), if_neg (by simp), if_pos ⟨h10, h13⟩, hnext,
        List.append_assoc]
      rfl

/-- A line and its end. -/
theorem scan_crlf {line : Bytes} (rest : Bytes) (hp : 13 ∉ line ∧ 10 ∉ line)
    (hs : s.refused = false) (hl : s.line = []) :
    scan accepts bEOF false (line ++ 13 :: 10 :: rest) s =
      scan accepts bEOF false rest (endLine accepts bEOF { s with line := line }) := by
  have hcr : crAfter false line = false := by
    rw [crAfter]
    cases h : line.getLast? with
    | none => rfl
    | some ch =>
        have hne : ch ≠ 13 := fun h13 => hp.1 (h13 ▸ List.mem_of_getLast? h)
        exact decide_eq_false hne
  have hline : { s with line := s.line ++ line } = { s with line := line } := by
    rw [hl, List.nil_append]
  have hend : scan accepts bEOF false (13 :: 10 :: rest) { s with line := line } =
      scan accepts bEOF true (10 :: rest) (endLine accepts bEOF { s with line := line }) :=
    scan_end _ hs (by simp) (Or.inr rfl)
  rw [scan_append, scan_plain hp hs, hcr, hline, hend]
  cases href : (endLine accepts bEOF { s with line := line }).refused with
  | true => rw [scan_refused _ href, scan_refused _ href]
  | false => exact scan_lf rest href

/-- The fields of the header. -/
theorem scan_header {hs : List Bytes} (rest : Bytes)
    (hp : ∀ line ∈ hs, line ≠ [] ∧ 13 ∉ line ∧ 10 ∉ line) (href : s.refused = false)
    (hl : s.line = []) (hin : s.inHeaders = true) :
    scan accepts false false (crlf hs ++ rest) s =
      scan accepts false false rest { s with headerList := hs.foldl pushHeader s.headerList } := by
  induction hs generalizing s with
  | nil => rfl
  | cons line hs ih =>
      obtain ⟨hne, hplain⟩ := hp line List.mem_cons_self
      have hend : endLine accepts false { s with line := line } =
          { s with headerList := pushHeader s.headerList line } := by
        rw [endLine, if_pos hin, if_neg hne, ← hl]
      have htext : crlf (line :: hs) ++ rest = line ++ 13 :: 10 :: (crlf hs ++ rest) := by
        rw [crlf_cons, List.append_assoc]
        rfl
      rw [htext, scan_crlf _ hplain href hl, hend]
      exact ih (s := { s with headerList := pushHeader s.headerList line })
        (fun x hx => hp x (List.mem_cons_of_mem _ hx)) href hl hin

/-- The lines of the body. -/
theorem scan_lines {lines : List Bytes} (rest : Bytes)
    (hp : ∀ line ∈ lines, 13 ∉ line ∧ 10 ∉ line) (href : s.refused = false) (hl : s.line = [])
    (hin : s.inHeaders = false) :
    scan accepts false false (crlf lines ++ rest) s =
      scan accepts false false rest { s with calls := s.calls ++ lines.map (·, false) } := by
  induction lines generalizing s with
  | nil => rw [List.map_nil, List.append_nil, crlf_nil, List.nil_append]
  | cons line lines ih =>
      have hend : endLine accepts false { s with line := line } =
          { s with calls := s.calls ++ [(line, false)] } := by
        rw [endLine_body (s := { s with line := line }) hin, ← hl]
      have htext : crlf (line :: lines) ++ rest = line ++ 13 :: 10 :: (crlf lines ++ rest) := by
        rw [crlf_cons, List.append_assoc]
        rfl
      have hnext := ih (s := { s with calls := s.calls ++ [(line, false)] })
        (fun x hx => hp x (List.mem_cons_of_mem _ hx)) href hl hin
      rw [htext, scan_crlf _ (hp line List.mem_cons_self) href hl, hend, hnext, List.append_assoc]
      rfl

def Message.fields (m : Message) : List Bytes := m.header.foldl pushHeader []

/-- What is made of a message in one buffer. -/
theorem messageOf_text (accepts : List Bytes → Bool) (m : Message) :
    messageOf accepts [m.text] =
      if m.body.isSome = true ∧ accepts m.fields = false then none else some (m.fields, m.calls) := by
  have hfeed : feed accepts [m.text] {} = scan accepts false false m.text {} := by
    rw [feed_cons]
    rfl
  rw [messageOf, hfeed, Message.text, Message.calls, Message.fields,
    scan_header _ m.plain rfl rfl rfl]
  cases m.body with
  | none => rfl
  | some b =>
      have htext : (Option.map (fun b : Body => [13, 10] ++ b.text) (some b)).getD [] =
          [] ++ 13 :: 10 :: (crlf b.lines ++ b.tail) := rfl
      rw [htext, scan_crlf _ ⟨List.not_mem_nil, List.not_mem_nil⟩ rfl rfl, endLine, if_pos rfl, if_pos rfl]
      dsimp only
      cases hacc : accepts (List.foldl pushHeader [] m.header) with
      | false =>
          rw [scan_refused _ rfl]
          rfl
      | true =>
          rw [scan_lines _ b.plain_lines rfl rfl rfl, scan_plain b.plain_tail rfl]
          by_cases htail : b.tail = []
          · simp [processFinal, Body.calls, htail]
          · simp [processFinal, Body.calls, htail, process_crlf, endLine]

end Lines

/-! ## The verifier -/

section Verifier

variable {start hashed : Bytes} {sig : Signature} {n : Nat} {p : SignatureInfo × Bytes}

/-- What is hashed of `b` for a signature. -/
def limited (sig : Signature) (b : Bytes) : Bytes :=
  match sig.bodyLength with
  | none => b
  | some len => b.take len

/-- The verifier has hashed what the signer has, up to the limit. -/
structure Track (start : Bytes) (sig : Signature) (hashed : Bytes) (n : Nat) (i : SignatureInfo) :
    Prop where
  sig_eq : i.sig = sig
  status : i.status = 0
  empty : i.emptyLineCount = n
  unlimited : sig.bodyLength = none → i.body = start ++ hashed
  limit : ∀ len, sig.bodyLength = some len → Limited len start hashed i

theorem hashBody_emptyLineCount (b : Bytes) (p : SignatureInfo × Bytes) :
    (hashBody b p).1.emptyLineCount = p.1.emptyLineCount := by
  have hlimit : (limit b p.1).2.emptyLineCount = p.1.emptyLineCount := by
    rw [limit]
    split
    · rfl
    · dsimp only
      split <;> rfl
  rw [hashBody]
  dsimp only
  split <;> exact hlimit

theorem Track.hash (h : Track start sig hashed n p.1) (b : Bytes) :
    Track start sig (hashed ++ b) n (hashBody b p).1 := by
  obtain ⟨hsig, hstatus, hbody, -, -⟩ := hashBody_body b p
  refine ⟨hsig.trans h.sig_eq, hstatus.trans h.status, ?_, ?_, ?_⟩
  · rw [hashBody_emptyLineCount, h.empty]
  · intro hlen
    have hlimit : (Dkim.limit b p.1).1 = b := by rw [Dkim.limit, h.sig_eq, hlen]
    rw [hbody, h.unlimited hlen, hlimit, List.append_assoc]
  · intro len hlen
    exact (h.limit len hlen).step (h.sig_eq ▸ hlen)

theorem Track.count (h : Track start sig hashed n p.1) (k : Nat) :
    Track start sig hashed k { p.1 with emptyLineCount := k } :=
  ⟨h.sig_eq, h.status, rfl, h.unlimited, fun len hlen =>
    ⟨(h.limit len hlen).body, (h.limit len hlen).verified, (h.limit len hlen).unverified⟩⟩

theorem Track.emptyLines (k : Nat) (h : Track start sig hashed 0 p.1) :
    Track start sig (hashed ++ crlf (List.replicate k [])) 0 (hashEmptyLines k p).1 := by
  induction k generalizing hashed p with
  | zero =>
      rw [List.replicate_zero, crlf_nil, List.append_nil]
      exact h
  | succ k ih =>
      have hrest := ih (h.hash [13, 10])
      rw [List.append_assoc] at hrest
      rw [List.replicate_succ, crlf_cons]
      exact hrest

/-- One line. -/
theorem Track.line {s : Signer} (h : Track start sig s.hashed s.emptyLineCount p.1)
    (call : Bytes × Bool) :
    Track start sig (s.processBody sig.bodyCanon call).hashed
      (s.processBody sig.bodyCanon call).emptyLineCount
      (bodyLine call.2 (canonLine sig.bodyCanon call.1) p).1 := by
  have hflush : Track start sig (s.emptyLines s.emptyLineCount).hashed
      (s.emptyLines s.emptyLineCount).emptyLineCount
      (hashEmptyLines p.1.emptyLineCount ({ p.1 with emptyLineCount := 0 }, p.2)).1 := by
    obtain ⟨hh, he⟩ := Signer.emptyLines_eq (s := s) s.emptyLineCount
    rw [hh, he, h.empty]
    exact Track.emptyLines s.emptyLineCount (h.count 0)
  cases hc : sig.bodyCanon with
  | simple =>
      rw [bodyLine, h.sig_eq, hc, Signer.processBody]
      dsimp only
      split
      · exact (hflush.hash (canonLine .simple call.1)).hash [13, 10]
      · split
        · exact Track.hash (p := ({ p.1 with emptyLineCount := p.1.emptyLineCount + 1 }, p.2))
            (h.empty ▸ h.count (p.1.emptyLineCount + 1)) [13, 10]
        · exact h.empty ▸ h.count (p.1.emptyLineCount + 1)
  | nowsp =>
      rw [bodyLine, h.sig_eq, hc, Signer.processBody]
      dsimp only
      split
      · exact h.hash _
      · rename_i hnil
        have hnone := h.hash []
        rw [List.append_nil] at hnone
        rw [not_not.mp hnil]
        exact hnone
  | relaxed =>
      rw [bodyLine, h.sig_eq, hc, Signer.processBody]
      dsimp only
      split
      · have hline := hflush.hash (canonLine .relaxed call.1)
        split
        · exact hline
        · exact hline.hash [13, 10]
      · exact h.empty ▸ h.count (p.1.emptyLineCount + 1)

/-- The lines, for one signature by itself. -/
theorem Track.lines {i : SignatureInfo} {s : Signer} (calls : List (Bytes × Bool))
    (h : Track start sig s.hashed s.emptyLineCount i) (sigHdr : Bytes) :
    ∃ j n, (processLines calls sigHdr [i]).1 = [j] ∧
      Track start sig (calls.foldl (Signer.processBody sig.bodyCanon) s).hashed n j := by
  induction calls generalizing i s sigHdr with
  | nil => exact ⟨i, _, rfl, h⟩
  | cons call calls ih =>
      have hline := Track.line (p := (i, sigHdr)) h call
      have hbody : processBody call.2 call.1 sigHdr [i] =
          ([(bodyLine call.2 (canonLine sig.bodyCanon call.1) (i, sigHdr)).1],
            (bodyLine call.2 (canonLine sig.bodyCanon call.1) (i, sigHdr)).2) := by
        rw [processBody, if_neg (not_not_intro h.status), h.sig_eq]
        rfl
      obtain ⟨j, n, hj, ht⟩ := ih hline
        (bodyLine call.2 (canonLine sig.bodyCanon call.1) (i, sigHdr)).2
      refine ⟨j, n, ?_, ht⟩
      rw [processLines, hbody]
      exact hj

/-- A signature before the body. -/
structure Fresh (i : SignatureInfo) : Prop where
  status : i.status = 0
  empty : i.emptyLineCount = 0
  verified : i.verifiedBodyCount = 0
  unverified : i.unverifiedBodyCount = 0

/-- The verifier hashes what the signer hashes, up to the limit. -/
theorem verifier_hashes {i : SignatureInfo} (h : Fresh i) (calls : List (Bytes × Bool))
    (sigHdr : Bytes) :
    ∃ j, (processLines calls sigHdr [i]).1 = [j] ∧
      j.body = i.body ++ limited i.sig (signer i.sig.bodyCanon calls).hashed := by
  have hstart : Track i.body i.sig ({} : Signer).hashed ({} : Signer).emptyLineCount i := by
    refine ⟨rfl, h.status, h.empty, fun _ => (List.append_nil _).symm, ?_⟩
    intro len _
    refine ⟨?_, ?_, ?_⟩
    · rw [List.take_nil, List.append_nil]
    · rw [h.verified, List.length_nil, Nat.min_zero]
    · rw [h.unverified, List.length_nil, Nat.zero_sub]
  obtain ⟨j, n, hj, ht⟩ := hstart.lines calls sigHdr
  refine ⟨j, hj, ?_⟩
  rw [limited]
  cases hlen : i.sig.bodyLength with
  | none => exact ht.unlimited hlen
  | some len => exact (ht.limit len hlen).body

end Verifier

/-! ## A message in buffers -/

/-- The buffers are read as the message, the signer hashes the canonical body and counts it, and a
signature by itself is verified over it. -/
def Right (accepts : List Bytes → Bool) (c : Canon) (m : Message) (bufs : List Bytes) : Prop :=
  messageOf accepts bufs = messageOf accepts [m.text] ∧
    ∀ r ∈ messageOf accepts bufs,
      (signer c r.2).hashed = m.canonical c ∧
      (signer c r.2).nBodyLength = (signer c r.2).hashed.length ∧
      ∀ (i : SignatureInfo) (sigHdr : Bytes), Fresh i → i.sig.bodyCanon = c →
        ∃ j, (processLines r.2 sigHdr [i]).1 = [j] ∧
          j.body = i.body ++ limited i.sig (m.canonical c)

theorem int32_eq_iff (n : Nat) : int32 n = n ↔ n < 2 ^ 31 := by
  rw [int32]
  split <;> omega

/-- Buffers are read as the message if and only if none ends between CR and LF, and then the
canonical body is hashed and counted if and only if the end of the body is one that is seen. -/
theorem dkim_body_iff (accepts : List Bytes → Bool) (c : Canon) (hc : c ≠ .nowsp) :
    (∀ bufs, messageOf accepts [bufs.flatten] ≠ none →
      (messageOf accepts bufs = messageOf accepts [bufs.flatten] ↔ NoInside false bufs)) ∧
    ∀ (m : Message) (bufs : List Bytes), bufs.flatten = m.text →
      messageOf accepts [m.text] ≠ none →
        (Right accepts c m bufs ↔
          NoInside false bufs ∧ m.Meets c ∧ (m.canonical c).length < 2 ^ 31) := by
  refine ⟨fun bufs hacc => messageOf_eq_iff hacc, ?_⟩
  intro m bufs htext hacc
  have hread : messageOf accepts [m.text] = some (m.fields, m.calls) := by
    rw [messageOf_text] at hacc ⊢
    split at hacc
    · exact absurd rfl hacc
    · rename_i h
      rw [if_neg h]
  constructor
  · rintro ⟨hsame, hall⟩
    have hr := hall (m.fields, m.calls) (hsame.trans hread)
    have hlen := hr.2.1
    rw [signer_length, hr.1, int32_eq_iff] at hlen
    refine ⟨?_, (signer_iff hc).mp hr.1, hlen⟩
    rw [← htext] at hsame hacc
    exact (messageOf_eq_iff hacc).mp hsame
  · rintro ⟨hcut, hmeets, hlen⟩
    have hsame : messageOf accepts bufs = messageOf accepts [m.text] := by
      rw [← htext]
      exact messageOf_eq hcut
    refine ⟨hsame, ?_⟩
    intro r hr
    obtain rfl : (m.fields, m.calls) = r := Option.some.inj (hread.symm.trans (hsame.symm.trans hr))
    have hhash := (signer_iff hc).mpr hmeets
    refine ⟨hhash, ?_, ?_⟩
    · rw [signer_length, hhash, int32_eq_iff]
      exact hlen
    · intro i sigHdr hi hci
      have hver := verifier_hashes hi m.calls sigHdr
      rwa [hci, hhash] at hver

/-! ## An empty body -/

/-- A header and an empty body. -/
def emptyBody : Message where
  header := [asc "From: a@b"]
  body := some ⟨[], [], by simp⟩
  plain := by decide

/-- `simple` hashes nothing of an empty body. -/
theorem empty_body_is_not_hashed : ¬ ∀ (accepts : List Bytes → Bool) (c : Canon) (m : Message)
    (bufs : List Bytes), c ≠ .nowsp → bufs.flatten = m.text → messageOf accepts [m.text] ≠ none →
      Right accepts c m bufs := by
  intro h
  have hread : messageOf (fun _ => true) [emptyBody.text] =
      some (emptyBody.fields, emptyBody.calls) := by
    rw [messageOf_text, if_neg (by simp)]
  obtain ⟨-, hall⟩ := h (fun _ => true) .simple emptyBody [emptyBody.text] (by decide)
    (List.append_nil _) (by rw [hread]; exact Option.some_ne_none _)
  have hhash := (hall _ hread).1
  exact absurd hhash (by decide)

/-- A header and a line, in two buffers. -/
def oneLine : Message where
  header := [asc "From: a@b"]
  body := some ⟨[asc "a  b "], [], by decide⟩
  plain := by decide

theorem dkim_body_iff_oneLine :
    Right (fun _ => true) .relaxed oneLine [oneLine.text.take 4, oneLine.text.drop 4] ↔
      NoInside false [oneLine.text.take 4, oneLine.text.drop 4] ∧ oneLine.Meets .relaxed ∧
        (oneLine.canonical .relaxed).length < 2 ^ 31 :=
  (dkim_body_iff (fun _ => true) .relaxed (by decide)).2 oneLine _ (by decide)
    (by rw [messageOf_text, if_neg (by simp)]; exact Option.some_ne_none _)

end IndimailMta.Dkim
