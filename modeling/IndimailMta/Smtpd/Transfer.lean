import IndimailMta.Smtpd.Blast
import IndimailMta.Remote.Blast

/-!
# SMTP body transfer

What qmail-remote's `blast` writes is read back by qmail-smtpd's: the message,
whatever bytes it has, and nothing behind the terminator. The relation between
the two machines is `Follows`: at the start of a line for the one, `line` for the
other; otherwise `text`, or `cr` with a carriage return still to be put.

For any other input, what stands before the place where qmail-smtpd stops is read
off its state (`Behind`): it stops only at a dot between CR LF and CR LF, or at
the start of the data.
-/

namespace IndimailMta.Smtpd

open IndimailMta Transducer

variable {filters : Bytes → Bool}

/-! ## §1 The two machines -/

/-- qmail-smtpd has put `sent`, or will have with the carriage return it has seen; `eom` is
qmail-remote's. -/
inductive Follows : Bool → Bytes → Blast → Prop
  | line {sent : Bytes} {b : Blast} (hs : b.state = .line) (hq : b.qqt.sent = sent) :
      Follows true sent b
  | text {sent : Bytes} {b : Blast} (hs : b.state = .text) (hq : b.qqt.sent = sent) :
      Follows false sent b
  | cr {sent : Bytes} {b : Blast} (hs : b.state = .cr) (hq : b.qqt.sent ++ [13] = sent) :
      Follows false sent b

/-- `b` reads `w` and is `b'`. -/
def Reads (filters : Bytes → Bool) (b : Blast) (w : Bytes) (b' : Blast) : Prop :=
  ∀ rest, blastLoop filters false b (w ++ rest) = blastLoop filters false b' rest

theorem Reads.nil (b : Blast) : Reads filters b [] b := fun _ => rfl

theorem Reads.append {b b' b'' : Blast} {w v : Bytes} (h : Reads filters b w b')
    (h' : Reads filters b' v b'') : Reads filters b (w ++ v) b'' := by
  intro rest
  rw [List.append_assoc, h, h']

theorem Reads.byte {b b' : Blast} {ch : Byte} (h : blastByte filters b ch = .ok b') :
    Reads filters b [ch] b' := by
  intro rest
  simp only [List.cons_append, List.nil_append, blastLoop, barelf, Bool.false_eq_true, if_false,
    List.foldlM_cons, List.foldlM_nil]
  rw [show ({ b with seencr := b.seencr } : Blast) = b from rfl, h]
  rfl

/-- A byte on which `switch` goes on. -/
theorem Reads.switch {b b' : Blast} {ch : Byte}
    (h : blastSwitch filters { b with header := headerByte ch b.header } ch = .ok b') :
    Reads filters b [ch] b' :=
  Reads.byte h

/-- Two bytes on which `switch` goes on. -/
theorem Reads.two {b b' b'' : Blast} {ch ch' : Byte}
    (h : blastSwitch filters { b with header := headerByte ch b.header } ch = .ok b')
    (h' : blastSwitch filters { b' with header := headerByte ch' b'.header } ch' = .ok b'') :
    Reads filters b [ch, ch'] b'' :=
  (Reads.switch h).append (Reads.switch h')

/-- CR LF behind anything but a dot ends a line. -/
theorem follows_newline {eom : Bool} {sent : Bytes} {b : Blast} (h : Follows eom sent b) :
    ∃ b', Follows true (sent ++ [10]) b' ∧ Reads filters b [13, 10] b' := by
  rcases b with ⟨state, seencr, header, qqt⟩
  cases h with
  | line hs hq =>
      obtain rfl : state = .line := hs
      refine ⟨_, ?_, Reads.two rfl rfl⟩
      exact .line rfl (by rw [← hq]; rfl)
  | text hs hq =>
      obtain rfl : state = .text := hs
      refine ⟨_, ?_, Reads.two rfl rfl⟩
      exact .line rfl (by rw [← hq]; rfl)
  | cr hs hq =>
      obtain rfl : state = .cr := hs
      refine ⟨_, ?_, Reads.two rfl rfl⟩
      exact .line rfl (by rw [← hq]; rfl)

/-- A carriage return is put when the next byte is seen. -/
theorem follows_return {eom : Bool} {sent : Bytes} {b : Blast} (h : Follows eom sent b) :
    ∃ b', Follows false (sent ++ [13]) b' ∧ Reads filters b [13] b' := by
  rcases b with ⟨state, seencr, header, qqt⟩
  cases h with
  | line hs hq =>
      obtain rfl : state = .line := hs
      refine ⟨_, ?_, Reads.switch rfl⟩
      exact .cr rfl (congrArg (· ++ [13]) hq)
  | text hs hq =>
      obtain rfl : state = .text := hs
      refine ⟨_, ?_, Reads.switch rfl⟩
      exact .cr rfl (congrArg (· ++ [13]) hq)
  | cr hs hq =>
      obtain rfl : state = .cr := hs
      refine ⟨_, ?_, Reads.switch rfl⟩
      exact .cr rfl (congrArg (· ++ [13]) hq)

/-- A byte that has no meaning where it stands. -/
theorem follows_plain {eom : Bool} {sent : Bytes} {b : Blast} {ch : Byte}
    (h : Follows eom sent b) (hlf : ch ≠ 10) (hcr : ch ≠ 13) (hdot : eom = true → ch ≠ 46) :
    ∃ b', Follows false (sent ++ [ch]) b' ∧ Reads filters b [ch] b' := by
  rcases b with ⟨state, seencr, header, qqt⟩
  cases h with
  | line hs hq =>
      obtain rfl : state = .line := hs
      refine ⟨Blast.put filters ⟨.line, seencr, headerByte ch header, qqt⟩ .text ch, ?_,
        Reads.switch ?_⟩
      · exact .text rfl (congrArg (· ++ [ch]) hq)
      · simp only [blastSwitch, if_neg hlf, if_neg hcr, if_neg (hdot rfl)]
  | text hs hq =>
      obtain rfl : state = .text := hs
      refine ⟨Blast.put filters ⟨.text, seencr, headerByte ch header, qqt⟩ .text ch, ?_,
        Reads.switch ?_⟩
      · exact .text rfl (congrArg (· ++ [ch]) hq)
      · simp only [blastSwitch, if_neg hlf, if_neg hcr]
  | cr hs hq =>
      obtain rfl : state = .cr := hs
      refine ⟨Blast.put filters (Blast.put filters ⟨.cr, seencr, headerByte ch header, qqt⟩
        .text 13) .text ch, ?_, Reads.switch ?_⟩
      · exact .text rfl (congrArg (· ++ [ch]) hq)
      · simp only [blastSwitch, if_neg hlf, if_neg hcr]

/-- **One byte of the message.** What qmail-remote stores for it is read back as that byte. -/
theorem follows_byte (filters : Bytes → Bool) {eom : Bool} {sent : Bytes} {b : Blast} (ch : Byte)
    (h : Follows eom sent b) :
    ∃ b', Follows (Remote.blastByte eom ch).1 (sent ++ [ch]) b' ∧
      Reads filters b (Remote.blastByte eom ch).2 b' := by
  unfold Remote.blastByte
  by_cases hlf : ch = 10
  · subst hlf
    exact follows_newline h
  rw [if_neg hlf]
  by_cases hcr : ch = 13
  · subst hcr
    simpa using follows_return h
  by_cases hdot : eom = true ∧ ch = 46
  · -- the dot that was put in front is left out
    obtain ⟨rfl, rfl⟩ := hdot
    rcases b with ⟨state, seencr, header, qqt⟩
    cases h with
    | line hs hq =>
        obtain rfl : state = .line := hs
        refine ⟨_, ?_, Reads.two rfl rfl⟩
        exact .text rfl (by rw [← hq]; rfl)
  · rw [if_neg hdot]
    exact follows_plain h hlf hcr fun he hd => hdot ⟨he, hd⟩

/-- **The whole message**, at any place of the transfer. -/
theorem follows_feed (filters : Bytes → Bool) (msg : Bytes) {eom : Bool} {sent : Bytes} {b : Blast}
    (h : Follows eom sent b) :
    ∃ b', Follows (feed Remote.blastByte eom msg).1 (sent ++ msg) b' ∧
      Reads filters b (feed Remote.blastByte eom msg).2 b' := by
  induction msg generalizing eom sent b with
  | nil =>
      refine ⟨b, ?_, Reads.nil b⟩
      rwa [List.append_nil]
  | cons ch msg ih =>
      obtain ⟨b₁, hf₁, hr₁⟩ := follows_byte filters ch h
      obtain ⟨b₂, hf₂, hr₂⟩ := ih hf₁
      refine ⟨b₂, ?_, ?_⟩
      · simpa [feed_cons] using hf₂
      · rw [feed_cons]
        exact hr₁.append hr₂

/-! ## §2 Where qmail-smtpd stops -/

/-- What was read before the state: the lines before a dot end in CR LF. -/
def Behind (seen : Bytes) : BlastState → Prop
  | .text => True
  | .line => seen = [] ∨ asc "\r\n" <:+ seen
  | .dot => ∃ lines, (lines = [] ∨ asc "\r\n" <:+ lines) ∧ seen = lines ++ asc "."
  | .dotCr => ∃ lines, (lines = [] ∨ asc "\r\n" <:+ lines) ∧ seen = lines ++ asc ".\r"
  | .cr => asc "\r" <:+ seen

/-- One byte keeps `Behind`. -/
theorem behind_byte {seen : Bytes} {b b' : Blast} {ch : Byte} (h : Behind seen b.state)
    (hb : blastByte filters b ch = .ok b') : Behind (seen ++ [ch]) b'.state := by
  rcases b with ⟨state, seencr, header, qqt⟩
  unfold blastByte blastSwitch at hb
  cases state with
  | text =>
      simp only at hb
      split at hb
      · cases hb
      split at hb
      · rename_i _ hcr
        cases hb
        exact ⟨seen, by rw [hcr]; rfl⟩
      · cases hb
        exact trivial
  | line =>
      simp only at hb
      split at hb
      · cases hb
      split at hb
      · rename_i _ hdot
        cases hb
        exact ⟨seen, h, by rw [hdot]; rfl⟩
      split at hb
      · rename_i _ hcr
        cases hb
        exact ⟨seen, by rw [hcr]; rfl⟩
      · cases hb
        exact trivial
  | dot =>
      simp only at hb
      split at hb
      · cases hb
      split at hb
      · rename_i _ hcr
        cases hb
        obtain ⟨lines, hl, rfl⟩ := h
        exact ⟨lines, hl, by rw [hcr, List.append_assoc]; rfl⟩
      · cases hb
        exact trivial
  | dotCr =>
      simp only at hb
      split at hb
      · cases hb
      split at hb
      · rename_i _ hcr
        cases hb
        exact ⟨seen, by rw [hcr]; rfl⟩
      · cases hb
        exact trivial
  | cr =>
      simp only at hb
      split at hb
      · rename_i hlf
        cases hb
        obtain ⟨pre, rfl⟩ := h
        exact .inr ⟨pre, by rw [hlf, List.append_assoc]; rfl⟩
      split at hb
      · rename_i _ hcr
        cases hb
        exact ⟨seen, by rw [hcr]; rfl⟩
      · cases hb
        exact trivial

/-- `blast` returns only at the newline of a lone dot. -/
theorem done_byte {seen : Bytes} {b : Blast} {ch : Byte} (h : Behind seen b.state)
    (hb : blastByte filters b ch = .error .done) :
    ∃ lines, (lines = [] ∨ asc "\r\n" <:+ lines) ∧ seen ++ [ch] = lines ++ asc ".\r\n" := by
  rcases b with ⟨state, seencr, header, qqt⟩
  unfold blastByte blastSwitch at hb
  cases state with
  | dotCr =>
      simp only at hb
      split at hb
      · rename_i hlf
        obtain ⟨lines, hl, rfl⟩ := h
        exact ⟨lines, hl, by rw [hlf, List.append_assoc]; rfl⟩
      · split at hb <;> cases hb
  | text =>
      simp only at hb
      repeat' split at hb
      all_goals cases hb
  | line =>
      simp only at hb
      repeat' split at hb
      all_goals cases hb
  | dot =>
      simp only at hb
      repeat' split at hb
      all_goals cases hb
  | cr =>
      simp only at hb
      repeat' split at hb
      all_goals cases hb

/-- **`blast` stops only at a dot on a line of its own**, and leaves what is behind it. -/
theorem stops_at_dot {input rest seen : Bytes} {b t : Blast} (h : Behind seen b.state)
    (he : blastLoop filters false b input = (.done, t, rest)) :
    ∃ lines, (lines = [] ∨ asc "\r\n" <:+ lines) ∧
      seen ++ input = lines ++ asc ".\r\n" ++ rest := by
  induction input generalizing b seen with
  | nil => cases he
  | cons ch input ih =>
      simp only [blastLoop, barelf, Bool.false_eq_true, if_false, List.foldlM_cons,
        List.foldlM_nil] at he
      rw [show ({ b with seencr := b.seencr } : Blast) = b from rfl] at he
      cases hb : blastByte filters b ch with
      | error e =>
          rw [hb] at he
          simp only [bind, Except.bind, Prod.mk.injEq] at he
          obtain ⟨rfl, rfl, rfl⟩ := he
          obtain ⟨lines, hl, hseen⟩ := done_byte h hb
          refine ⟨lines, hl, ?_⟩
          rw [← hseen, List.append_assoc]
          rfl
      | ok b' =>
          rw [hb] at he
          obtain ⟨lines, hl, hseen⟩ := ih (behind_byte h hb) he
          refine ⟨lines, hl, ?_⟩
          rw [← hseen, List.append_assoc]
          rfl

/-! ## §3 The transfer -/

/-- The terminator is read at the start of a line. -/
theorem blastLoop_terminator {sent more : Bytes} {b : Blast} (h : Follows true sent b) :
    ∃ t, blastLoop filters false b (asc ".\r\n" ++ more) = (.done, t, more) ∧
      t.qqt.sent = sent := by
  rcases b with ⟨state, seencr, header, qqt⟩
  cases h with
  | line hs hq =>
      obtain rfl : state = .line := hs
      exact ⟨_, rfl, hq⟩

/-- **The body of a message is transferred exactly.** For every message that is empty or ends in
a newline, in any chunks, qmail-smtpd puts the bytes of the message and stops behind the
terminator; on any input it stops only at a dot on a line of its own; and no chunk fills more of
`out` than there is. -/
theorem body_transferred {msg more : Bytes} {chunks : List Bytes} (BytesToOverflow : Nat)
    (hmsg : msg = [] ∨ msg.getLast? = some 10) (hchunks : chunks.flatten = msg)
    (hsize : ∀ c ∈ chunks, c.length ≤ Remote.BUFSIZE_REMOTE) :
    ((Remote.blast [] chunks).2 = true ∧
      ∃ b, blast filters false BytesToOverflow ((Remote.blast [] chunks).1 ++ more) =
        (.done, b, more) ∧ b.qqt.sent = msg) ∧
    (∀ input b rest, blast filters false BytesToOverflow input = (.done, b, rest) →
      ∃ lines, (lines = [] ∨ asc "\r\n" <:+ lines) ∧ input = lines ++ asc ".\r\n" ++ rest) ∧
    ∀ c ∈ chunks, ∀ eom, (feed Remote.blastByte eom c).2.length ≤ Remote.OUTSIZE := by
  refine ⟨?_, ?_, ?_⟩
  · rw [Remote.blast_chunks, hchunks]
    have heom : (feed Remote.blastByte true msg).1 = true := by
      rw [Remote.feed_blastByte_eom]
      rcases hmsg with rfl | hlast
      · rfl
      · simp [hlast]
    have hfeed := feedChunks_eq_feed (f := Remote.blastByte) true [msg]
    rw [List.flatten_singleton] at hfeed
    simp only [Remote.blast, hfeed, heom, if_true, Remote.qqehBytes, List.flatMap_nil,
      List.nil_append, true_and]
    have hstart : Follows true [] { qqt := { BytesToOverflow := BytesToOverflow } } :=
      .line rfl rfl
    obtain ⟨b, hb, hreads⟩ := follows_feed filters msg hstart
    rw [heom] at hb
    rw [blast, List.append_assoc, hreads]
    exact blastLoop_terminator hb
  · intro input b rest he
    have hstart : Behind [] (Blast.state { qqt := { BytesToOverflow := BytesToOverflow } }) :=
      Or.inl rfl
    exact stops_at_dot hstart he
  · intro c hc eom
    have hlen := Remote.length_feed_blastByte eom c
    have hc := hsize c hc
    unfold Remote.OUTSIZE
    omega

/-- A message with dots, carriage returns and a NUL, in two chunks. -/
theorem body_transferred_dots :
    ∃ b, blast (fun _ => false) false 0
        ((Remote.blast [] [asc "..\r", asc "\n\r.\n" ++ [0] ++ asc ".\n"]).1 ++ asc "QUIT\r\n") =
      (.done, b, asc "QUIT\r\n") ∧ b.qqt.sent = asc "..\r\n\r.\n" ++ [0] ++ asc ".\n" :=
  (body_transferred 0 (.inr (by decide)) (by decide) (by decide)).1.2

end IndimailMta.Smtpd
