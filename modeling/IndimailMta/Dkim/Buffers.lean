import IndimailMta.Dkim.Verify

/-!
# Messages in buffers

`CDKIMBase::Process` is given a message in buffers, and cuts it into lines. A line ends with CR, LF
or CR and LF; that an LF belongs to the CR before it is seen only where both are in one buffer.
The lines of the header are put together to fields, and each line of the body is handed to
`ProcessBody`.

A cut between CR and LF makes one more line of the message. It ends the header, or it is an empty
line of the body; in either case the message is taken for another one.
-/

namespace IndimailMta.Dkim

open IndimailMta

/-! ## `CDKIMBase` -/

/-- What `Process` leaves behind: `calls` are the calls of `ProcessBody`, with `bEOF`, and `refused`
tells that `ProcessHeaders` failed. -/
structure Base where
  line : Bytes := []
  inHeaders : Bool := true
  headerList : List Bytes := []
  calls : List (Bytes × Bool) := []
  refused : Bool := false
  deriving DecidableEq, Repr

/-- A line of the header is a new field, or is put to the last one. -/
def pushHeader (headers : List Bytes) (line : Bytes) : List Bytes :=
  if line.head? ≠ some 32 ∧ line.head? ≠ some 9 then headers ++ [line]
  else
    match headers.getLast? with
    | some last => headers.dropLast ++ [last ++ [13, 10] ++ line]
    | none => headers

section Process

variable (accepts : List Bytes → Bool)

/-- The end of a line. -/
def endLine (bEOF : Bool) (s : Base) : Base :=
  if s.inHeaders then
    if s.line = [] then { s with inHeaders := false, refused := !accepts s.headerList }
    else { s with headerList := pushHeader s.headerList s.line, line := [] }
  else { s with calls := s.calls ++ [(s.line, bEOF)], line := [] }

/-- `Process`: it returns where `ProcessHeaders` fails. -/
def process (bEOF : Bool) : Bytes → Base → Base
  | [], s => s
  | ch :: rest, s =>
      if ch ≠ 10 ∧ ch ≠ 13 then process bEOF rest { s with line := s.line ++ [ch] }
      else
        let s := endLine accepts bEOF s
        if s.refused then s
        else if ch = 13 ∧ rest.head? = some 10 then process bEOF rest.tail s
        else process bEOF rest s
  termination_by b => b.length
  decreasing_by
    all_goals simp only [List.length_cons, List.length_tail]; omega

/-- The callers hand over no more where it fails. -/
def feed (bufs : List Bytes) (s : Base) : Base :=
  bufs.foldl (fun s buf => if s.refused then s else process accepts false buf s) s

/-- `ProcessFinal`. -/
def processFinal (s : Base) : Base :=
  let s := if s.line ≠ [] then process accepts true [13, 10] s else s
  if s.inHeaders then { s with inHeaders := false, calls := s.calls ++ [([], true)] } else s

/-- The fields and the lines of the body, unless the header is refused. -/
def messageOf (bufs : List Bytes) : Option (List Bytes × List (Bytes × Bool)) :=
  let s := feed accepts bufs {}
  if s.refused then none
  else some ((processFinal accepts s).headerList, (processFinal accepts s).calls)

/-! ## Byte by byte -/

/-- `process`, with a flag for the byte before: it was a CR, whose line has ended. -/
def scan (bEOF : Bool) : Bool → Bytes → Base → Base
  | _, [], s => s
  | cr, ch :: rest, s =>
      if s.refused then s
      else if cr = true ∧ ch = 10 then scan bEOF false rest s
      else if ch ≠ 10 ∧ ch ≠ 13 then scan bEOF false rest { s with line := s.line ++ [ch] }
      else scan bEOF (decide (ch = 13)) rest (endLine accepts bEOF s)

/-- The flag after some bytes. -/
def crAfter (cr : Bool) (b : Bytes) : Bool := (b.getLast?.map fun ch => decide (ch = 13)).getD cr

end Process

variable {accepts : List Bytes → Bool} {bEOF cr : Bool} {s w c : Base}

theorem scan_refused (b : Bytes) (h : s.refused = true) : scan accepts bEOF cr b s = s := by
  cases b with
  | nil => rfl
  | cons ch rest => rw [scan, if_pos h]

theorem scan_lf (rest : Bytes) (h : s.refused = false) :
    scan accepts bEOF true (10 :: rest) s = scan accepts bEOF false rest s := by
  rw [scan, if_neg (by simp [h]), if_pos ⟨rfl, rfl⟩]

theorem scan_end {ch : Byte} (rest : Bytes) (h : s.refused = false)
    (hskip : ¬ (cr = true ∧ ch = 10)) (hch : ch = 10 ∨ ch = 13) :
    scan accepts bEOF cr (ch :: rest) s =
      scan accepts bEOF (decide (ch = 13)) rest (endLine accepts bEOF s) := by
  have hend : ¬ (ch ≠ 10 ∧ ch ≠ 13) := fun hn => hch.elim hn.1 hn.2
  rw [scan, if_neg (by simp [h]), if_neg hskip, if_neg hend]

/-- The flag matters for an LF only. -/
theorem scan_flag {b : Bytes} (h : cr = true → b.head? ≠ some 10) :
    scan accepts bEOF cr b s = scan accepts bEOF false b s := by
  cases b with
  | nil => rfl
  | cons ch rest =>
      have hskip : ¬ (cr = true ∧ ch = 10) := fun hc => h hc.1 (congrArg some hc.2)
      rw [scan, scan, if_neg hskip, if_neg fun hc : false = true ∧ ch = 10 => nomatch hc.1]

theorem process_eq_scan (b : Bytes) (h : s.refused = false) :
    process accepts bEOF b s = scan accepts bEOF false b s := by
  induction hn : b.length using Nat.strong_induction_on generalizing b s with
  | _ n ih =>
      cases b with
      | nil =>
          rw [process]
          rfl
      | cons ch rest =>
          rw [List.length_cons] at hn
          have hs : ¬ s.refused = true := by simp [h]
          have hskip : ¬ (false = true ∧ ch = 10) := fun hc => nomatch hc.1
          rw [process, scan, if_neg hs, if_neg hskip]
          by_cases hch : ch ≠ 10 ∧ ch ≠ 13
          · rw [if_pos hch, if_pos hch]
            exact ih rest.length (by omega) rest h rfl
          · rw [if_neg hch, if_neg hch]
            dsimp only
            cases href : (endLine accepts bEOF s).refused with
            | true => rw [if_pos rfl, scan_refused rest href]
            | false =>
                rw [if_neg Bool.false_ne_true]
                by_cases hlf : ch = 13 ∧ rest.head? = some 10
                · obtain ⟨tail, rfl⟩ : ∃ tail, rest = 10 :: tail := by
                    cases rest with
                    | nil => exact nomatch hlf.2
                    | cons x xs => exact ⟨xs, by rw [Option.some.inj hlf.2]⟩
                  rw [List.length_cons] at hn
                  have hs' : ¬ (endLine accepts bEOF s).refused = true := by simp [href]
                  rw [if_pos hlf, List.tail_cons, ih tail.length (by omega) tail href rfl, scan,
                    if_neg hs', if_pos ⟨decide_eq_true hlf.1, rfl⟩]
                · rw [if_neg hlf, ih rest.length (by omega) rest href rfl]
                  refine (scan_flag fun hcr hhead => hlf ⟨of_decide_eq_true hcr, hhead⟩).symm

theorem crAfter_append (a b : Bytes) : crAfter cr (a ++ b) = crAfter (crAfter cr a) b := by
  rw [crAfter, crAfter, List.getLast?_append]
  cases b.getLast? <;> rfl

theorem crAfter_cons (ch : Byte) (rest : Bytes) :
    crAfter cr (ch :: rest) = crAfter (decide (ch = 13)) rest := crAfter_append [ch] rest

theorem scan_append (a b : Bytes) :
    scan accepts bEOF cr (a ++ b) s =
      scan accepts bEOF (crAfter cr a) b (scan accepts bEOF cr a s) := by
  induction a generalizing cr s with
  | nil => rfl
  | cons ch rest ih =>
      cases href : s.refused with
      | true => rw [scan_refused _ href, scan_refused _ href, scan_refused _ href]
      | false =>
          have hs : ¬ s.refused = true := by simp [href]
          rw [List.cons_append, scan, scan, if_neg hs, if_neg hs, crAfter_cons]
          by_cases hskip : cr = true ∧ ch = 10
          · rw [if_pos hskip, if_pos hskip, ih, hskip.2]
            rfl
          · rw [if_neg hskip, if_neg hskip]
            by_cases hch : ch ≠ 10 ∧ ch ≠ 13
            · rw [if_pos hch, if_pos hch, ih, decide_eq_false hch.2]
            · rw [if_neg hch, if_neg hch, ih]

theorem feed_cons (buf : Bytes) (bufs : List Bytes) :
    feed accepts (buf :: bufs) s = feed accepts bufs (scan accepts false false buf s) := by
  rw [feed, List.foldl_cons]
  cases href : s.refused with
  | true => rw [if_pos rfl, scan_refused _ href, feed]
  | false => rw [if_neg Bool.false_ne_true, process_eq_scan buf href, feed]

/-! ## No cut between CR and LF -/

/-- No buffer begins with the LF of a CR that was seen, `cr` telling of the byte before the first
buffer. -/
def NoInside (cr : Bool) (bufs : List Bytes) : Prop :=
  ∀ u v, bufs = u ++ v → ¬ (crAfter cr u.flatten = true ∧ v.flatten.head? = some 10)

theorem noInside_cons {buf : Bytes} {bufs : List Bytes} :
    NoInside cr (buf :: bufs) ↔
      ¬ (cr = true ∧ (buf ++ bufs.flatten).head? = some 10) ∧ NoInside (crAfter cr buf) bufs := by
  constructor
  · intro h
    refine ⟨h [] (buf :: bufs) rfl, ?_⟩
    intro u v huv
    have hcut := h (buf :: u) v (by rw [huv, List.cons_append])
    rwa [List.flatten_cons, crAfter_append] at hcut
  · rintro ⟨hhere, hrest⟩ u v huv
    cases u with
    | nil =>
        rw [List.nil_append] at huv
        rw [← huv]
        exact hhere
    | cons b u =>
        obtain ⟨rfl, rfl⟩ := List.cons.inj huv
        rw [List.flatten_cons, crAfter_append]
        exact hrest u v rfl

/-- Then the message is read as if it came in one buffer. -/
theorem feed_eq_scan {bufs : List Bytes} (h : NoInside cr bufs) :
    feed accepts bufs s = scan accepts false cr bufs.flatten s := by
  induction bufs generalizing cr s with
  | nil => rfl
  | cons buf bufs ih =>
      obtain ⟨hhere, hrest⟩ := noInside_cons.mp h
      rw [feed_cons, List.flatten_cons, scan_append, ih hrest]
      apply congrArg
      refine (scan_flag fun hcr hhead => hhere ⟨hcr, ?_⟩).symm
      rw [List.head?_append, hhead]
      rfl

/-! ## A cut between CR and LF -/

/-- What holds of every state before the end of the message. -/
structure Regular (s : Base) : Prop where
  calls : s.inHeaders = true → s.calls = []
  ended : ∀ p ∈ s.calls, p.2 = false

/-- The state `c` of the message that was cut has seen one more line than `w`. -/
structure Ahead (w c : Base) : Prop where
  line : w.line = c.line
  body : c.inHeaders = false
  more : w.inHeaders = true ∧ w.calls = [] ∨ w.inHeaders = false ∧ w.calls.length < c.calls.length
  ended : ∀ p ∈ c.calls, p.2 = false

/-- It is ahead, unless a header was refused. -/
def Off (w c : Base) : Prop := w.refused = true ∨ c.refused = true ∨ Ahead w c

@[simp] theorem endLine_line : (endLine accepts bEOF s).line = [] := by
  rw [endLine]
  split
  · split
    · assumption
    · rfl
  · rfl

theorem endLine_body (h : s.inHeaders = false) :
    endLine accepts bEOF s = { s with calls := s.calls ++ [(s.line, bEOF)], line := [] } := by
  rw [endLine, if_neg (by simp [h])]

theorem Regular.endLine (h : Regular s) : Regular (endLine accepts false s) := by
  cases hin : s.inHeaders with
  | false =>
      rw [endLine_body hin]
      refine ⟨fun ht => absurd (hin.symm.trans ht) Bool.false_ne_true, ?_⟩
      intro p hp
      rcases List.mem_append.mp hp with hp | hp
      · exact h.ended p hp
      · rw [List.mem_singleton.mp hp]
  | true =>
      have hcalls := h.calls hin
      rw [Dkim.endLine, if_pos hin]
      split
      · exact ⟨nofun, h.ended⟩
      · exact ⟨fun _ => hcalls, h.ended⟩

theorem Regular.scan {b : Bytes} (h : Regular s) : Regular (scan accepts false cr b s) := by
  induction b generalizing cr s with
  | nil => exact h
  | cons ch rest ih =>
      rw [Dkim.scan]
      split
      · exact h
      · split
        · exact ih h
        · split
          · exact ih ⟨h.calls, h.ended⟩
          · exact ih h.endLine

/-- After a CR the line is empty. -/
theorem scan_line {b : Bytes} (h : cr = true → s.refused = false → s.line = [])
    (hcr : crAfter cr b = true) (href : (scan accepts bEOF cr b s).refused = false) :
    (scan accepts bEOF cr b s).line = [] := by
  induction b generalizing cr s with
  | nil => exact h hcr href
  | cons ch rest ih =>
      rw [crAfter_cons] at hcr
      rw [Dkim.scan] at href ⊢
      split at href
      · rename_i hs
        rw [hs] at href
        exact nomatch href
      · rename_i hs
        rw [if_neg hs]
        split at href
        · rename_i hskip
          rw [if_pos hskip]
          rw [hskip.2] at hcr
          exact ih nofun hcr href
        · rename_i hskip
          rw [if_neg hskip]
          split at href
          · rename_i hch
            rw [if_pos hch]
            rw [decide_eq_false hch.2] at hcr
            exact ih nofun hcr href
          · rename_i hch
            rw [if_neg hch]
            exact ih (fun _ _ => endLine_line) hcr href

/-- The line ends in both. -/
theorem Ahead.endLine (h : Ahead w c) : Off (endLine accepts false w) (endLine accepts false c) := by
  have hended : ∀ p ∈ c.calls ++ [(c.line, false)], p.2 = false := by
    intro p hp
    rcases List.mem_append.mp hp with hp | hp
    · exact h.ended p hp
    · rw [List.mem_singleton.mp hp]
  rw [endLine_body h.body]
  rcases h.more with ⟨hin, hcalls⟩ | ⟨hin, hlt⟩
  · rw [Dkim.endLine, if_pos hin]
    split
    · rename_i hline
      refine Or.inr (Or.inr ⟨hline, h.body, Or.inr ⟨rfl, ?_⟩, hended⟩)
      rw [hcalls, List.length_append, List.length_nil]
      exact Nat.succ_pos _
    · exact Or.inr (Or.inr ⟨rfl, h.body, Or.inl ⟨hin, hcalls⟩, hended⟩)
  · rw [endLine_body hin]
    refine Or.inr (Or.inr ⟨rfl, h.body, Or.inr ⟨hin, ?_⟩, hended⟩)
    rw [List.length_append, List.length_append]
    exact Nat.add_lt_add_right hlt 1

/-- An empty line ends in the one that is ahead. -/
theorem Ahead.endLine_right (h : Ahead w c) (hline : c.line = []) :
    Ahead w (Dkim.endLine accepts false c) := by
  rw [endLine_body h.body]
  refine ⟨h.line.trans hline, h.body, ?_, ?_⟩
  · refine h.more.imp_right fun hm => ⟨hm.1, ?_⟩
    rw [List.length_append]
    exact Nat.lt_succ_of_lt hm.2
  · intro p hp
    rcases List.mem_append.mp hp with hp | hp
    · exact h.ended p hp
    · rw [List.mem_singleton.mp hp]

/-- It stays ahead; at the first byte only one of the two may know of the CR. -/
theorem Off.scan {b : Bytes} {crC : Bool} (h : Off w c) (hcr : crC = true → cr = true)
    (hline : cr = true → w.refused = false → w.line = []) :
    Off (scan accepts false cr b w) (scan accepts false crC b c) := by
  induction b generalizing cr crC w c with
  | nil => exact h
  | cons ch rest ih =>
      rcases h with hw | hc | ha
      · exact Or.inl (by rw [scan_refused _ hw]; exact hw)
      · exact Or.inr (Or.inl (by rw [scan_refused _ hc]; exact hc))
      · cases hw : w.refused with
        | true => exact Or.inl (by rw [scan_refused _ hw]; exact hw)
        | false =>
        cases hc : c.refused with
        | true => exact Or.inr (Or.inl (by rw [scan_refused _ hc]; exact hc))
        | false =>
            have hw' : ¬ w.refused = true := by simp [hw]
            have hc' : ¬ c.refused = true := by simp [hc]
            rw [Dkim.scan, Dkim.scan, if_neg hw', if_neg hc']
            by_cases hskip : cr = true ∧ ch = 10
            · rw [if_pos hskip]
              by_cases hskipC : crC = true ∧ ch = 10
              · rw [if_pos hskipC]
                exact ih (Or.inr (Or.inr ha)) id nofun
              · have hlf : ¬ (ch ≠ 10 ∧ ch ≠ 13) := fun hn => hn.1 hskip.2
                have hnil : c.line = [] := ha.line ▸ hline hskip.1 hw
                rw [if_neg hskipC, if_neg hlf, hskip.2]
                exact ih (Or.inr (Or.inr (ha.endLine_right hnil))) id nofun
            · have hskipC : ¬ (crC = true ∧ ch = 10) := fun hs => hskip ⟨hcr hs.1, hs.2⟩
              rw [if_neg hskip, if_neg hskipC]
              by_cases hch : ch ≠ 10 ∧ ch ≠ 13
              · rw [if_pos hch, if_pos hch]
                refine ih (Or.inr (Or.inr ⟨?_, ha.body, ha.more, ha.ended⟩)) id nofun
                exact congrArg (· ++ [ch]) ha.line
              · rw [if_neg hch, if_neg hch]
                exact ih ha.endLine id fun _ _ => endLine_line

theorem Off.feed {bufs : List Bytes} (h : Off w c)
    (hline : cr = true → w.refused = false → w.line = []) :
    Off (Dkim.scan accepts false cr bufs.flatten w) (feed accepts bufs c) := by
  induction bufs generalizing cr w c with
  | nil => exact h
  | cons buf bufs ih =>
      rw [feed_cons, List.flatten_cons, scan_append]
      exact ih (h.scan nofun hline) fun hcr href => scan_line hline hcr href

/-- The LF of a CR, as a line of its own. -/
theorem off_endLine (h : Regular s) (hline : s.line = []) : Off s (endLine accepts false s) := by
  cases hin : s.inHeaders with
  | true =>
      rw [endLine, if_pos hin, if_pos hline]
      exact Or.inr (Or.inr ⟨rfl, rfl, Or.inl ⟨hin, h.calls hin⟩, h.ended⟩)
  | false =>
      have hended : ∀ p ∈ (endLine accepts false s).calls, p.2 = false := h.endLine.ended
      rw [endLine_body hin] at hended ⊢
      refine Or.inr (Or.inr ⟨hline, hin, Or.inr ⟨hin, ?_⟩, hended⟩)
      rw [List.length_append]
      exact Nat.lt_succ_self _

/-- A cut between CR and LF: the message that was cut is ahead. -/
theorem off_of_inside {bufs : List Bytes} (h : ¬ NoInside cr bufs) (hs : Regular s)
    (hline : cr = true → s.refused = false → s.line = []) :
    Off (scan accepts false cr bufs.flatten s) (feed accepts bufs s) := by
  induction bufs generalizing cr s with
  | nil =>
      refine absurd ?_ h
      intro u v huv
      obtain ⟨rfl, rfl⟩ := List.append_eq_nil_iff.mp huv.symm
      exact fun hcut => nomatch hcut.2
  | cons buf bufs ih =>
      rw [feed_cons, List.flatten_cons, scan_append]
      by_cases hhere : cr = true ∧ buf.head? = some 10
      · -- this buffer begins with the LF
        obtain ⟨rest, rfl⟩ : ∃ rest, buf = 10 :: rest := by
          cases buf with
          | nil => exact nomatch hhere.2
          | cons x xs => exact ⟨xs, by rw [Option.some.inj hhere.2]⟩
        have hoff : Off (scan accepts false cr (10 :: rest) s)
            (scan accepts false false (10 :: rest) s) := by
          cases href : s.refused with
          | true => exact Or.inl (by rw [scan_refused _ href]; exact href)
          | false =>
              rw [hhere.1, scan_lf rest href, scan_end rest href (by simp) (Or.inl rfl)]
              exact (off_endLine hs (hline hhere.1 href)).scan id nofun
        exact hoff.feed fun hcr href => scan_line hline hcr href
      · have heq : scan accepts false false buf s = scan accepts false cr buf s :=
          (scan_flag fun hcr hhead => hhere ⟨hcr, hhead⟩).symm
        rw [heq]
        by_cases hrest : NoInside (crAfter cr buf) bufs
        · -- then the cut is before this buffer, which is empty
          have hcut : cr = true ∧ (buf ++ bufs.flatten).head? = some 10 := by
            by_contra hno
            exact h (noInside_cons.mpr ⟨hno, hrest⟩)
          cases buf with
          | nil => exact absurd hcut (hrest [] bufs rfl)
          | cons x xs => exact absurd ⟨hcut.1, hcut.2⟩ hhere
        · exact ih hrest hs.scan fun hcr href => scan_line hline hcr href

/-! ## The end of the message -/

theorem process_crlf (h : s.refused = false) :
    process accepts true [13, 10] s = endLine accepts true s := by
  rw [process_eq_scan _ h, scan_end _ h (by simp) (Or.inr rfl)]
  cases href : (endLine accepts true s).refused with
  | true => exact scan_refused _ href
  | false => exact scan_lf [] href

/-- One more line is seen in the end. -/
theorem Ahead.final (h : Ahead w c) (hw : w.refused = false) (hc : c.refused = false) :
    (processFinal accepts w).calls ≠ (processFinal accepts c).calls := by
  have hcbody := h.body
  rw [processFinal, processFinal, ← h.line]
  by_cases hline : w.line = []
  · rw [if_neg (not_not_intro hline), if_neg (not_not_intro hline)]
    rw [if_neg (show ¬ c.inHeaders = true by simp [hcbody])]
    rcases h.more with ⟨hin, hcalls⟩ | ⟨hin, hlt⟩
    · rw [if_pos hin]
      intro heq
      have hmem : (([] : Bytes), true) ∈ c.calls := by
        rw [← heq]
        exact List.mem_append_right _ List.mem_cons_self
      exact nomatch h.ended _ hmem
    · rw [if_neg (by simp [hin])]
      intro heq
      rw [heq] at hlt
      exact Nat.lt_irrefl _ hlt
  · rw [if_pos hline, if_pos hline, process_crlf hw, process_crlf hc, endLine_body hcbody]
    dsimp only
    rw [if_neg (show ¬ c.inHeaders = true by simp [hcbody])]
    rcases h.more with ⟨hin, hcalls⟩ | ⟨hin, hlt⟩
    · rw [Dkim.endLine, if_pos hin, if_neg hline]
      dsimp only
      rw [if_pos hin, hcalls]
      intro heq
      have hlast := congrArg List.getLast? heq
      rw [List.nil_append, List.getLast?_singleton, List.getLast?_concat, ← h.line] at hlast
      exact hline (Prod.mk.inj (Option.some.inj hlast)).1.symm
    · rw [endLine_body hin]
      dsimp only
      rw [if_neg (by simp [hin])]
      intro heq
      have hlen := congrArg List.length heq
      rw [List.length_append, List.length_append] at hlen
      exact Nat.ne_of_lt hlt (Nat.add_right_cancel hlen)

/-- Buffers without a cut between CR and LF. -/
theorem messageOf_eq {bufs : List Bytes} (h : NoInside false bufs) :
    messageOf accepts bufs = messageOf accepts [bufs.flatten] := by
  have hone : feed accepts [bufs.flatten] {} = feed accepts bufs {} := by
    rw [feed_eq_scan h, feed_cons]
    rfl
  rw [messageOf, messageOf, hone]

/-- A message whose header is accepted is read the same from buffers if and only if none of them
ends between CR and LF. -/
theorem messageOf_eq_iff {bufs : List Bytes} (hacc : messageOf accepts [bufs.flatten] ≠ none) :
    messageOf accepts bufs = messageOf accepts [bufs.flatten] ↔ NoInside false bufs := by
  refine ⟨fun heq => ?_, messageOf_eq⟩
  by_contra hin
  have hoff : Off (scan accepts false false bufs.flatten {}) (feed accepts bufs {}) :=
    off_of_inside hin ⟨fun _ => rfl, nofun⟩ nofun
  have hone : feed accepts [bufs.flatten] {} = scan accepts false false bufs.flatten {} := by
    rw [feed_cons]
    rfl
  rw [← hone] at hoff
  have hw : (feed accepts [bufs.flatten] {}).refused = false := by
    by_contra href
    rw [Bool.not_eq_false] at href
    exact hacc (if_pos href)
  rcases hoff with href | href | ha
  · rw [hw] at href
    exact nomatch href
  · rw [← heq] at hacc
    exact hacc (if_pos href)
  · have hc : (feed accepts bufs {}).refused = false := by
      by_contra href
      rw [Bool.not_eq_false] at href
      rw [← heq] at hacc
      exact hacc (if_pos href)
    rw [messageOf, messageOf] at heq
    rw [if_neg (by simp [hc]), if_neg (by simp [hw])] at heq
    exact ha.final hw hc (Prod.mk.inj (Option.some.inj heq)).2.symm

end IndimailMta.Dkim
