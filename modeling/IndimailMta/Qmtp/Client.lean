import IndimailMta.Netstring

/-!
# QMTP in qmail-remote

`qmtp` sends a message to all its recipients at once, and reads one response for each
of them. It reports a letter and a text for every recipient whose response it has
read; where the server does not talk QMTP or the connection ends, the report ends with
a temporary failure.

`get1` keeps what it reads in `smtptext`, which is what is reported.
-/

namespace IndimailMta.Qmtp

open IndimailMta

/-- What `qmtp` writes. -/
def request (nm : Numerals) (message qmtp_sender : Bytes) (qmtp_reciplist : List Bytes) : Bytes :=
  let len := (qmtp_reciplist.map fun r => (nm.fmtUlong r.length).length + 1 + r.length + 1).sum
  nm.fmtUlong (message.length + 1) ++ asc ":\n" ++ message ++
    asc "," ++ nm.fmtUlong qmtp_sender.length ++ asc ":" ++ qmtp_sender ++ asc "," ++
    nm.fmtUlong len ++ asc ":" ++
    qmtp_reciplist.flatMap (fun r => nm.fmtUlong r.length ++ asc ":" ++ r ++ asc ",") ++ asc ","

/-! ## Responses -/

/-- The ways a response is not read: `temp_proto` and `dropped`. -/
inductive Failure
  | temp_proto
  | dropped
  deriving DecidableEq, Repr

/-- The input from the server, and `smtptext`. -/
structure From where
  input : Bytes
  smtptext : Bytes
  deriving DecidableEq, Repr

def HUGESMTPTEXT : Nat := 5000

/-- What `get1` adds to `smtptext`. -/
def append1 (smtptext : Bytes) (ch : Byte) : Bytes :=
  if ch ≠ 13 ∧ smtptext.length < HUGESMTPTEXT then smtptext ++ [ch] else smtptext

/-- `get1`. -/
def get1 (s : From) : Except Failure (Byte × From) :=
  match s.input with
  | [] => .error .dropped
  | ch :: rest => .ok (ch, ⟨rest, append1 s.smtptext ch⟩)

/-- The length: `ch` is an `unsigned char`, and `ch - '0'` an `int`. -/
def lenResponse (len : Nat) (smtptext : Bytes) : Bytes → Except Failure (Nat × From)
  | [] => .error .dropped
  | ch :: rest =>
      let smtptext := append1 smtptext ch
      if ch = 58 then .ok (len, ⟨rest, smtptext⟩)
      else if 200000000 < len then .error .temp_proto
      else if uchar ch - 48 > 9 then .error .temp_proto
      else lenResponse (unsignedLong (10 * len + (uchar ch - 48))) smtptext rest

/-- The loop over the text. -/
def skip : Nat → From → Except Failure From
  | 0, s => .ok s
  | n + 1, s => do
      let (_, s) ← get1 s
      skip n s

/-- The bytes that are reported as they are. -/
def printable (ch : Byte) : Byte := if ch < 32 ∨ 126 < ch then 63 else ch

/-- The report on a recipient. -/
structure Report where
  letter : Byte
  text : Bytes
  deriving DecidableEq, Repr

/-- The letter for `smtptext`. -/
def letter (smtptext : Bytes) : Byte :=
  if smtptext.head? = some 75 then 114 else if smtptext.head? = some 68 then 104 else 115

/-- One round of the loop over the recipients. -/
def getresponse (s : From) : Except Failure (Report × From) := do
  let (len, s) ← lenResponse 0 s.smtptext s.input
  if len = 0 then throw .temp_proto
  let (ch, s) ← get1 s
  if ch ≠ 90 ∧ ch ≠ 68 ∧ ch ≠ 75 then throw .temp_proto
  let s ← skip (len - 1) { s with smtptext := ch :: asc "Remote host said: " }
  let (ch, s) ← get1 { s with smtptext := s.smtptext.map printable }
  if ch ≠ 44 then throw .temp_proto
  let smtptext := s.smtptext.dropLast ++ [10]
  return (⟨letter smtptext, smtptext.tail⟩, { s with smtptext := smtptext })

/-- The loop: the reports, and what stopped it or is left. -/
def getresponses : Nat → From → List Report × Except Failure From
  | 0, s => ([], .ok s)
  | n + 1, s =>
      match getresponse s with
      | .error e => ([], .error e)
      | .ok (r, s) =>
          let (rs, e) := getresponses n s
          (r :: rs, e)

/-- `flagallok` after the reports. -/
def flagallok (reports : List Report) : Int :=
  reports.foldl (fun flag r => if r.letter = 114 then flag else if r.letter = 104 then 0 else -1) 1

/-- The message is reported as accepted if every recipient is. -/
theorem flagallok_eq_one (reports : List Report) :
    flagallok reports = 1 ↔ ∀ r ∈ reports, r.letter = 114 := by
  have hgen : ∀ flag : Int, reports.foldl (fun flag r =>
      if r.letter = 114 then flag else if r.letter = 104 then 0 else -1) flag = 1 ↔
        flag = 1 ∧ ∀ r ∈ reports, r.letter = 114 := by
    induction reports with
    | nil => simp
    | cons r reports ih =>
        intro flag
        rw [List.foldl_cons, ih, List.forall_mem_cons]
        by_cases hr : r.letter = 114
        · simp [hr]
        rw [if_neg hr]
        by_cases hd : r.letter = 104
        · simp [hd]
        · simp [hr, hd]
  rw [flagallok, hgen]
  simp

/-! ## What is sent -/

/-- **A request is three netstrings**: the message behind a line feed, the sender, and the
netstrings of the recipients. -/
theorem request_eq (nm : Numerals) (message sender : Bytes) (rcpts : List Bytes) :
    request nm message sender rcpts =
      nm.netstring (10 :: message) ++ (nm.netstring sender ++
        nm.netstring (rcpts.flatMap nm.netstring)) := by
  have hcolon : asc ":" = [58] := by decide
  have hlf : asc ":\n" = [58, 10] := by decide
  have hcomma : asc "," = [44] := by decide
  have hnet : ∀ r : Bytes, nm.netstring r = nm.fmtUlong r.length ++ asc ":" ++ r ++ asc "," := by
    intro r
    simp [Numerals.netstring, Numerals.field, Field.bytes, hcolon, hcomma]
  have hlen : (rcpts.map fun r => (nm.fmtUlong r.length).length + 1 + r.length + 1).sum =
      (rcpts.flatMap nm.netstring).length := by
    rw [List.length_flatMap]
    congr 1
    refine List.map_congr_left fun r _ => ?_
    rw [hnet, hcolon, hcomma]
    simp only [List.length_append, List.length_singleton]
  have hrcpts : rcpts.flatMap (fun r => nm.fmtUlong r.length ++ asc ":" ++ r ++ asc ",") =
      rcpts.flatMap nm.netstring := List.flatMap_congr fun r _ => (hnet r).symm
  rw [request, hlen, hrcpts, hnet (10 :: message), hnet sender, hnet (rcpts.flatMap nm.netstring), hcolon,
    hlf, hcomma]
  simp

/-! ## What is read -/

/-- A text that begins with a letter `qmtp` knows. -/
def Response (text : Bytes) : Prop :=
  text.head? = some 90 ∨ text.head? = some 68 ∨ text.head? = some 75

section Read

variable {s s' : From}

/-- A digit as the number `ch - '0'`. -/
theorem uchar_of_isDigit {d : Byte} (h : isDigit d = true) :
    uchar d - 48 = ((d.toNat - 48 : Nat) : Int) ∧ d.toNat - 48 ≤ 9 := by
  obtain ⟨hd, hle⟩ := schar_of_isDigit h
  refine ⟨?_, hle⟩
  rw [← hd, uchar, schar, if_pos]
  simp only [isDigit, Bool.and_eq_true, decide_eq_true_eq] at h
  have h57 : (57 : Byte).toNat = 57 := rfl
  have hhi := UInt8.le_iff_toNat_le.mp h.2
  omega

theorem unsignedLong_uchar {len : Nat} {d : Byte} (h : isDigit d = true) (hlen : len ≤ 200000000) :
    unsignedLong (10 * len + (uchar d - 48)) = 10 * len + (d.toNat - 48) := by
  obtain ⟨hd, hle⟩ := uchar_of_isDigit h
  rw [hd, unsignedLong]
  omega

/-- A decimal length is read. -/
theorem lenResponse_digits {ds : Bytes} (hd : ∀ d ∈ ds, isDigit d = true) {len : Nat}
    (hlen : acc len ds < 2000000010) (smtptext rest : Bytes) :
    ∃ t, lenResponse len smtptext (ds ++ 58 :: rest) = .ok (acc len ds, ⟨rest, t⟩) := by
  induction ds generalizing len smtptext with
  | nil => exact ⟨_, rfl⟩
  | cons d ds ih =>
      have hdig := hd d List.mem_cons_self
      have hten := ten_mul_le_acc len d ds
      obtain ⟨hval, hle⟩ := uchar_of_isDigit hdig
      rw [acc_cons] at hlen hten ⊢
      obtain ⟨t, ht⟩ := ih (fun b hb => hd b (List.mem_cons_of_mem d hb)) hlen (append1 smtptext d)
      refine ⟨t, ?_⟩
      rw [List.cons_append, lenResponse, if_neg (ne_colon_of_isDigit hdig), if_neg (by omega),
        if_neg (by omega),
        unsignedLong_uchar hdig (by omega), ht]

/-- What is taken for a length. -/
theorem lenResponse_spec {len n : Nat} {smtptext input : Bytes}
    (h : lenResponse len smtptext input = .ok (n, s')) :
    ∃ ds, input = ds ++ 58 :: s'.input ∧ 58 ∉ ds ∧
      ((∀ d ∈ ds, isDigit d = true) → n = acc len ds) := by
  induction input generalizing len smtptext with
  | nil => cases h
  | cons ch rest ih =>
      rw [lenResponse] at h
      split at h
      · rename_i hcolon
        cases h
        exact ⟨[], by rw [hcolon, List.nil_append], List.not_mem_nil, fun _ => rfl⟩
      rename_i hcolon
      split at h
      · cases h
      rename_i hlen
      split at h
      · cases h
      obtain ⟨ds, rfl, hds, hn⟩ := ih h
      refine ⟨ch :: ds, rfl, ?_, fun hd => ?_⟩
      · rw [List.mem_cons, not_or]
        exact ⟨Ne.symm hcolon, hds⟩
      · have hdig := hd ch List.mem_cons_self
        rw [hn fun d hmem => hd d (List.mem_cons_of_mem ch hmem), acc_cons,
          unsignedLong_uchar hdig (by omega)]

theorem get1_spec {ch : Byte} (h : get1 s = .ok (ch, s')) :
    s.input = ch :: s'.input ∧ s'.smtptext = append1 s.smtptext ch := by
  unfold get1 at h
  split at h
  · cases h
  · rename_i b rest hs
    cases h
    exact ⟨hs, rfl⟩

/-- `get1` adds at the end. -/
theorem append1_eq (smtptext : Bytes) (ch : Byte) : ∃ t, append1 smtptext ch = smtptext ++ t := by
  unfold append1
  split
  · exact ⟨[ch], rfl⟩
  · exact ⟨[], (List.append_nil _).symm⟩

theorem skip_append (data rest smtptext : Bytes) :
    ∃ t, skip data.length ⟨data ++ rest, smtptext⟩ = .ok ⟨rest, smtptext ++ t⟩ := by
  induction data generalizing smtptext with
  | nil => exact ⟨[], by rw [List.append_nil]; rfl⟩
  | cons ch data ih =>
      obtain ⟨u, hu⟩ := append1_eq smtptext ch
      obtain ⟨t, ht⟩ := ih (smtptext ++ u)
      refine ⟨u ++ t, ?_⟩
      rw [← List.append_assoc, ← ht, ← hu]
      rfl

theorem skip_spec {n : Nat} (h : skip n s = .ok s') :
    ∃ data t, data.length = n ∧ s.input = data ++ s'.input ∧ s'.smtptext = s.smtptext ++ t := by
  induction n generalizing s with
  | zero =>
      cases h
      exact ⟨[], [], rfl, rfl, by rw [List.append_nil]⟩
  | succ n ih =>
      obtain ⟨⟨ch, u⟩, hget, h⟩ := except_bind_ok.mp h
      obtain ⟨hinput, htext⟩ := get1_spec hget
      obtain ⟨data, t, hlen, hrest, hs⟩ := ih h
      obtain ⟨x, hx⟩ := append1_eq s.smtptext ch
      refine ⟨ch :: data, x ++ t, by rw [List.length_cons, hlen], ?_, ?_⟩
      · rw [hinput, hrest, List.cons_append]
      · rw [hs, htext, hx, List.append_assoc]

/-- The letter is the first byte of the response, whatever is read behind it. -/
theorem letter_eq {ch : Byte} (hch : ch = 90 ∨ ch = 68 ∨ ch = 75) (t u : Bytes) :
    letter ((((ch :: asc "Remote host said: ") ++ t).map printable ++ u).dropLast ++ [10]) =
      letter [ch] := by
  have hne : ((asc "Remote host said: " ++ t).map printable ++ u) ≠ [] := by
    intro h
    have hlen := congrArg List.length h
    have h18 : (asc "Remote host said: ").length = 18 := by decide
    rw [List.length_append, List.length_map, List.length_append, h18, List.length_nil] at hlen
    omega
  have hprint : printable ch = ch := by
    rcases hch with rfl | rfl | rfl <;> decide
  rw [List.cons_append, List.map_cons, List.cons_append, List.dropLast_cons_of_ne_nil hne, hprint]
  rfl

/-- A response is read. -/
theorem getresponse_field {f : Field} (hf : f.Proper) (hsize : f.data.length < 2000000010)
    (hr : Response f.data) (smtptext rest : Bytes) :
    ∃ t u, getresponse ⟨f.bytes ++ rest, smtptext⟩ = .ok (⟨letter f.data, t⟩, ⟨rest, u⟩) := by
  rcases f with ⟨ds, data⟩
  cases data with
  | nil => exact absurd hr (by simp [Response])
  | cons ch data =>
      have hch : ch = 90 ∨ ch = 68 ∨ ch = 75 := by simpa [Response] using hr
      have hvalue : acc 0 ds = (ch :: data).length := hf.2
      have hacc : acc 0 ds < 2000000010 := by
        rw [hvalue]
        exact hsize
      obtain ⟨t, ht⟩ := lenResponse_digits hf.1 hacc smtptext (ch :: data ++ 44 :: rest)
      obtain ⟨x, hx⟩ := skip_append data (44 :: rest) (ch :: asc "Remote host said: ")
      obtain ⟨u, hu⟩ := append1_eq (((ch :: asc "Remote host said: ") ++ x).map printable) 44
      have hmode : ¬ (ch ≠ 90 ∧ ch ≠ 68 ∧ ch ≠ 75) := by
        rintro ⟨h1, h2, h3⟩
        rcases hch with h | h | h
        · exact h1 h
        · exact h2 h
        · exact h3 h
      let smtptext := (((ch :: asc "Remote host said: ") ++ x).map printable ++ u).dropLast ++ [10]
      refine ⟨smtptext.tail, smtptext, ?_⟩
      rw [getresponse, Field.bytes_append, ht]
      simp only [bind, Except.bind, pure, Except.pure, hvalue, List.length_cons, Nat.succ_ne_zero,
        if_false, get1, List.cons_append, hmode, Nat.add_sub_cancel, hx, ne_eq, not_true_eq_false]
      rw [← List.cons_append, hu, letter_eq hch]
      rfl

/-- What is taken for a response. -/
theorem getresponse_spec {r : Report} (h : getresponse s = .ok (r, s')) :
    ∃ f : Field, s.input = f.bytes ++ s'.input ∧ f.ProperIfDigits ∧ Response f.data ∧
      r.letter = letter f.data := by
  unfold getresponse at h
  obtain ⟨⟨len, s1⟩, hlen, h⟩ := except_bind_ok.mp h
  simp only at h
  split at h
  · cases h
  rename_i hne
  obtain ⟨⟨ch, s2⟩, hget, h⟩ := except_bind_ok.mp h
  simp only at h
  split at h
  · cases h
  rename_i hmode
  obtain ⟨s3, hskip, h⟩ := except_bind_ok.mp h
  obtain ⟨⟨c, s4⟩, hcomma, h⟩ := except_bind_ok.mp h
  simp only at h
  split at h
  · cases h
  rename_i hc
  cases h
  obtain ⟨ds, hinput, hcolon, hn⟩ := lenResponse_spec hlen
  obtain ⟨hch, -⟩ := get1_spec hget
  obtain ⟨data, t, hlength, hdata, htext⟩ := skip_spec hskip
  obtain ⟨hend, htext'⟩ := get1_spec hcomma
  obtain ⟨u, hu⟩ := append1_eq (s3.smtptext.map printable) c
  rw [Decidable.not_not] at hc
  simp only at hdata hend htext htext'
  have hch' : ch = 90 ∨ ch = 68 ∨ ch = 75 := by
    by_cases h90 : ch = 90
    · exact .inl h90
    by_cases h68 : ch = 68
    · exact .inr (.inl h68)
    · exact .inr (.inr (Decidable.not_not.mp fun h75 => hmode ⟨h90, h68, h75⟩))
  refine ⟨⟨ds, ch :: data⟩, ?_, ⟨hcolon, fun hd => ?_⟩, ?_, ?_⟩
  · rw [Field.bytes_append, hinput, hch, hdata, hend, hc, List.cons_append]
  · rw [← acc_zero, ← hn hd, List.length_cons, hlength]
    omega
  · simpa [Response] using hch'
  · simp only
    rw [htext', hu, htext, letter_eq hch']
    rfl

/-- Responses are read, and no more. -/
theorem getresponses_fields {fs : List Field} (hf : ∀ f ∈ fs, f.Proper)
    (hsize : ∀ f ∈ fs, f.data.length < 2000000010) (hr : ∀ f ∈ fs, Response f.data)
    (smtptext rest : Bytes) :
    ∃ t, (getresponses fs.length ⟨fs.flatMap Field.bytes ++ rest, smtptext⟩).2 = .ok ⟨rest, t⟩ ∧
      (getresponses fs.length ⟨fs.flatMap Field.bytes ++ rest, smtptext⟩).1.map Report.letter =
        fs.map fun f => letter f.data := by
  induction fs generalizing smtptext with
  | nil => exact ⟨smtptext, rfl, rfl⟩
  | cons f fs ih =>
      obtain ⟨x, u, hread⟩ := getresponse_field (hf f List.mem_cons_self)
        (hsize f List.mem_cons_self) (hr f List.mem_cons_self) smtptext
        (fs.flatMap Field.bytes ++ rest)
      obtain ⟨t, hrest, hletters⟩ := ih (fun g hg => hf g (List.mem_cons_of_mem f hg))
        (fun g hg => hsize g (List.mem_cons_of_mem f hg))
        (fun g hg => hr g (List.mem_cons_of_mem f hg)) u
      refine ⟨t, ?_, ?_⟩
      · rw [List.flatMap_cons, List.append_assoc, List.length_cons, getresponses, hread]
        exact hrest
      · rw [List.flatMap_cons, List.append_assoc, List.length_cons, getresponses, hread]
        simp only [List.map_cons, hletters]

/-- Every report has a response in the stream, in order; and what is left is behind them. -/
theorem getresponses_spec (n : Nat) (s : From) :
    ∃ (fs : List Field) (rest : Bytes), s.input = fs.flatMap Field.bytes ++ rest ∧
      (∀ f ∈ fs, f.ProperIfDigits ∧ Response f.data) ∧
      (getresponses n s).1.map Report.letter = (fs.map fun f => letter f.data) ∧
      match (getresponses n s).2 with
      | .ok s' => fs.length = n ∧ s'.input = rest
      | .error _ => fs.length < n := by
  induction n generalizing s with
  | zero => exact ⟨[], s.input, rfl, by simp, rfl, rfl, rfl⟩
  | succ n ih =>
      rw [getresponses]
      cases hread : getresponse s with
      | error e => exact ⟨[], s.input, rfl, by simp, rfl, Nat.succ_pos n⟩
      | ok p =>
          obtain ⟨r, t⟩ := p
          obtain ⟨f, hinput, hf, hr, hletter⟩ := getresponse_spec hread
          obtain ⟨fs, rest, htail, hfs, hletters, hend⟩ := ih t
          refine ⟨f :: fs, rest, ?_, ?_, ?_, ?_⟩
          · rw [hinput, htail, List.flatMap_cons, List.append_assoc]
          · intro g hg
            rcases List.mem_cons.mp hg with rfl | hg
            · exact ⟨hf, hr⟩
            · exact hfs g hg
          · simp only [List.map_cons, hletters, hletter]
          · simp only
            split
            · rename_i s' hs'
              rw [hs'] at hend
              exact ⟨by rw [List.length_cons, hend.1], hend.2⟩
            · rename_i e he
              rw [he] at hend
              rw [List.length_cons]
              exact Nat.succ_lt_succ hend

end Read

end IndimailMta.Qmtp
