import IndimailMta.Base
import IndimailMta.Lib.Lines

/-!
# Replies of the server

`smtpcode` reads one reply, and saves its text, without carriage returns and up to a limit. After
EHLO the text is scanned twice: `ehlo` collects the keywords, and `do_smtp` looks for SIZE, AUTH
and SMTPUTF8. Neither scan knows where the text ends. A read at or behind its end is `none` here.
The session stays in step with the server (`replies_eq`); the scans find the keywords of the reply,
and read nothing else, if the text of the reply fits and the reply has a second line, among others
(`ehlo_scanned`).
-/

namespace IndimailMta.Remote

open IndimailMta Lines

/-! ## §1 Reading a reply -/

def HUGESMTPTEXT : Nat := 5000

/-- `get1`: the byte read is saved behind `smtptext`. -/
def get1 (smtptext : Bytes) (ch : Byte) : Bytes :=
  if ch ≠ 13 ∧ smtptext.length < HUGESMTPTEXT then smtptext ++ [ch] else smtptext

/-- `get3`: the three bytes, the saved text, and what the server sent behind them. At the end of
what the server sends the program gives up, here and below. -/
def get3 (smtptext : Bytes) : Bytes → Option (Bytes × Bytes × Bytes)
  | a :: b :: c :: input => some ([a, b, c], get1 (get1 (get1 smtptext a) b) c, input)
  | _ => none

/-- `while (ch != '\n') get1(&ch)`. -/
def skipLine (smtptext : Bytes) (ch : Byte) : Bytes → Option (Bytes × Bytes)
  | [] => if ch = 10 then some (smtptext, []) else none
  | c :: input =>
      if ch = 10 then some (smtptext, c :: input) else skipLine (get1 smtptext c) c input

theorem get3_length {smtptext s t input rest : Bytes}
    (h : get3 smtptext input = some (s, t, rest)) :
    rest.length < input.length := by
  rcases input with _ | ⟨a, _ | ⟨b, _ | ⟨c, input⟩⟩⟩
  · cases h
  · cases h
  · cases h
  · cases h
    simp only [List.length_cons]
    omega

theorem skipLine_length {smtptext t input rest : Bytes} {ch : Byte}
    (h : skipLine smtptext ch input = some (t, rest)) : rest.length ≤ input.length := by
  induction input generalizing smtptext ch with
  | nil =>
      rw [skipLine] at h
      split at h
      · cases h
        exact Nat.le_refl _
      · cases h
  | cons c input ih =>
      rw [skipLine] at h
      split at h
      · cases h
        exact Nat.le_refl _
      · exact Nat.le_succ_of_le (ih h)

/-- The loop of `smtpcode`, from behind the code of a line. -/
def smtpLines (err : Bool) (smtptext : Bytes) : Bytes → Option (Bool × Bytes × Bytes)
  | [] => none
  | ch :: input =>
      let err := err || (ch != 32 && ch != 45)
      if ch ≠ 45 then (skipLine (get1 smtptext ch) ch input).map fun r => (err, r)
      else
        match _h : skipLine (get1 smtptext ch) ch input with
        | none => none
        | some (smtptext, line) =>
            match _h3 : get3 smtptext line with
            | none => none
            | some (_, smtptext, input) => smtpLines err smtptext input
termination_by input => input.length
decreasing_by
  have h1 := skipLine_length _h
  have h2 := get3_length _h3
  simp only [List.length_cons]
  omega

/-- `smtpcode`: the code, the saved text, and what the server sent behind the reply. -/
def smtpcode (input : Bytes) : Option (Nat × Bytes × Bytes) := do
  let (str, smtptext, input) ← get3 [] input
  let code := (scanDecimal str).2
  let (err, smtptext, input) ← smtpLines (decide (code < 200)) smtptext input
  return (if err then 400 else code, smtptext, input)

/-- A number of calls of `smtpcode`, one after the other. -/
def replies : Nat → Bytes → Option (List (Nat × Bytes) × Bytes)
  | 0, input => some ([], input)
  | n + 1, input => do
      let (code, smtptext, input) ← smtpcode input
      let (rs, input) ← replies n input
      return ((code, smtptext) :: rs, input)

/-! ## §2 One reply -/

/-- The bytes of lines. -/
def joined (ls : List Bytes) : Bytes := ls.flatMap fun l => l ++ [10]

theorem joined_cons (l : Bytes) (ls : List Bytes) : joined (l :: ls) = l ++ 10 :: joined ls := by
  rw [joined, List.flatMap_cons, List.append_assoc]
  rfl

/-- A reply: lines whose fourth byte is a dash, and the first one with another, or with no more than
three bytes. The lines are without the newlines that end them. -/
structure Reply where
  more : List Bytes
  last : Bytes
  nl : ∀ l ∈ more ++ [last], (10 : Byte) ∉ l
  three : 3 ≤ last.length
  dash : ∀ l ∈ more, l[3]? = some 45
  noDash : last[3]? ≠ some 45

namespace Reply

variable (r : Reply)

def lines : List Bytes := r.more ++ [r.last]

/-- What the server sends. -/
def bytes : Bytes := joined r.lines

/-- The code is taken from the first line. -/
def number : Nat := (scanDecimal ((r.lines.headD []).take 3)).2

/-- The reply is no SMTP reply: its code is no code of a reply, or no space is behind it. -/
def malformed : Bool := decide (r.number < 200) || r.last[3]? != some 32

/-- What `smtpcode` is to return. -/
def code : Nat := if r.malformed then 400 else r.number

/-- The text of the reply, without carriage returns. -/
def text : Bytes := r.bytes.filter (· ≠ 13)

/-- What `smtpcode` is to save. -/
def saved : Bytes := r.text.take HUGESMTPTEXT

end Reply

/-- What is saved when a part of the input has been read. -/
theorem foldl_get1 (smtptext s : Bytes) (h : smtptext.length ≤ HUGESMTPTEXT) :
    s.foldl get1 smtptext = (smtptext ++ s.filter (· ≠ 13)).take HUGESMTPTEXT := by
  induction s generalizing smtptext with
  | nil => simp [List.take_of_length_le h]
  | cons ch s ih =>
      rw [List.foldl_cons, get1]
      by_cases hcr : ch = 13
      · rw [if_neg (fun hc => hc.1 hcr), ih _ h, List.filter_cons_of_neg (by simpa using hcr)]
      · rw [List.filter_cons_of_pos (by simpa using hcr)]
        by_cases hlen : smtptext.length < HUGESMTPTEXT
        · have hle : (smtptext ++ [ch]).length ≤ HUGESMTPTEXT := by
            rw [List.length_append, List.length_singleton]
            exact hlen
          rw [if_pos ⟨hcr, hlen⟩, ih _ hle]
          simp
        · have hfull : smtptext.length = HUGESMTPTEXT := by omega
          rw [if_neg (fun hc => hlen hc.2), ih _ h, ← hfull, List.take_left, List.take_left]

theorem skipLine_append (smtptext : Bytes) {ch : Byte} {l : Bytes} (rest : Bytes) (hch : ch ≠ 10)
    (hl : (10 : Byte) ∉ l) :
    skipLine smtptext ch (l ++ 10 :: rest) = some ((l ++ [10]).foldl get1 smtptext, rest) := by
  induction l generalizing smtptext ch with
  | nil =>
      rw [List.nil_append, skipLine, if_neg hch]
      cases rest <;> rfl
  | cons c l ih =>
      simp only [List.mem_cons, not_or] at hl
      rw [List.cons_append, skipLine, if_neg hch, ih _ (Ne.symm hl.1) hl.2]
      rfl

/-- A line of at least three bytes is its first three and the rest. -/
theorem three_bytes {l : Bytes} (h : 3 ≤ l.length) : ∃ a b c t, l = a :: b :: c :: t := by
  rcases l with _ | ⟨a, _ | ⟨b, _ | ⟨c, t⟩⟩⟩
  · exact absurd h (by decide)
  · exact absurd h (by simp)
  · exact absurd h (by simp)
  · exact ⟨a, b, c, t, rfl⟩

/-- The last line of a reply, from behind its code. -/
theorem smtpLines_last (err : Bool) (smtptext : Bytes) {t : Bytes} (rest : Bytes)
    (hl : (10 : Byte) ∉ t) (hdash : t.head? ≠ some 45) :
    smtpLines err smtptext (t ++ 10 :: rest) =
      some (err || t.head? != some 32, (t ++ [10]).foldl get1 smtptext, rest) := by
  rcases t with _ | ⟨ch, t⟩
  · rw [List.nil_append, smtpLines, if_pos (by decide)]
    cases rest <;> simp [skipLine]
  · simp only [List.mem_cons, not_or] at hl
    have hch : ch ≠ 45 := fun hc => hdash (by rw [hc, List.head?_cons])
    rw [List.cons_append, smtpLines, if_pos hch, skipLine_append _ rest (Ne.symm hl.1) hl.2]
    rw [bne_iff_ne.mpr hch, Bool.and_true]
    rfl

/-- A line of a reply that is not the last, from behind its code, and the code of the next. -/
theorem smtpLines_more (err : Bool) (smtptext : Bytes) {t : Bytes} (a b c : Byte) (rest : Bytes)
    (hl : (10 : Byte) ∉ t) (hdash : t.head? = some 45) :
    smtpLines err smtptext (t ++ 10 :: a :: b :: c :: rest) =
      smtpLines err ((t ++ [10, a, b, c]).foldl get1 smtptext) rest := by
  rcases t with _ | ⟨ch, t⟩
  · cases hdash
  · simp only [List.mem_cons, not_or] at hl
    obtain rfl : ch = 45 := Option.some.inj hdash
    have hskip := skipLine_append (get1 smtptext 45) (a :: b :: c :: rest)
      (by decide : (45 : Byte) ≠ 10) hl.2
    rw [List.cons_append, smtpLines, if_neg (by decide)]
    split
    · rename_i hnone
      rw [hskip] at hnone
      cases hnone
    · rename_i s line hsome
      rw [hskip] at hsome
      cases hsome
      simp [get3]

/-- The lines of a reply begin with three bytes, and the code is taken from them. -/
theorem joined_three {more : List Bytes} {last : Bytes} (hlast : 3 ≤ last.length)
    (hdash : ∀ l ∈ more, l[3]? = some 45) :
    ∃ a b c t ls, more ++ [last] = (a :: b :: c :: t) :: ls := by
  rcases more with _ | ⟨m, more⟩
  · obtain ⟨a, b, c, t, rfl⟩ := three_bytes hlast
    exact ⟨a, b, c, t, [], rfl⟩
  · have hm := hdash m List.mem_cons_self
    have hlen : 3 ≤ m.length := by
      rw [List.getElem?_eq_some_iff] at hm
      exact Nat.le_of_lt hm.1
    obtain ⟨a, b, c, t, rfl⟩ := three_bytes hlen
    exact ⟨a, b, c, t, more ++ [last], rfl⟩

/-- The loop reads the lines of a reply, and no more. -/
theorem smtpLines_eq (err : Bool) (smtptext : Bytes) {more : List Bytes} {last : Bytes}
    (rest : Bytes) (hnl : ∀ l ∈ more ++ [last], (10 : Byte) ∉ l) (hlast : 3 ≤ last.length)
    (hdash : ∀ l ∈ more, l[3]? = some 45) (hno : last[3]? ≠ some 45) :
    smtpLines err smtptext ((joined (more ++ [last])).drop 3 ++ rest) =
      some (err || last[3]? != some 32,
        ((joined (more ++ [last])).drop 3).foldl get1 smtptext, rest) := by
  induction more generalizing smtptext with
  | nil =>
      obtain ⟨a, b, c, t, rfl⟩ := three_bytes hlast
      have ht : (10 : Byte) ∉ t := fun hm => hnl _ List.mem_cons_self (by simp [hm])
      have hhead : t.head? = (a :: b :: c :: t)[3]? := by cases t <;> rfl
      have h := smtpLines_last err smtptext rest ht (hhead ▸ hno)
      rw [hhead] at h
      simpa [joined] using h
  | cons m more ih =>
      have hm := hdash m List.mem_cons_self
      have hlen : 3 ≤ m.length := Nat.le_of_lt (List.getElem?_eq_some_iff.mp hm).1
      obtain ⟨a, b, c, t, rfl⟩ := three_bytes hlen
      have ht : (10 : Byte) ∉ t := fun hmem => hnl _ List.mem_cons_self (by simp [hmem])
      have hhead : t.head? = some 45 := by
        rw [← hm]
        cases t <;> rfl
      have hdash' : ∀ l ∈ more, l[3]? = some 45 := fun l hl => hdash l (List.mem_cons_of_mem _ hl)
      have hnl' : ∀ l ∈ more ++ [last], (10 : Byte) ∉ l :=
        fun l hl => hnl l (List.mem_cons_of_mem _ hl)
      obtain ⟨a', b', c', t', ls, hls⟩ := joined_three hlast hdash'
      have hnext :
          joined (more ++ [last]) = a' :: b' :: c' :: (joined (more ++ [last])).drop 3 := by
        rw [hls, joined_cons]
        rfl
      have hcut : (joined ((a :: b :: c :: t) :: (more ++ [last]))).drop 3 =
          t ++ 10 :: joined (more ++ [last]) := by
        rw [joined_cons]
        rfl
      generalize hD : (joined (more ++ [last])).drop 3 = D at hnext ih
      rw [List.cons_append, hcut, hnext, List.append_assoc]
      calc smtpLines err smtptext (t ++ (10 :: a' :: b' :: c' :: D ++ rest))
          = smtpLines err ((t ++ [10, a', b', c']).foldl get1 smtptext) (D ++ rest) :=
            smtpLines_more err smtptext a' b' c' (D ++ rest) ht hhead
        _ = _ := by
            rw [ih _ hnl' hdash']
            simp [List.foldl_append]

/-- **A call of `smtpcode` reads one reply**, and no more. -/
theorem smtpcode_eq (r : Reply) (rest : Bytes) :
    smtpcode (r.bytes ++ rest) = some (r.code, r.saved, rest) := by
  obtain ⟨a, b, c, t, ls, hls⟩ := joined_three r.three r.dash
  have hbytes : r.bytes = a :: b :: c :: (joined (r.more ++ [r.last])).drop 3 := by
    rw [show r.bytes = joined (r.more ++ [r.last]) from rfl, hls, joined_cons]
    rfl
  have hnumber : r.number = (scanDecimal [a, b, c]).2 := by
    rw [Reply.number, Reply.lines, hls]
    rfl
  have hsaved : r.bytes.foldl get1 [] = r.saved := by
    rw [foldl_get1 [] r.bytes (by decide)]
    rfl
  have hlines := smtpLines_eq (decide (r.number < 200)) (get1 (get1 (get1 [] a) b) c) rest r.nl
    r.three r.dash r.noDash
  generalize (joined (r.more ++ [r.last])).drop 3 = D at hbytes hlines
  rw [hbytes] at hsaved
  simp only [List.foldl_cons] at hsaved
  rw [hsaved] at hlines
  rw [hbytes, smtpcode]
  simp only [List.cons_append, get3, Option.bind_eq_bind, Option.bind_some, ← hnumber, hlines]
  rfl

/-- **The calls stay in step with the server**: each reads the next reply. -/
theorem replies_eq (rs : List Reply) (rest : Bytes) :
    replies rs.length (rs.flatMap Reply.bytes ++ rest) =
      some (rs.map fun r => (r.code, r.saved), rest) := by
  induction rs with
  | nil => rfl
  | cons r rs ih =>
      rw [List.flatMap_cons, List.append_assoc, List.length_cons, replies, smtpcode_eq]
      simp only [Option.bind_eq_bind, Option.bind_some, ih]
      rfl

/-! ## §3 The scans -/

/-- `ehlo` from `s += 4` on: the words of a line, each with a NUL behind it, and the text behind the
line. `word` is the text from `s` to `p`, and `sa` what `saptr` holds. -/
def ehloWords (word : Bytes) (wasspace : Bool) (sa : Bytes) : Bytes → Option (Bytes × Bytes)
  | [] => none
  | ch :: rest =>
      if ch = 10 then some (if wasspace then sa else sa ++ word ++ [0], rest)
      else if ch = 32 ∨ ch = 9 then
        ehloWords word true (if wasspace then sa else sa ++ word ++ [0]) rest
      else if wasspace then ehloWords [ch] false sa rest
      else ehloWords (word ++ [ch]) false sa rest

/-- The keyword ends at an equals sign. -/
def cutKeyword : Bytes → Bytes
  | [] => []
  | ch :: rest =>
      if ch = 0 then ch :: rest else if ch = 61 then 0 :: rest else ch :: cutKeyword rest

theorem ehloWords_length {word sa sa' s rest : Bytes} {wasspace : Bool}
    (h : ehloWords word wasspace sa s = some (sa', rest)) : rest.length < s.length := by
  induction s generalizing word wasspace sa with
  | nil => cases h
  | cons ch s ih =>
      rw [ehloWords] at h
      split at h
      · cases h
        exact Nat.lt_succ_self _
      split at h
      · exact Nat.lt_succ_of_lt (ih h)
      split at h
      · exact Nat.lt_succ_of_lt (ih h)
      · exact Nat.lt_succ_of_lt (ih h)

/-- The loop of `ehlo`: `s <= e` says that six bytes of the text are left. -/
def ehloLines (s : Bytes) : Option (List Bytes) :=
  if s.length < 6 then some []
  else
    match _h : ehloWords [] false [] (s.drop 4) with
    | none => none
    | some (sa, rest) => (ehloLines rest).map (cutKeyword sa :: ·)
termination_by s.length
decreasing_by
  have h := ehloWords_length _h
  rw [List.length_drop] at h
  omega

/-- What `ehlo` makes of the saved text: `ehlokw`. -/
def ehlokw (smtptext : Bytes) : Option (List Bytes) :=
  (field 10 smtptext).bind fun p => ehloLines p.2

/-- `ehlo`: the code, the text, the keywords, and what the server sent behind the reply. -/
def ehlo (input : Bytes) : Option (Nat × Bytes × Option (List Bytes) × Bytes) := do
  let (code, smtptext, input) ← smtpcode input
  return (code, smtptext, if code = 250 then ehlokw smtptext else some [], input)

/-- `str_chr`: the number of bytes before the first `c`, or before the NUL. -/
def str_chr (c : Byte) : Bytes → Option Nat
  | [] => none
  | ch :: rest => if ch = 0 ∨ ch = c then some 0 else (str_chr c rest).map (· + 1)

def lower (ch : Byte) : Byte := if 65 ≤ ch ∧ ch ≤ 90 then ch + 32 else ch

/-- `case_diffb`: whether the bytes differ, looked at one by one up to the first that does. -/
def case_diffb : Bytes → Bytes → Option Bool
  | _, [] => some false
  | [], _ :: _ => none
  | ch :: s, c :: word => if lower ch ≠ lower c then some true else case_diffb s word

/-- What `do_smtp` looks for. -/
structure Capa where
  use_size : Bool := false
  auth_capa : Bool := false
  smtputf8 : Bool := false
  deriving DecidableEq, Repr

/-- A capability is looked for, unless it is off or was found. -/
def lookCapa (on found : Bool) (s word : Bytes) : Option Bool :=
  if on && !found then (case_diffb s word).map not else some found

/-- The three looks at a line. SMTPUTF8 is looked for with the NUL behind it. -/
def lookCapas (use_auth_smtp enable_utf8 : Bool) (capa : Capa) (s : Bytes) : Option Capa := do
  let use_size ← lookCapa true capa.use_size s (asc "SIZE")
  let auth_capa ← lookCapa use_auth_smtp capa.auth_capa s (asc "AUTH")
  let smtputf8 ← lookCapa enable_utf8 capa.smtputf8 s (asc "SMTPUTF8" ++ [0])
  return { use_size, auth_capa, smtputf8 }

/-- The loop of `do_smtp` over the saved text, from `i` on. With five bytes over the newline `i` is
behind the code of the next line. -/
def capaLoop (use_auth_smtp enable_utf8 : Bool) (capa : Capa) (s : Bytes) : Option Capa :=
  match str_chr 10 s with
  | none => none
  | some j =>
      match _h : s.drop (j + 4) with
      | [] => none
      | c :: line =>
          match lookCapas use_auth_smtp enable_utf8 capa line with
          | none => none
          | some capa =>
              if capa.use_size && capa.smtputf8 && capa.auth_capa then some capa
              else if c = 45 then capaLoop use_auth_smtp enable_utf8 capa line
              else some capa
termination_by s.length
decreasing_by
  have h := congrArg List.length _h
  rw [List.length_drop, List.length_cons] at h
  omega

/-- EHLO and what `do_smtp` finds in the text. With `refused`, the keywords had STARTTLS, and the
server refused it: the reply is read, and the session goes on without TLS. -/
def capabilities (use_auth_smtp enable_utf8 refused : Bool) (input : Bytes) :
    Option (Option (List Bytes) × Option Capa × Bytes) := do
  let (_, smtptext, kw, input) ← ehlo input
  if refused then
    let (_, smtptext, input) ← smtpcode input
    return (kw, capaLoop use_auth_smtp enable_utf8 {} smtptext, input)
  else return (kw, capaLoop use_auth_smtp enable_utf8 {} smtptext, input)

/-! ## §4 The keywords of a text -/

/-- The first word behind the code of a line, up to an equals sign. -/
def keyword (l : Bytes) : Bytes :=
  ((l.drop 4).takeWhile fun ch => ch != 32 && ch != 9).takeWhile (· != 61)

/-- The text behind the code of a line begins with a word, in either case. -/
def begins (word l : Bytes) : Bool := ((l.drop 4).take word.length).map lower == word.map lower

/-- A line of the saved text behind the first: it has a whole code, and no NUL in its keyword. -/
structure IsLine (l : Bytes) : Prop where
  nl : (10 : Byte) ∉ l
  nul : (0 : Byte) ∉ keyword l
  four : 4 ≤ l.length

/-- A word is over at its first space. -/
theorem ehloWords_later (word : Bytes) (wasspace : Bool) {sa l : Bytes} (rest : Bytes)
    (hl : (10 : Byte) ∉ l) :
    ∃ more, ehloWords word wasspace sa (l ++ 10 :: rest) = some (sa ++ more, rest) := by
  induction l generalizing word wasspace sa with
  | nil =>
      cases wasspace with
      | true => exact ⟨[], by simp [ehloWords]⟩
      | false => exact ⟨word ++ [0], by simp [ehloWords]⟩
  | cons ch l ih =>
      simp only [List.mem_cons, not_or] at hl
      rw [List.cons_append, ehloWords, if_neg (Ne.symm hl.1)]
      by_cases hsp : ch = 32 ∨ ch = 9
      · rw [if_pos hsp]
        cases wasspace with
        | true => exact ih word true hl.2
        | false =>
            obtain ⟨more, h⟩ := @ih word true (sa ++ word ++ [0]) hl.2
            exact ⟨word ++ [0] ++ more, by simpa using h⟩
      · rw [if_neg hsp]
        cases wasspace with
        | true => exact ih [ch] false hl.2
        | false => exact ih (word ++ [ch]) false hl.2

/-- The first word of a line. -/
theorem ehloWords_first (word : Bytes) {l : Bytes} (rest : Bytes) (hl : (10 : Byte) ∉ l) :
    ∃ more, ehloWords word false [] (l ++ 10 :: rest) =
      some (word ++ l.takeWhile (fun ch => ch != 32 && ch != 9) ++ 0 :: more, rest) := by
  induction l generalizing word with
  | nil => exact ⟨[], by simp [ehloWords]⟩
  | cons ch l ih =>
      simp only [List.mem_cons, not_or] at hl
      rw [List.cons_append, ehloWords, if_neg (Ne.symm hl.1)]
      by_cases hsp : ch = 32 ∨ ch = 9
      · rw [if_pos hsp]
        obtain ⟨more, h⟩ := @ehloWords_later word true (word ++ [0]) l rest hl.2
        refine ⟨more, ?_⟩
        have htake : (ch :: l).takeWhile (fun ch => ch != 32 && ch != 9) = [] :=
          List.takeWhile_cons_of_neg (by rcases hsp with rfl | rfl <;> decide)
        rw [htake]
        simpa using h
      · rw [if_neg hsp]
        obtain ⟨more, h⟩ := ih (word ++ [ch]) hl.2
        refine ⟨more, ?_⟩
        have htake : (ch :: l).takeWhile (fun ch => ch != 32 && ch != 9) =
            ch :: l.takeWhile (fun ch => ch != 32 && ch != 9) :=
          List.takeWhile_cons_of_pos (by simpa [not_or] using hsp)
        rw [htake]
        simpa using h

/-- The keyword is the first word, up to an equals sign. -/
theorem cstr_cutKeyword {w : Bytes} (more : Bytes) (hw : (0 : Byte) ∉ w.takeWhile (· != 61)) :
    cstr (cutKeyword (w ++ 0 :: more)) = w.takeWhile (· != 61) := by
  induction w with
  | nil => rfl
  | cons ch w ih =>
      by_cases heq : ch = 61
      · subst heq
        rw [List.takeWhile_cons_of_neg (by decide)]
        rfl
      · rw [List.takeWhile_cons_of_pos (by simpa using heq)] at hw ⊢
        simp only [List.mem_cons, not_or] at hw
        rw [List.cons_append, cutKeyword, if_neg (Ne.symm hw.1), if_neg heq, ← ih hw.2, cstr,
          List.takeWhile_cons_of_pos (by simpa using Ne.symm hw.1)]
        rfl

/-- The words of a line: its keyword comes first. -/
theorem ehloWords_line {l : Bytes} (rest : Bytes) (h : IsLine l) :
    ∃ sa, ehloWords [] false [] ((l ++ 10 :: rest).drop 4) = some (sa, rest) ∧
      cstr (cutKeyword sa) = keyword l := by
  have hdrop : (l ++ 10 :: rest).drop 4 = l.drop 4 ++ 10 :: rest :=
    List.drop_append_of_le_length h.four
  obtain ⟨more, hwords⟩ := ehloWords_first [] rest fun hm => h.nl (List.mem_of_mem_drop hm)
  rw [List.nil_append] at hwords
  refine ⟨_, hdrop ▸ hwords, ?_⟩
  exact cstr_cutKeyword more h.nul

/-- **`ehlo` finds the keywords of the lines**, if the text is all there. A last line without
text is not looked at. -/
theorem ehloLines_joined {ls : List Bytes} (h : ∀ l ∈ ls, IsLine l) :
    ∃ kw, ehloLines (joined ls) = some kw ∧
      (kw.map cstr).filter (· ≠ []) = (ls.map keyword).filter (· ≠ []) := by
  induction ls with
  | nil => exact ⟨[], by rw [ehloLines]; rfl, rfl⟩
  | cons l ls ih =>
      obtain ⟨kw, hkw, hkeys⟩ := ih fun x hx => h x (List.mem_cons_of_mem _ hx)
      obtain ⟨sa, hsa, hkey⟩ := ehloWords_line (joined ls) (h l List.mem_cons_self)
      rw [joined_cons, ehloLines]
      by_cases hshort : (l ++ 10 :: joined ls).length < 6
      · have hlen := (h l List.mem_cons_self).four
        rw [List.length_append, List.length_cons] at hshort
        have hnil : ls = [] := by
          rcases ls with _ | ⟨x, ls⟩
          · rfl
          · have hx := (h x (List.mem_cons_of_mem _ List.mem_cons_self)).four
            rw [joined_cons, List.length_append] at hshort
            omega
        have hempty : keyword l = [] := by
          rw [keyword, List.drop_of_length_le (by omega)]
          rfl
        subst hnil
        refine ⟨[], by rw [if_pos (by simpa using hshort)], ?_⟩
        rw [List.map_cons, hempty]
        rfl
      · rw [if_neg hshort]
        refine ⟨cutKeyword sa :: kw, ?_, ?_⟩
        · split
          · rename_i hnone
            rw [hsa] at hnone
            cases hnone
          · rename_i sa' rest hsome
            rw [hsa] at hsome
            cases hsome
            rw [hkw]
            rfl
        · rw [List.map_cons, List.map_cons, hkey, List.filter_cons, List.filter_cons, hkeys]

/-! ## §5 The capabilities in a text -/

theorem str_chr_append {a : Bytes} (rest : Bytes) (hnl : (10 : Byte) ∉ a) (hnul : (0 : Byte) ∉ a) :
    str_chr 10 (a ++ 10 :: rest) = some a.length := by
  induction a with
  | nil => rfl
  | cons ch a ih =>
      simp only [List.mem_cons, not_or] at hnl hnul
      rw [List.cons_append, str_chr, if_neg (fun h => h.elim (Ne.symm hnul.1) (Ne.symm hnl.1)),
        ih hnl.2 hnul.2]
      rfl

/-- The case of a letter is all that is lost. -/
theorem lower_eq {ch b : Byte} (hb : b < 65) : lower ch = b ↔ ch = b := by
  rw [lower]
  split
  · rename_i hcase
    have h1 := UInt8.le_iff_toNat_le.mp hcase.1
    have h2 := UInt8.le_iff_toNat_le.mp hcase.2
    have h3 := UInt8.lt_iff_toNat_lt.mp hb
    constructor <;> intro h <;> subst h <;> exfalso
    · rw [UInt8.lt_iff_toNat_lt, UInt8.toNat_add] at hb
      simp at h1 h2 hb
      omega
    · simp at h1 h3
      omega
  · exact Iff.rfl

/-- A comparison ends at the newline at the latest. -/
theorem case_diffb_line {u word : Bytes} (rest : Bytes) (hword : (10 : Byte) ∉ word) :
    case_diffb (u ++ 10 :: rest) word =
      some (!((u.take word.length).map lower == word.map lower)) := by
  induction word generalizing u with
  | nil => simp [case_diffb]
  | cons c word ih =>
      simp only [List.mem_cons, not_or] at hword
      rcases u with _ | ⟨ch, u⟩
      · have hne : lower 10 ≠ lower c := fun h => hword.1 ((lower_eq (by decide)).mp h.symm).symm
        rw [List.nil_append, case_diffb, if_pos hne]
        rfl
      · rw [List.cons_append, case_diffb]
        by_cases heq : lower ch = lower c
        · rw [if_neg (not_not_intro heq), ih hword.2]
          simp [heq]
        · rw [if_pos heq]
          simp [heq]

/-- A line does not begin with a word and a NUL, if its keyword has none. -/
theorem begins_nul {l word : Bytes} (h : (0 : Byte) ∉ keyword l)
    (hword : ∀ c ∈ word, c ≠ 32 ∧ c ≠ 9 ∧ c ≠ 61) : begins (word ++ [0]) l = false := by
  rw [begins, beq_eq_false_iff_ne]
  rw [keyword] at h
  generalize l.drop 4 = u at h
  intro heq
  induction word generalizing u with
  | nil =>
      rcases u with _ | ⟨ch, u⟩
      · cases heq
      · obtain rfl : ch = 0 := (lower_eq (by decide)).mp (List.cons.inj heq).1
        exact h (by simp)
  | cons c word ih =>
      rcases u with _ | ⟨ch, u⟩
      · cases heq
      · obtain ⟨hch, heq⟩ := List.cons.inj heq
        obtain ⟨h32, h9, h61⟩ := hword c List.mem_cons_self
        -- a byte that ends a keyword is no letter, and stands for itself
        have hne : ∀ {b : Byte}, b < 65 → c ≠ b → ch ≠ b := fun hb hc hcb =>
          hc ((lower_eq hb).mp (hch.symm.trans ((lower_eq hb).mpr hcb)))
        rw [List.takeWhile_cons_of_pos
            (by simpa using ⟨hne (by decide) h32, hne (by decide) h9⟩),
          List.takeWhile_cons_of_pos (by simpa using hne (by decide) h61), List.mem_cons,
          not_or] at h
        exact ih (fun x hx => hword x (List.mem_cons_of_mem _ hx)) u h.2 heq

/-- A look at a line. -/
theorem lookCapa_line (on found : Bool) {l word : Bytes} (rest : Bytes)
    (hword : (10 : Byte) ∉ word) :
    lookCapa on found (l.drop 4 ++ 10 :: rest) word = some (found || on && begins word l) := by
  rw [lookCapa, case_diffb_line rest hword, Option.map_some, Bool.not_not]
  change (if (on && !found) = true then some (begins word l) else _) = _
  cases on <;> cases found <;> rfl

/-- The looks at a line. -/
theorem lookCapas_line (use_auth_smtp enable_utf8 : Bool) {capa : Capa} {l : Bytes} (rest : Bytes)
    (hl : IsLine l) (hutf8 : capa.smtputf8 = false) :
    lookCapas use_auth_smtp enable_utf8 capa (l.drop 4 ++ 10 :: rest) =
      some { use_size := capa.use_size || begins (asc "SIZE") l
             auth_capa := capa.auth_capa || use_auth_smtp && begins (asc "AUTH") l } := by
  have hword : ∀ c ∈ asc "SMTPUTF8", c ≠ 32 ∧ c ≠ 9 ∧ c ≠ 61 := by decide +kernel
  rw [lookCapas, lookCapa_line _ _ rest (by decide), lookCapa_line _ _ rest (by decide),
    lookCapa_line _ _ rest (by decide), begins_nul hl.nul hword, hutf8]
  simp

/-- What is known behind a line. -/
def Capa.seen (use_auth_smtp : Bool) (capa : Capa) (ls : List Bytes) : Capa where
  use_size := capa.use_size || ls.any (begins (asc "SIZE"))
  auth_capa := capa.auth_capa || use_auth_smtp && ls.any (begins (asc "AUTH"))
  smtputf8 := false

/-- One round of the loop of `do_smtp`, from a text `a` without NUL in front of the newline. -/
theorem capaLoop_step (use_auth_smtp enable_utf8 : Bool) {capa : Capa} {a l : Bytes}
    (rest : Bytes) (ha : (10 : Byte) ∉ a) (ha0 : (0 : Byte) ∉ a) (hl : IsLine l)
    (hutf8 : capa.smtputf8 = false) :
    capaLoop use_auth_smtp enable_utf8 capa (a ++ 10 :: (l ++ 10 :: rest)) =
      if l[3]? = some 45 then
        capaLoop use_auth_smtp enable_utf8 (capa.seen use_auth_smtp [l]) (l.drop 4 ++ 10 :: rest)
      else some (capa.seen use_auth_smtp [l]) := by
  have hthree : 3 < l.length := hl.four
  have hdrop : (a ++ 10 :: (l ++ 10 :: rest)).drop (a.length + 4) =
      l[3] :: (l.drop 4 ++ 10 :: rest) := by
    rw [List.drop_length_add_append, List.drop_succ_cons, List.drop_append_of_le_length (by omega),
      List.drop_eq_getElem_cons hthree]
    rfl
  have hlook := lookCapas_line use_auth_smtp enable_utf8 rest hl hutf8
  rw [capaLoop]
  split
  · rename_i hnone
    rw [str_chr_append _ ha ha0] at hnone
    cases hnone
  · rename_i j hj
    rw [str_chr_append _ ha ha0] at hj
    cases hj
    split
    · rename_i hnil
      rw [hdrop] at hnil
      cases hnil
    · rename_i c line hcons
      rw [hdrop] at hcons
      cases hcons
      rw [hlook, List.getElem?_eq_getElem hthree]
      simp [Capa.seen]

/-- **`do_smtp` finds what the lines begin with**, behind the first one. -/
theorem capaLoop_joined (use_auth_smtp enable_utf8 : Bool) {capa : Capa} {a last : Bytes}
    {ls : List Bytes} (ha : (10 : Byte) ∉ a) (ha0 : (0 : Byte) ∉ a)
    (h : ∀ l ∈ ls ++ [last], IsLine l) (hls : ∀ l ∈ ls, l[3]? = some 45 ∧ (0 : Byte) ∉ l.drop 4)
    (hno : last[3]? ≠ some 45) (hutf8 : capa.smtputf8 = false) :
    capaLoop use_auth_smtp enable_utf8 capa (a ++ 10 :: joined (ls ++ [last])) =
      some (capa.seen use_auth_smtp (ls ++ [last])) := by
  induction ls generalizing a capa with
  | nil =>
      rw [List.nil_append, joined_cons,
        capaLoop_step _ _ _ ha ha0 (h last (by simp)) hutf8, if_neg hno]
  | cons l ls ih =>
      have hl := h l (by simp)
      have hnl : (10 : Byte) ∉ l.drop 4 := fun hm => hl.nl (List.mem_of_mem_drop hm)
      obtain ⟨hdash, hnul⟩ := hls l List.mem_cons_self
      rw [List.cons_append, joined_cons, capaLoop_step _ _ _ ha ha0 hl hutf8, if_pos hdash,
        ih hnl hnul (fun x hx => h x (List.mem_cons_of_mem _ hx))
          (fun x hx => hls x (List.mem_cons_of_mem _ hx)) rfl]
      simp [Capa.seen, Bool.or_assoc, Bool.and_or_distrib_left]

/-- With one line only, the loop reads behind the text. -/
theorem capaLoop_single (use_auth_smtp enable_utf8 : Bool) (capa : Capa) {a : Bytes}
    (ha : (10 : Byte) ∉ a) (ha0 : (0 : Byte) ∉ a) :
    capaLoop use_auth_smtp enable_utf8 capa (a ++ [10]) = none := by
  rw [capaLoop]
  split
  · rfl
  · rename_i j hj
    rw [str_chr_append _ ha ha0] at hj
    cases hj
    split
    · rfl
    · rename_i c line hcons
      rw [List.drop_eq_nil_of_le (by simp)] at hcons
      cases hcons

/-! ## §6 The scans of a reply -/

/-- A line as it is saved. -/
def kept (l : Bytes) : Bytes := l.filter (· ≠ 13)

namespace Reply

variable (r : Reply)

/-- The lines behind the first one, as they are to be saved. -/
def behind : List Bytes := r.lines.tail.map kept

/-- The keywords of the reply. -/
def keywords : List Bytes := (r.behind.map keyword).filter (· ≠ [])

/-- A word is a keyword of the reply, in either case. -/
def names (word : Bytes) : Bool := r.keywords.any fun k => k.map lower == word.map lower

/-- What `do_smtp` is to find in the reply. -/
def capa (use_auth_smtp enable_utf8 : Bool) : Capa where
  use_size := r.names (asc "SIZE")
  auth_capa := use_auth_smtp && r.names (asc "AUTH")
  smtputf8 := enable_utf8 && r.names (asc "SMTPUTF8")

/-- The lines behind the first have the four bytes of their code, none of them a carriage return,
and no NUL in their keywords. -/
structure Plain : Prop where
  nul : ∀ l ∈ r.behind, (0 : Byte) ∉ keyword l
  code : ∀ l ∈ r.lines.tail, 4 ≤ l.length ∧ (13 : Byte) ∉ l.take 4

/-- No NUL is where `do_smtp` looks for the end of a line: in the first one, and behind the code of
one that another follows. -/
structure Clear : Prop where
  first : (0 : Byte) ∉ r.lines.headD []
  more : ∀ l ∈ r.more.tail, (0 : Byte) ∉ l.drop 4

/-- The text of the reply is saved as a whole. -/
def Fits : Prop := r.text.length ≤ HUGESMTPTEXT

instance : Decidable r.Fits := inferInstanceAs (Decidable (_ ≤ _))

theorem text_eq : r.text = joined (r.lines.map kept) := by
  have h : ∀ ls : List Bytes, (joined ls).filter (· ≠ 13) = joined (ls.map kept) := by
    intro ls
    induction ls with
    | nil => rfl
    | cons l ls ih =>
        rw [joined_cons, List.filter_append, List.filter_cons_of_pos (by decide), ih, List.map_cons,
          joined_cons]
        rfl
  exact h r.lines

variable {r}

theorem saved_eq (h : r.Fits) : r.saved = joined (r.lines.map kept) := by
  rw [saved, List.take_of_length_le h, text_eq]

theorem nl_lines {l : Bytes} (hl : l ∈ r.lines) : (10 : Byte) ∉ kept l :=
  fun hm => r.nl l hl (List.mem_of_mem_filter hm)

/-- The code of a line is saved with it. -/
theorem kept_code {l : Bytes} (h : (13 : Byte) ∉ l.take 4) :
    kept l = l.take 4 ++ kept (l.drop 4) := by
  have htake : (l.take 4).filter (· ≠ 13) = l.take 4 :=
    List.filter_eq_self.mpr fun ch hch => by
      have hne : ch ≠ 13 := fun hc => h (hc ▸ hch)
      simpa using hne
  calc kept l = kept (l.take 4 ++ l.drop 4) := by rw [List.take_append_drop]
    _ = l.take 4 ++ kept (l.drop 4) := by rw [kept, List.filter_append, htake, kept]

theorem Plain.kept_three {l : Bytes} (h : r.Plain) (hl : l ∈ r.lines.tail) :
    (kept l)[3]? = l[3]? := by
  obtain ⟨hlen, hcr⟩ := h.code l hl
  rw [kept_code hcr, List.getElem?_append_left (by rw [List.length_take]; omega),
    List.getElem?_take_of_lt (by decide)]

theorem Plain.kept_drop {l : Bytes} (h : r.Plain) (hl : l ∈ r.lines.tail) :
    (kept l).drop 4 = kept (l.drop 4) := by
  obtain ⟨hlen, hcr⟩ := h.code l hl
  have htake : (l.take 4).length = 4 := by
    rw [List.length_take]
    omega
  rw [kept_code hcr, List.drop_append_of_le_length (Nat.le_of_eq htake.symm),
    List.drop_of_length_le (Nat.le_of_eq htake), List.nil_append]

theorem Plain.isLine {l : Bytes} (h : r.Plain) (hl : l ∈ r.behind) : IsLine l := by
  have hnul := h.nul l hl
  obtain ⟨l, hmem, rfl⟩ := List.mem_map.mp hl
  obtain ⟨hlen, hcr⟩ := h.code l hmem
  refine ⟨nl_lines (List.mem_of_mem_tail hmem), hnul, ?_⟩
  rw [kept_code hcr, List.length_append, List.length_take]
  omega

theorem kept_lines (r : Reply) :
    ∃ first ∈ r.lines, r.lines.map kept = kept first :: r.behind := by
  cases h : r.lines with
  | nil => exact absurd h (by simp [lines])
  | cons first ls => exact ⟨first, List.mem_cons_self, by rw [behind, h]; rfl⟩

/-- `ehlo` finds the keywords of a reply. -/
theorem Plain.ehlokw (h : r.Plain) (hfit : r.Fits) :
    ∃ kw, Remote.ehlokw r.saved = some kw ∧ (kw.map cstr).filter (· ≠ []) = r.keywords := by
  obtain ⟨first, hfirst, hlines⟩ := r.kept_lines
  obtain ⟨kw, hkw, hkeys⟩ := ehloLines_joined fun l hl => h.isLine hl
  refine ⟨kw, ?_, hkeys⟩
  rw [saved_eq hfit, hlines, joined_cons, Remote.ehlokw, field_append (nl_lines hfirst)]
  exact hkw

/-- What `do_smtp` makes of the text of a reply. -/
theorem Plain.capaLoop (h : r.Plain) (hclear : r.Clear) (hfit : r.Fits)
    (use_auth_smtp enable_utf8 : Bool) :
    Remote.capaLoop use_auth_smtp enable_utf8 {} r.saved =
      if r.more = [] then none else some (Capa.seen use_auth_smtp {} r.behind) := by
  have hlast : r.last ∈ r.lines := List.mem_append_right _ (List.mem_singleton_self _)
  rw [saved_eq hfit]
  cases hmore : r.more with
  | nil =>
      have hlines : r.lines = [r.last] := by rw [lines, hmore, List.nil_append]
      rw [if_pos rfl, hlines, List.map_singleton, joined_cons]
      have hnul : (0 : Byte) ∉ r.last := by simpa [hlines] using hclear.first
      exact capaLoop_single _ _ _ (nl_lines hlast) fun hm => hnul (List.mem_of_mem_filter hm)
  | cons first ms =>
      have hlines : r.lines = first :: (ms ++ [r.last]) := by rw [lines, hmore, List.cons_append]
      have htail : r.lines.tail = ms ++ [r.last] := by rw [hlines, List.tail_cons]
      have hbehind : r.behind = ms.map kept ++ [kept r.last] := by
        rw [behind, htail, List.map_append, List.map_singleton]
      have hfirst : first ∈ r.lines := hlines ▸ List.mem_cons_self
      have hnul : (0 : Byte) ∉ kept first := fun hm =>
        hclear.first (by simpa [hlines] using List.mem_of_mem_filter hm)
      have hms : ∀ l ∈ ms.map kept, l[3]? = some 45 ∧ (0 : Byte) ∉ l.drop 4 := by
        intro l hl
        obtain ⟨m, hm, rfl⟩ := List.mem_map.mp hl
        have hmem : m ∈ r.lines.tail := htail ▸ List.mem_append_left _ hm
        rw [h.kept_three hmem, h.kept_drop hmem]
        refine ⟨r.dash m (hmore ▸ List.mem_cons_of_mem _ hm), fun hm0 => ?_⟩
        exact hclear.more m (by simpa [hmore] using hm) (List.mem_of_mem_filter hm0)
      have hno : (kept r.last)[3]? ≠ some 45 := by
        rw [h.kept_three (htail ▸ List.mem_append_right _ (List.mem_singleton_self _))]
        exact r.noDash
      rw [if_neg (List.cons_ne_nil _ _), hlines, List.map_cons, List.map_append, List.map_singleton,
        joined_cons, hbehind]
      exact capaLoop_joined _ _ (nl_lines hfirst) hnul
        (fun l hl => h.isLine (hbehind ▸ hl)) hms hno rfl

end Reply

/-- The scans read the text of a reply to EHLO and no more, and find its keywords. With `refused`,
a reply to STARTTLS is read in between. -/
def Scanned (use_auth_smtp enable_utf8 : Bool) (r : Reply) (refused : Option Reply) : Prop :=
  ∀ rest, ∃ kw,
    capabilities use_auth_smtp enable_utf8 refused.isSome
        (r.bytes ++ ((refused.map Reply.bytes).getD [] ++ rest)) =
      some (some kw, some (r.capa use_auth_smtp enable_utf8), rest) ∧
    (kw.map cstr).filter (· ≠ []) = r.keywords

/-- What the scans make of the replies. -/
theorem capabilities_eq (use_auth_smtp enable_utf8 : Bool) {r : Reply} (refused : Option Reply)
    (rest : Bytes) (h250 : r.code = 250) :
    capabilities use_auth_smtp enable_utf8 refused.isSome
        (r.bytes ++ ((refused.map Reply.bytes).getD [] ++ rest)) =
      some (ehlokw r.saved, capaLoop use_auth_smtp enable_utf8 {} (refused.getD r).saved,
        rest) := by
  rw [capabilities, ehlo, smtpcode_eq]
  cases refused with
  | none => simp [h250]
  | some t =>
      simp only [Option.bind_eq_bind, Option.bind_some, h250, Option.map_some, Option.getD_some,
        Option.isSome_some, if_true]
      change ((smtpcode (t.bytes ++ rest)).bind fun _ => _) = _
      rw [smtpcode_eq]
      rfl

/-- **The session stays in step with the server, and the scans find the keywords of the reply**
to EHLO exactly if the last reply read has a second line, no SMTPUTF8 is among the keywords that
are looked for, and SIZE and AUTH stand at the beginning of a line of it exactly if they are
keywords of the reply to EHLO. -/
theorem replies_scanned (use_auth_smtp enable_utf8 : Bool) (rs : List Reply) (rest : Bytes)
    (r : Reply) (refused : Option Reply) (h250 : r.code = 250) :
    replies rs.length (rs.flatMap Reply.bytes ++ rest) =
        some (rs.map fun r => (r.code, r.saved), rest) ∧
      (r.Plain → r.Fits → (∀ t ∈ refused, t.Plain ∧ t.Fits) → (refused.getD r).Clear →
        (Scanned use_auth_smtp enable_utf8 r refused ↔
          (refused.getD r).more ≠ [] ∧
            (refused.getD r).behind.any (begins (asc "SIZE")) = r.names (asc "SIZE") ∧
            (use_auth_smtp = true →
              (refused.getD r).behind.any (begins (asc "AUTH")) = r.names (asc "AUTH")) ∧
            (enable_utf8 = true → r.names (asc "SMTPUTF8") = false))) := by
  refine ⟨replies_eq rs rest, fun hplain hfit hrefused hclear => ?_⟩
  have ht : (refused.getD r).Plain ∧ (refused.getD r).Fits := by
    cases refused with
    | none => exact ⟨hplain, hfit⟩
    | some t => exact hrefused t rfl
  obtain ⟨kw, hkw, hkeys⟩ := hplain.ehlokw hfit
  have hscan := ht.1.capaLoop hclear ht.2 use_auth_smtp enable_utf8
  have hcapa :
      Capa.seen use_auth_smtp {} (refused.getD r).behind = r.capa use_auth_smtp enable_utf8 ↔
      (refused.getD r).behind.any (begins (asc "SIZE")) = r.names (asc "SIZE") ∧
        (use_auth_smtp = true →
          (refused.getD r).behind.any (begins (asc "AUTH")) = r.names (asc "AUTH")) ∧
        (enable_utf8 = true → r.names (asc "SMTPUTF8") = false) := by
    rw [Capa.seen, Reply.capa, Capa.mk.injEq]
    cases use_auth_smtp <;> cases enable_utf8 <;> simp [@eq_comm Bool false]
  constructor
  · intro h
    obtain ⟨kw', heq, -⟩ := h []
    rw [capabilities_eq _ _ _ _ h250, hscan] at heq
    have hsome := (Prod.mk.inj (Prod.mk.inj (Option.some.inj heq)).2).1
    split at hsome
    · cases hsome
    · rename_i hmore
      exact ⟨hmore, hcapa.mp (Option.some.inj hsome)⟩
  · rintro ⟨hmore, hnames⟩ rest
    refine ⟨kw, ?_, hkeys⟩
    rw [capabilities_eq _ _ _ _ h250, hscan, if_neg hmore, hcapa.mpr hnames, hkw]

/-- A server that says no more than `250 ok`. -/
def okReply : Reply where
  more := []
  last := asc "250 ok"
  nl := by decide
  three := by decide
  dash := by decide
  noDash := by decide

/-- A server with SIZE, and a NUL behind the keyword of its last line. -/
def sizeReply : Reply where
  more := [asc "250-mail.example.org\r", asc "250-SIZE 1000000\r"]
  last := asc "250 AUTH PLAIN\x00\r"
  nl := by decide
  three := by decide
  dash := by decide
  noDash := by decide

theorem replies_scanned_size : Scanned true false sizeReply none := by
  have hplain : sizeReply.Plain := ⟨by decide, by decide⟩
  have hclear : sizeReply.Clear := ⟨by decide, by decide⟩
  exact ((replies_scanned true false [] [] sizeReply none (by decide)).2 hplain (by decide)
    (fun t ht => by cases ht) hclear).mpr (by decide)

/-- With a reply of one line, `do_smtp` reads behind the text. -/
theorem single_line_unscanned : ¬ ∀ (use_auth_smtp enable_utf8 : Bool) (r : Reply),
    r.code = 250 → Scanned use_auth_smtp enable_utf8 r none := by
  intro h
  obtain ⟨kw, heq, -⟩ := h false false okReply (by decide) []
  rw [capabilities_eq _ _ _ _ (by decide)] at heq
  have hsome := (Prod.mk.inj (Prod.mk.inj (Option.some.inj heq)).2).1
  have hplain : okReply.Plain := ⟨by decide, by decide⟩
  have hclear : okReply.Clear := ⟨by decide, by decide⟩
  rw [Option.getD_none, hplain.capaLoop hclear (by decide), if_pos (by rfl)] at hsome
  cases hsome

end IndimailMta.Remote
