import IndimailMta.Smtpd.Session

/-!
# The content filters of qmail-smtpd

With BODYCHECK or virus signatures on, `put` collects the bytes of a message into lines. Each line
is judged by `bodycheck`, and a small machine for MIME follows what is header and what is body.
The variables are static, and what is judged is `pline`: the header line with the continuations
read so far. Behind the header `pline` is the empty line that ended it. `verdicts_own` is the
condition under which the verdicts of a session are those the messages deserve.
-/

namespace IndimailMta.Smtpd.Contents

open IndimailMta

/-! ## §1 Rules -/

def isspace (ch : Byte) : Bool := ch == 32 || (9 ≤ ch && ch ≤ 13)

/-- Where a rule applies. -/
inductive Kind where
  | header
  | body
  | anywhere
  deriving DecidableEq, Repr

/-- The end of a rule, behind its last colon, says where it applies. -/
def ruleKind (rule : Bytes) : Kind :=
  let colon := byteRchr rule 58
  if 0 < colon ∧ colon < rule.length then
    let mark := (rule.drop (colon + 1)).dropWhile isspace
    if (asc "-header").isPrefixOf mark then .header
    else if (asc "-body").isPrefixOf mark then .body
    else .anywhere
  else .anywhere

/-- The rules of bodycheck, `regexec` on a rule and a line, and the virus signatures, if they are
on: whether a line has one, and `flagblackhole` behind the scan. -/
structure Conf where
  body : List Bytes
  regexec : Bytes → Bytes → Bool
  sigs : Option (Bytes → Bool × Bool) := none

/-- `bodycheck`: the line ends at its first NUL. -/
def bodycheck (c : Conf) (line : Bytes) (in_header : Bool) : Bool :=
  c.body.any fun rule =>
    !((ruleKind rule == .body && in_header) || (ruleKind rule == .header && !in_header)) &&
      c.regexec rule (cstr line)

/-- `sigscheck`, with `flagblackhole` as it was. -/
def sigscheck (c : Conf) (line : Bytes) (flagblackhole : Bool) : Bool × Bool :=
  match c.sigs with
  | none => (false, flagblackhole)
  | some scan => scan line

/-! ## §2 MIME -/

/-- `linetype`: `'C'`, or another. -/
inductive Linetype where
  | content
  | other
  deriving DecidableEq, Repr

/-- The variables that follow the structure of a message. `linespastheader` is 0 in a header, 1 at
the first line behind it, and 2 then; `boundary` is the stack of boundaries, with a NUL in front of
each. -/
structure Mime where
  linespastheader : Nat := 0
  content : Bytes := []
  linetype : Linetype := .other
  flagqsbmf : Bool := false
  boundary : Bytes := []
  boundary_start : Nat := 0
  deriving DecidableEq, Repr

def isBlank (ch : Byte) : Bool := ch == 32 || ch == 9

/-- The type in `content`, and what is behind it. -/
def contentType (content : Bytes) : Bytes × Bytes :=
  let s := content.dropWhile isBlank
  if s.head? = some 34 then (s.tail.takeWhile (· ≠ 34), s.tail.dropWhile (· ≠ 34))
  else
    let inType := fun ch => !(isBlank ch || ch == 59)
    (s.takeWhile inType, s.dropWhile inType)

/-- `!case_diffb(cpstart, cp - cpstart, "message/rfc822")`: a shorter type is compared as far as it
goes. -/
def isRfc822 (type : Bytes) : Bool :=
  type.map lower == (asc "message/rfc822" ++ [0]).take type.length

/-- The text of the boundary parameter. -/
def boundaryText (s : Bytes) : Bytes :=
  if s.head? = some 34 then s.tail.takeWhile (· ≠ 34)
  else s.takeWhile fun ch => !(isBlank ch || ch == 59)

/-- The parameters of `content`, up to the first boundary. `case_startb` is `case_starts` on what is
left. -/
def findBoundary : Bytes → Option Bytes
  | [] => none
  | ch :: rest =>
      if ch = 59 ∧ case_starts (rest.dropWhile isBlank) (asc "boundary=") then
        some (boundaryText ((rest.dropWhile isBlank).drop 9))
      else findBoundary rest

/-- The empty line at the end of a header. -/
def endHeader (m : Mime) : Mime :=
  let past := if m.flagqsbmf then 0 else 1
  if m.content = [] then { m with linespastheader := past, flagqsbmf := false }
  else
    let (type, params) := contentType m.content
    let m := { m with linespastheader := if isRfc822 type then 0 else past, flagqsbmf := false }
    match findBoundary params with
    | none => m
    | some text =>
        { m with boundary := m.boundary ++ [0] ++ asc "--" ++ text
                 boundary_start := m.boundary.length + 1 }

/-- Another line of a header. -/
def headerLine (m : Mime) (line : Bytes) : Mime :=
  if line.head?.any isBlank then
    if m.linetype = .content then { m with content := m.content ++ line.dropLast } else m
  else if case_starts line (asc "content-type:") then
    { m with content := (line.drop 13).dropLast, linetype := .content }
  else { m with linetype := .other }

/-- A line begins with the boundary on top of the stack. -/
def atBoundary (m : Mime) (line : Bytes) : Bool :=
  let top := m.boundary.drop m.boundary_start
  top != [] && line.head? == some 45 && decide (top.length < line.length) &&
    cstr (line.take top.length) == cstr top

/-- The boundary on top of the stack is taken away. -/
def popBoundary (m : Mime) : Mime :=
  let boundary :=
    if m.boundary_start = 0 then m.boundary else m.boundary.take (m.boundary_start - 1)
  let nul := byteRchr boundary 0
  { m with boundary, boundary_start := if nul < boundary.length then nul + 1 else 0
           linespastheader := 2 }

/-- A bounce begins with one of these. -/
def isBounce (line : Bytes) : Bool :=
  (asc "Hi. This is the ").isPrefixOf line ||
    (asc "This message was created automatically by mail delivery software").isPrefixOf line

/-- A line behind a header. -/
def bodyLine (m : Mime) (line : Bytes) : Mime :=
  let n := (m.boundary.drop m.boundary_start).length
  let m :=
    if atBoundary m line then
      if n + 2 < line.length ∧ (line)[n]? = some 45 ∧ (line)[n + 1]? = some 45 then popBoundary m
      else { m with linespastheader := 0 }
    else if m.linespastheader = 1 then
      { m with flagqsbmf := m.flagqsbmf || isBounce line, linespastheader := 2 }
    else m
  if m.flagqsbmf ∧ (asc "---").isPrefixOf line then { m with linespastheader := 0 } else m

/-- What a line does to the machine. -/
def mimeLine (m : Mime) (line : Bytes) : Mime :=
  if m.linespastheader = 0 then
    if line.length = 1 then endHeader m else headerLine m line
  else bodyLine m line

/-- The signatures are looked for in this line. -/
def sigsLine (m : Mime) (line : Bytes) : Bool :=
  m.linespastheader == 1 && !atBoundary m line && !isBounce line

/-! ## §3 `put` -/

/-- The variables of the filters, and `failed` for `qmail_fail`. -/
structure Filter where
  sigsok : Bool
  bodyok : Bool := true
  flagexecutable : Bool := false
  flagbody : Bool := false
  flagblackhole : Bool := false
  line : Bytes := []
  pline : Bytes := []
  mime : Mime := {}
  failed : Bool := false

/-- A header line goes on with the line before it. -/
def goesOn (line : Bytes) : Bool := decide (1 < line.length) && line.head?.any isspace

/-- `pline` with a line. -/
def joinLine (m : Mime) (pline line : Bytes) : Bytes :=
  if m.linespastheader = 0 then if goesOn line then pline ++ line else line else pline

/-- `put` at the end of a line. The first match turns the filters off. -/
def endLine (c : Conf) (f : Filter) : Filter :=
  let pline := joinLine f.mime f.pline f.line
  let content := bodycheck c pline (f.mime.linespastheader == 0)
  let (virus, flagblackhole) :=
    if sigsLine f.mime f.line then sigscheck c f.line f.flagblackhole else (false, f.flagblackhole)
  { sigsok := f.sigsok && !content && !virus
    bodyok := f.bodyok && !content && !virus
    flagexecutable := f.flagexecutable || virus
    flagbody := f.flagbody || content
    flagblackhole
    line := []
    pline
    mime := mimeLine f.mime f.line
    failed := f.failed || content || virus }

/-- `put`. Of a line 1024 bytes are looked at. -/
def put (c : Conf) (f : Filter) (ch : Byte) : Filter :=
  if !f.sigsok && !f.bodyok then f
  else
    let f := { f with line := if f.line.length < 1024 then f.line ++ [ch] else f.line }
    if ch = 10 then endLine c f else f

/-! ## §4 A session -/

/-- A message that `blast` reads to its end: its lines, without the newlines. `plugin` is set if a
plugin refuses it, and `queueErr` if it is not queued for a reason that is not its content. -/
structure Msg where
  lines : List Bytes
  nl : ∀ l ∈ lines, (10 : Byte) ∉ l
  plugin : Bool := false
  queueErr : Bool := false

/-- What `put` gets. -/
def Msg.bytes (m : Msg) : Bytes := m.lines.flatMap fun l => l ++ [10]

/-- How a message is answered; `blackhole` is for an answer that is not sent. -/
inductive Answer where
  | accepted
  | virus (blackhole : Bool)
  | badContent (blackhole : Bool)
  | plugin
  | failed
  deriving DecidableEq, Repr

/-- The variables that `smtp_data` resets, if the signatures are on. -/
def reset (f : Filter) : Filter :=
  if f.sigsok then { f with mime := {}, flagexecutable := false, failed := false }
  else { f with failed := false }

/-- The end of `smtp_data`. -/
def conclude (c : Conf) (m : Msg) (f : Filter) : Answer × Filter :=
  if m.plugin then (.plugin, f)
  else if !f.failed && !m.queueErr then (.accepted, f)
  else if f.flagexecutable then
    (.virus f.flagblackhole,
      { f with sigsok := c.sigs.isSome, bodyok := true, flagexecutable := false
               flagblackhole := false })
  else if f.flagbody then
    (.badContent f.flagblackhole,
      { f with sigsok := c.sigs.isSome, bodyok := true, flagbody := false, flagblackhole := false })
  else (.failed, f)

/-- `smtp_data`. -/
def smtp_data (c : Conf) (f : Filter) (m : Msg) : Answer × Filter :=
  conclude c m (m.bytes.foldl (put c) (reset f))

/-- The messages of a session. -/
def session (c : Conf) : Filter → List Msg → List Answer
  | _, [] => []
  | f, m :: ms => (smtp_data c f m).1 :: session c (smtp_data c f m).2 ms

/-- The filters at the start of a session, with BODYCHECK on. -/
def start (c : Conf) : Filter := { sigsok := c.sigs.isSome }

/-! ## §5 What a message deserves -/

/-- A rule that is not for bodies matches. -/
def MatchesHeader (c : Conf) (line : Bytes) : Prop :=
  ∃ rule ∈ c.body, ruleKind rule ≠ .body ∧ c.regexec rule (cstr line) = true

/-- A rule that is not for headers matches. -/
def MatchesBody (c : Conf) (line : Bytes) : Prop :=
  ∃ rule ∈ c.body, ruleKind rule ≠ .header ∧ c.regexec rule (cstr line) = true

/-- What `put` looks at of a line. -/
def cut (l : Bytes) : Bytes := (l ++ [10]).take 1024

/-- The lines of a message, with their newlines, each with the state it finds. -/
def trace (m : Mime) : List Bytes → List (Mime × Bytes)
  | [] => []
  | l :: ls => (m, l ++ [10]) :: trace (mimeLine m (cut l)) ls

/-- The lines of a message: whether each is in a header. -/
def classified (m : Mime) (ls : List Bytes) : List (Bool × Bytes) :=
  (trace m ls).map fun p => (p.1.linespastheader == 0, p.2)

/-- The logical lines of the headers, in their parts; `cur` is the one that is not over. -/
def logical : List Bytes → List (Bool × Bytes) → List (List Bytes)
  | cur, [] => [cur].filter (· ≠ [])
  | cur, (true, l) :: rest =>
      if l = [10] then [cur].filter (· ≠ []) ++ logical [] rest
      else if goesOn l then logical (cur ++ [l]) rest
      else [cur].filter (· ≠ []) ++ logical [l] rest
  | cur, (false, _) :: rest => [cur].filter (· ≠ []) ++ logical [] rest

namespace Msg

variable (m : Msg)

/-- Lines and whether they are in a header, the message being looked at for itself. -/
def classified : List (Bool × Bytes) := Contents.classified {} m.lines

/-- The logical header lines. -/
def headers : List (List Bytes) := logical [] m.classified

/-- A logical header line matches. -/
def BadHeader (c : Conf) : Prop := ∃ g ∈ m.headers, MatchesHeader c g.flatten

/-- A body line matches. -/
def BadBody (c : Conf) : Prop := ∃ p ∈ m.classified, p.1 = false ∧ MatchesBody c p.2

/-- The message deserves to be refused for its content. -/
def Bad (c : Conf) : Prop := m.BadHeader c ∨ m.BadBody c

end Msg

/-- No header begins with a line that goes on with another; `started` says that there is one. -/
def starts : Bool → List (Bool × Bytes) → Bool
  | _, [] => true
  | started, (true, l) :: rest =>
      if l = [10] then starts false rest else (!goesOn l || started) && starts true rest
  | _, (false, _) :: rest => starts false rest

/-- The filters judge the message by its own lines. -/
structure Clear (c : Conf) (f : Filter) (m : Msg) : Prop where
  /-- The machine starts afresh: the signatures are on, or nothing is left of the message before. -/
  fresh : f.sigsok = true ∨ f.mime = {}
  /-- Header lines are looked at in full. -/
  short : ∀ p ∈ m.classified, p.1 = true → p.2.length ≤ 1024
  /-- Every header begins with a field. -/
  starts : starts false m.classified = true
  /-- No line has a virus. -/
  clean : ∀ p ∈ trace {} m.lines, sigsLine p.1 (p.2.take 1024) = true →
    ∀ b, (sigscheck c (p.2.take 1024) b).1 = false
  /-- No plugin refuses what is refused for its content. -/
  plugin : m.plugin = true → ¬ m.Bad c
  /-- A part of a header line matches only if the message is refused anyway. -/
  parts : ∀ g ∈ m.headers, ∀ k < g.length, 0 < k → MatchesHeader c (g.take k).flatten → m.Bad c
  /-- So does the empty line behind a header, -/
  blank : (true, [10]) ∈ m.classified → MatchesHeader c [10] → m.Bad c
  /-- and in the place of a line of the body, -/
  empty : (∃ p ∈ m.classified, p.1 = false) → MatchesBody c [10] → m.Bad c
  /-- where it matches if a line of the body does and no header line. -/
  bodies : m.BadBody c → m.BadHeader c ∨ MatchesBody c [10]

instance (c : Conf) (line : Bytes) : Decidable (MatchesHeader c line) :=
  inferInstanceAs (Decidable (∃ rule ∈ c.body, _))

instance (c : Conf) (line : Bytes) : Decidable (MatchesBody c line) :=
  inferInstanceAs (Decidable (∃ rule ∈ c.body, _))

instance (m : Msg) (c : Conf) : Decidable (m.BadHeader c) :=
  inferInstanceAs (Decidable (∃ g ∈ m.headers, _))

instance (m : Msg) (c : Conf) : Decidable (m.BadBody c) :=
  inferInstanceAs (Decidable (∃ p ∈ m.classified, _))

instance (m : Msg) (c : Conf) : Decidable (m.Bad c) := inferInstanceAs (Decidable (_ ∨ _))

instance (c : Conf) (f : Filter) (m : Msg) : Decidable (Clear c f m) :=
  decidable_of_iff
    ((f.sigsok = true ∨ f.mime = {}) ∧ (∀ p ∈ m.classified, p.1 = true → p.2.length ≤ 1024) ∧
      Contents.starts false m.classified = true ∧
      (∀ p ∈ trace {} m.lines, sigsLine p.1 (p.2.take 1024) = true →
        ∀ b, (sigscheck c (p.2.take 1024) b).1 = false) ∧
      (m.plugin = true → ¬ m.Bad c) ∧
      (∀ g ∈ m.headers, ∀ k < g.length, 0 < k → MatchesHeader c (g.take k).flatten → m.Bad c) ∧
      ((true, [10]) ∈ m.classified → MatchesHeader c [10] → m.Bad c) ∧
      ((∃ p ∈ m.classified, p.1 = false) → MatchesBody c [10] → m.Bad c) ∧
      (m.BadBody c → m.BadHeader c ∨ MatchesBody c [10]))
    ⟨fun ⟨h1, h2, h3, h4, h5, h6, h7, h8, h9⟩ => ⟨h1, h2, h3, h4, h5, h6, h7, h8, h9⟩,
      fun ⟨h1, h2, h3, h4, h5, h6, h7, h8, h9⟩ => ⟨h1, h2, h3, h4, h5, h6, h7, h8, h9⟩⟩

/-- Every message of a session is judged by its own lines. -/
def AllClear (c : Conf) : Filter → List Msg → Prop
  | _, [] => True
  | f, m :: ms => Clear c f m ∧ AllClear c (smtp_data c f m).2 ms

instance decidableAllClear (c : Conf) : ∀ (f : Filter) (ms : List Msg), Decidable (AllClear c f ms)
  | _, [] => inferInstanceAs (Decidable True)
  | f, m :: ms =>
      have := decidableAllClear c (smtp_data c f m).2 ms
      inferInstanceAs (Decidable (Clear c f m ∧ AllClear c (smtp_data c f m).2 ms))

/-! ## §6 What is judged -/

theorem bodycheck_header {c : Conf} {line : Bytes} :
    bodycheck c line true = true ↔ MatchesHeader c line := by
  rw [bodycheck, List.any_eq_true, MatchesHeader]
  simp

theorem bodycheck_body {c : Conf} {line : Bytes} :
    bodycheck c line false = true ↔ MatchesBody c line := by
  rw [bodycheck, List.any_eq_true, MatchesBody]
  simp

/-- The texts that are judged, and whether as header lines. -/
def texts (m : Mime) (pline : Bytes) : List Bytes → List (Bool × Bytes)
  | [] => []
  | l :: ls =>
      let pline := joinLine m pline (cut l)
      (m.linespastheader == 0, pline) :: texts (mimeLine m (cut l)) pline ls

/-- The filters are on, and nothing is pending. -/
structure On (f : Filter) : Prop where
  bodyok : f.bodyok = true
  flagbody : f.flagbody = false
  flagexecutable : f.flagexecutable = false
  line : f.line = []

/-- The filters are off: the line before matched. -/
structure Off (f : Filter) : Prop where
  sigsok : f.sigsok = false
  bodyok : f.bodyok = false
  flagbody : f.flagbody = true
  flagexecutable : f.flagexecutable = false
  failed : f.failed = true
  line : f.line = []

/-- Nothing is looked at when the filters are off. -/
theorem foldl_put_off (c : Conf) {f : Filter} (s : Bytes) (h : Off f) : s.foldl (put c) f = f := by
  induction s with
  | nil => rfl
  | cons ch s ih =>
      have hput : put c f ch = f := by
        rw [put, h.sigsok, h.bodyok]
        rfl
      rw [List.foldl_cons, hput, ih]

/-- A byte of a line. -/
theorem put_byte (c : Conf) {f : Filter} (ch : Byte) (hon : f.bodyok = true)
    (hlen : f.line.length ≤ 1024) :
    put c f ch =
      if ch = 10 then endLine c { f with line := (f.line ++ [ch]).take 1024 }
      else { f with line := (f.line ++ [ch]).take 1024 } := by
  have hline : (if f.line.length < 1024 then f.line ++ [ch] else f.line) =
      (f.line ++ [ch]).take 1024 := by
    split
    · rename_i hlt
      rw [List.take_of_length_le]
      rw [List.length_append, List.length_singleton]
      exact hlt
    · rename_i hge
      have hfull : f.line.length = 1024 := by omega
      rw [← hfull, List.take_left]
  rw [put, hon, if_neg (by simp), hline]

/-- The bytes of a line are collected. -/
theorem foldl_put_line (c : Conf) {f : Filter} {s : Bytes} (hs : (10 : Byte) ∉ s)
    (hon : f.bodyok = true) (hlen : f.line.length ≤ 1024) :
    s.foldl (put c) f = { f with line := (f.line ++ s).take 1024 } := by
  induction s generalizing f with
  | nil =>
      rw [List.append_nil, List.take_of_length_le hlen]
      rfl
  | cons ch s ih =>
      simp only [List.mem_cons, not_or] at hs
      rw [List.foldl_cons, put_byte c ch hon hlen, if_neg (Ne.symm hs.1),
        ih hs.2 (by exact hon) (List.length_take_le 1024 _)]
      congr 1
      have htake : ((f.line ++ [ch]).take 1024 ++ s).take 1024 =
          (f.line ++ [ch] ++ s).take 1024 := by
        rw [List.take_append, List.take_take, Nat.min_self, @List.take_append _ (f.line ++ [ch]),
          List.length_take]
        congr 2
        omega
      simpa using htake

/-- **A line is one step.** -/
theorem foldl_put (c : Conf) {f : Filter} {l : Bytes} (hl : (10 : Byte) ∉ l) (h : On f) :
    (l ++ [10]).foldl (put c) f = endLine c { f with line := cut l } := by
  have hempty : f.line.length ≤ 1024 := by simp [h.line]
  rw [List.foldl_append, foldl_put_line c hl h.bodyok hempty, h.line, List.nil_append,
    List.foldl_cons, List.foldl_nil, put_byte c 10 (by exact h.bodyok) (List.length_take_le 1024 _),
    if_pos rfl]
  have hcut : (l.take 1024 ++ [10]).take 1024 = cut l := by
    rw [cut, List.take_append, List.take_append, List.take_take, Nat.min_self, List.length_take]
    congr 2
    omega
  simp only [hcut]

/-- The filters judge one line. -/
theorem endLine_on (c : Conf) {f : Filter} (l : Bytes) (h : On f)
    (hclean : sigsLine f.mime (cut l) = true → ∀ b, (sigscheck c (cut l) b).1 = false) :
    (bodycheck c (joinLine f.mime f.pline (cut l)) (f.mime.linespastheader == 0) = true →
      Off (endLine c { f with line := cut l })) ∧
    (bodycheck c (joinLine f.mime f.pline (cut l)) (f.mime.linespastheader == 0) = false →
      On (endLine c { f with line := cut l }) ∧
        (endLine c { f with line := cut l }).sigsok = f.sigsok ∧
        (endLine c { f with line := cut l }).failed = f.failed ∧
        (endLine c { f with line := cut l }).mime = mimeLine f.mime (cut l) ∧
        (endLine c { f with line := cut l }).pline = joinLine f.mime f.pline (cut l)) := by
  have hvirus : ((if sigsLine f.mime (cut l) then sigscheck c (cut l) f.flagblackhole
      else (false, f.flagblackhole)) : Bool × Bool).1 = false := by
    split
    · exact hclean ‹_› _
    · rfl
  constructor
  · intro hit
    constructor <;> simp [endLine, hit, hvirus, h.flagexecutable]
  · intro hno
    refine ⟨?_, ?_, ?_, rfl, rfl⟩
    · constructor <;> simp [endLine, hno, hvirus, h.flagexecutable, h.flagbody, h.bodyok]
    · simp [endLine, hno, hvirus]
    · simp [endLine, hno, hvirus]

/-- **The filters match a message if a text that is judged does.** -/
theorem foldl_lines (c : Conf) {f : Filter} {ls : List Bytes} (hnl : ∀ l ∈ ls, (10 : Byte) ∉ l)
    (h : On f)
    (hclean : ∀ p ∈ trace f.mime ls, sigsLine p.1 (p.2.take 1024) = true →
      ∀ b, (sigscheck c (p.2.take 1024) b).1 = false) :
    ((∃ t ∈ texts f.mime f.pline ls, bodycheck c t.2 t.1 = true) →
      Off ((ls.flatMap fun l => l ++ [10]).foldl (put c) f)) ∧
    ((∀ t ∈ texts f.mime f.pline ls, bodycheck c t.2 t.1 = false) →
      On ((ls.flatMap fun l => l ++ [10]).foldl (put c) f) ∧
        ((ls.flatMap fun l => l ++ [10]).foldl (put c) f).sigsok = f.sigsok ∧
        ((ls.flatMap fun l => l ++ [10]).foldl (put c) f).failed = f.failed) := by
  induction ls generalizing f with
  | nil => exact ⟨fun ⟨_, ht, _⟩ => absurd ht List.not_mem_nil, fun _ => ⟨h, rfl, rfl⟩⟩
  | cons l ls ih =>
      have hl := hnl l List.mem_cons_self
      obtain ⟨hoff, hon⟩ := endLine_on c l h (hclean _ List.mem_cons_self)
      rw [List.flatMap_cons, List.foldl_append, foldl_put c hl h, texts]
      cases hit : bodycheck c (joinLine f.mime f.pline (cut l)) (f.mime.linespastheader == 0) with
      | true =>
          rw [foldl_put_off c _ (hoff hit)]
          refine ⟨fun _ => hoff hit, fun hno => ?_⟩
          have := hno _ List.mem_cons_self
          rw [hit] at this
          cases this
      | false =>
          obtain ⟨hon', hsigs, hfailed, hmime, hpline⟩ := hon hit
          obtain ⟨ihoff, ihon⟩ := ih (fun x hx => hnl x (List.mem_cons_of_mem _ hx)) hon'
            (fun p hp => hclean p (List.mem_cons_of_mem _ (hmime ▸ hp)))
          rw [hmime, hpline] at ihoff ihon
          rw [hsigs, hfailed] at ihon
          refine ⟨?_, fun hno => ihon fun t ht => hno t (List.mem_cons_of_mem _ ht)⟩
          rintro ⟨t, ht, hmatch⟩
          rcases List.mem_cons.mp ht with rfl | ht
          · rw [hit] at hmatch
            cases hmatch
          · exact ihoff ⟨t, ht, hmatch⟩

/-! ## §7 What is judged, and what there is -/

/-- A logical line that is begun goes on to the front one. -/
theorem logical_front {cur : List Bytes} (cl : List (Bool × Bytes)) (hcur : cur ≠ []) :
    ∃ more gs, logical cur cl = (cur ++ more) :: gs := by
  induction cl generalizing cur with
  | nil => exact ⟨[], [], by simp [logical, hcur]⟩
  | cons x rest ih =>
      obtain ⟨inHeader, l⟩ := x
      cases inHeader with
      | true =>
          rw [logical]
          split
          · exact ⟨[], logical [] rest, by simp [hcur]⟩
          split
          · obtain ⟨more, gs, h⟩ := @ih (cur ++ [l]) (by simp)
            exact ⟨l :: more, gs, by rw [h]; simp⟩
          · exact ⟨[], logical [l] rest, by simp [hcur]⟩
      | false => exact ⟨[], logical [] rest, by simp [logical, hcur]⟩

theorem logical_ne_nil {cur g : List Bytes} {cl : List (Bool × Bytes)} (h : g ∈ logical cur cl) :
    g ≠ [] := by
  have hflush : ∀ cur : List Bytes, g ∈ [cur].filter (· ≠ []) → g ≠ [] := by
    intro cur hg
    simpa using (List.mem_filter.mp hg).2
  induction cl generalizing cur with
  | nil => exact hflush cur h
  | cons x rest ih =>
      obtain ⟨inHeader, l⟩ := x
      cases inHeader with
      | true =>
          rw [logical] at h
          split at h
          · exact (List.mem_append.mp h).elim (hflush cur) ih
          split at h
          · exact ih h
          · exact (List.mem_append.mp h).elim (hflush cur) ih
      | false =>
          rw [logical] at h
          exact (List.mem_append.mp h).elim (hflush cur) ih

theorem mimeLine_header {m : Mime} {line : Bytes} (hm : m.linespastheader = 0)
    (hline : line.length ≠ 1) : (mimeLine m line).linespastheader = 0 := by
  rw [mimeLine, if_pos hm, if_neg hline, headerLine]
  split
  · split <;> exact hm
  · split <;> exact hm

/-- The filters between two lines: `cur` are the parts of a header line that have been read, and
`ls` are the lines to come. -/
structure Reading (m : Mime) (pline : Bytes) (cur : List Bytes) (ls : List Bytes) : Prop where
  body : m.linespastheader ≠ 0 → pline = [10] ∧ cur = []
  header : cur ≠ [] → pline = cur.flatten
  short : ∀ p ∈ classified m ls, p.1 = true → p.2.length ≤ 1024
  starts : starts (decide (cur ≠ [])) (classified m ls) = true

theorem classified_cons (m : Mime) (l : Bytes) (ls : List Bytes) :
    classified m (l :: ls) =
      (m.linespastheader == 0, l ++ [10]) :: classified (mimeLine m (cut l)) ls := rfl

/-- What is judged at a line is the header line read so far, or an empty line. -/
theorem Reading.step {m : Mime} {pline l : Bytes} {cur ls : List Bytes}
    (h : Reading m pline cur (l :: ls)) :
    ∃ cur', Reading (mimeLine m (cut l)) (joinLine m pline (cut l)) cur' ls ∧
      (∀ g ∈ logical cur' (classified (mimeLine m (cut l)) ls),
        g ∈ logical cur (classified m (l :: ls))) ∧
      (∀ g ∈ logical cur (classified m (l :: ls)),
        g = cur ∨ g ∈ logical cur' (classified (mimeLine m (cut l)) ls)) ∧
      (m.linespastheader = 0 ∧ cur' ≠ [] ∨
        cur' = [] ∧ joinLine m pline (cut l) = [10] ∧ (m.linespastheader = 0 → l = [])) := by
  have hflush : ∀ g ∈ [cur].filter (· ≠ []), g = cur := by
    intro g hg
    exact List.mem_singleton.mp (List.mem_of_mem_filter hg)
  have hshort : ∀ p ∈ classified (mimeLine m (cut l)) ls, p.1 = true → p.2.length ≤ 1024 :=
    fun p hp => h.short p (classified_cons m l ls ▸ List.mem_cons_of_mem _ hp)
  have hstarts := h.starts
  rw [classified_cons] at hstarts ⊢
  by_cases hm : m.linespastheader = 0
  · have hcut : cut l = l ++ [10] :=
      List.take_of_length_le
      (h.short _ (classified_cons m l ls ▸ List.mem_cons_self) (beq_iff_eq.mpr hm))
    rw [hm, show ((0 : Nat) == 0) = true from rfl] at hstarts ⊢
    rw [Contents.starts] at hstarts
    have hlogical := logical.eq_2 cur (l ++ [10]) (classified (mimeLine m (cut l)) ls)
    by_cases hblank : l ++ [10] = [10]
    · -- the empty line behind a header
      rw [if_pos hblank] at hstarts hlogical
      have hjoin : joinLine m pline (cut l) = [10] := by
        rw [joinLine, if_pos hm, hcut, hblank]
        rfl
      rw [hlogical]
      refine ⟨[], ⟨fun _ => ⟨hjoin, rfl⟩, fun hne => absurd rfl hne, hshort, hstarts⟩, ?_, ?_,
        Or.inr ⟨rfl, hjoin, fun _ => by simpa using hblank⟩⟩
      · exact fun g hg => List.mem_append_right _ hg
      · exact fun g hg => (List.mem_append.mp hg).imp (hflush g) id
    · have hlen : (cut l).length ≠ 1 := by
        rw [hcut, List.length_append, List.length_singleton]
        intro h1
        have hnil : l.length = 0 := by omega
        exact hblank (by rw [List.length_eq_zero_iff.mp hnil, List.nil_append])
      have hm' := mimeLine_header hm hlen
      rw [if_neg hblank, Bool.and_eq_true, Bool.or_eq_true, Bool.not_eq_true'] at hstarts
      rw [if_neg hblank] at hlogical
      by_cases hgoes : goesOn (l ++ [10]) = true
      · -- a line that goes on with a field
        rw [if_pos hgoes] at hlogical
        have hcur : cur ≠ [] := of_decide_eq_true (hstarts.1.resolve_left (by rw [hgoes]; decide))
        have hjoin : joinLine m pline (cut l) = (cur ++ [l ++ [10]]).flatten := by
          rw [joinLine, if_pos hm, hcut, if_pos hgoes, h.header hcur]
          simp
        rw [hlogical]
        refine ⟨cur ++ [l ++ [10]], ⟨fun hne => absurd hm' hne, fun _ => hjoin, hshort, ?_⟩,
          fun g hg => hg, fun g hg => Or.inr hg, Or.inl ⟨rfl, by simp⟩⟩
        rw [decide_eq_true (by simp)]
        exact hstarts.2
      · -- a field
        rw [if_neg hgoes] at hlogical
        have hjoin : joinLine m pline (cut l) = [l ++ [10]].flatten := by
          rw [joinLine, if_pos hm, hcut, if_neg hgoes]
          simp
        rw [hlogical]
        refine ⟨[l ++ [10]], ⟨fun hne => absurd hm' hne, fun _ => hjoin, hshort, hstarts.2⟩, ?_, ?_,
          Or.inl ⟨rfl, by simp⟩⟩
        · exact fun g hg => List.mem_append_right _ hg
        · exact fun g hg => (List.mem_append.mp hg).imp (hflush g) id
  · -- a line of a body
    obtain ⟨hpline, hcur⟩ := h.body hm
    have hjoin : joinLine m pline (cut l) = [10] := by
      rw [joinLine, if_neg hm, hpline]
    rw [beq_false_of_ne hm] at hstarts ⊢
    rw [Contents.starts] at hstarts
    rw [logical.eq_3]
    refine ⟨[], ⟨fun _ => ⟨hjoin, rfl⟩, fun hne => absurd rfl hne, hshort, hstarts⟩, ?_, ?_,
      Or.inr ⟨rfl, hjoin, fun h0 => absurd h0 hm⟩⟩
    · exact fun g hg => List.mem_append_right _ hg
    · exact fun g hg => (List.mem_append.mp hg).imp (hflush g) id

/-- **What is judged** is a part of a logical header line, from its start, or an empty line. -/
theorem texts_sound {m : Mime} {pline : Bytes} {cur ls : List Bytes} (h : Reading m pline cur ls)
    {t : Bool × Bytes} (ht : t ∈ texts m pline ls) :
    (t.1 = true ∧ ∃ g ∈ logical cur (classified m ls), ∃ k, 0 < k ∧ k ≤ g.length ∧
        t.2 = (g.take k).flatten) ∨
      t.2 = [10] ∧ ∃ l, (t.1, l) ∈ classified m ls ∧ (t.1 = true → l = [10]) := by
  induction ls generalizing m pline cur with
  | nil => cases ht
  | cons l ls ih =>
      obtain ⟨cur', hnext, hsub, -, hhead⟩ := h.step
      rcases List.mem_cons.mp ht with rfl | ht
      · rcases hhead with ⟨hm, hcur'⟩ | ⟨-, hjoin, hempty⟩
        · obtain ⟨more, gs, hfront⟩ :=
            logical_front (classified (mimeLine m (cut l)) ls) hcur'
          have hmem : cur' ++ more ∈ logical cur (classified m (l :: ls)) :=
            hsub _ (hfront ▸ List.mem_cons_self)
          refine Or.inl ⟨by simp [hm], _, hmem, cur'.length, List.length_pos_iff.mpr hcur', ?_, ?_⟩
          · rw [List.length_append]
            omega
          · rw [List.take_left]
            exact hnext.header hcur'
        · refine Or.inr ⟨hjoin, l ++ [10], ?_, fun h0 => ?_⟩
          · exact classified_cons m l ls ▸ List.mem_cons_self
          rw [hempty (by simpa using h0), List.nil_append]
      · rcases ih hnext ht with ⟨ht1, g, hg, hk⟩ | ⟨ht2, x, hx, hx10⟩
        · exact Or.inl ⟨ht1, g, hsub g hg, hk⟩
        · exact Or.inr ⟨ht2, x, classified_cons m l ls ▸ List.mem_cons_of_mem _ hx, hx10⟩

/-- **Every logical header line is judged**, and an empty line in the place of every body line. -/
theorem texts_complete {m : Mime} {pline : Bytes} {cur ls : List Bytes}
    (h : Reading m pline cur ls) :
    (∀ g ∈ logical cur (classified m ls), g = cur ∨ (true, g.flatten) ∈ texts m pline ls) ∧
      ∀ l, (false, l) ∈ classified m ls → (false, [10]) ∈ texts m pline ls := by
  induction ls generalizing m pline cur with
  | nil =>
      refine ⟨fun g hg => Or.inl ?_, fun l hl => by cases hl⟩
      exact List.mem_singleton.mp (List.mem_of_mem_filter hg)
  | cons l ls ih =>
      obtain ⟨cur', hnext, -, hsup, hhead⟩ := h.step
      obtain ⟨ihheader, ihbody⟩ := ih hnext
      constructor
      · intro g hg
        rcases hsup g hg with heq | hg'
        · exact Or.inl heq
        · rcases ihheader g hg' with rfl | hmem
          · have hne := logical_ne_nil hg'
            rcases hhead with ⟨hm, -⟩ | ⟨hnil, -, -⟩
            · refine Or.inr ?_
              rw [texts, ← hnext.header hne, hm]
              exact List.mem_cons_self
            · exact absurd hnil hne
          · exact Or.inr (List.mem_cons_of_mem _ hmem)
      · intro x hx
        rw [classified_cons] at hx
        rcases List.mem_cons.mp hx with heq | hx
        · have hm : (m.linespastheader == 0) = false := (Prod.mk.inj heq).1.symm
          rcases hhead with ⟨h0, -⟩ | ⟨-, hjoin, -⟩
          · rw [h0] at hm
            cases hm
          · rw [texts, hjoin, hm]
            exact List.mem_cons_self
        · exact List.mem_cons_of_mem _ (ihbody x hx)

/-! ## §8 The verdicts -/

/-- **A message that is clear is matched if it deserves it.** -/
theorem Clear.matches {c : Conf} {f : Filter} {m : Msg} (h : Clear c f m) :
    (∃ t ∈ texts {} f.pline m.lines, bodycheck c t.2 t.1 = true) ↔ m.Bad c := by
  have hread : Reading {} f.pline [] m.lines :=
    ⟨fun h0 => absurd rfl h0, fun hne => absurd rfl hne, h.short, h.starts⟩
  obtain ⟨hheader, hbody⟩ := texts_complete hread
  have hlogical : ∀ g ∈ m.headers, (true, g.flatten) ∈ texts {} f.pline m.lines := by
    intro g hg
    exact (hheader g hg).resolve_left (logical_ne_nil hg)
  constructor
  · rintro ⟨⟨inHeader, text⟩, ht, hmatch⟩
    rcases texts_sound hread ht with ⟨ht1, g, hg, k, hk, hle, htext⟩ | ⟨htext, l, hl, hl10⟩
    · obtain rfl : inHeader = true := ht1
      obtain rfl : text = (g.take k).flatten := htext
      rw [bodycheck_header] at hmatch
      rcases Nat.lt_or_eq_of_le hle with hlt | heq
      · exact h.parts g hg k hlt hk hmatch
      · rw [List.take_of_length_le (Nat.le_of_eq heq.symm)] at hmatch
        exact Or.inl ⟨g, hg, hmatch⟩
    · obtain rfl : text = [10] := htext
      cases inHeader with
      | true =>
          obtain rfl : l = [10] := hl10 rfl
          exact h.blank hl (bodycheck_header.mp hmatch)
      | false => exact h.empty ⟨_, hl, rfl⟩ (bodycheck_body.mp hmatch)
  · intro hbad
    have hof : m.BadHeader c → ∃ t ∈ texts {} f.pline m.lines, bodycheck c t.2 t.1 = true := by
      rintro ⟨g, hg, hmatch⟩
      exact ⟨_, hlogical g hg, bodycheck_header.mpr hmatch⟩
    rcases hbad with hbad | hbad
    · exact hof hbad
    · rcases h.bodies hbad with hheader | hmatch
      · exact hof hheader
      · obtain ⟨⟨_, l⟩, hl, rfl, -⟩ := hbad
        exact ⟨_, hbody l hl, bodycheck_body.mpr hmatch⟩

/-- Between two messages the filters are on, as they were at the start. -/
structure Ready (c : Conf) (f : Filter) : Prop extends On f where
  sigsok : f.sigsok = c.sigs.isSome

/-- **A message is judged by its own lines**, and the filters are on again behind it. -/
theorem smtp_data_clear {c : Conf} {f : Filter} {m : Msg} (h : Clear c f m) (hf : Ready c f) :
    ((∃ b, (smtp_data c f m).1 = .badContent b) ↔ m.Bad c) ∧ Ready c (smtp_data c f m).2 := by
  have hon : On (reset f) := by
    rw [reset]
    split
    · exact ⟨hf.bodyok, hf.flagbody, rfl, hf.line⟩
    · exact ⟨hf.bodyok, hf.flagbody, hf.flagexecutable, hf.line⟩
  have hmime : (reset f).mime = {} := by
    rw [reset]
    split
    · rfl
    · rename_i hoff
      exact h.fresh.resolve_left hoff
  have hpline : (reset f).pline = f.pline := by
    rw [reset]
    split <;> rfl
  have hsigs : (reset f).sigsok = c.sigs.isSome := by
    rw [← hf.sigsok, reset]
    split <;> rfl
  have hfailed : (reset f).failed = false := by
    rw [reset]
    split <;> rfl
  obtain ⟨hmatch, hno⟩ := foldl_lines c m.nl hon (hmime ▸ h.clean)
  rw [hmime, hpline] at hmatch hno
  have hmatches := h.matches
  rw [smtp_data, Msg.bytes]
  generalize (m.lines.flatMap fun l => l ++ [10]).foldl (put c) (reset f) = g at hmatch hno ⊢
  by_cases hbad : m.Bad c
  · -- a match turns the filter off, and the end of the message puts it back
    have hoff := hmatch (hmatches.mpr hbad)
    have hplugin : m.plugin = false := by
      cases hp : m.plugin with
      | false => rfl
      | true => exact absurd hbad (h.plugin hp)
    have hconclude : conclude c m g = (.badContent g.flagblackhole,
        { g with sigsok := c.sigs.isSome, bodyok := true, flagbody := false
                 flagblackhole := false }) := by
      simp [conclude, hplugin, hoff.failed, hoff.flagexecutable, hoff.flagbody]
    rw [hconclude]
    exact ⟨⟨fun _ => hbad, fun _ => ⟨_, rfl⟩⟩, ⟨⟨rfl, rfl, hoff.flagexecutable, hoff.line⟩, rfl⟩⟩
  · -- nothing matches: the filter stays on
    have hall : ∀ t ∈ texts {} f.pline m.lines, bodycheck c t.2 t.1 = false := by
      intro t ht
      cases hb : bodycheck c t.2 t.1 with
      | false => rfl
      | true => exact absurd (hmatches.mp ⟨t, ht, hb⟩) hbad
    obtain ⟨hg, hsigs', hfailed'⟩ := hno hall
    have hready : Ready c g := ⟨hg, hsigs'.trans hsigs⟩
    have hconclude : (conclude c m g).2 = g ∧ ∀ b, (conclude c m g).1 ≠ .badContent b := by
      rw [conclude, hg.flagexecutable, hg.flagbody]
      split
      · exact ⟨rfl, fun b => by simp⟩
      split
      · exact ⟨rfl, fun b => by simp⟩
      · exact ⟨rfl, fun b => by simp⟩
    rw [hconclude.1]
    exact ⟨⟨fun ⟨b, hb⟩ => absurd hb (hconclude.2 b), fun hb => absurd hb hbad⟩, hready⟩

/-- **The verdicts of a session**, whatever state a message finds, are those the messages deserve,
if every message is clear. -/
theorem session_clear {c : Conf} {f : Filter} {ms : List Msg} (hf : Ready c f)
    (h : AllClear c f ms) :
    List.Forall₂ (fun m a => (∃ b, a = .badContent b) ↔ m.Bad c) ms (session c f ms) := by
  induction ms generalizing f with
  | nil => exact List.Forall₂.nil
  | cons m ms ih =>
      obtain ⟨hm, hms⟩ := h
      obtain ⟨hverdict, hready⟩ := smtp_data_clear hm hf
      exact List.Forall₂.cons hverdict (ih hready hms)

/-- **Content filtering judges each message by its own lines**, in every session of messages that
are clear when they come. -/
theorem verdicts_own (c : Conf) (ms : List Msg) (h : AllClear c (start c) ms) :
    List.Forall₂ (fun m a => (∃ b, a = .badContent b) ↔ m.Bad c) ms (session c (start c) ms) :=
  session_clear ⟨⟨rfl, rfl, rfl, rfl⟩, rfl⟩ h

/-- The rule of a site that wants no spam, for headers. The expression stands for the colon of the
header with a dot: at a colon `bodycheck` would cut it. -/
def headerRule (sigs : Option (Bytes → Bool × Bool)) : Conf where
  body := [asc "^Subject. spam:-header"]
  regexec := fun _ line => (asc "Subject: spam").isPrefixOf line
  sigs := sigs

def plainMsg : Msg where
  lines := [asc "Subject: y", [], asc "x"]
  nl := by decide

def spamMsg : Msg where
  lines := [asc "Subject: spam", [], asc "x"]
  nl := by decide

/-- With virus signatures on, the second of two messages is refused. -/
theorem verdicts_own_two :
    let c := headerRule (some fun _ => (false, false))
    List.Forall₂ (fun m a => (∃ b, a = .badContent b) ↔ m.Bad c) [plainMsg, spamMsg]
      (session c (start c) [plainMsg, spamMsg]) :=
  verdicts_own _ _ (by decide +kernel)

/-- A rule for bodies. -/
def bodyRule : Conf where
  body := [asc "^x:-body"]
  regexec := fun _ line => (asc "x").isPrefixOf line

/-- A body line is not judged; and without virus signatures the header of a message is judged if
it is the first of a session, and not if it is the second. -/
theorem verdicts_others :
    (¬ ∀ (c : Conf) (ms : List Msg),
      List.Forall₂ (fun m a => (∃ b, a = .badContent b) ↔ m.Bad c) ms (session c (start c) ms)) ∧
    session (headerRule none) (start (headerRule none)) [spamMsg] = [.badContent false] ∧
    session (headerRule none) (start (headerRule none)) [plainMsg, spamMsg] =
      [.accepted, .accepted] := by
  refine ⟨fun h => ?_, by decide +kernel, by decide +kernel⟩
  have hm := h bodyRule [plainMsg]
  have hsession : session bodyRule (start bodyRule) [plainMsg] = [.accepted] := by decide +kernel
  rw [hsession, List.forall₂_cons] at hm
  obtain ⟨b, hb⟩ := hm.1.mpr (by decide +kernel)
  cases hb

end IndimailMta.Smtpd.Contents
