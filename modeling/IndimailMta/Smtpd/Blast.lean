import IndimailMta.Base

/-!
# The body of a message as qmail-smtpd reads it

`blast` looks at one byte at a time, in five states, and hands every byte of the
message to `put`. In the header it also counts the lines that show how often the
message was forwarded. It returns at a dot on a line of its own; a newline that
no carriage return comes before ends the session, unless `ALLOW_BARELF` makes one
up for it.
-/

namespace IndimailMta.Smtpd

open IndimailMta

/-! ## `put` -/

/-- What `put` changes: the bytes handed to `qmail_put`, the bytes left up to `databytes`,
whether `qmail_fail` was called, and the size. -/
structure Put where
  sent : Bytes := []
  BytesToOverflow : Nat := 0
  failed : Bool := false
  msg_size : Nat := 0
  deriving DecidableEq, Repr

/-- `put`. `filters` is the result of the content filters: whether they fail a message, given
what they have seen of it. -/
def put (filters : Bytes → Bool) (ch : Byte) (p : Put) : Put :=
  { sent := p.sent ++ [ch]
    BytesToOverflow := p.BytesToOverflow - 1
    failed := p.failed || filters (p.sent ++ [ch]) || p.BytesToOverflow == 1
    msg_size := p.msg_size + 1 }

@[simp] theorem put_sent (filters : Bytes → Bool) (ch : Byte) (p : Put) :
    (put filters ch p).sent = p.sent ++ [ch] := rfl

/-! ## The header -/

/-- The variables that look at header lines; `pos` counts the bytes of the line, to 14. -/
structure Header where
  flaginheader : Bool := true
  pos : Nat := 0
  flagmaybew : Bool := true
  flagmaybex : Bool := true
  flagmaybey : Bool := true
  flagmaybez : Bool := true
  hops : Nat := 0
  dsn : Bool := false
  deriving DecidableEq, Repr

/-- `ch` is not the byte at `pos` of the word, in either case. -/
def notAt (ch : Byte) (lower upper : String) (pos : Nat) : Bool :=
  (asc lower)[pos]? != some ch && (asc upper)[pos]? != some ch

/-- `Return-Receipt`, of which the last five bytes are looked at. -/
def headerReceipt (ch : Byte) (h : Header) : Header :=
  if 8 < h.pos ∧ h.pos < 14 then
    let w := h.flagmaybew && !notAt ch "return-receipt" "RETURN-RECEIPT" h.pos
    { h with flagmaybew := w, dsn := h.dsn || (w && h.pos == 13) }
  else h

/-- `Delivered`, `Received` and the empty line. -/
def headerHops (ch : Byte) (h : Header) : Header :=
  if h.pos < 9 then
    let z := h.flagmaybez && !notAt ch "delivered" "DELIVERED" h.pos
    let x := h.flagmaybex && !(decide (h.pos < 8) && notAt ch "received" "RECEIVED" h.pos)
    let y := h.flagmaybey && !(decide (h.pos < 2) && (asc "\r\n")[h.pos]? != some ch)
    { h with
      flagmaybez := z, flagmaybex := x, flagmaybey := y
      hops := h.hops + (if z && h.pos == 8 then 1 else 0) + if x && h.pos == 7 then 1 else 0
      flaginheader := !(y && h.pos == 1) }
  else h

/-- The next byte of the line, or of the next line. -/
def headerNext (ch : Byte) (h : Header) : Header :=
  if ch = 10 then
    { h with
      pos := 0, flagmaybew := true, flagmaybex := true, flagmaybey := true, flagmaybez := true }
  else { h with pos := if h.pos < 14 then h.pos + 1 else h.pos }

/-- What `blast` does with a byte while `flaginheader` is set. -/
def headerByte (ch : Byte) (h : Header) : Header :=
  if h.flaginheader then headerNext ch (headerHops ch (headerReceipt ch h)) else h

/-! ## `blast` -/

/-- `state`, 0 to 4. -/
inductive BlastState where
  /-- In a line. -/
  | text
  /-- `\r\n`, or the start. -/
  | line
  /-- `\r\n` and a dot. -/
  | dot
  /-- `\r\n`, a dot and `\r`. -/
  | dotCr
  /-- `\r`. -/
  | cr
  deriving DecidableEq, Repr

/-- The variables of `blast`. -/
structure Blast where
  state : BlastState := .line
  seencr : Bool := false
  header : Header := {}
  qqt : Put := {}
  deriving DecidableEq, Repr

/-- How `blast` ends: at the end of the data (0), with the connection (1), or in
`straynewline`. -/
inductive BlastEnd where
  | done
  | lost
  | straynewline
  deriving DecidableEq, Repr

section Step

variable (filters : Bytes → Bool)

/-- Hand a byte to `put` and go on in `state`. -/
def Blast.put (b : Blast) (state : BlastState) (ch : Byte) : Blast :=
  { b with state := state, qqt := Smtpd.put filters ch b.qqt }

/-- The `switch` on `state`. -/
def blastSwitch (b : Blast) (ch : Byte) : Except BlastEnd Blast :=
  match b.state with
  | .text =>
      if ch = 10 then .error .straynewline
      else if ch = 13 then .ok { b with state := .cr }
      else .ok (b.put filters .text ch)
  | .line =>
      if ch = 10 then .error .straynewline
      else if ch = 46 then .ok { b with state := .dot }
      else if ch = 13 then .ok { b with state := .cr }
      else .ok (b.put filters .text ch)
  | .dot =>
      if ch = 10 then .error .straynewline
      else if ch = 13 then .ok { b with state := .dotCr }
      else .ok (b.put filters .text ch)
  | .dotCr =>
      if ch = 10 then .error .done
      else
        let b := (b.put filters .dotCr 46).put filters .dotCr 13
        if ch = 13 then .ok { b with state := .cr } else .ok (b.put filters .text ch)
  | .cr =>
      if ch = 10 then .ok (b.put filters .line ch)
      else if ch = 13 then .ok (b.put filters .cr ch)
      else .ok ((b.put filters .text 13).put filters .text ch)

/-- One byte of the input. -/
def blastByte (b : Blast) (ch : Byte) : Except BlastEnd Blast :=
  blastSwitch filters { b with header := headerByte ch b.header } ch

/-- The bytes a byte of input stands for: with `convertbarelf`, a newline is put back once and
a carriage return is taken instead. -/
def barelf (convertbarelf seencr : Bool) (ch : Byte) : Bytes × Bool :=
  if convertbarelf then
    if ch = 10 ∧ ¬ seencr then ([13, 10], false) else ([ch], ch == 13)
  else ([ch], seencr)

/-- The loop of `blast`: how it ends, its variables, and the input it leaves unread. -/
def blastLoop (convertbarelf : Bool) : Blast → Bytes → BlastEnd × Blast × Bytes
  | b, [] => (.lost, b, [])
  | b, ch :: rest =>
      let r := barelf convertbarelf b.seencr ch
      match r.1.foldlM (blastByte filters) { b with seencr := r.2 } with
      | .error e => (e, b, rest)
      | .ok b => blastLoop convertbarelf b rest

/-- `blast`, with `BytesToOverflow` as `smtp_data` sets it. -/
def blast (convertbarelf : Bool) (BytesToOverflow : Nat) (input : Bytes) :
    BlastEnd × Blast × Bytes :=
  blastLoop filters convertbarelf { qqt := { BytesToOverflow := BytesToOverflow } } input

end Step

end IndimailMta.Smtpd
