import IndimailMta.Netstring
import IndimailMta.Lib.Dialogue

/-!
# qmail-qmtpd

The server reads messages, one after the other: the netstrings of the message, of the
sender and of the netstrings of the recipients. Every recipient is judged as it is
read, by a byte in `failure`; the message has its result when it is closed. Then
there is one response for every recipient.

The responses go to `ssout`, which is written out before the program reads. It exits
with 0 at the end of the input, with 100 (`badproto`) and 111 (`resources`) where it
is, and what `ssout` holds is lost.

A reader is characterised by what it accepts: `getlen_iff` and so on, up to
`message_iff`.
-/

namespace IndimailMta.Qmtp

open IndimailMta Dialogue

abbrev Io := Port Byte

/-- Where a reader stops: the code, and what is left. -/
abbrev Stop := Nat × Io

/-! ## Lengths -/

def badproto : Nat := 100

def resources : Nat := 111

/-- The loops over the digits of a length, up to a colon. Where the length stands in a netstring,
`biglen` bytes are left of it. -/
def lenLoop (len : Nat) (biglen : Option Nat) (out : Out Byte) :
    List (Bool × Byte) → Except Stop ((Nat × Option Nat) × Io)
  | [] => if biglen = some 0 then .error (badproto, ⟨[], out⟩) else .error (0, ⟨[], out.flush⟩)
  | b :: rest =>
      if biglen = some 0 then .error (badproto, ⟨b :: rest, out⟩)
      else
        let ch := b.2
        let out := out.read [b]
        let biglen := biglen.map fun n => n - 1
        if ch = 58 then .ok ((len, biglen), ⟨rest, out⟩)
        else if ¬ isDigit ch then .error (badproto, ⟨rest, out⟩)
        else
          let len := 10 * len + (ch.toNat - 48)
          if 200000000 < len then .error (resources, ⟨rest, out⟩)
          else lenLoop len biglen out rest

/-- `getlen`. -/
def getlen (s : Io) : Except Stop (Nat × Io) := do
  let ((len, _), s) ← lenLoop 0 none s.out s.input
  return (len, s)

/-- The length of a recipient, and what is left of `biglen`. -/
def getrcptlen (biglen : Nat) (s : Io) : Except Stop ((Nat × Nat) × Io) := do
  let ((len, left), s) ← lenLoop 0 (some biglen) s.out s.input
  return ((len, left.getD 0), s)

/-- `getcomma`. -/
def getcomma (s : Io) : Except Stop (Unit × Io) := do
  let (ch, s) ← get s
  if ch = 44 then return ((), s) else throw (badproto, s)

/-- The loops that read `n` bytes. -/
def getbytes : Nat → Io → Except Stop (Bytes × Io)
  | 0, s => .ok ([], s)
  | n + 1, s => do
      let (ch, s) ← get s
      let (data, s) ← getbytes n s
      return (ch :: data, s)

/-! ## Messages -/

/-- The environment: `relayclient` where it is set, and `databytes` (0 for no limit). -/
structure Conf where
  relayclient : Option Bytes
  databytes : Nat

/-- What the calls made for a message return; `close` is the text of `qmail_close`. -/
structure Answers where
  openOk : Bool
  qp : UInt64
  rcpthosts : Bytes → Int
  close : Bytes
  now : UInt64

/-- What is put of a message with CR LF line ends: a carriage return is dropped before a line
feed. -/
def undos : Bytes → Bytes
  | [] => []
  | ch :: rest =>
      if ch = 13 then
        match rest with
        | 10 :: rest => 10 :: undos rest
        | rest => 13 :: undos rest
      else ch :: undos rest

/-- What `qmail_put` gets for the bytes `data` behind the first byte `ch`, and
`bytestooverflow` behind it. -/
def putMessage (conf : Conf) (ch : Byte) (data : Bytes) : Bytes × Nat :=
  let bytestooverflow := if conf.databytes = 0 then 0 else conf.databytes + 1
  if ch = 13 then (undos data, bytestooverflow - (undos data).length)
  else if conf.databytes ≠ 0 ∧ conf.databytes < data.length then (data, 0)
  else (data, bytestooverflow)

/-- The sender: what `buf` has, and `flagsenderok`. -/
def sender (data : Bytes) : Bytes × Bool :=
  if 1000 ≤ data.length then ([], false) else (cstr data, decide (0 ∉ data))

/-- A recipient: its byte of `failure`, the argument of `qmail_to` where it is called, and how
far `buf` is written. -/
structure Rcpt where
  failure : Byte
  qmailTo : Option Bytes
  extent : Nat
  deriving DecidableEq, Repr

/-- The judgement on a recipient; `none` if `rcpthosts` fails. -/
def rcpt (conf : Conf) (ans : Answers) (data : Bytes) : Option Rcpt :=
  let relayclientlen := (conf.relayclient.getD []).length
  if 1000 ≤ data.length + relayclientlen then some ⟨76, none, 0⟩
  else
    let failure : Byte := if 0 ∈ data then 78 else 0
    match conf.relayclient with
    | some relayclient =>
        some ⟨failure, if failure = 0 then some (data ++ relayclient) else none,
          data.length + relayclientlen + 1⟩
    | none =>
        let r := ans.rcpthosts data
        if r = -1 then none
        else
          let failure := if r = 0 then 68 else failure
          some ⟨failure, if failure = 0 then some data else none, data.length + 1⟩

/-- One round of the loop over the recipients. -/
def getrcpt (conf : Conf) (ans : Answers) (biglen : Nat) (s : Io) : Except Stop ((Rcpt × Nat) × Io) := do
  let ((len, biglen), s) ← getrcptlen biglen s
  if biglen ≤ len then throw (badproto, s)
  let (data, s) ← getbytes len s
  match rcpt conf ans data with
  | none => throw (resources, s)
  | some r => do
      let (_, s) ← getcomma s
      return ((r, biglen - (len + 1)), s)

/-- The loop: at most `biglen` rounds. -/
def getrcpts (conf : Conf) (ans : Answers) : Nat → Nat → Io → Except Stop ((List Rcpt) × Io)
  | 0, _, s => .ok ([], s)
  | n + 1, biglen, s =>
      if biglen = 0 then .ok ([], s)
      else do
        let ((r, biglen), s) ← getrcpt conf ans biglen s
        let (rs, s) ← getrcpts conf ans n biglen s
        return (r :: rs, s)

/-- A message: the calls of `qmail_put`, `qmail_from` and `qmail_to`, whether `qmail_fail` is
called, `failure`, `result`, and how far `buf` is written each time. -/
structure Message where
  body : Bytes
  sender : Bytes
  recipients : List Bytes
  fail : Bool
  failure : Bytes
  result : Bytes
  extents : List Nat
  deriving DecidableEq, Repr

/-- The text of the response to a recipient that is not at fault. -/
def result (nm : Numerals) (conf : Conf) (ans : Answers) (flagsenderok : Bool)
    (bytestooverflow : Nat) : Bytes :=
  let result := ans.close
  let result := if ¬ flagsenderok then asc "Dunacceptable sender (#5.1.7)" else result
  let result :=
    if conf.databytes ≠ 0 ∧ bytestooverflow = 0 then
      asc "Dsorry, that message size exceeds my databytes limit (#5.3.4)"
    else result
  if result ≠ [] then result
  else asc "Kok " ++ nm.fmtUlong ans.now.toNat ++ asc " qp " ++ nm.fmtUlong ans.qp.toNat

/-- The message of a first byte `ch`, the bytes `data` behind it, a sender and recipients. -/
def handled (nm : Numerals) (conf : Conf) (ans : Answers) (ch : Byte) (data from_ : Bytes)
    (rcpts : List Rcpt) : Message :=
  let (body, bytestooverflow) := putMessage conf ch data
  let (buf, flagsenderok) := sender from_
  let flagbother := rcpts.any fun r => r.failure = 0
  let result := result nm conf ans flagsenderok bytestooverflow
  { body := body
    sender := buf
    recipients := rcpts.filterMap Rcpt.qmailTo
    fail := decide (conf.databytes ≠ 0 ∧ bytestooverflow = 0) || !flagsenderok || !flagbother
    failure := rcpts.map Rcpt.failure
    result := result
    extents := (if 1000 ≤ from_.length then 1 else from_.length + 1) ::
      (rcpts.map Rcpt.extent ++ [(nm.fmtUlong result.length).length + result.length + 2]) }

/-- The response to a recipient. -/
def response (nm : Numerals) (result : Bytes) (failure : Byte) : Bytes :=
  if failure = 0 then nm.fmtUlong result.length ++ asc ":" ++ result ++ asc ","
  else if failure = 68 then
    asc "66:Dsorry, that domain isn't in my list of allowed rcpthosts (#5.7.1),"
  else asc "46:Dsorry, I can't handle that recipient (#5.1.3),"

/-- The responses to a message. -/
def Message.responses (nm : Numerals) (m : Message) : List Bytes :=
  m.failure.map (response nm m.result)

/-- One round of `main`, up to `qmail_close` and what follows from its result. -/
def message (nm : Numerals) (conf : Conf) (ans : Answers) (s : Io) : Except Stop (Message × Io) := do
  let (len, s) ← getlen s
  if len = 0 then throw (badproto, s)
  if ¬ ans.openOk then throw (resources, s)
  let (ch, s) ← get s
  if ch ≠ 10 ∧ ch ≠ 13 then throw (badproto, s)
  let (data, s) ← getbytes (len - 1) s
  let (_, s) ← getcomma s
  let (len, s) ← getlen s
  let (from_, s) ← getbytes len s
  let (_, s) ← getcomma s
  let (biglen, s) ← getlen s
  let (rcpts, s) ← getrcpts conf ans biglen biglen s
  let (_, s) ← getcomma s
  return (handled nm conf ans ch data from_ rcpts, s)

/-- `main`: the messages that were read to their end, and the code it exits with; `none` if the
rounds `n` are not enough. -/
def main (nm : Numerals) (ssout : Buffering Byte) (conf : Conf) :
    Nat → (Nat → Answers) → Io → List Message × Option Nat × Io
  | 0, _, s => ([], none, s)
  | n + 1, ans, s =>
      match message nm conf (ans 0) s with
      | .error (code, s) => ([], some code, s)
      | .ok (m, s) =>
          let s := { s with out := s.out.puts ssout (m.responses nm) }
          let (ms, e) := main nm ssout conf n (fun k => ans (k + 1)) s
          (m :: ms, e)

/-! ## What the readers accept -/

section Read

variable {s s' : Io} {conf : Conf} {ans : Answers}

theorem lenLoop_cons {len : Nat} {biglen : Option Nat} (hleft : biglen ≠ some 0) (out : Out Byte)
    (b : Bool × Byte) (rest : List (Bool × Byte)) :
    lenLoop len biglen out (b :: rest) =
      if b.2 = 58 then .ok ((len, biglen.map fun n => n - 1), ⟨rest, out.read [b]⟩)
      else if ¬ isDigit b.2 then .error (badproto, ⟨rest, out.read [b]⟩)
      else if 200000000 < 10 * len + (b.2.toNat - 48) then
        .error (resources, ⟨rest, out.read [b]⟩)
      else lenLoop (10 * len + (b.2.toNat - 48)) (biglen.map fun n => n - 1) (out.read [b]) rest := by
  rw [lenLoop, if_neg hleft]

/-- Digits with a colon behind them are read. -/
theorem lenLoop_digits {w : List (Bool × Byte)} {ds : Bytes} (hw : text w = ds ++ [58])
    (hd : ∀ d ∈ ds, isDigit d = true) {len : Nat} {biglen : Option Nat}
    (hacc : acc len ds ≤ 200000000) (hleft : ∀ n, biglen = some n → ds.length < n)
    (out : Out Byte) (rest : List (Bool × Byte)) :
    lenLoop len biglen out (w ++ rest) =
      .ok ((acc len ds, biglen.map fun n => n - (ds.length + 1)), ⟨rest, out.read w⟩) := by
  have hpos : biglen ≠ some 0 := fun h => absurd (hleft 0 h) (by omega)
  induction ds generalizing w len biglen out with
  | nil =>
      obtain ⟨b, rfl, hb⟩ := List.map_eq_singleton_iff.mp hw
      rw [List.singleton_append, lenLoop_cons hpos, if_pos hb]
      rfl
  | cons d ds ih =>
      obtain ⟨u, v, rfl, hu, hv⟩ := text_eq_append (x := [d]) hw
      obtain ⟨b, rfl, rfl⟩ := List.map_eq_singleton_iff.mp hu
      have hdig := hd b.2 List.mem_cons_self
      have hle := le_acc (10 * len + (b.2.toNat - 48)) ds
      rw [acc_cons] at hacc ⊢
      rw [List.append_assoc, List.singleton_append, lenLoop_cons hpos,
        if_neg (ne_colon_of_isDigit hdig), if_neg (by simp [hdig]), if_neg (by omega)]
      have hleft' : ∀ n, biglen.map (fun n => n - 1) = some n → ds.length < n := by
        intro n hn
        obtain ⟨m, rfl, rfl⟩ := Option.map_eq_some_iff.mp hn
        have h := hleft m rfl
        rw [List.length_cons] at h
        omega
      rw [ih hv (fun e he => hd e (List.mem_cons_of_mem b.2 he)) hacc hleft' _
        (fun h => absurd (hleft' 0 h) (by omega)), Option.map_map, Out.read_append]
      simp only [List.length_cons, Function.comp_def,
        show ∀ n, n - 1 - (ds.length + 1) = n - (ds.length + 1 + 1) by omega]

/-- What is taken for a length. -/
theorem lenLoop_spec {input : List (Bool × Byte)} {out : Out Byte} {len n : Nat}
    {biglen left : Option Nat} (hlen : len ≤ 200000000)
    (h : lenLoop len biglen out input = .ok ((n, left), s')) :
    ∃ w ds, Reads ⟨input, out⟩ w s' ∧ text w = ds ++ [58] ∧ (∀ d ∈ ds, isDigit d = true) ∧
      acc len ds ≤ 200000000 ∧ n = acc len ds ∧ (∀ n, biglen = some n → ds.length < n) ∧
      left = biglen.map fun n => n - (ds.length + 1) := by
  induction input generalizing out len biglen with
  | nil =>
      unfold lenLoop at h
      split at h <;> cases h
  | cons b rest ih =>
      have hpos : biglen ≠ some 0 := by
        rintro rfl
        simp [lenLoop] at h
      have hleft : ∀ n, biglen = some n → 0 < n := by
        rintro n rfl
        exact Nat.pos_of_ne_zero fun h0 => hpos (by rw [h0])
      rw [lenLoop_cons hpos] at h
      split at h
      · rename_i hcolon
        cases h
        exact ⟨[b], [], ⟨rfl, rfl⟩, by simp [hcolon], by simp, hlen, rfl, hleft, rfl⟩
      split at h
      · cases h
      rename_i hdig
      split at h
      · cases h
      rename_i hbig
      obtain ⟨w, ds, hw, htext, hd, hacc, hn, hlt, hl⟩ := ih (by omega) h
      refine ⟨b :: w, b.2 :: ds, ?_, by simp [htext], ?_, by rw [acc_cons]; exact hacc,
        by rw [acc_cons]; exact hn, ?_, ?_⟩
      · have hb : Reads ⟨b :: rest, out⟩ [b] ⟨rest, out.read [b]⟩ := ⟨rfl, rfl⟩
        exact hb.trans hw
      · intro d hmem
        rcases List.mem_cons.mp hmem with rfl | hmem
        · simpa using hdig
        · exact hd d hmem
      · rintro n rfl
        have h := hlt (n - 1) rfl
        rw [List.length_cons]
        omega
      · rw [hl, Option.map_map]
        simp only [List.length_cons, Function.comp_def,
          show ∀ n, n - 1 - (ds.length + 1) = n - (ds.length + 1 + 1) by omega]

/-- A length text, as `getlen` accepts it. -/
def Length (ds : Bytes) (n : Nat) : Prop :=
  (∀ d ∈ ds, isDigit d = true) ∧ digitsValue ds = n ∧ n ≤ 200000000

theorem getlen_iff {n : Nat} :
    getlen s = .ok (n, s') ↔
      ∃ w ds, Reads s w s' ∧ text w = ds ++ [58] ∧ Length ds n := by
  constructor
  · intro h
    obtain ⟨⟨⟨m, left⟩, t⟩, hloop, h⟩ := except_bind_ok.mp h
    cases h
    obtain ⟨w, ds, hw, htext, hd, hacc, rfl, -⟩ := lenLoop_spec (by omega) hloop
    exact ⟨w, ds, hw, htext, hd, rfl, hacc⟩
  · rintro ⟨w, ds, ⟨hinput, hout⟩, htext, hd, rfl, hle⟩
    rcases s' with ⟨rest, out⟩
    obtain rfl : out = s.out.read w := hout
    rw [getlen, hinput, lenLoop_digits htext hd hle (by simp)]
    rfl

theorem getrcptlen_iff {biglen n left : Nat} :
    getrcptlen biglen s = .ok ((n, left), s') ↔
      ∃ w ds, Reads s w s' ∧ text w = ds ++ [58] ∧ Length ds n ∧
        biglen = ds.length + 1 + left := by
  constructor
  · intro h
    obtain ⟨⟨⟨m, l⟩, t⟩, hloop, h⟩ := except_bind_ok.mp h
    cases h
    obtain ⟨w, ds, hw, htext, hd, hacc, rfl, hlt, rfl⟩ := lenLoop_spec (by omega) hloop
    have hlt := hlt biglen rfl
    refine ⟨w, ds, hw, htext, ⟨hd, rfl, hacc⟩, ?_⟩
    simp only [Option.map_some, Option.getD_some]
    omega
  · rintro ⟨w, ds, ⟨hinput, hout⟩, htext, ⟨hd, rfl, hle⟩, rfl⟩
    rcases s' with ⟨rest, out⟩
    obtain rfl : out = s.out.read w := hout
    rw [getrcptlen, hinput, lenLoop_digits htext hd hle (by
      intro n hn
      cases hn
      omega)]
    simp only [bind, Except.bind, pure, Except.pure, Option.map_some, Option.getD_some,
      Nat.add_sub_cancel_left]
    rfl

theorem getcomma_iff : getcomma s = .ok ((), s') ↔ ∃ w, Reads s w s' ∧ text w = [44] := by
  rw [getcomma]
  constructor
  · intro h
    obtain ⟨⟨ch, t⟩, hget, h⟩ := except_bind_ok.mp h
    simp only at h
    split at h
    · rename_i hcomma
      cases h
      rw [get_eq_ok, hcomma] at hget
      exact hget
    · cases h
  · intro h
    rw [get_eq_ok.mpr h]
    rfl

theorem getbytes_iff {n : Nat} {data : Bytes} :
    getbytes n s = .ok (data, s') ↔ ∃ w, Reads s w s' ∧ text w = data ∧ data.length = n := by
  induction n generalizing s data with
  | zero =>
      constructor
      · intro h
        cases h
        exact ⟨[], Reads.refl _, rfl, rfl⟩
      · rintro ⟨w, ⟨hinput, hout⟩, rfl, hlen⟩
        obtain rfl : w = [] := by simpa using hlen
        rcases s with ⟨input, out⟩
        rcases s' with ⟨rest, out'⟩
        obtain rfl : input = rest := hinput
        obtain rfl : out' = out := hout
        rfl
  | succ n ih =>
      rw [getbytes]
      constructor
      · intro h
        obtain ⟨⟨ch, t⟩, hget, h⟩ := except_bind_ok.mp h
        obtain ⟨⟨tail, u⟩, hrest, h⟩ := except_bind_ok.mp h
        cases h
        obtain ⟨w, hw, htext⟩ := get_eq_ok.mp hget
        obtain ⟨v, hv, rfl, hlen⟩ := ih.mp hrest
        exact ⟨w ++ v, hw.trans hv, by rw [text_append, htext]; rfl, by rw [List.length_cons, hlen]⟩
      · rintro ⟨w, hw, rfl, hlen⟩
        obtain ⟨b, w, rfl⟩ := List.exists_cons_of_length_eq_add_one ((length_text w).symm.trans hlen)
        obtain ⟨t, hb, hw⟩ := hw.split (w := [b])
        rw [get_eq_ok.mpr ⟨[b], hb, rfl⟩]
        have htail := ih.mpr ⟨w, hw, rfl, by simpa using hlen⟩
        simp only [bind, Except.bind, htail]
        rfl

/-! ## Messages in the stream -/

/-- A field whose length `getlen` accepts. -/
def Sized (f : Field) : Prop := Length f.len f.data.length

/-- A field is read: the length, the text and a comma. -/
theorem field_reads {f : Field} {w u v c : List (Bool × Byte)} (hw : text w = f.len ++ [58])
    (hu : text u = f.data) (hc : text c = [44]) : text (w ++ (u ++ c) ++ v) = f.bytes ++ text v := by
  simp [Field.bytes, hw, hu, hc]

/-- A field that was read, in its parts. -/
theorem field_split {f : Field} {w : List (Bool × Byte)} {rest : Bytes}
    (hw : text w = f.bytes ++ rest) :
    ∃ l u c v, w = l ++ (u ++ (c ++ v)) ∧ text l = f.len ++ [58] ∧ text u = f.data ∧
      text c = [44] ∧ text v = rest := by
  rw [Field.bytes_append, List.append_cons] at hw
  obtain ⟨l, w, rfl, hl, hw⟩ := text_eq_append hw
  obtain ⟨u, w, rfl, hu, hw⟩ := text_eq_append hw
  obtain ⟨c, v, rfl, hc, hv⟩ := text_eq_append (x := [44]) hw
  exact ⟨l, u, c, v, rfl, hl, hu, hc, hv⟩

theorem getrcpt_iff {biglen left : Nat} {r : Rcpt} :
    getrcpt conf ans biglen s = .ok ((r, left), s') ↔
      ∃ w, ∃ f : Field, Reads s w s' ∧ text w = f.bytes ∧ Sized f ∧
        biglen = f.bytes.length + left ∧ rcpt conf ans f.data = some r := by
  rw [getrcpt]
  constructor
  · intro h
    obtain ⟨⟨⟨len, b⟩, t⟩, hlen, h⟩ := except_bind_ok.mp h
    simp only at h
    split at h
    · cases h
    rename_i hlt
    obtain ⟨⟨data, u⟩, hdata, h⟩ := except_bind_ok.mp h
    simp only at h
    cases hr : rcpt conf ans data with
    | none =>
        rw [hr] at h
        cases h
    | some r' =>
        rw [hr] at h
        simp only at h
        obtain ⟨⟨u', v⟩, hcomma, h⟩ := except_bind_ok.mp h
        cases h
        obtain ⟨w, ds, hw, htext, hlength, rfl⟩ := getrcptlen_iff.mp hlen
        obtain ⟨x, hx, rfl, rfl⟩ := getbytes_iff.mp hdata
        obtain ⟨c, hc, hcomma⟩ := getcomma_iff.mp hcomma
        refine ⟨w ++ (x ++ c), ⟨ds, text x⟩, hw.trans (hx.trans hc), ?_, hlength, ?_, hr⟩
        · simpa using field_reads (f := ⟨ds, text x⟩) (v := []) htext rfl hcomma
        · rw [Field.length_bytes]
          simp only
          omega
  · rintro ⟨w, f, hw, htext, hsized, rfl, hr⟩
    rw [← List.append_nil f.bytes] at htext
    obtain ⟨l, u, c, v, rfl, hl, hu, hc, hv⟩ := field_split htext
    obtain rfl : v = [] := by simpa [text] using hv
    rw [List.append_nil] at hw
    obtain ⟨s1, hs1, hw⟩ := hw.split
    obtain ⟨s2, hs2, hs3⟩ := hw.split
    have hlen := getrcptlen_iff.mpr ⟨l, f.len, hs1, hl, hsized,
      show f.bytes.length + left = f.len.length + 1 + (f.data.length + 1 + left) by
        rw [Field.length_bytes]
        omega⟩
    have hdata := getbytes_iff.mpr ⟨u, hs2, hu, rfl⟩
    have hcomma := getcomma_iff.mpr ⟨c, hs3, hc⟩
    simp only [hlen, bind, Except.bind, pure, Except.pure]
    rw [if_neg (by omega)]
    simp only [hdata, hr, hcomma]
    rw [show f.data.length + 1 + left - (f.data.length + 1) = left by omega]

theorem getrcpts_iff {n biglen : Nat} (hn : biglen ≤ n) {rs : List Rcpt} :
    getrcpts conf ans n biglen s = .ok (rs, s') ↔
      ∃ w, ∃ fs : List Field, Reads s w s' ∧ text w = fs.flatMap Field.bytes ∧
        (∀ f ∈ fs, Sized f) ∧ biglen = (fs.flatMap Field.bytes).length ∧
        (fs.map fun f => rcpt conf ans f.data) = rs.map some := by
  have hpos : ∀ f : Field, 0 < f.bytes.length := by
    intro f
    rw [Field.length_bytes]
    omega
  induction n generalizing s biglen rs with
  | zero =>
      obtain rfl : biglen = 0 := by omega
      rw [getrcpts]
      constructor
      · intro h
        cases h
        exact ⟨[], [], Reads.refl _, rfl, by simp, rfl, rfl⟩
      · rintro ⟨w, fs, ⟨hinput, hout⟩, hw, -, hlen, hrs⟩
        cases fs with
        | cons f fs =>
            rw [List.flatMap_cons, List.length_append] at hlen
            exact absurd hlen (by have := hpos f; omega)
        | nil =>
            obtain rfl : rs = [] := by simpa using hrs
            obtain rfl : w = [] := by simpa [text] using hw
            rcases s with ⟨input, out⟩
            rcases s' with ⟨rest, out'⟩
            obtain rfl : input = rest := hinput
            obtain rfl : out' = out := hout
            rfl
  | succ n ih =>
      rw [getrcpts]
      split
      · rename_i hzero
        subst hzero
        have h : getrcpts conf ans n 0 s = .ok (rs, s') ↔ _ := ih (by omega)
        cases n with
        | zero => exact h
        | succ n => exact h
      rename_i hne
      constructor
      · intro h
        obtain ⟨⟨⟨r, left⟩, t⟩, hr, h⟩ := except_bind_ok.mp h
        obtain ⟨⟨rs', u⟩, hrs, h⟩ := except_bind_ok.mp h
        cases h
        obtain ⟨w, f, hw, htext, hf, rfl, hjudged⟩ := getrcpt_iff.mp hr
        have hf0 := hpos f
        obtain ⟨v, fs, hv, hvtext, hfs, rfl, hmap⟩ := (ih (by omega)).mp hrs
        refine ⟨w ++ v, f :: fs, hw.trans hv, ?_, ?_, ?_, ?_⟩
        · rw [text_append, htext, hvtext, List.flatMap_cons]
        · intro g hg
          rcases List.mem_cons.mp hg with rfl | hg
          · exact hf
          · exact hfs g hg
        · rw [List.flatMap_cons, List.length_append]
        · rw [List.map_cons, List.map_cons, hjudged, hmap]
      · rintro ⟨w, fs, hw, htext, hfs, rfl, hmap⟩
        cases fs with
        | nil => exact absurd rfl hne
        | cons f fs =>
            cases rs with
            | nil => cases hmap
            | cons r rs =>
                rw [List.map_cons, List.map_cons, List.cons.injEq] at hmap
                rw [List.flatMap_cons] at htext
                rw [List.flatMap_cons, List.length_append] at hn ⊢
                obtain ⟨u, v, rfl, hu, hv⟩ := text_eq_append htext
                obtain ⟨t, ht, hw⟩ := hw.split
                have hf0 := hpos f
                have hr : getrcpt conf ans (f.bytes.length + (fs.flatMap Field.bytes).length) s = _ :=
                  getrcpt_iff.mpr ⟨u, f, ht, hu, hfs f List.mem_cons_self, rfl, hmap.1⟩
                have hrs : getrcpts conf ans n (fs.flatMap Field.bytes).length t = .ok (rs, s') :=
                  (ih (by omega)).mpr ⟨v, fs, hw, hv,
                    fun g hg => hfs g (List.mem_cons_of_mem f hg), rfl, hmap.2⟩
                simp only [hr, hrs, bind, Except.bind, pure, Except.pure]

/-- A message as it stands in the stream. -/
structure Frame where
  message : Field
  sender : Field
  rcptlen : Bytes
  rcpts : List Field

namespace Frame

/-- The netstring around the recipients. -/
def outer (f : Frame) : Field := ⟨f.rcptlen, f.rcpts.flatMap Field.bytes⟩

def bytes (f : Frame) : Bytes := f.message.bytes ++ (f.sender.bytes ++ f.outer.bytes)

/-- What follows the first byte of the message. -/
def data (f : Frame) : Bytes := f.message.data.tail

def rcptsJudged (conf : Conf) (ans : Answers) (f : Frame) : List Rcpt :=
  f.rcpts.filterMap fun r => rcpt conf ans r.data

/-- What the program makes of the message. -/
def handled (nm : Numerals) (conf : Conf) (ans : Answers) (f : Frame) : Message :=
  Qmtp.handled nm conf ans (f.message.data.headD 0) f.data f.sender.data (f.rcptsJudged conf ans)

/-- Every field has its length, the message begins with a line feed or a carriage return, and the
program has what it needs for it. -/
structure Complete (conf : Conf) (ans : Answers) (f : Frame) : Prop where
  message : Sized f.message
  sender : Sized f.sender
  outer : Sized f.outer
  rcpts : ∀ r ∈ f.rcpts, Sized r
  openOk : ans.openOk = true
  first : f.message.data.head? = some 10 ∨ f.message.data.head? = some 13
  judged : ∀ r ∈ f.rcpts, rcpt conf ans r.data ≠ none

end Frame

theorem map_eq_map_some {α γ : Type} {g : α → Option γ} {l : List α} {rs : List γ} :
    l.map g = rs.map some ↔ (∀ a ∈ l, g a ≠ none) ∧ rs = l.filterMap g := by
  induction l generalizing rs with
  | nil =>
      cases rs with
      | nil => simp
      | cons r rs => simp
  | cons a l ih =>
      cases hga : g a with
      | none =>
          refine iff_of_false ?_ ?_
          · cases rs with
            | nil => simp
            | cons r rs => simp [hga]
          · rintro ⟨h, -⟩
            exact h a List.mem_cons_self hga
      | some r =>
          rw [List.map_cons, hga, List.filterMap_cons_some hga]
          cases rs with
          | nil => simp
          | cons r' rs =>
              rw [List.map_cons, List.cons.injEq, ih, List.cons.injEq, Option.some.injEq]
              simp only [List.mem_cons, forall_eq_or_imp, hga, ne_eq, reduceCtorEq,
                not_false_eq_true, true_and]
              constructor
              · rintro ⟨rfl, h, hrs⟩
                exact ⟨h, rfl, hrs⟩
              · rintro ⟨h, rfl, hrs⟩
                exact ⟨rfl, h, hrs⟩

/-- **What is taken for a message.** -/
theorem message_iff {nm : Numerals} {m : Message} :
    message nm conf ans s = .ok (m, s') ↔
      ∃ w f, Reads s w s' ∧ text w = Frame.bytes f ∧ f.Complete conf ans ∧
        m = f.handled nm conf ans := by
  rw [message]
  constructor
  · -- each part read has its text
    intro h
    obtain ⟨⟨len, s1⟩, hlen, h⟩ := except_bind_ok.mp h
    simp only at h
    split at h
    · cases h
    rename_i hne
    split at h
    · cases h
    rename_i hopen
    obtain ⟨⟨ch, s2⟩, hch, h⟩ := except_bind_ok.mp h
    simp only at h
    split at h
    · cases h
    rename_i hmode
    obtain ⟨⟨data, s3⟩, hdata, h⟩ := except_bind_ok.mp h
    obtain ⟨⟨_, s4⟩, hcomma, h⟩ := except_bind_ok.mp h
    obtain ⟨⟨slen, s5⟩, hslen, h⟩ := except_bind_ok.mp h
    obtain ⟨⟨from_, s6⟩, hfrom, h⟩ := except_bind_ok.mp h
    obtain ⟨⟨_, s7⟩, hcomma', h⟩ := except_bind_ok.mp h
    obtain ⟨⟨biglen, s8⟩, hbig, h⟩ := except_bind_ok.mp h
    obtain ⟨⟨rs, s9⟩, hrs, h⟩ := except_bind_ok.mp h
    obtain ⟨⟨_, s10⟩, hcomma'', h⟩ := except_bind_ok.mp h
    cases h
    obtain ⟨w1, ds1, hw1, ht1, hl1⟩ := getlen_iff.mp hlen
    obtain ⟨w2, hw2, ht2⟩ := get_eq_ok.mp hch
    obtain ⟨w3, hw3, ht3, hlen3⟩ := getbytes_iff.mp hdata
    obtain ⟨w4, hw4, ht4⟩ := getcomma_iff.mp hcomma
    obtain ⟨w5, ds5, hw5, ht5, hl5⟩ := getlen_iff.mp hslen
    obtain ⟨w6, hw6, ht6, hlen6⟩ := getbytes_iff.mp hfrom
    obtain ⟨w7, hw7, ht7⟩ := getcomma_iff.mp hcomma'
    obtain ⟨w8, ds8, hw8, ht8, hl8⟩ := getlen_iff.mp hbig
    obtain ⟨w9, fs, hw9, ht9, hfs, hlen9, hmap⟩ := (getrcpts_iff (Nat.le_refl _)).mp hrs
    obtain ⟨w10, hw10, ht10⟩ := getcomma_iff.mp hcomma''
    obtain ⟨hjudged, rfl⟩ := map_eq_map_some.mp hmap
    refine ⟨_, ⟨⟨ds1, ch :: data⟩, ⟨ds5, from_⟩, ds8, fs⟩,
      hw1.trans (hw2.trans (hw3.trans (hw4.trans (hw5.trans (hw6.trans (hw7.trans
        (hw8.trans (hw9.trans hw10)))))))), ?_, ?_, rfl⟩
    · simp [Frame.bytes, Frame.outer, Field.bytes, ht1, ht2, ht3, ht4, ht5, ht6, ht7, ht8, ht9,
        ht10]
    · have hch : some ch = some 10 ∨ some ch = some 13 := by
        by_cases h10 : ch = 10
        · exact .inl (by rw [h10])
        · exact .inr (by rw [Decidable.not_not.mp fun h13 => hmode ⟨h10, h13⟩])
      refine ⟨?_, by rw [Sized, hlen6]; exact hl5, by rw [Sized, Frame.outer, ← hlen9]; exact hl8,
        hfs, by simpa using hopen, hch, hjudged⟩
      rw [Sized, List.length_cons, hlen3, show len - 1 + 1 = len by omega]
      exact hl1
  · rintro ⟨w, ⟨⟨ds1, text1⟩, ⟨ds5, from_⟩, ds8, fs⟩, hw, htext,
      ⟨hmessage, hsender, houter, hrcpts, hopen, hfirst, hjudged⟩, rfl⟩
    simp only at hmessage hsender houter hrcpts hfirst hjudged
    obtain ⟨ch, data, rfl, hmode⟩ : ∃ ch data, text1 = ch :: data ∧ (ch = 10 ∨ ch = 13) := by
      cases text1 with
      | nil => simp at hfirst
      | cons ch data => exact ⟨ch, data, rfl, by simpa using hfirst⟩
    have hjudged := map_eq_map_some.mpr ⟨hjudged, rfl⟩
    obtain ⟨w1, w2, w4, v, rfl, ht1, ht2, ht4, hv⟩ := field_split htext
    obtain ⟨w2, w3, rfl, ht2, ht3⟩ := text_eq_append (x := [ch]) ht2
    obtain ⟨w5, w6, w7, v, rfl, ht5, ht6, ht7, hv⟩ := field_split hv
    rw [← List.append_nil (Field.bytes _)] at hv
    obtain ⟨w8, w9, w10, v, rfl, ht8, ht9, ht10, hv⟩ := field_split hv
    obtain rfl : v = [] := by simpa [text] using hv
    simp only [List.append_assoc, List.append_nil] at hw
    obtain ⟨s1, hw1, hw⟩ := hw.split
    obtain ⟨s2, hw2, hw⟩ := hw.split
    obtain ⟨s3, hw3, hw⟩ := hw.split
    obtain ⟨s4, hw4, hw⟩ := hw.split
    obtain ⟨s5, hw5, hw⟩ := hw.split
    obtain ⟨s6, hw6, hw⟩ := hw.split
    obtain ⟨s7, hw7, hw⟩ := hw.split
    obtain ⟨s8, hw8, hw⟩ := hw.split
    obtain ⟨s9, hw9, hw10⟩ := hw.split
    have hlen := getlen_iff.mpr ⟨w1, ds1, hw1, ht1, hmessage⟩
    have hch := get_eq_ok.mpr ⟨w2, hw2, ht2⟩
    have hdata := getbytes_iff.mpr ⟨w3, hw3, ht3, rfl⟩
    have hcomma := getcomma_iff.mpr ⟨w4, hw4, ht4⟩
    have hslen := getlen_iff.mpr ⟨w5, ds5, hw5, ht5, hsender⟩
    have hfrom := getbytes_iff.mpr ⟨w6, hw6, ht6, rfl⟩
    have hcomma' := getcomma_iff.mpr ⟨w7, hw7, ht7⟩
    have hbig := getlen_iff.mpr ⟨w8, ds8, hw8, ht8, houter⟩
    have hrs := (getrcpts_iff (Nat.le_refl _)).mpr ⟨w9, fs, hw9, ht9, hrcpts, rfl, hjudged⟩
    have hcomma'' := getcomma_iff.mpr ⟨w10, hw10, ht10⟩
    have hne : ¬ (ch ≠ 10 ∧ ch ≠ 13) := by
      rintro ⟨h10, h13⟩
      exact hmode.elim h10 h13
    simp only [hlen, hch, hdata, hcomma, hslen, hfrom, hcomma', hbig, hrs, hcomma'', hopen, hne,
      List.length_cons, Nat.add_sub_cancel, Frame.outer, bind, Except.bind, pure, Except.pure,
      not_true_eq_false, Nat.succ_ne_zero, if_false, Frame.handled, Frame.data, Frame.rcptsJudged,
      List.headD_cons, List.tail_cons]

/-! ## How the readers end -/

theorem ends_lenLoop (len : Nat) (biglen : Option Nat) (out : Out Byte)
    (input : List (Bool × Byte)) : Ends ⟨input, out⟩ (lenLoop len biglen out input) := by
  induction input generalizing len biglen out with
  | nil =>
      unfold lenLoop
      split
      · exact Ends.throw (by decide) _
      · exact ⟨[], rfl, rfl⟩
  | cons b rest ih =>
      have hb : Reads ⟨b :: rest, out⟩ [b] ⟨rest, out.read [b]⟩ := ⟨rfl, rfl⟩
      unfold lenLoop
      split
      · exact Ends.throw (by decide) _
      simp only
      split
      · exact ⟨[b], hb⟩
      split
      · exact (Ends.throw (by decide) _).of_reads hb
      split
      · exact (Ends.throw (by decide) _).of_reads hb
      · exact (ih _ _ _).of_reads hb

theorem ends_getlen (s : Io) : Ends s (getlen s) :=
  (ends_lenLoop 0 none s.out s.input).bind fun _ _ _ => Ends.ok _ _

theorem ends_getrcptlen (biglen : Nat) (s : Io) : Ends s (getrcptlen biglen s) :=
  (ends_lenLoop 0 (some biglen) s.out s.input).bind fun _ _ _ => Ends.ok _ _

theorem ends_getcomma (s : Io) : Ends s (getcomma s) := by
  refine (ends_get s).bind fun ch s' _ => ?_
  simp only
  split
  · exact Ends.ok _ _
  · exact Ends.throw (by decide) _

theorem ends_getbytes (n : Nat) (s : Io) : Ends s (getbytes n s) := by
  induction n generalizing s with
  | zero => exact Ends.ok _ _
  | succ n ih =>
      exact (ends_get s).bind fun ch t _ => (ih t).bind fun data u _ => Ends.ok _ _

theorem ends_getrcpt (biglen : Nat) (s : Io) : Ends s (getrcpt conf ans biglen s) := by
  refine (ends_getrcptlen biglen s).bind fun l t _ => ?_
  simp only
  split
  · exact Ends.throw (by decide) _
  refine (ends_getbytes _ t).bind fun data u _ => ?_
  simp only
  split
  · exact Ends.throw (by decide) _
  · exact (ends_getcomma u).bind fun _ _ _ => Ends.ok _ _

theorem ends_getrcpts (n biglen : Nat) (s : Io) : Ends s (getrcpts conf ans n biglen s) := by
  induction n generalizing biglen s with
  | zero => exact Ends.ok _ _
  | succ n ih =>
      unfold getrcpts
      split
      · exact Ends.ok _ _
      · exact (ends_getrcpt biglen s).bind fun _ t _ => (ih _ t).bind fun _ _ _ => Ends.ok _ _

theorem ends_message (conf : Conf) (ans : Answers) (nm : Numerals) (s : Io) :
    Ends s (message nm conf ans s) := by
  refine (ends_getlen s).bind fun len s1 _ => ?_
  simp only
  split
  · exact Ends.throw (by decide) _
  split
  · exact Ends.throw (by decide) _
  refine (ends_get s1).bind fun ch s2 _ => ?_
  simp only
  split
  · exact Ends.throw (by decide) _
  refine (ends_getbytes _ s2).bind fun _ s3 _ => ?_
  refine (ends_getcomma s3).bind fun _ s4 _ => ?_
  refine (ends_getlen s4).bind fun _ s5 _ => ?_
  refine (ends_getbytes _ s5).bind fun _ s6 _ => ?_
  refine (ends_getcomma s6).bind fun _ s7 _ => ?_
  refine (ends_getlen s7).bind fun _ s8 _ => ?_
  refine (ends_getrcpts _ _ s8).bind fun _ s9 _ => ?_
  exact (ends_getcomma s9).bind fun _ _ _ => Ends.ok _ _

end Read

end IndimailMta.Qmtp
