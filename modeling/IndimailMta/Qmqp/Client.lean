import IndimailMta.Netstring
import IndimailMta.Queue.System

/-!
# qmail-qmqpc

The client gets a message and an envelope the way qmail-queue does, and sends them
to a server as one netstring.
-/

namespace IndimailMta.Qmqp

open IndimailMta Queue

/-- The first line of the envelope, `line` being what was read of it: the sender, and the
envelope behind it. -/
def getsender (line : Bytes) : Bytes → Except Nat (Bytes × Bytes)
  | [] => .error QQ_ENVELOPE_FMT_ERR
  | ch :: rest =>
      if ch ≠ 0 then getsender (line ++ [ch]) rest
      else
        match line with
        | 70 :: sender => .ok (sender, rest)
        | _ => .error QQ_ENVELOPE_FMT_ERR

/-- The lines behind it, up to an empty one: the recipients. -/
def getrecipients (line : Bytes) : Bytes → Except Nat (List Bytes)
  | [] => .error QQ_ENVELOPE_FMT_ERR
  | ch :: rest =>
      if ch ≠ 0 then getrecipients (line ++ [ch]) rest
      else
        match line with
        | [] => .ok []
        | 84 :: recip => do
            let recips ← getrecipients [] rest
            return recip :: recips
        | _ => .error QQ_ENVELOPE_FMT_ERR

/-- `getmess`: `beforemessage` and `aftermessage`. -/
def getmess (nm : Numerals) (message envelope : Bytes) : Except Nat (Bytes × Bytes) := do
  let (sender, rest) ← getsender [] envelope
  let recips ← getrecipients [] rest
  return (nm.fmtUlong message.length ++ asc ":",
    asc "," ++ nm.netstring sender ++ recips.flatMap nm.netstring)

/-- What `doit` writes to the server. -/
def request (nm : Numerals) (message envelope : Bytes) : Except Nat Bytes := do
  let (beforemessage, aftermessage) ← getmess nm message envelope
  return nm.fmtUlong (beforemessage.length + message.length + aftermessage.length) ++ asc ":" ++
    beforemessage ++ message ++ aftermessage ++ asc ","

/-! ## What is sent -/

/-- A line is read up to its NUL. -/
theorem getsender_line {r : Bytes} (hr : 0 ∉ r) (line rest : Bytes) :
    getsender line (r ++ 0 :: rest) = getsender (line ++ r) (0 :: rest) := by
  induction r generalizing line with
  | nil => rw [List.nil_append, List.append_nil]
  | cons ch r ih =>
      have hch : ch ≠ 0 := fun h0 => hr (by rw [h0]; exact List.mem_cons_self)
      have hs : (0 : Byte) ∉ r := fun hm => hr (List.mem_cons_of_mem ch hm)
      have hstep : getsender line (ch :: (r ++ 0 :: rest)) =
          getsender (line ++ [ch]) (r ++ 0 :: rest) := by
        rw [getsender.eq_def]
        exact if_pos hch
      rw [List.cons_append, hstep, ih hs, List.append_assoc]
      rfl

theorem getrecipients_line {r : Bytes} (hr : 0 ∉ r) (line rest : Bytes) :
    getrecipients line (r ++ 0 :: rest) = getrecipients (line ++ r) (0 :: rest) := by
  induction r generalizing line with
  | nil => rw [List.nil_append, List.append_nil]
  | cons ch r ih =>
      have hch : ch ≠ 0 := fun h0 => hr (by rw [h0]; exact List.mem_cons_self)
      have hs : (0 : Byte) ∉ r := fun hm => hr (List.mem_cons_of_mem ch hm)
      have hstep : getrecipients line (ch :: (r ++ 0 :: rest)) =
          getrecipients (line ++ [ch]) (r ++ 0 :: rest) := by
        rw [getrecipients.eq_def]
        exact if_pos hch
      rw [List.cons_append, hstep, ih hs, List.append_assoc]
      rfl

/-- The envelope of a sender and recipients, as qmail-queue reads it. -/
def envelope (sender : Bytes) (recips : List Bytes) : Bytes :=
  (70 :: sender) ++ 0 :: (recips.flatMap (fun r => 84 :: r ++ [0]) ++ [0])

theorem getrecipients_records {recips : List Bytes} (h : ∀ r ∈ recips, 0 ∉ r) :
    getrecipients [] (recips.flatMap (fun r => 84 :: r ++ [0]) ++ [0]) = .ok recips := by
  induction recips with
  | nil => rfl
  | cons r recips ih =>
      have hrec : 0 ∉ 84 :: r := by
        have hr := h r List.mem_cons_self
        simpa using hr
      have ih := ih fun q hq => h q (List.mem_cons_of_mem r hq)
      rw [List.flatMap_cons, List.append_assoc, List.append_assoc, List.singleton_append,
        getrecipients_line hrec, List.nil_append]
      change (do
        let rs ← getrecipients [] (recips.flatMap (fun r => 84 :: r ++ [0]) ++ [0])
        return r :: rs) = _
      rw [ih]
      rfl

/-- **A request is the netstring of the netstrings** of the message, the sender and the
recipients. -/
theorem request_eq (nm : Numerals) (message : Bytes) {sender : Bytes} {recips : List Bytes}
    (hsender : 0 ∉ sender) (hrecips : ∀ r ∈ recips, 0 ∉ r) :
    request nm message (envelope sender recips) =
      .ok (nm.netstring (nm.netstring message ++ nm.netstring sender ++
        recips.flatMap nm.netstring)) := by
  have hcolon : asc ":" = [58] := by decide
  have hcomma : asc "," = [44] := by decide
  have hrec : 0 ∉ 70 :: sender := by simpa using hsender
  have hgets : getsender [] (envelope sender recips) =
      .ok (sender, recips.flatMap (fun r => 84 :: r ++ [0]) ++ [0]) := by
    rw [envelope, getsender_line hrec]
    rfl
  have hbody : nm.netstring message ++ nm.netstring sender ++ recips.flatMap nm.netstring =
      (nm.fmtUlong message.length ++ asc ":") ++ message ++
        (asc "," ++ nm.netstring sender ++ recips.flatMap nm.netstring) := by
    simp [Numerals.netstring, Numerals.field, Field.bytes, hcolon, hcomma]
  rw [request, getmess, hgets]
  simp only [bind, Except.bind, pure, Except.pure]
  rw [getrecipients_records hrecips]
  simp only
  rw [hbody, ← List.length_append, ← List.length_append]
  simp [Numerals.netstring, Numerals.field, Field.bytes, hcolon, hcomma]

end IndimailMta.Qmqp
