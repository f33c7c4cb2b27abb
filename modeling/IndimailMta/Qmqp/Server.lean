import IndimailMta.Netstring

/-!
# qmail-qmqpd

The server reads one request: a netstring that holds the netstrings of the message,
of the sender and of every recipient. All of it is read through `getbyte`, which
counts `bytesleft` down: at first the 100 bytes the outer length may take, then the
outer length. `Except` carries the codes it exits with: 100 for a request that is
not well formed, 111 for want of resources, 0 where the connection ends.
-/

namespace IndimailMta.Qmqp

open IndimailMta

/-- `bytesleft`, and the input. -/
structure In where
  left : Nat
  input : Bytes
  deriving DecidableEq, Repr

/-- `getbyte`. -/
def getbyte (s : In) : Except Nat (Byte × In) :=
  if s.left = 0 then .error 100
  else
    match s.input with
    | [] => .error 0
    | ch :: rest => .ok (ch, ⟨s.left - 1, rest⟩)

/-- `getlen`: any byte is taken for a digit. -/
def getlen (len left : Nat) (input : Bytes) : Except Nat (Nat × In) :=
  if left = 0 then .error 100
  else
    match input with
    | [] => .error 0
    | ch :: rest =>
        if ch = 58 then .ok (len, ⟨left - 1, rest⟩)
        else if 200000000 < len then .error 111
        else getlen (unsignedLong (10 * len + (schar ch - 48))) (left - 1) rest

/-- The loops that read `n` bytes. -/
def getbytes : Nat → In → Except Nat (Bytes × In)
  | 0, s => .ok ([], s)
  | n + 1, s => do
      let (ch, s) ← getbyte s
      let (data, s) ← getbytes n s
      return (ch :: data, s)

/-- `getcomma`. -/
def getcomma (s : In) : Except Nat In := do
  let (ch, s) ← getbyte s
  if ch = 44 then return s else throw 100

/-- The bytes of a text, and the comma behind it. -/
def getdata (len : Nat) (s : In) : Except Nat (Bytes × In) := do
  let (data, s) ← getbytes len s
  let s ← getcomma s
  return (data, s)

/-- What `getbuf` leaves in `buf` where it returns 1: an address shorter than `buf` and without
a NUL. -/
def address (data : Bytes) : Option Bytes :=
  if 1000 ≤ data.length then none else if 0 ∈ data then none else some data

/-- `getbuf`. -/
def getbuf (s : In) : Except Nat (Option Bytes × In) := do
  let (len, s) ← getlen 0 s.left s.input
  let (data, s) ← getdata len s
  return (address data, s)

/-- The loop over the recipients: at most `bytesleft` rounds. -/
def getrcpts : Nat → In → Except Nat (List (Option Bytes) × In)
  | 0, s => .ok ([], s)
  | n + 1, s =>
      if s.left = 0 then .ok ([], s)
      else do
        let (rcpt, s) ← getbuf s
        let (rcpts, s) ← getrcpts n s
        return (rcpt :: rcpts, s)

/-- The calls of `qmail_put` for the message, of `qmail_from` and of `qmail_to`, and `flagok`;
where it is cleared, `qmail_fail` was called. -/
structure Accepted where
  message : Bytes
  sender : Bytes
  recipients : List Bytes
  flagok : Bool
  deriving DecidableEq, Repr

/-- What is handed to the queue for the addresses read. -/
def accepted (message : Bytes) (sender : Option Bytes) (rcpts : List (Option Bytes)) : Accepted :=
  { message := message
    sender := sender.getD []
    recipients := rcpts.filterMap id
    flagok := sender.isSome && rcpts.all Option.isSome }

/-- `main`, up to `qmail_close`; `openOk` tells whether `qmail_open` works. -/
def main (openOk : Bool) (input : Bytes) : Except Nat (Accepted × Bytes) := do
  let (bytesleft, s) ← getlen 0 100 input
  let (len, s) ← getlen 0 bytesleft s.input
  if ¬ openOk then throw 111
  let (message, s) ← getdata len s
  let (sender, s) ← getbuf s
  let (rcpts, s) ← getrcpts s.left s
  let s ← getcomma { s with left := 1 }
  return (accepted message sender rcpts, s.input)

/-- The response; `close` is what `qmail_close` returned. -/
def response (nm : Numerals) (now qp : Nat) (close : Bytes) (a : Accepted) : Bytes :=
  let result :=
    if ¬ a.flagok then asc "Dsorry, I can't accept addresses like that (#5.1.3)"
    else if close = [] then asc "Kok " ++ nm.fmtUlong now ++ asc " qp " ++ nm.fmtUlong qp
    else close
  nm.netstring result

/-! ## What is read -/

section Read

variable {s s' : In}

theorem getlen_eq (len left : Nat) (ch : Byte) (rest : Bytes) (hleft : left ≠ 0) :
    getlen len left (ch :: rest) =
      if ch = 58 then .ok (len, ⟨left - 1, rest⟩)
      else if 200000000 < len then .error 111
      else getlen (unsignedLong (10 * len + (schar ch - 48))) (left - 1) rest := by
  rw [getlen, if_neg hleft]

/-- A decimal length is read. -/
theorem getlen_digits {ds : Bytes} (hd : ∀ d ∈ ds, isDigit d = true) {len left : Nat}
    (hlen : acc len ds < 2000000010) (hleft : ds.length < left) (rest : Bytes) :
    getlen len left (ds ++ 58 :: rest) = .ok (acc len ds, ⟨left - (ds.length + 1), rest⟩) := by
  induction ds generalizing len left with
  | nil =>
      rw [List.nil_append, getlen_eq _ _ _ _ (by omega), if_pos rfl]
      rfl
  | cons d ds ih =>
      have hdig := hd d List.mem_cons_self
      have hten := ten_mul_le_acc len d ds
      rw [List.length_cons] at hleft
      rw [List.cons_append, getlen_eq _ _ _ _ (by omega), if_neg (ne_colon_of_isDigit hdig),
        if_neg (by omega), unsignedLong_of_isDigit hdig (by omega)]
      rw [acc_cons] at hlen ⊢
      rw [ih (fun b hb => hd b (List.mem_cons_of_mem d hb)) hlen (by omega)]
      rw [List.length_cons, show left - 1 - (ds.length + 1) = left - (ds.length + 1 + 1) by omega]

/-- What `getlen` takes for a length: the bytes up to a colon. If they are digits, it is the
number they are. -/
theorem getlen_spec {len left n : Nat} {input : Bytes}
    (h : getlen len left input = .ok (n, s')) :
    ∃ ds, input = ds ++ 58 :: s'.input ∧ left = ds.length + 1 + s'.left ∧ 58 ∉ ds ∧
      ((∀ d ∈ ds, isDigit d = true) → n = acc len ds) := by
  induction input generalizing len left with
  | nil =>
      unfold getlen at h
      split at h <;> cases h
  | cons ch rest ih =>
      have hleft : left ≠ 0 := by
        rintro rfl
        simp [getlen] at h
      rw [getlen_eq _ _ _ _ hleft] at h
      split at h
      · rename_i hcolon
        simp only [Except.ok.injEq, Prod.mk.injEq] at h
        obtain ⟨rfl, rfl⟩ := h
        refine ⟨[], ?_, ?_, List.not_mem_nil, fun _ => rfl⟩
        · rw [hcolon, List.nil_append]
        · rw [List.length_nil]
          simp only
          omega
      rename_i hcolon
      split at h
      · cases h
      · rename_i hlen
        obtain ⟨ds, rfl, hl, hds, hn⟩ := ih h
        refine ⟨ch :: ds, rfl, ?_, ?_, fun hd => ?_⟩
        · rw [List.length_cons]
          omega
        · rw [List.mem_cons, not_or]
          exact ⟨Ne.symm hcolon, hds⟩
        · have hdig := hd ch List.mem_cons_self
          rw [hn fun d hmem => hd d (List.mem_cons_of_mem ch hmem), acc_cons,
            unsignedLong_of_isDigit hdig (by omega)]

theorem getbytes_eq (data rest : Bytes) {left : Nat} (hleft : data.length ≤ left) :
    getbytes data.length ⟨left, data ++ rest⟩ = .ok (data, ⟨left - data.length, rest⟩) := by
  induction data generalizing left with
  | nil => rfl
  | cons ch data ih =>
      rw [List.length_cons] at hleft
      rw [List.length_cons, getbytes, List.cons_append, getbyte, if_neg (by simp only; omega)]
      simp only [bind, Except.bind, pure, Except.pure]
      rw [ih (show data.length ≤ left - 1 by omega)]
      simp only [show left - 1 - data.length = left - (data.length + 1) by omega]

theorem getbytes_spec {n : Nat} {data : Bytes} (h : getbytes n s = .ok (data, s')) :
    data.length = n ∧ s.input = data ++ s'.input ∧ s.left = n + s'.left := by
  induction n generalizing s data with
  | zero =>
      simp only [getbytes, Except.ok.injEq, Prod.mk.injEq] at h
      obtain ⟨rfl, rfl⟩ := h
      exact ⟨rfl, rfl, by omega⟩
  | succ n ih =>
      rw [getbytes] at h
      obtain ⟨⟨ch, t⟩, hch, h⟩ := except_bind_ok.mp h
      obtain ⟨⟨tail, u⟩, hdata, h⟩ := except_bind_ok.mp h
      cases h
      obtain ⟨hlen, hinput, hleft⟩ := ih hdata
      unfold getbyte at hch
      split at hch
      · cases hch
      · rename_i h0
        cases hs : s.input with
        | nil =>
            rw [hs] at hch
            cases hch
        | cons b rest =>
            rw [hs] at hch
            cases hch
            refine ⟨by rw [List.length_cons, hlen], ?_, ?_⟩
            · rw [List.cons_append, ← hinput]
            · simp only at hleft
              omega

theorem getcomma_eq (rest : Bytes) {left : Nat} (hleft : 0 < left) :
    getcomma ⟨left, 44 :: rest⟩ = .ok ⟨left - 1, rest⟩ := by
  rw [getcomma, getbyte, if_neg (by simp only; omega)]
  rfl

theorem getcomma_spec (h : getcomma s = .ok s') :
    s.input = 44 :: s'.input ∧ s.left = 1 + s'.left := by
  unfold getcomma at h
  obtain ⟨⟨ch, t⟩, hch, h⟩ := except_bind_ok.mp h
  obtain ⟨hlen, hinput, hleft⟩ := getbytes_spec (show getbytes 1 s = .ok ([ch], t) by
    rw [getbytes, hch]
    rfl)
  simp only at h
  split at h
  · rename_i hcomma
    cases h
    exact ⟨by rw [hinput, hcomma]; rfl, hleft⟩
  · cases h

theorem getdata_eq (data rest : Bytes) {left : Nat} (hleft : data.length < left) :
    getdata data.length ⟨left, data ++ 44 :: rest⟩ =
      .ok (data, ⟨left - (data.length + 1), rest⟩) := by
  rw [getdata, getbytes_eq data (44 :: rest) (by omega)]
  simp only [bind, Except.bind, pure, Except.pure]
  rw [getcomma_eq rest (by omega)]
  simp only [show left - data.length - 1 = left - (data.length + 1) by omega]

theorem getdata_spec {n : Nat} {data : Bytes} (h : getdata n s = .ok (data, s')) :
    data.length = n ∧ s.input = data ++ 44 :: s'.input ∧ s.left = n + 1 + s'.left := by
  unfold getdata at h
  obtain ⟨⟨d, t⟩, hdata, h⟩ := except_bind_ok.mp h
  obtain ⟨u, hcomma, h⟩ := except_bind_ok.mp h
  cases h
  obtain ⟨hlen, hinput, hleft⟩ := getbytes_spec hdata
  obtain ⟨hrest, hleft'⟩ := getcomma_spec hcomma
  exact ⟨hlen, by rw [hinput, hrest], by omega⟩

/-! ## Fields -/

theorem getlen_field {f : Field} (hf : f.Proper) (hsize : f.data.length < 2000000010)
    {left : Nat} (hleft : f.bytes.length ≤ left) (rest : Bytes) :
    getlen 0 left (f.bytes ++ rest) =
      .ok (f.data.length, ⟨left - (f.len.length + 1), f.data ++ 44 :: rest⟩) := by
  have hlen := hf.2
  rw [← acc_zero] at hlen
  rw [Field.length_bytes] at hleft
  have h : getlen 0 left (f.len ++ 58 :: (f.data ++ 44 :: rest)) = _ :=
    getlen_digits hf.1 (by omega) (by omega) (f.data ++ 44 :: rest)
  rw [hlen] at h
  rw [Field.bytes_append, h]

/-- An address field is read. -/
theorem getbuf_field {f : Field} (hf : f.Proper) (hsize : f.data.length < 2000000010)
    {left : Nat} (hleft : f.bytes.length ≤ left) (rest : Bytes) :
    getbuf ⟨left, f.bytes ++ rest⟩ = .ok (address f.data, ⟨left - f.bytes.length, rest⟩) := by
  rw [getbuf, getlen_field hf hsize hleft]
  rw [Field.length_bytes] at hleft ⊢
  simp only [bind, Except.bind, pure, Except.pure]
  rw [getdata_eq _ _ (by omega)]
  simp only [show left - (f.len.length + 1) - (f.data.length + 1) =
    left - (f.len.length + f.data.length + 2) by omega]

/-- What `getbuf` takes for a field. -/
theorem getbuf_spec {r : Option Bytes} (h : getbuf s = .ok (r, s')) :
    ∃ f : Field, s.input = f.bytes ++ s'.input ∧ s.left = f.bytes.length + s'.left ∧
      f.ProperIfDigits ∧ r = address f.data := by
  unfold getbuf at h
  obtain ⟨⟨n, t⟩, hlen, h⟩ := except_bind_ok.mp h
  obtain ⟨⟨data, u⟩, hdata, h⟩ := except_bind_ok.mp h
  cases h
  obtain ⟨ds, hinput, hleft, hcolon, hn⟩ := getlen_spec hlen
  obtain ⟨hlength, hrest, hleft'⟩ := getdata_spec hdata
  refine ⟨⟨ds, data⟩, ?_, ?_, ⟨hcolon, ?_⟩, rfl⟩
  · rw [hinput, hrest, Field.bytes_append]
  · rw [Field.length_bytes]
    simp only
    omega
  · intro hd
    rw [← acc_zero, ← hn hd, hlength]

/-- Address fields are read up to the end of the outer netstring. -/
theorem getrcpts_fields {rs : List Field} (hrs : ∀ f ∈ rs, f.Proper)
    (hsize : ∀ f ∈ rs, f.data.length < 2000000010) {n : Nat}
    (hn : (rs.flatMap Field.bytes).length ≤ n) (rest : Bytes) :
    getrcpts n ⟨(rs.flatMap Field.bytes).length, rs.flatMap Field.bytes ++ rest⟩ =
      .ok (rs.map fun f => address f.data, ⟨0, rest⟩) := by
  induction rs generalizing n with
  | nil =>
      cases n with
      | zero => rfl
      | succ n => rfl
  | cons f rs ih =>
      rw [List.flatMap_cons, List.length_append] at hn ⊢
      have hpos : 2 ≤ f.bytes.length := by
        rw [Field.length_bytes]
        omega
      obtain ⟨m, rfl⟩ : ∃ m, n = m + 1 := ⟨n - 1, by omega⟩
      rw [getrcpts, if_neg (by simp only; omega), List.append_assoc,
        getbuf_field (hrs f List.mem_cons_self) (hsize f List.mem_cons_self) (by omega)]
      simp only [bind, Except.bind, pure, Except.pure, Nat.add_sub_cancel_left]
      rw [ih (fun g hg => hrs g (List.mem_cons_of_mem f hg))
        (fun g hg => hsize g (List.mem_cons_of_mem f hg)) (by omega)]
      rfl

theorem getrcpts_spec {n : Nat} {l : List (Option Bytes)} (hn : s.left ≤ n)
    (h : getrcpts n s = .ok (l, s')) :
    ∃ rs : List Field, s.input = rs.flatMap Field.bytes ++ s'.input ∧ s'.left = 0 ∧
      s.left = (rs.flatMap Field.bytes).length ∧ (∀ f ∈ rs, f.ProperIfDigits) ∧
      l = rs.map fun f => address f.data := by
  induction n generalizing s l with
  | zero =>
      cases h
      exact ⟨[], rfl, by omega, by simpa using hn, by simp, rfl⟩
  | succ n ih =>
      rw [getrcpts] at h
      split at h
      · rename_i hzero
        cases h
        exact ⟨[], rfl, hzero, by simpa using hzero, by simp, rfl⟩
      · obtain ⟨⟨r, t⟩, hbuf, h⟩ := except_bind_ok.mp h
        obtain ⟨⟨l', u⟩, hrest, h⟩ := except_bind_ok.mp h
        cases h
        obtain ⟨f, hinput, hleft, hf, rfl⟩ := getbuf_spec hbuf
        have hpos : 2 ≤ f.bytes.length := by
          rw [Field.length_bytes]
          omega
        obtain ⟨rs, hinput', hzero, hleft', hrs, rfl⟩ := ih (by omega) hrest
        refine ⟨f :: rs, ?_, hzero, ?_, ?_, rfl⟩
        · rw [hinput, hinput', List.flatMap_cons, List.append_assoc]
        · rw [List.flatMap_cons, List.length_append]
          omega
        · intro g hg
          rcases List.mem_cons.mp hg with rfl | hg
          · exact hf
          · exact hrs g hg

end Read

end IndimailMta.Qmqp
