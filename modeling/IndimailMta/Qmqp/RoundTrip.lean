import IndimailMta.Qmqp.Client
import IndimailMta.Qmqp.Server

/-!
# What QMQP transfers

qmail-qmqpd reads what qmail-qmqpc wrote. In the other direction, what it accepts is
made of fields, one inside the other, with every boundary where the client puts it.
Three things part the server from the inverse of the client: an address of 1000 bytes
or more is read and failed, a request of more than 2000000009 bytes is refused, and
any byte of a length text is taken for a digit.
-/

namespace IndimailMta.Qmqp

open IndimailMta Queue

/-- What is in the outer netstring. -/
def body (message sender : Field) (rcpts : List Field) : Bytes :=
  message.bytes ++ (sender.bytes ++ rcpts.flatMap Field.bytes)

theorem body_append (message sender : Field) (rcpts : List Field) (rest : Bytes) :
    body message sender rcpts ++ rest =
      message.len ++ 58 :: (message.data ++ 44 ::
        (sender.bytes ++ (rcpts.flatMap Field.bytes ++ rest))) := by
  rw [body, List.append_assoc, List.append_assoc, Field.bytes_append]

theorem length_body (message sender : Field) (rcpts : List Field) :
    (body message sender rcpts).length =
      message.len.length + message.data.length + 2 + sender.bytes.length +
        (rcpts.flatMap Field.bytes).length := by
  rw [body, List.length_append, List.length_append, Field.length_bytes]
  omega

theorem data_length_le_body {message sender f : Field} {rcpts : List Field}
    (hf : f = message ∨ f = sender ∨ f ∈ rcpts) :
    f.data.length ≤ (body message sender rcpts).length := by
  have hlen := f.length_bytes
  rw [length_body]
  rcases hf with rfl | rfl | hf
  · omega
  · omega
  · obtain ⟨before, after, rfl⟩ := List.append_of_mem hf
    rw [List.flatMap_append, List.flatMap_cons, List.length_append, List.length_append]
    omega

/-! ## §1 What the client wrote is read -/

/-- Fields inside a field are read, whatever follows. -/
theorem main_fields {outer message sender : Field} {rcpts : List Field}
    (hdata : outer.data = body message sender rcpts)
    (houter : outer.Proper) (hmessage : message.Proper) (hsender : sender.Proper)
    (hrcpts : ∀ f ∈ rcpts, f.Proper) (hlen : outer.len.length < 100)
    (hsize : outer.data.length < 2000000010) (rest : Bytes) :
    main true (outer.bytes ++ rest) =
      .ok (accepted message.data (address sender.data) (rcpts.map fun f => address f.data),
        rest) := by
  have hsizes : ∀ f, f = message ∨ f = sender ∨ f ∈ rcpts → f.data.length < 2000000010 := by
    intro f hf
    have hle := data_length_le_body hf
    rw [← hdata] at hle
    omega
  have hbody := length_body message sender rcpts
  have hvalue : acc 0 outer.len = outer.data.length := houter.2
  have hvalue' : acc 0 message.len = message.data.length := hmessage.2
  have hm := hsizes message (.inl rfl)
  have hs := hsizes sender (.inr (.inl rfl))
  have hr : ∀ f ∈ rcpts, f.data.length < 2000000010 := fun f hf => hsizes f (.inr (.inr hf))
  rw [main, Field.bytes_append, getlen_digits houter.1 (by rw [hvalue]; exact hsize) hlen, hvalue,
    hdata]
  simp only [bind, Except.bind, pure, Except.pure, not_true_eq_false, if_false]
  rw [body_append, getlen_digits hmessage.1 (by rw [hvalue']; exact hm) (by omega), hvalue']
  simp only
  rw [getdata_eq _ _ (by omega)]
  simp only
  rw [getbuf_field hsender hs (by omega)]
  simp only
  rw [show (body message sender rcpts).length - (message.len.length + 1) -
    (message.data.length + 1) - sender.bytes.length = (rcpts.flatMap Field.bytes).length by omega,
    getrcpts_fields hrcpts hr (Nat.le_refl _)]
  simp only
  rw [getcomma_eq _ (by omega)]

/-- An address that fits and has no NUL is taken as it is. -/
theorem address_eq {data : Bytes} (h0 : 0 ∉ data) (hlen : data.length < 1000) :
    address data = some data := by
  rw [address, if_neg (by omega), if_neg h0]

/-- The server reads what the client writes. -/
theorem main_request (nm : Decimals) (message : Bytes) {sender : Bytes} {recips : List Bytes}
    (hsender : 0 ∉ sender) (hrecips : ∀ r ∈ recips, 0 ∉ r)
    (hsize : (body (nm.field message) (nm.field sender) (recips.map nm.field)).length <
      2000000010) :
    ∃ bytes, request nm.toNumerals message (envelope sender recips) = .ok bytes ∧
      ∀ rest, main true (bytes ++ rest) =
        .ok (accepted message (address sender) (recips.map address), rest) := by
  refine ⟨_, request_eq nm.toNumerals message hsender hrecips, fun rest => ?_⟩
  have hbody : nm.netstring message ++ nm.netstring sender ++ recips.flatMap nm.netstring =
      body (nm.field message) (nm.field sender) (recips.map nm.field) := by
    rw [body, List.flatMap_map, List.append_assoc]
    rfl
  have hfits := nm.fmt_fits _ (Nat.lt_trans hsize (by decide))
  rw [hbody]
  let outer := nm.field (body (nm.field message) (nm.field sender) (recips.map nm.field))
  have hmain : main true (outer.bytes ++ rest) = _ :=
    main_fields rfl (nm.field_proper _) (nm.field_proper message) (nm.field_proper sender)
      (by simp [nm.field_proper]) (Nat.lt_of_le_of_lt hfits (by decide)) hsize rest
  rw [List.map_map] at hmain
  exact hmain

theorem accepted_some (message sender : Bytes) (recips : List Bytes) :
    accepted message (some sender) (recips.map some) = ⟨message, sender, recips, true⟩ := by
  simp [accepted, List.filterMap_map]

/-! ## §2 What the server accepts -/

/-- What the server accepts is a field with the fields of the message, the sender and the
recipients inside, and nothing else. -/
theorem main_spec {openOk : Bool} {input rest : Bytes} {a : Accepted}
    (h : main openOk input = .ok (a, rest)) :
    ∃ (outer message sender : Field) (rcpts : List Field),
      input = outer.bytes ++ rest ∧ outer.data = body message sender rcpts ∧
      (∀ f ∈ outer :: message :: sender :: rcpts, f.ProperIfDigits) ∧
      a = accepted message.data (address sender.data) (rcpts.map fun f => address f.data) := by
  unfold main at h
  obtain ⟨⟨bytesleft, s⟩, houter, h⟩ := except_bind_ok.mp h
  obtain ⟨⟨len, t⟩, hmlen, h⟩ := except_bind_ok.mp h
  simp only at h
  split at h
  · cases h
  obtain ⟨⟨message, u⟩, hmessage, h⟩ := except_bind_ok.mp h
  obtain ⟨⟨r, v⟩, hsender, h⟩ := except_bind_ok.mp h
  obtain ⟨⟨l, w⟩, hrcpts, h⟩ := except_bind_ok.mp h
  obtain ⟨x, hcomma, h⟩ := except_bind_ok.mp h
  cases h
  obtain ⟨ds, hinput, -, hcolon, hn⟩ := getlen_spec houter
  obtain ⟨ms, htext, hleft, hmcolon, hmn⟩ := getlen_spec hmlen
  obtain ⟨hlength, hrest, hleft'⟩ := getdata_spec hmessage
  obtain ⟨sender, hs, hsleft, hsdigits, rfl⟩ := getbuf_spec hsender
  obtain ⟨rcpts, hr, -, hrleft, hrdigits, rfl⟩ := getrcpts_spec (Nat.le_refl _) hrcpts
  obtain ⟨hend, -⟩ := getcomma_spec hcomma
  have hlen := length_body ⟨ms, message⟩ sender rcpts
  refine ⟨⟨ds, body ⟨ms, message⟩ sender rcpts⟩, ⟨ms, message⟩, sender, rcpts, ?_, rfl, ?_, rfl⟩
  · rw [Field.bytes_append]
    simp only
    rw [body_append]
    simp only at hend
    simp only
    rw [hinput, htext, hrest, hs, hr, hend]
  · intro f hf
    simp only [List.mem_cons] at hf
    rcases hf with rfl | rfl | rfl | hf
    · refine ⟨hcolon, fun hd => ?_⟩
      rw [← acc_zero, ← hn hd]
      simp only at hlen hsleft hrleft
      simp only
      omega
    · exact ⟨hmcolon, fun hd => by rw [← acc_zero, ← hmn hd, hlength]⟩
    · exact hsdigits
    · exact hrdigits f hf

/-! ## §3 Length texts -/

/-- A number in decimal. -/
def Numeral (t : Bytes) : Prop := t ≠ [] ∧ ∀ d ∈ t, isDigit d = true

/-- A netstring: its length text is a number in decimal, the length of its text. -/
def IsNetstring (f : Field) : Prop := f.Proper ∧ f.len ≠ []

/-- What is in front of the first colon. -/
def lengthText (s : Bytes) : Bytes := s.takeWhile (· ≠ 58)

/-- The length texts of at most `n` netstrings that stand one behind another. -/
def lengthTexts : Nat → Bytes → List Bytes
  | 0, _ => []
  | _ + 1, [] => []
  | n + 1, ch :: s =>
      lengthText (ch :: s) :: lengthTexts n
        ((ch :: s).drop ((lengthText (ch :: s)).length + digitsValue (lengthText (ch :: s)) + 2))

/-- The length text of a request, and those of the netstrings inside. -/
def requestTexts (input : Bytes) : List Bytes :=
  lengthText input :: lengthTexts (digitsValue (lengthText input))
    ((input.drop ((lengthText input).length + 1)).take (digitsValue (lengthText input)))

theorem lengthText_field {f : Field} (h : 58 ∉ f.len) (rest : Bytes) :
    lengthText (f.bytes ++ rest) = f.len := by
  have hne : ∀ d ∈ f.len, decide (d ≠ 58) = true := by
    intro d hd
    exact decide_eq_true fun heq => h (heq ▸ hd)
  rw [lengthText, Field.bytes_append, List.takeWhile_append_of_pos hne, List.takeWhile_cons_of_neg (by decide),
    List.append_nil]

theorem colon_notMem_of_proper {f : Field} (h : f.Proper) : 58 ∉ f.len := fun hmem =>
  ne_colon_of_isDigit (h.1 58 hmem) rfl

theorem properIfDigits_of_proper {f : Field} (h : f.Proper) : f.ProperIfDigits :=
  ⟨colon_notMem_of_proper h, fun _ => h.2⟩

theorem isNetstring_iff {f : Field} (h : f.ProperIfDigits) : IsNetstring f ↔ Numeral f.len := by
  constructor
  · rintro ⟨hproper, hne⟩
    exact ⟨hne, hproper.1⟩
  · rintro ⟨hne, hd⟩
    exact ⟨⟨hd, h.2 hd⟩, hne⟩

/-- The fields one behind another are netstrings if all length texts are numbers. -/
theorem lengthTexts_iff {fs : List Field} (hfs : ∀ f ∈ fs, f.ProperIfDigits) {n : Nat}
    (hn : (fs.flatMap Field.bytes).length ≤ n) :
    (∀ t ∈ lengthTexts n (fs.flatMap Field.bytes), Numeral t) ↔ ∀ f ∈ fs, IsNetstring f := by
  induction fs generalizing n with
  | nil =>
      refine iff_of_true ?_ fun f hf => absurd hf List.not_mem_nil
      cases n <;> exact fun t ht => absurd ht List.not_mem_nil
  | cons f fs ih =>
      have hf := hfs f List.mem_cons_self
      have htail := fun n hn => @ih (fun g hg => hfs g (List.mem_cons_of_mem f hg)) n hn
      have htext := lengthText_field hf.1 (fs.flatMap Field.bytes)
      rw [List.flatMap_cons, List.length_append, f.length_bytes] at hn
      rw [List.flatMap_cons]
      obtain ⟨n, rfl⟩ : ∃ m, n = m + 1 := ⟨n - 1, by omega⟩
      obtain ⟨ch, s, hs⟩ : ∃ ch s, f.bytes ++ fs.flatMap Field.bytes = ch :: s := by
        refine List.exists_cons_of_ne_nil fun hnil => ?_
        have hlen := congrArg List.length hnil
        rw [List.length_append, f.length_bytes, List.length_nil] at hlen
        omega
      rw [hs] at htext ⊢
      rw [lengthTexts, htext, List.forall_mem_cons, List.forall_mem_cons, isNetstring_iff hf]
      refine and_congr_right fun hnum => ?_
      have hdrop : (ch :: s).drop (f.len.length + digitsValue f.len + 2) = fs.flatMap Field.bytes := by
        rw [← hs, hf.2 hnum.2, ← f.length_bytes, List.drop_left]
      rw [hdrop]
      exact htail n (by omega)

/-- The length texts of a request are numbers if and only if it is made of netstrings. -/
theorem requestTexts_iff {outer message sender : Field} {rcpts : List Field}
    (hdata : outer.data = body message sender rcpts)
    (hfields : ∀ f ∈ outer :: message :: sender :: rcpts, f.ProperIfDigits) (rest : Bytes) :
    (∀ t ∈ requestTexts (outer.bytes ++ rest), Numeral t) ↔
      ∀ f ∈ outer :: message :: sender :: rcpts, IsNetstring f := by
  have houter := hfields outer List.mem_cons_self
  have hbody : outer.data = (message :: sender :: rcpts).flatMap Field.bytes := by
    rw [hdata, body, List.flatMap_cons, List.flatMap_cons]
  rw [requestTexts, lengthText_field houter.1, List.forall_mem_cons, List.forall_mem_cons, isNetstring_iff houter]
  refine and_congr_right fun hnum => ?_
  have htake : ((outer.bytes ++ rest).drop (outer.len.length + 1)).take (digitsValue outer.len) =
      (message :: sender :: rcpts).flatMap Field.bytes := by
    have hinput : outer.bytes ++ rest = (outer.len ++ [58]) ++ (outer.data ++ 44 :: rest) := by
      rw [Field.bytes_append, List.append_assoc, List.singleton_append]
    have hlen : outer.len.length + 1 = (outer.len ++ [58]).length := by
      rw [List.length_append, List.length_singleton]
    rw [hinput, hlen, List.drop_left, houter.2 hnum.2, List.take_left, hbody]
  rw [htake]
  refine lengthTexts_iff (fun f hf => hfields f (List.mem_cons_of_mem outer hf)) ?_
  rw [houter.2 hnum.2, hbody]

/-! ## §4 The two directions -/

/-- A length of digits that is read is not too large. -/
theorem getlen_digits_lt {ds : Bytes} (hd : ∀ d ∈ ds, isDigit d = true) {len left n : Nat}
    (hlen : len < 2000000010) {rest : Bytes} {s' : In}
    (h : getlen len left (ds ++ 58 :: rest) = .ok (n, s')) : acc len ds < 2000000010 := by
  induction ds generalizing len left with
  | nil => exact hlen
  | cons d ds ih =>
      have hdig := hd d List.mem_cons_self
      have hleft : left ≠ 0 := by
        rintro rfl
        simp [getlen] at h
      rw [List.cons_append, getlen_eq _ _ _ _ hleft, if_neg (ne_colon_of_isDigit hdig)] at h
      by_cases hbig : 200000000 < len
      · rw [if_pos hbig] at h
        cases h
      · rw [if_neg hbig, unsignedLong_of_isDigit hdig (Nat.le_of_not_lt hbig)] at h
        have hnine := (schar_of_isDigit hdig).2
        rw [acc_cons]
        exact ih (fun b hb => hd b (List.mem_cons_of_mem d hb)) (by omega) h

/-- The QMQP server accepts what the QMQP client writes, where the addresses fit its buffer
and the request its limit. What it accepts is the netstring of a message, a sender and
recipients wherever the lengths are texts of digits. -/
theorem request_transferred (nm : Decimals) :
    (∀ (message sender : Bytes) (recips : List Bytes),
      0 ∉ sender → sender.length < 1000 → (∀ r ∈ recips, 0 ∉ r ∧ r.length < 1000) →
      (body (nm.field message) (nm.field sender) (recips.map nm.field)).length < 2000000010 →
      ∃ bytes, request nm.toNumerals message (envelope sender recips) = .ok bytes ∧
        ∀ rest, main true (bytes ++ rest) = .ok (⟨message, sender, recips, true⟩, rest)) ∧
    (∀ (openOk : Bool) (input rest : Bytes) (a : Accepted),
      main openOk input = .ok (a, rest) →
      ∃ (outer message sender : Field) (rcpts : List Field),
        input = outer.bytes ++ rest ∧ outer.data = body message sender rcpts ∧
        (∀ f ∈ outer :: message :: sender :: rcpts, f.ProperIfDigits) ∧
        a = accepted message.data (address sender.data) (rcpts.map fun f => address f.data)) := by
  constructor
  · intro message sender recips hs hslen hr hsize
    obtain ⟨bytes, hbytes, hmain⟩ := main_request nm message hs (fun r hm => (hr r hm).1) hsize
    refine ⟨bytes, hbytes, fun rest => ?_⟩
    have haddress : recips.map address = recips.map some :=
      List.map_congr_left fun r hm => address_eq (hr r hm).1 (hr r hm).2
    rw [hmain rest, address_eq hs hslen, haddress, accepted_some]
  · intro openOk input rest a h
    exact main_spec h

/-- What the client writes is read as it was only if the addresses fit and the request is not too large. -/
theorem fits_of_transferred (nm : Decimals) {message sender : Bytes} {recips : List Bytes}
    (hsender : 0 ∉ sender) (hrecips : ∀ r ∈ recips, 0 ∉ r) {bytes : Bytes}
    (hbytes : request nm.toNumerals message (envelope sender recips) = .ok bytes)
    (hmain : ∀ rest, main true (bytes ++ rest) = .ok (⟨message, sender, recips, true⟩, rest)) :
    sender.length < 1000 ∧ (∀ r ∈ recips, r.length < 1000) ∧
      (body (nm.field message) (nm.field sender) (recips.map nm.field)).length < 2000000010 := by
  have hbody : nm.netstring message ++ nm.netstring sender ++ recips.flatMap nm.netstring =
      body (nm.field message) (nm.field sender) (recips.map nm.field) := by
    rw [body, List.flatMap_map, List.append_assoc]
    rfl
  have hsize : (body (nm.field message) (nm.field sender) (recips.map nm.field)).length < 2000000010 := by
    have hwritten := request_eq nm.toNumerals message hsender hrecips
    rw [hbytes, hbody] at hwritten
    obtain rfl := Except.ok.inj hwritten
    have h := hmain []
    rw [main] at h
    obtain ⟨⟨n, t⟩, hlen, -⟩ := except_bind_ok.mp h
    have houter := nm.field_proper (body (nm.field message) (nm.field sender) (recips.map nm.field))
    have hvalue := houter.2
    rw [← acc_zero] at hvalue
    rw [Numerals.netstring, Field.bytes_append] at hlen
    have hlt := getlen_digits_lt houter.1 (Nat.zero_lt_succ _) hlen
    rwa [hvalue] at hlt
  obtain ⟨bytes', hbytes', hread⟩ := main_request nm message hsender hrecips hsize
  obtain rfl : bytes = bytes' := Except.ok.inj (hbytes.symm.trans hbytes')
  have hsame := congrArg Prod.fst (Except.ok.inj ((hread []).symm.trans (hmain [])))
  have hok := congrArg Accepted.flagok hsame
  have hboth : (address sender).isSome = true ∧ ∀ r ∈ recips, (address r).isSome = true := by
    simpa [accepted] using hok
  have hshort : ∀ data : Bytes, (address data).isSome = true → data.length < 1000 := by
    intro data hsome
    by_contra hlong
    rw [address, if_pos (Nat.le_of_not_lt hlong)] at hsome
    cases hsome
  exact ⟨hshort sender hboth.1, fun r hr => hshort r (hboth.2 r hr), hsize⟩

/-- **When the QMQP server is the inverse of the client.** It reads what the client writes if and only if the
addresses fit its buffer and the request its limit. What it accepts is the netstring of a message, a sender
and recipients if and only if all length texts are numbers in decimal. -/
theorem request_transferred_iff (nm : Decimals) :
    (∀ (message sender : Bytes) (recips : List Bytes), 0 ∉ sender → (∀ r ∈ recips, 0 ∉ r) →
      ((∃ bytes, request nm.toNumerals message (envelope sender recips) = .ok bytes ∧
          ∀ rest, main true (bytes ++ rest) = .ok (⟨message, sender, recips, true⟩, rest)) ↔
        sender.length < 1000 ∧ (∀ r ∈ recips, r.length < 1000) ∧
          (body (nm.field message) (nm.field sender) (recips.map nm.field)).length < 2000000010)) ∧
    (∀ (openOk : Bool) (input rest : Bytes) (a : Accepted), main openOk input = .ok (a, rest) →
      ((∃ (outer message sender : Field) (rcpts : List Field),
          input = outer.bytes ++ rest ∧ outer.data = body message sender rcpts ∧
          (∀ f ∈ outer :: message :: sender :: rcpts, IsNetstring f) ∧
          a = accepted message.data (address sender.data) (rcpts.map fun f => address f.data)) ↔
        ∀ t ∈ requestTexts input, Numeral t)) := by
  constructor
  · intro message sender recips hs hr
    constructor
    · rintro ⟨bytes, hbytes, hmain⟩
      exact fits_of_transferred nm hs hr hbytes hmain
    · rintro ⟨hslen, hrlen, hsize⟩
      exact (request_transferred nm).1 message sender recips hs hslen (fun r hm => ⟨hr r hm, hrlen r hm⟩) hsize
  · intro openOk input rest a h
    constructor
    · rintro ⟨outer, message, sender, rcpts, rfl, hdata, hnet, -⟩
      have hfields : ∀ f ∈ outer :: message :: sender :: rcpts, f.ProperIfDigits := fun f hf =>
        properIfDigits_of_proper (hnet f hf).1
      exact (requestTexts_iff hdata hfields rest).mpr hnet
    · intro hnum
      obtain ⟨outer, message, sender, rcpts, rfl, hdata, hfields, ha⟩ := main_spec h
      exact ⟨outer, message, sender, rcpts, rfl, hdata, (requestTexts_iff hdata hfields rest).mp hnum, ha⟩

/-- A message to one recipient, and what the server makes of its bytes. -/
theorem request_transferred_iff_hello :
    (∃ bytes, request decimal (asc "hello") (envelope (asc "a@b") [asc "c@d"]) = .ok bytes ∧
      ∀ rest, main true (bytes ++ rest) =
        .ok (⟨asc "hello", asc "a@b", [asc "c@d"], true⟩, rest)) ∧
    ∃ (outer message sender : Field) (rcpts : List Field),
      asc "20:5:hello,3:a@b,3:c@d,," = outer.bytes ++ [] ∧
      outer.data = body message sender rcpts ∧
      (∀ f ∈ outer :: message :: sender :: rcpts, IsNetstring f) ∧
      (⟨asc "hello", asc "a@b", [asc "c@d"], true⟩ : Accepted) =
        accepted message.data (address sender.data) (rcpts.map fun f => address f.data) := by
  refine ⟨((request_transferred_iff decimals).1 (asc "hello") (asc "a@b") [asc "c@d"] (by decide)
      (by decide)).mpr ⟨by decide, by decide, by decide +kernel⟩,
    ((request_transferred_iff decimals).2 true (asc "20:5:hello,3:a@b,3:c@d,,") []
      ⟨asc "hello", asc "a@b", [asc "c@d"], true⟩ (by decide +kernel)).mpr ?_⟩
  have htexts : requestTexts (asc "20:5:hello,3:a@b,3:c@d,,") = [asc "20", asc "5", asc "3", asc "3"] := by
    decide +kernel
  rw [htexts]
  unfold Numeral
  decide +kernel

/-- A sender of 1000 bytes is not transferred; and a request is accepted whose message has the
length `;`, which no number is written as. -/
theorem request_altered :
    (∃ bytes, request decimal [] (envelope (List.replicate 1000 97) []) = .ok bytes ∧
      main true bytes = .ok (⟨[], [], [], false⟩, [])) ∧
    main true (asc "26:;:hello world,3:a@b,3:c@d,,") =
      .ok (⟨asc "hello world", asc "a@b", [asc "c@d"], true⟩, []) ∧
    ¬ ∃ (outer message sender : Field) (rcpts : List Field),
      asc "26:;:hello world,3:a@b,3:c@d,," = outer.bytes ∧
      outer.data = body message sender rcpts ∧
      ∀ f ∈ outer :: message :: sender :: rcpts, f.Proper := by
  refine ⟨?_, by decide +kernel, ?_⟩
  · have hsize : (body (decimals.field []) (decimals.field (List.replicate 1000 97)) []).length <
        2000000010 := by decide +kernel
    have hnul : (0 : Byte) ∉ List.replicate 1000 (97 : Byte) := fun h =>
      absurd (List.eq_of_mem_replicate h) (by decide)
    obtain ⟨bytes, hbytes, hmain⟩ := main_request decimals [] hnul
      (fun r (hr : r ∈ []) => absurd hr List.not_mem_nil) hsize
    refine ⟨bytes, hbytes, ?_⟩
    have h := hmain []
    rw [List.append_nil, address, if_pos (by rw [List.length_replicate])] at h
    exact h
  · rintro ⟨outer, message, sender, rcpts, hinput, hdata, hproper⟩
    have houter := (hproper outer List.mem_cons_self).1
    have hmessage := (hproper message (by simp)).1
    have hlen : outer.len = asc "26" := by
      have h : (outer.len ++ 58 :: (outer.data ++ [44])).takeWhile isDigit = outer.len :=
        takeWhile_isDigit_append houter (by simp [isDigit])
      rw [← Field.bytes, ← hinput] at h
      rw [← h]
      decide +kernel
    rw [Field.bytes, hlen, hdata] at hinput
    have hcons : asc ";:hello world,3:a@b,3:c@d,," = body message sender rcpts ++ [44] := by
      have h := congrArg (List.drop 3) hinput
      exact h
    rw [body_append] at hcons
    cases hm : message.len with
    | nil =>
        rw [hm] at hcons
        have hd : some (59 : Byte) = some 58 := congrArg List.head? hcons
        exact absurd hd (by decide)
    | cons d ds =>
        rw [hm] at hcons hmessage
        have hd : some (59 : Byte) = some d := congrArg List.head? hcons
        cases hd
        exact absurd (hmessage 59 List.mem_cons_self) (by decide)

end IndimailMta.Qmqp
