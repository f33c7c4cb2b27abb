import IndimailMta.Resolver.Packet
import IndimailMta.Resolver.Text
import Mathlib.Data.List.Perm.Basic

/-!
# The answers in a packet

A packet has a header, a question and answers. `dns_txt_packet`, `dns_ip6_packet` and `dns_name_packet` go
over the answers in one way, and take what they look for from the data of each.
-/

namespace IndimailMta.Resolver

open IndimailMta

/-! ## Functions -/

def uint16_unpack_big (s : Bytes) : Nat := (s.getD 0 0).toNat * 256 + (s.getD 1 0).toNat

/-- What is in front of the data of an answer: the type, the class and the length of the data. -/
def typeOf (header : Bytes) : Bytes := header.take 2
def classOf (header : Bytes) : Bytes := (header.drop 2).take 2
def datalenOf (header : Bytes) : Nat := uint16_unpack_big (header.drop 8)

def DNS_C_IN : Bytes := [0, 1]
def DNS_T_A : Bytes := [0, 1]
def DNS_T_PTR : Bytes := [0, 12]
def DNS_T_TXT : Bytes := [0, 16]
def DNS_T_AAAA : Bytes := [0, 28]

section Loop

variable {β : Type}

/-- The loop over the answers. `answer` is the body: it has the header, the position of the data and
`out`, and fails, goes on, or returns at once. -/
def answersLoop (buf : Bytes) (answer : Bytes → Nat → β → Option (Except β β)) : Nat → Nat → β → Option β
  | 0, _, out => some out
  | numanswers + 1, pos, out =>
      (dns_packet_skipname buf pos).bind fun pos =>
        (dns_packet_copy buf pos 10).bind fun copied =>
          (answer copied.1 copied.2 out).bind fun
            | .error out => some out
            | .ok out => answersLoop buf answer numanswers (copied.2 + datalenOf copied.1) out

/-- The header of the packet and the question are gone over. -/
def packetLoop (buf : Bytes) (answer : Bytes → Nat → β → Option (Except β β)) (out : β) : Option β :=
  (dns_packet_copy buf 0 12).bind fun copied =>
    (dns_packet_skipname buf copied.2).bind fun pos =>
      answersLoop buf answer (uint16_unpack_big (copied.1.drop 6)) (pos + 4) out

end Loop

/-- What `dns_txt_packet` writes for a byte of a string. -/
def txtByte (ch : Byte) : Byte := if schar ch < 32 ∨ 126 < schar ch then 63 else ch

/-- The loop over the data of a text: `txtlen`, and the bytes. -/
def txtLoop : Nat → Bytes → Bytes
  | _, [] => []
  | 0, ch :: data => txtLoop ch.toNat data
  | txtlen + 1, ch :: data => txtByte ch :: txtLoop txtlen data

def txtAnswer (buf header : Bytes) (pos : Nat) (out : Bytes) : Option (Except Bytes Bytes) :=
  if typeOf header = DNS_T_TXT ∧ classOf header = DNS_C_IN then
    if buf.length < pos + datalenOf header then none
    else some (.ok (out ++ txtLoop 0 ((buf.drop pos).take (datalenOf header))))
  else some (.ok out)

def dns_txt_packet (buf : Bytes) : Option Bytes := packetLoop buf (txtAnswer buf) []

/-- `V4mappedprefix`. -/
def v4mapped : Bytes := [0, 0, 0, 0, 0, 0, 0, 0, 0, 0, 255, 255]

/-- `out` is a list of addresses. -/
def ipAnswer (buf header : Bytes) (pos : Nat) (out : List Bytes) : Option (Except (List Bytes) (List Bytes)) :=
  if typeOf header = DNS_T_AAAA then
    if classOf header = DNS_C_IN ∧ datalenOf header = 16 then
      (dns_packet_copy buf pos 16).map fun copied => .ok (out ++ [copied.1])
    else some (.ok out)
  else if typeOf header = DNS_T_A ∧ classOf header = DNS_C_IN ∧ datalenOf header = 4 then
    (dns_packet_copy buf pos 4).map fun copied => .ok (out ++ [v4mapped ++ copied.1])
  else some (.ok out)

/-- `dns_random`. In one call of `dns_sortip6` it is asked once for each number. -/
structure Random where
  next : Nat → Nat
  lt : ∀ n, 0 < n → next n < n

/-- The elements `i` and `j` change places. -/
def swap {α : Type} (s : List α) (i j : Nat) : List α :=
  match s[i]?, s[j]? with
  | some x, some y => (s.set i y).set j x
  | _, _ => s

/-- The loop of `dns_sortip6`. -/
def sortLoop (rand : Random) {α : Type} : Nat → List α → List α
  | n + 2, s => sortLoop rand (n + 1) (swap s (rand.next (n + 2)) (n + 1))
  | _, s => s

def dns_sortip6 (rand : Random) (s : List Bytes) : List Bytes := sortLoop rand s.length s

def dns_ip6_packet_add (rand : Random) (out : List Bytes) (buf : Bytes) : Option (List Bytes) :=
  (packetLoop buf (ipAnswer buf) out).map (dns_sortip6 rand)

def nameAnswer (buf header : Bytes) (pos : Nat) (out : Bytes) : Option (Except Bytes Bytes) :=
  if typeOf header = DNS_T_PTR ∧ classOf header = DNS_C_IN then
    (dns_packet_getname buf pos).bind fun q =>
      (dns_domain_todot_cat q.1).map fun text => .error (out ++ text)
  else some (.ok out)

def dns_name_packet (buf : Bytes) : Option Bytes := packetLoop buf (nameAnswer buf) []

/-! ## Packets -/

/-- An answer: its name, what is in front of the data, and where the data is. -/
structure Answer where
  name : Name
  header : Bytes
  pos : Nat

/-- The answers from a position on, however their names are written. -/
inductive AnswersAt (buf : Bytes) : Nat → List Answer → Prop where
  | nil {pos : Nat} : AnswersAt buf pos []
  | cons {pos j p q : Nat} {n : Name} {header : Bytes} {as : List Answer} (name : NameAt buf pos n j p)
      (header_eq : dns_packet_copy buf p 10 = some (header, q))
      (rest : AnswersAt buf (q + datalenOf header) as) : AnswersAt buf pos (⟨n, header, q⟩ :: as)

/-- A packet with a question and answers. -/
structure Reply (buf : Bytes) (question : Name) (as : List Answer) : Prop where
  header : ∃ header, dns_packet_copy buf 0 12 = some (header, 12) ∧
    uint16_unpack_big (header.drop 6) = as.length
  body : ∃ j p, NameAt buf 12 question j p ∧ AnswersAt buf (p + 4) as

section Reading

variable {β : Type} {buf : Bytes} {question : Name} {as : List Answer} {pos : Nat} {out : β}
  {answer : Bytes → Nat → β → Option (Except β β)}

/-- What a function makes of the answers. -/
def readAll (answer : Bytes → Nat → β → Option (Except β β)) : List Answer → β → Option β
  | [], out => some out
  | a :: as, out =>
      (answer a.header a.pos out).bind fun
        | .error out => some out
        | .ok out => readAll answer as out

theorem answersLoop_eq (h : AnswersAt buf pos as) (out : β) :
    answersLoop buf answer as.length pos out = readAll answer as out := by
  induction h generalizing out with
  | nil => rfl
  | cons name header_eq rest ih =>
      rw [List.length_cons, answersLoop, dns_packet_skipname_of name, Option.bind_some, header_eq, Option.bind_some,
        readAll]
      refine congrArg _ (funext fun r => ?_)
      cases r with
      | error out => rfl
      | ok out => exact ih out

/-- **The answers are read** one by one. -/
theorem packetLoop_eq (h : Reply buf question as) (out : β) :
    packetLoop buf answer out = readAll answer as out := by
  obtain ⟨header, hcopy, hlen⟩ := h.header
  obtain ⟨j, p, hname, hanswers⟩ := h.body
  rw [packetLoop, hcopy, Option.bind_some, dns_packet_skipname_of hname, Option.bind_some, hlen,
    answersLoop_eq hanswers]

/-- A function that takes something of every answer takes it of all of them, or fails if it fails with one. -/
theorem readAll_append {γ : Type} {answer : Bytes → Nat → List γ → Option (Except (List γ) (List γ))}
    {piece : Answer → Option (List γ)}
    (h : ∀ a out, answer a.header a.pos out = (piece a).map fun x => .ok (out ++ x)) (out : List γ) :
    readAll answer as out = (as.mapM piece).map fun xs => out ++ xs.flatten := by
  induction as generalizing out with
  | nil => exact congrArg some (List.append_nil out).symm
  | cons a as ih =>
      rw [readAll, h, List.mapM_cons]
      cases piece a with
      | none => rfl
      | some x =>
          rw [Option.map_some, Option.bind_some]
          dsimp only
          rw [ih, Option.bind_eq_bind, Option.bind_some]
          cases as.mapM piece with
          | none => rfl
          | some xs => exact congrArg some (List.append_assoc out x xs.flatten)

end Reading

/-- The data of an answer. -/
def Answer.data (buf : Bytes) (a : Answer) : Bytes := (buf.drop a.pos).take (datalenOf a.header)

/-- The data of an answer is in the packet. -/
def Answer.Inside (buf : Bytes) (a : Answer) : Prop := a.pos + datalenOf a.header ≤ buf.length

instance (buf : Bytes) (a : Answer) : Decidable (a.Inside buf) := Nat.decLe _ _

section Copy

variable {buf : Bytes} {pos n : Nat}

theorem dns_packet_copy_some (h : pos + n ≤ buf.length) :
    dns_packet_copy buf pos n = some ((buf.drop pos).take n, pos + n) := by
  induction n generalizing pos with
  | zero => rfl
  | succ n ih =>
      have hlt : pos < buf.length := by omega
      rw [dns_packet_copy, List.getElem?_eq_getElem hlt, ih (by omega), List.drop_eq_getElem_cons hlt,
        List.take_succ_cons]
      simp only [Option.bind_eq_bind, Option.bind_some]
      rw [Nat.add_right_comm, Nat.add_assoc]
      rfl

theorem dns_packet_copy_none (hn : 0 < n) (h : ¬ pos + n ≤ buf.length) : dns_packet_copy buf pos n = none := by
  induction n generalizing pos with
  | zero => exact absurd hn (Nat.lt_irrefl 0)
  | succ n ih =>
      rw [dns_packet_copy]
      cases hch : buf[pos]? with
      | none => rfl
      | some ch =>
          obtain ⟨hlt, -⟩ := List.getElem?_eq_some_iff.mp hch
          have hnext : dns_packet_copy buf (pos + 1) n = none := by
            cases n with
            | zero => exact absurd hlt (by omega)
            | succ n => exact ih (Nat.succ_pos n) (by omega)
          rw [hnext]
          rfl

end Copy

/-! ## Texts -/

section Texts

variable {buf : Bytes} {question : Name} {as : List Answer}

/-- The text in an answer. -/
def Answer.text (buf : Bytes) (a : Answer) : Option Bytes :=
  if typeOf a.header = DNS_T_TXT ∧ classOf a.header = DNS_C_IN then
    if a.Inside buf then some (txtLoop 0 (a.data buf)) else none
  else some []

theorem txtAnswer_eq (a : Answer) (out : Bytes) :
    txtAnswer buf a.header a.pos out = (a.text buf).map fun x => .ok (out ++ x) := by
  rw [txtAnswer, Answer.text]
  by_cases htxt : typeOf a.header = DNS_T_TXT ∧ classOf a.header = DNS_C_IN
  · rw [if_pos htxt, if_pos htxt]
    by_cases hinside : a.Inside buf
    · rw [if_neg (Nat.not_lt.mpr hinside), if_pos hinside]
      rfl
    · rw [if_pos (Nat.not_le.mp hinside), if_neg hinside]
      rfl
  · rw [if_neg htxt, if_neg htxt, Option.map_some, List.append_nil]

/-- A text of strings, each with its length. -/
def packStrings (strings : List Bytes) : Bytes := strings.flatMap fun s => UInt8.ofNat s.length :: s

theorem txtLoop_skip (s rest : Bytes) : txtLoop s.length (s ++ rest) = s.map txtByte ++ txtLoop 0 rest := by
  induction s with
  | nil => rfl
  | cons ch s ih =>
      rw [List.length_cons, List.cons_append, txtLoop, ih]
      rfl

theorem txtLoop_strings (strings : List Bytes) (h : ∀ s ∈ strings, s.length ≤ 255) :
    txtLoop 0 (packStrings strings) = strings.flatten.map txtByte := by
  induction strings with
  | nil => rfl
  | cons s strings ih =>
      have hs := h s List.mem_cons_self
      have hlen : (UInt8.ofNat s.length).toNat = s.length := by
        rw [UInt8.toNat_ofNat']
        exact Nat.mod_eq_of_lt (by omega)
      rw [packStrings, List.flatMap_cons, List.cons_append, txtLoop, hlen, txtLoop_skip, ← packStrings,
        ih fun s hs => h s (List.mem_cons_of_mem _ hs), List.flatten_cons, List.map_append]

/-- What is written can be printed. -/
theorem txtByte_printable (ch : Byte) : 32 ≤ txtByte ch ∧ txtByte ch ≤ 126 := by
  have hall : ∀ n < 256, 32 ≤ txtByte (UInt8.ofNat n) ∧ txtByte (UInt8.ofNat n) ≤ 126 := by decide +kernel
  have h := hall ch.toNat ch.toNat_lt
  rwa [UInt8.ofNat_toNat] at h

theorem txtLoop_printable (k : Nat) (data : Bytes) : ∀ x ∈ txtLoop k data, 32 ≤ x ∧ x ≤ 126 := by
  induction data generalizing k with
  | nil =>
      intro x hx
      rw [txtLoop] at hx
      exact absurd hx List.not_mem_nil
  | cons ch data ih =>
      intro x hx
      cases k with
      | zero => exact ih ch.toNat x hx
      | succ k =>
          rcases List.mem_cons.mp hx with rfl | hx
          · exact txtByte_printable ch
          · exact ih k x hx

end Texts

/-! ## Addresses -/

section Addresses

variable {buf : Bytes} {question : Name} {as : List Answer}

theorem swap_perm {α : Type} (s : List α) (i j : Nat) : (swap s i j).Perm s := by
  rw [swap]
  cases hi : s[i]? with
  | none => exact .refl s
  | some x =>
      cases hj : s[j]? with
      | none => exact .refl s
      | some y =>
          obtain ⟨hilt, rfl⟩ := List.getElem?_eq_some_iff.mp hi
          obtain ⟨hjlt, rfl⟩ := List.getElem?_eq_some_iff.mp hj
          exact List.set_set_perm hilt hjlt

theorem sortLoop_perm (rand : Random) {α : Type} (n : Nat) (s : List α) : (sortLoop rand n s).Perm s := by
  induction n generalizing s with
  | zero => exact .refl s
  | succ n ih =>
      cases n with
      | zero => exact .refl s
      | succ n => exact (ih _).trans (swap_perm s _ _)

/-- The address in an answer. -/
def Answer.address (buf : Bytes) (a : Answer) : Option (List Bytes) :=
  if typeOf a.header = DNS_T_AAAA ∧ classOf a.header = DNS_C_IN ∧ datalenOf a.header = 16 then
    if a.Inside buf then some [a.data buf] else none
  else if typeOf a.header = DNS_T_A ∧ classOf a.header = DNS_C_IN ∧ datalenOf a.header = 4 then
    if a.Inside buf then some [v4mapped ++ a.data buf] else none
  else some []

theorem copy_data (a : Answer) {n : Nat} (hn : 0 < n) (hlen : datalenOf a.header = n) :
    (dns_packet_copy buf a.pos n).map Prod.fst = if a.Inside buf then some (a.data buf) else none := by
  by_cases hinside : a.Inside buf
  · rw [if_pos hinside, Answer.data, hlen, dns_packet_copy_some (hlen ▸ hinside)]
    rfl
  · rw [if_neg hinside, dns_packet_copy_none hn (hlen ▸ hinside)]
    rfl

/-- One address is taken. -/
theorem copy_answer (a : Answer) (out : List Bytes) (front : Bytes) {n : Nat} (hn : 0 < n)
    (hlen : datalenOf a.header = n) :
    ((dns_packet_copy buf a.pos n).map fun copied =>
        (.ok (out ++ [front ++ copied.1]) : Except (List Bytes) (List Bytes))) =
      (if a.Inside buf then some [front ++ a.data buf] else none).map fun x => .ok (out ++ x) := by
  have hfst : ((dns_packet_copy buf a.pos n).map fun copied =>
        (.ok (out ++ [front ++ copied.1]) : Except (List Bytes) (List Bytes))) =
      ((dns_packet_copy buf a.pos n).map Prod.fst).map fun x => .ok (out ++ [front ++ x]) := by
    rw [Option.map_map]
    rfl
  rw [hfst, copy_data a hn hlen]
  by_cases hinside : a.Inside buf
  · rw [if_pos hinside, if_pos hinside]
    rfl
  · rw [if_neg hinside, if_neg hinside]
    rfl

theorem ipAnswer_eq (a : Answer) (out : List Bytes) :
    ipAnswer buf a.header a.pos out = (a.address buf).map fun x => .ok (out ++ x) := by
  rw [ipAnswer, Answer.address]
  by_cases h6 : typeOf a.header = DNS_T_AAAA
  · have hne : ¬ typeOf a.header = DNS_T_A := by
      rw [h6]
      decide
    rw [if_pos h6]
    by_cases h : classOf a.header = DNS_C_IN ∧ datalenOf a.header = 16
    · rw [if_pos h, if_pos ⟨h6, h⟩]
      exact copy_answer a out [] (by decide) h.2
    · rw [if_neg h, if_neg fun h' => h h'.2, if_neg fun h' => hne h'.1, Option.map_some, List.append_nil]
  · have hne : ¬ (typeOf a.header = DNS_T_AAAA ∧ classOf a.header = DNS_C_IN ∧ datalenOf a.header = 16) :=
      fun h => h6 h.1
    rw [if_neg h6, if_neg hne]
    by_cases h : typeOf a.header = DNS_T_A ∧ classOf a.header = DNS_C_IN ∧ datalenOf a.header = 4
    · rw [if_pos h, if_pos h]
      exact copy_answer a out v4mapped (by decide) h.2.2
    · rw [if_neg h, if_neg h, Option.map_some, List.append_nil]

end Addresses

/-! ## What is read -/

section Read

variable {buf : Bytes} {question : Name} {as : List Answer}

/-- The texts of a packet. -/
theorem dns_txt_packet_eq (h : Reply buf question as) :
    dns_txt_packet buf = (as.mapM (Answer.text buf)).map List.flatten := by
  rw [dns_txt_packet, packetLoop_eq h, readAll_append txtAnswer_eq]
  rfl

/-- The addresses of a packet, in any order. -/
theorem dns_ip6_packet_add_eq (rand : Random) (h : Reply buf question as) (out : List Bytes) :
    dns_ip6_packet_add rand out buf =
      (as.mapM (Answer.address buf)).map fun xs => dns_sortip6 rand (out ++ xs.flatten) := by
  rw [dns_ip6_packet_add, packetLoop_eq h, readAll_append ipAnswer_eq, Option.map_map]
  rfl

def Answer.isPtr (a : Answer) : Bool := typeOf a.header = DNS_T_PTR ∧ classOf a.header = DNS_C_IN

/-- The first name of a packet. -/
theorem dns_name_packet_eq (h : Reply buf question as) :
    dns_name_packet buf = (as.find? Answer.isPtr).elim (some []) fun a =>
      (dns_packet_getname buf a.pos).bind fun q => dns_domain_todot_cat q.1 := by
  rw [dns_name_packet, packetLoop_eq h]
  clear h
  induction as with
  | nil => rfl
  | cons a as ih =>
      rw [readAll, nameAnswer]
      by_cases hptr : typeOf a.header = DNS_T_PTR ∧ classOf a.header = DNS_C_IN
      · have hisptr : a.isPtr = true := decide_eq_true hptr
        rw [if_pos hptr, List.find?_cons_of_pos hisptr, Option.elim_some]
        generalize dns_packet_getname buf a.pos = r
        cases r with
        | none => rfl
        | some q =>
            rw [Option.bind_some, Option.bind_some]
            generalize dns_domain_todot_cat q.1 = text
            cases text with
            | none => rfl
            | some text => rfl
      · have hisptr : ¬ a.isPtr = true := fun hp => hptr (of_decide_eq_true hp)
        rw [if_neg hptr, List.find?_cons_of_neg hisptr, Option.bind_some]
        exact ih

theorem todot_of_getname (pos : Nat) (text : Bytes) :
    ((dns_packet_getname buf pos).bind fun q => dns_domain_todot_cat q.1) = some text ↔
      ∃ m j next, NameAt buf pos m j next ∧ (pack m).length ≤ 255 ∧ (pack m).length + j < 1000 ∧
        text = nameText m := by
  have htodot : ∀ m, dns_domain_todot_cat (pack m) = some (nameText m) := by
    intro m
    have h := dns_domain_todot_pack m []
    rwa [List.append_nil] at h
  constructor
  · intro h
    obtain ⟨⟨q, next⟩, hname, htext⟩ := Option.bind_eq_some_iff.mp h
    obtain ⟨m, j, hm, rfl, hshort, hjumps⟩ := (dns_packet_getname_iff buf pos q next).mp hname
    rw [htodot] at htext
    exact ⟨m, j, next, hm, hshort, hjumps, (Option.some.inj htext).symm⟩
  · rintro ⟨m, j, next, hm, hshort, hjumps, rfl⟩
    have hname := (dns_packet_getname_iff buf pos _ next).mpr ⟨m, j, hm, rfl, hshort, hjumps⟩
    rw [hname]
    exact htodot m

/-- **What is read from a reply**, with any answers before and between: the texts of all strings, the
addresses of both kinds, and the text of the first name. It is not read at all if the data of an answer that
is wanted goes on behind the packet, or its name is not there. -/
theorem packets_read (rand : Random) (h : Reply buf question as) (out : List Bytes) :
    dns_txt_packet buf = (as.mapM (Answer.text buf)).map List.flatten ∧
      (as.mapM (Answer.address buf) = none → dns_ip6_packet_add rand out buf = none) ∧
      (∀ xs, as.mapM (Answer.address buf) = some xs →
        ∃ s, dns_ip6_packet_add rand out buf = some s ∧ s.Perm (out ++ xs.flatten)) ∧
      ∀ text, dns_name_packet buf = some text ↔
        (as.find? Answer.isPtr = none ∧ text = []) ∨
          ∃ a m j next, as.find? Answer.isPtr = some a ∧ NameAt buf a.pos m j next ∧
            (pack m).length ≤ 255 ∧ (pack m).length + j < 1000 ∧ text = nameText m := by
  refine ⟨dns_txt_packet_eq h, ?_, ?_, ?_⟩
  · intro hnone
    rw [dns_ip6_packet_add_eq rand h, hnone]
    rfl
  · intro xs hxs
    refine ⟨dns_sortip6 rand (out ++ xs.flatten), ?_, sortLoop_perm rand _ _⟩
    rw [dns_ip6_packet_add_eq rand h, hxs]
    rfl
  · intro text
    rw [dns_name_packet_eq h]
    cases hptr : as.find? Answer.isPtr with
    | none =>
        constructor
        · intro htext
          exact .inl ⟨rfl, (Option.some.inj htext).symm⟩
        · rintro (⟨-, rfl⟩ | ⟨a, m, j, next, ha, -⟩)
          · rfl
          · cases ha
    | some a =>
        rw [Option.elim_some, todot_of_getname]
        constructor
        · rintro ⟨m, j, next, htext⟩
          exact .inr ⟨a, m, j, next, rfl, htext⟩
        · rintro (⟨ha, -⟩ | ⟨a', m, j, next, ha, htext⟩)
          · cases ha
          · cases ha
            exact ⟨m, j, next, htext⟩

end Read

/-! ## A reply with answers of four types -/

namespace Mixed

def question : Name := [⟨[97], by decide, by decide⟩]

def rand : Random := ⟨fun _ => 0, fun _ h => h⟩

/-- The texts, an address of each kind, and `b.a`. The names of the answers are that of the question,
which the last name also goes on with. -/
def packet : Bytes :=
  [7, 9, 129, 128, 0, 1, 0, 4, 0, 0, 0, 0, 1, 97, 0, 0, 255, 0, 1,
    192, 12, 0, 16, 0, 1, 0, 0, 0, 60, 0, 7, 2, 104, 105, 3, 97, 108, 108,
    192, 12, 0, 1, 0, 1, 0, 0, 0, 60, 0, 4, 127, 0, 0, 1,
    192, 12, 0, 28, 0, 1, 0, 0, 0, 60, 0, 16, 0, 0, 0, 0, 0, 0, 0, 0, 0, 0, 0, 0, 0, 0, 0, 1,
    192, 12, 0, 12, 0, 1, 0, 0, 0, 60, 0, 4, 1, 98, 192, 12]

def header (type datalen : Byte) : Bytes := [0, type, 0, 1, 0, 0, 0, 60, 0, datalen]

def answers : List Answer :=
  [⟨question, header 16 7, 31⟩, ⟨question, header 1 4, 50⟩,
    ⟨question, header 28 16, 66⟩, ⟨question, header 12 4, 94⟩]

theorem nameAt : NameAt packet 12 question 0 15 := .label _ rfl ⟨_, rfl⟩ (.root rfl)

/-- A name that is that of the question. -/
theorem sameName {pos : Nat} (hhigh : packet[pos]? = some 192) (hlow : packet[pos + 1]? = some 12) :
    NameAt packet pos question 1 (pos + 2) := .jump 192 12 hhigh (by decide) hlow nameAt

/-- An answer with that name, and those behind it. -/
theorem answersAt {pos next : Nat} {type datalen : Byte} {as : List Answer}
    (hhigh : packet[pos]? = some 192) (hlow : packet[pos + 1]? = some 12)
    (hheader : dns_packet_copy packet (pos + 2) 10 = some (header type datalen, pos + 12))
    (hnext : pos + 12 + datalenOf (header type datalen) = next) (h : AnswersAt packet next as) :
    AnswersAt packet pos (⟨question, header type datalen, pos + 12⟩ :: as) := by
  subst hnext
  exact .cons (sameName hhigh hlow) hheader h

theorem reply : Reply packet question answers where
  header := ⟨packet.take 12, rfl, rfl⟩
  body := by
    have hptr : AnswersAt packet 82 [⟨question, header 12 4, 94⟩] :=
      answersAt rfl rfl (by decide +kernel) rfl .nil
    have haddr := @answersAt 54 82 28 16 _ rfl rfl (by decide +kernel) (by decide +kernel) hptr
    have haddr' := @answersAt 38 54 1 4 _ rfl rfl (by decide +kernel) (by decide +kernel) haddr
    have htxt := @answersAt 19 38 16 7 _ rfl rfl (by decide +kernel) (by decide +kernel) haddr'
    exact ⟨0, 15, nameAt, htxt⟩

def hostname : Name := ⟨[98], by decide, by decide⟩ :: question

theorem hostnameAt : NameAt packet 94 hostname 1 98 :=
  .label _ rfl ⟨_, rfl⟩ (sameName rfl rfl)

end Mixed

theorem packets_read_mixed :
    dns_txt_packet Mixed.packet = some (asc "hiall") ∧
      (∃ s, dns_ip6_packet_add Mixed.rand [] Mixed.packet = some s ∧
        s.Perm [v4mapped ++ [127, 0, 0, 1], List.replicate 15 0 ++ [1]]) ∧
      dns_name_packet Mixed.packet = some (asc "b.a") := by
  obtain ⟨htxt, -, haddr, hname⟩ := packets_read Mixed.rand Mixed.reply []
  refine ⟨htxt.trans (by decide +kernel), haddr [[], [v4mapped ++ [127, 0, 0, 1]],
    [List.replicate 15 0 ++ [1]], []] (by decide +kernel), (hname _).mpr (.inr ?_)⟩
  exact ⟨⟨Mixed.question, Mixed.header 12 4, 94⟩, Mixed.hostname, 1, 98, rfl,
    Mixed.hostnameAt, by decide, by decide, by decide +kernel⟩

end IndimailMta.Resolver
