import Mathlib.Data.List.TakeWhile
import IndimailMta.Base

/-!
# Address tokens

`matchinet` compares the address of a client with a token of a control file: the first four of
their fields that a dot ends, one after another. A field of the token may be `*`, have `?` for a
character, or be a range. The two fields are copied into buffers of eight bytes; after a field that
the NUL ended the pointer is behind the NUL.

The model has no value where a byte is written behind a buffer or read behind an argument, and none
for a `?` behind the end of the client's field, whose byte was not written for this field.
-/

namespace IndimailMta.Access

open IndimailMta

/-- A text of numerals and dots: what `inet_addr` can take for an address. -/
def Numeric (token : Bytes) : Prop :=
  (∀ b ∈ token, isDigit b ∨ 97 ≤ b ∧ b ≤ 102 ∨ 65 ≤ b ∧ b ≤ 70 ∨ b = 120 ∨ b = 88 ∨ b = 46) ∧
    token.count 46 ≤ 3

instance (token : Bytes) : Decidable (Numeric token) := inferInstanceAs (Decidable (_ ∧ _))

/-- `inet_addr` (does it find an address?), `scan_int`, and the addresses of a host. -/
structure Net where
  inet_addr : Bytes → Bool
  numeric : ∀ token, inet_addr token = true → Numeric token
  scan_int : Bytes → Int
  getaddrinfo : Bytes → Option (List Bytes)

variable (net : Net)

/-! ## The code -/

/-- Copy a field. A pointer behind the NUL of its text is `none`. -/
def nextField : Option Bytes → Option (Bytes × Option Bytes)
  | none => none
  | some s =>
      let field := s.takeWhile (· ≠ 46)
      if 8 ≤ field.length then none
      else some (field, (s.dropWhile (· ≠ 46)).tail?)

/-- Put the client's characters for the question marks. A client's NUL ends the field. -/
def questions (field2 : Bytes) : Nat → Bytes → Option Bytes
  | 0, _ => none
  | left + 1, field1 =>
      match field1.findIdx? (· == 63) with
      | none => some field1
      | some lnum =>
          match (field2)[lnum]? with
          | some c => questions field2 left (field1.set lnum c)
          | none =>
              if lnum = field2.length then questions field2 left (field1.take lnum) else none

/-- The range test: a range without its end goes to 256. -/
def inRange (field1 field2 : Bytes) : Bool :=
  match field1.dropWhile (· ≠ 45) with
  | [] => false
  | _ :: ptr =>
      let lnum := net.scan_int (field1.takeWhile (· ≠ 45))
      let hnum := if ptr = [] then 256 else net.scan_int ptr
      let tmp := net.scan_int field2
      lnum ≤ tmp && tmp ≤ hnum

/-- The loop: so many fields are left. -/
def compare : Nat → Option Bytes → Option Bytes → Option Bool
  | 0, _, _ => some true
  | left + 1, ptr1, ptr2 => do
      let (field1, ptr1) ← nextField ptr1
      let (field2, ptr2) ← nextField ptr2
      if field1 = [42] then compare left ptr1 ptr2
      else
        let field1 ← questions field2 (field1.length + 1) field1
        if field1 = field2 ∨ inRange net field1 field2 then compare left ptr1 ptr2
        else some false

def matchinet (ip token : Bytes) (flag : Bool) : Option Int :=
  if token = ip then some 1
  else if net.inet_addr token then some 0
  else do
    if ← compare net 4 (some token) (some ip) then some 1
    else if flag then
      match net.getaddrinfo token with
      | none => some (-1)
      | some addresses => if ip ∈ addresses then some 1 else some 0
    else some 0

/-! ## What a token stands for -/

/-- The client's character at its place for each `?`. -/
def fill (t x : Bytes) : Bytes := t.mapIdx fun i c => if c = 63 then (x)[i]?.getD 63 else c

/-- A field of a token, and one of the client's. -/
def fieldMatches (t x : Bytes) : Bool := t = [42] || fill t x = x || inRange net (fill t x) x

/-- The first fields match, so many of them. -/
def fieldsMatch : Nat → List Bytes → List Bytes → Bool
  | 0, _, _ => true
  | left + 1, t :: ts, x :: xs => fieldMatches net t x && fieldsMatch left ts xs
  | _ + 1, _, _ => false

/-- The token is the address, or stands for it by its four fields. -/
def standsFor (token ip : Bytes) : Bool :=
  token = ip || fieldsMatch net 4 (token.splitOn 46) (ip.splitOn 46)

/-- The fields that are compared exist, fit into their buffers, and have no `?` that is not for a
character of the client's field. -/
def Fit : Nat → List Bytes → List Bytes → Prop
  | 0, _, _ => True
  | left + 1, t :: ts, x :: xs =>
      t.length < 8 ∧ x.length < 8 ∧
        (t ≠ [42] → ∀ i < t.length, (t)[i]? = some 63 → i < x.length) ∧
        (fieldMatches net t x = true → Fit left ts xs)
  | _ + 1, _, _ => False

instance decidableFit : (left : Nat) → (ts xs : List Bytes) → Decidable (Fit net left ts xs)
  | 0, _, _ => .isTrue trivial
  | left + 1, _ :: ts, _ :: xs =>
      have := decidableFit left ts xs
      inferInstanceAs (Decidable (_ ∧ _ ∧ _ ∧ _))
  | _ + 1, [], _ => .isFalse id
  | _ + 1, _ :: _, [] => .isFalse id

/-- A token that `matchinet` can compare with an address. -/
def Comparable (token ip : Bytes) : Prop :=
  token = ip ∨ net.inet_addr token = true ∨ Fit net 4 (token.splitOn 46) (ip.splitOn 46)

instance (token ip : Bytes) : Decidable (Comparable net token ip) :=
  inferInstanceAs (Decidable (_ ∨ _ ∨ _))

/-- The text of an address, of either family. -/
structure IpText (ip : Bytes) : Prop where
  bytes : ∀ b ∈ ip, isDigit b ∨ 97 ≤ b ∧ b ≤ 102 ∨ 65 ≤ b ∧ b ≤ 70 ∨ b = 58 ∨ b = 46
  dots : ip.count 46 ≤ 3

/-! ## Fields -/

theorem splitOn_eq (s : Bytes) :
    s.splitOn 46 = s.takeWhile (· ≠ 46) ::
      match (s.dropWhile (· ≠ 46)).tail? with | none => [] | some r => r.splitOn 46 := by
  induction s with
  | nil => rfl
  | cons b s ih =>
      rw [List.splitOn_cons_eq_if_modifyHead]
      by_cases hb : b = 46
      · simp [hb]
      · rw [if_neg (by simpa using hb), ih]
        simp [hb]

/-- The fields from a pointer on. A pointer behind its text has none. -/
def rest (ptr : Option Bytes) : List Bytes := ptr.elim [] (·.splitOn 46)

theorem rest_some (s : Bytes) :
    rest (some s) = s.takeWhile (· ≠ 46) :: rest (s.dropWhile (· ≠ 46)).tail? := by
  rw [rest, Option.elim_some, splitOn_eq]
  cases (s.dropWhile (· ≠ 46)).tail? <;> rfl

/-! ## Question marks -/

theorem fill_of_notMem {t x : Bytes} (h : (63 : Byte) ∉ t) : fill t x = t := by
  apply List.ext_getElem?
  intro i
  rw [fill, List.getElem?_mapIdx]
  cases hi : (t)[i]? with
  | none => rfl
  | some c =>
      have hc : c ≠ 63 := fun hc => h (hc ▸ List.mem_of_getElem? hi)
      rw [Option.map_some, if_neg hc]

theorem fill_set {t x : Bytes} {i : Nat} {c : Byte} (ht : (t)[i]? = some 63)
    (hx : (x)[i]? = some c) (hc : c ≠ 63) : fill (t.set i c) x = fill t x := by
  apply List.ext_getElem?
  intro j
  rw [fill, fill, List.getElem?_mapIdx, List.getElem?_mapIdx, List.getElem?_set]
  by_cases hj : i = j
  · subst hj
    obtain ⟨hi, hget⟩ := List.getElem?_eq_some_iff.mp ht
    simp [hi, hget, hx, hc]
  · simp [hj]

/-- Every question mark that is for a character of the client's gets it. -/
theorem questions_eq {x : Bytes} (hx : (63 : Byte) ∉ x) {n : Nat} {t : Bytes}
    (ht : ∀ i, (t)[i]? = some 63 → i < x.length) (hn : t.count 63 < n) :
    questions x n t = some (fill t x) := by
  induction n generalizing t with
  | zero => exact absurd hn (Nat.not_lt_zero _)
  | succ n ih =>
      rw [questions]
      cases hf : t.findIdx? (· == 63) with
      | none =>
          have hno : (63 : Byte) ∉ t := by
            rw [List.findIdx?_eq_none_iff] at hf
            exact fun hm => by simpa using hf 63 hm
          simp only [fill_of_notMem hno]
      | some i =>
          rw [List.findIdx?_eq_some_iff_getElem] at hf
          obtain ⟨hi, hti, -⟩ := hf
          have hti' : (t)[i]? = some 63 := by
            rw [List.getElem?_eq_getElem hi]
            simpa using hti
          have hix := ht i hti'
          have hxi : (x)[i]? = some (x)[i] := List.getElem?_eq_getElem hix
          have hne : (x)[i] ≠ 63 := fun h => hx (h ▸ List.getElem_mem hix)
          simp only [hxi]
          rw [ih, fill_set hti' hxi hne]
          · intro j hj
            rw [List.getElem?_set] at hj
            split at hj
            · exact absurd (Option.some.inj hj) hne
            · exact ht j hj
          · have hpos : 0 < t.count 63 := List.count_pos_iff.mpr (List.mem_of_getElem? hti')
            rw [List.count_set hi, if_pos hti, if_neg (by simpa using hne)]
            omega

/-! ## The comparison -/

variable {net}

theorem compare_eq {n : Nat} {ptr1 ptr2 : Option Bytes} (hx : ∀ s ∈ ptr2, (63 : Byte) ∉ s)
    (h : Fit net n (rest ptr1) (rest ptr2)) :
    compare net n ptr1 ptr2 = some (fieldsMatch net n (rest ptr1) (rest ptr2)) := by
  induction n generalizing ptr1 ptr2 with
  | zero => rfl
  | succ n ih =>
      cases ptr1 with
      | none => exact h.elim
      | some s =>
          cases ptr2 with
          | none =>
              rw [rest_some] at h
              exact h.elim
          | some r =>
              rw [rest_some, rest_some] at h ⊢
              obtain ⟨ht8, hx8, hq, hnext⟩ := h
              have hr : (63 : Byte) ∉ r := hx r rfl
              have hrx : (63 : Byte) ∉ r.takeWhile (· ≠ 46) := fun hm =>
                hr (List.takeWhile_subset _ hm)
              have htail : ∀ s ∈ (r.dropWhile (· ≠ 46)).tail?, (63 : Byte) ∉ s := by
                intro s hs hm
                have hsub : s <:+ r := by
                  cases hd : r.dropWhile (· ≠ 46) with
                  | nil =>
                      rw [hd] at hs
                      cases hs
                  | cons b u =>
                      rw [hd] at hs
                      cases hs
                      exact (List.suffix_cons b _).trans (hd ▸ List.dropWhile_suffix _)
                exact hr (hsub.subset hm)
              rw [compare]
              simp only [nextField, if_neg (Nat.not_le.mpr ht8), if_neg (Nat.not_le.mpr hx8),
                Option.bind_eq_bind, Option.bind_some, fieldsMatch]
              set t := s.takeWhile (· ≠ 46) with hdef
              set x := r.takeWhile (· ≠ 46)
              by_cases hstar : t = [42]
              · have hm : fieldMatches net t x = true := by simp [fieldMatches, hstar]
                rw [if_pos hstar, ih htail (hnext hm), hm, Bool.true_and]
              · have hcount : t.count 63 < t.length + 1 := Nat.lt_succ_of_le List.count_le_length
                have hm : fieldMatches net t x = (decide (fill t x = x) || inRange net (fill t x) x) := by
                  simp [fieldMatches, hstar]
                have hin : ∀ i, (t)[i]? = some 63 → i < x.length := fun i hi =>
                  hq hstar i (List.getElem?_eq_some_iff.mp hi).1 hi
                rw [if_neg hstar, questions_eq hrx hin hcount, Option.bind_some]
                by_cases hfm : fill t x = x ∨ inRange net (fill t x) x = true
                · have hm' : fieldMatches net t x = true := by simpa [hm] using hfm
                  rw [if_pos hfm, ih htail (hnext hm'), hm', Bool.true_and]
                · have hm' : fieldMatches net t x = false := by
                    rw [hm]
                    simpa using hfm
                  rw [if_neg hfm, hm', Bool.false_and]

theorem length_splitOn (s : Bytes) : (s.splitOn 46).length = s.count 46 + 1 := by
  induction s with
  | nil => rfl
  | cons b s ih =>
      rw [List.splitOn_cons_eq_if_modifyHead]
      by_cases hb : b = 46
      · simp [hb, ih]
      · simp [hb, ih]

theorem mem_of_mem_splitOn {s t : Bytes} {b : Byte} (ht : t ∈ s.splitOn 46) (hb : b ∈ t) :
    b ∈ s := by
  induction s generalizing t with
  | nil =>
      simp only [List.splitOn_nil, List.mem_singleton] at ht
      subst ht
      exact hb
  | cons c s ih =>
      rw [List.splitOn_cons_eq_if_modifyHead] at ht
      split at ht
      · rcases List.mem_cons.mp ht with rfl | ht
        · cases hb
        · exact List.mem_cons_of_mem c (ih ht hb)
      · cases hs : s.splitOn 46 with
        | nil => simp [hs] at ht
        | cons u us =>
            rw [hs, List.modifyHead_cons] at ht
            rcases List.mem_cons.mp ht with rfl | ht
            · rcases List.mem_cons.mp hb with rfl | hb
              · exact List.mem_cons_self
              · exact List.mem_cons_of_mem c (ih (by simp [hs]) hb)
            · exact List.mem_cons_of_mem c (ih (by simp [hs, ht]) hb)

/-- A field without `*`, `?` and `-` matches itself only. -/
theorem fieldMatches_plain {t x : Bytes} (h42 : (42 : Byte) ∉ t) (h63 : (63 : Byte) ∉ t)
    (h45 : (45 : Byte) ∉ t) (h : fieldMatches net t x = true) : t = x := by
  have hstar : t ≠ [42] := fun hs => h42 (by simp [hs])
  have hrange : inRange net t x = false := by
    have hd : t.dropWhile (· ≠ 45) = [] := by
      rw [List.dropWhile_eq_nil_iff]
      exact fun b hb => decide_eq_true fun hm => h45 (hm ▸ hb)
    rw [inRange, hd]
  simpa [fieldMatches, hstar, fill_of_notMem h63, hrange] using h

theorem fieldsMatch_plain {n : Nat} {ts xs : List Bytes} (ht : ts.length ≤ n)
    (hx : xs.length ≤ n) (hp : ∀ t ∈ ts, (42 : Byte) ∉ t ∧ (63 : Byte) ∉ t ∧ (45 : Byte) ∉ t)
    (h : fieldsMatch net n ts xs = true) : ts = xs := by
  induction n generalizing ts xs with
  | zero =>
      rw [List.length_eq_zero_iff.mp (Nat.le_zero.mp ht),
        List.length_eq_zero_iff.mp (Nat.le_zero.mp hx)]
  | succ n ih =>
      match ts, xs, h with
      | t :: ts, x :: xs, h =>
          simp only [fieldsMatch, Bool.and_eq_true] at h
          obtain ⟨h42, h63, h45⟩ := hp t List.mem_cons_self
          rw [fieldMatches_plain h42 h63 h45 h.1,
            ih (Nat.le_of_succ_le_succ ht) (Nat.le_of_succ_le_succ hx)
              (fun u hu => hp u (List.mem_cons_of_mem t hu)) h.2]

/-- An address that is written out stands for itself only. -/
theorem fieldsMatch_numeric {token ip : Bytes} (ht : Numeric token) (hip : IpText ip)
    (h : fieldsMatch net 4 (token.splitOn 46) (ip.splitOn 46) = true) : token = ip := by
  have hplain : ∀ t ∈ token.splitOn 46, (42 : Byte) ∉ t ∧ (63 : Byte) ∉ t ∧ (45 : Byte) ∉ t :=
    fun t hm =>
      ⟨fun hb => absurd (ht.1 42 (mem_of_mem_splitOn hm hb)) (by decide),
        fun hb => absurd (ht.1 63 (mem_of_mem_splitOn hm hb)) (by decide),
        fun hb => absurd (ht.1 45 (mem_of_mem_splitOn hm hb)) (by decide)⟩
  have heq : token.splitOn 46 = ip.splitOn 46 :=
    fieldsMatch_plain (by rw [length_splitOn]; exact Nat.succ_le_succ ht.2)
      (by rw [length_splitOn]; exact Nat.succ_le_succ hip.dots) hplain h
  calc token = [46].intercalate (token.splitOn 46) := (List.intercalate_splitOn 46).symm
    _ = [46].intercalate (ip.splitOn 46) := by rw [heq]
    _ = ip := List.intercalate_splitOn 46

/-- **A token is compared by its fields**, and no byte outside them is read or written. -/
theorem matchinet_eq {token ip : Bytes} (hip : IpText ip) (h : Comparable net token ip) :
    matchinet net ip token false = some (if standsFor net token ip then 1 else 0) := by
  have h63 : (63 : Byte) ∉ ip := fun hm => absurd (hip.bytes 63 hm) (by decide)
  unfold matchinet standsFor
  by_cases heq : token = ip
  · simp [heq]
  · rw [if_neg heq]
    by_cases hinet : net.inet_addr token = true
    · have hno : fieldsMatch net 4 (token.splitOn 46) (ip.splitOn 46) = false := by
        rw [Bool.eq_false_iff]
        exact fun hm => heq (fieldsMatch_numeric (net.numeric token hinet) hip hm)
      simp [hinet, hno, heq]
    · have hfit : Fit net 4 (token.splitOn 46) (ip.splitOn 46) :=
        (h.resolve_left heq).resolve_left hinet
      rw [if_neg hinet]
      have hc : compare net 4 (some token) (some ip) =
          some (fieldsMatch net 4 (token.splitOn 46) (ip.splitOn 46)) :=
        compare_eq (fun s hs => by cases hs; exact h63) hfit
      rw [hc]
      cases fieldsMatch net 4 (token.splitOn 46) (ip.splitOn 46) <;> simp [heq]

end IndimailMta.Access
