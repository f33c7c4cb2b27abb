import Mathlib.Data.List.TakeWhile
import IndimailMta.Base

/-!
# Assignments in a rule

`parse_env` goes through a text `name=value,name=value,…` in place. A comma ends an item, which is
then a call of `env_put`, or of `env_unset` if its last byte is `=`. A comma behind a `\` belongs to
the value: the text from the comma on is moved over the `\`. The pointer is then already behind the
comma, and the loop moves it once more.

The byte behind an escaped comma is therefore not looked at. `scan` is the loop without the buffer,
and `calls_textOf_iff` says for which assignments the text has the calls they are written for.
-/

namespace IndimailMta.Environment

open IndimailMta

/-- A call of `env_put` or `env_unset`, with its argument. -/
inductive Call where
  | put (s : Bytes)
  | unset (s : Bytes)
  deriving DecidableEq, Repr

def isspace (b : Byte) : Bool := (9 ≤ b && b ≤ 13) || b = 32

/-! ## The loop in its buffer -/

/-- The buffer, the two pointers, and the calls made. -/
structure St where
  buf : Bytes
  ptr1 : Nat
  ptr2 : Nat
  calls : List Call
  deriving DecidableEq, Repr

/-- `ptr1 != envStrings && *(ptr1 - 1) == c` -/
def behind (buf : Bytes) (ptr1 : Nat) (c : Byte) : Bool := ptr1 ≠ 0 && (buf)[ptr1 - 1]? = some c

/-- The string at a pointer. -/
def strAt (buf : Bytes) (i : Nat) : Bytes := cstr (buf.drop i)

/-- `*ptr2 && env_…(ptr2)` -/
def callOf (mk : Bytes → Call) (s : Bytes) : List Call := if s = [] then [] else [mk s]

/-- The item from `ptr2` to `ptr1`, where a NUL is: the buffer, and the call. -/
def closeItem (buf : Bytes) (ptr1 ptr2 : Nat) : Bytes × List Call :=
  if behind buf ptr1 61 then
    let buf := buf.set (ptr1 - 1) 0
    (buf, callOf .unset (strAt buf ptr2))
  else (buf, callOf .put ((strAt buf ptr2).dropWhile isspace))

/-- `for (ptr3 = ptr1 - 1, ptr4 = ptr1; *ptr3; *ptr3++ = *ptr4++)` -/
def moveLeft (buf : Bytes) (ptr1 : Nat) : Bytes :=
  let s := strAt buf ptr1
  buf.take (ptr1 - 1) ++ s ++ 0 :: buf.drop (ptr1 + s.length)

/-- The loop, and the item behind it. No value where a byte behind the buffer is read. -/
def parse : Nat → St → Option St
  | 0, _ => none
  | left + 1, st => do
      let c ← (st.buf)[st.ptr1]?
      if c = 0 then
        let (buf, call) := closeItem st.buf st.ptr1 st.ptr2
        some { st with buf := buf, calls := st.calls ++ call }
      else if c = 44 then
        if behind st.buf st.ptr1 92 then
          parse left { st with buf := moveLeft st.buf st.ptr1, ptr1 := st.ptr1 + 1 }
        else
          let (buf, call) := closeItem (st.buf.set st.ptr1 0) st.ptr1 st.ptr2
          parse left ⟨buf, st.ptr1 + 1, st.ptr1 + 1, st.calls ++ call⟩
      else parse left { st with ptr1 := st.ptr1 + 1 }

/-- `parse_env` on a string, with its NUL: the calls it makes. -/
def parseEnv (envStrings : Bytes) : Option St :=
  parse (envStrings.length + 2) ⟨envStrings ++ [0], 0, 0, []⟩

/-! ## The loop without its buffer -/

/-- The call of an item. -/
def close (item : Bytes) : List Call :=
  if item.getLast? = some 61 then callOf .unset item.dropLast
  else callOf .put (item.dropWhile isspace)

/-- The loop: whether the next byte is passed over, the item so far, and the text that is left. -/
def scan : Bool → Bytes → Bytes → List Call
  | _, item, [] => close item
  | past, item, c :: rest =>
      if past ∨ c ≠ 44 then scan false (item ++ [c]) rest
      else if item.getLast? = some 92 then scan true (item.dropLast ++ [44]) rest
      else close item ++ scan false [] rest

/-! ## What is written -/

/-- A variable, and its value; the empty value unsets it. -/
structure Assignment where
  name : Bytes
  value : Bytes
  deriving DecidableEq, Repr

/-- The effect. -/
def Assignment.call (a : Assignment) : Call :=
  if a.value = [] then .unset a.name else .put (a.name ++ 61 :: a.value)

/-- A value, with its commas escaped. -/
def escape (v : Bytes) : Bytes := v.flatMap fun c => if c = 44 then [92, 44] else [c]

def Assignment.text (a : Assignment) : Bytes := a.name ++ 61 :: escape a.value

/-- The text, as the loop makes an item of it: this is put. -/
def Assignment.item (a : Assignment) : Bytes := a.name ++ 61 :: a.value

/-- The text of a list of assignments. -/
def textOf : List Assignment → Bytes
  | [] => []
  | [a] => a.text
  | a :: as => a.text ++ 44 :: textOf as

/-- A name that can be written. -/
structure Assignment.Named (a : Assignment) : Prop where
  name_nul : (0 : Byte) ∉ a.name
  name_eq : (61 : Byte) ∉ a.name
  name_comma : (44 : Byte) ∉ a.name
  name_space : ∀ b ∈ a.name.head?, isspace b = false
  value_nul : (0 : Byte) ∉ a.value

instance (a : Assignment) : Decidable a.Named :=
  have := @Option.decidableForallMem Byte (fun b => isspace b = false) _ a.name.head?
  decidable_of_iff ((0 : Byte) ∉ a.name ∧ (61 : Byte) ∉ a.name ∧ (44 : Byte) ∉ a.name ∧
      (∀ b ∈ a.name.head?, isspace b = false) ∧ (0 : Byte) ∉ a.value)
    ⟨fun ⟨h0, h61, h44, hs, hv⟩ => ⟨h0, h61, h44, hs, hv⟩,
      fun h => ⟨h.name_nul, h.name_eq, h.name_comma, h.name_space, h.value_nul⟩⟩

/-- An assignment whose text is read as it was written, wherever it stands. -/
structure Assignment.Plain (a : Assignment) : Prop where
  set_or_named : a.value = [] → a.name ≠ []
  last_eq : a.value.getLast? ≠ some 61

/-- A value that a separator can follow. -/
def Assignment.Closed (a : Assignment) : Prop :=
  a.value.getLast? ≠ some 44 ∧ a.value.getLast? ≠ some 92

/-- All assignments are read as they were written. -/
def Readable (as : List Assignment) : Prop :=
  (∀ a ∈ as, a.Plain) ∧ ∀ a ∈ as.dropLast, a.Closed

/-! ## The scan of a value -/

theorem scan_byte {c : Byte} (h : c ≠ 44) (past : Bool) (item rest : Bytes) :
    scan past item (c :: rest) = scan false (item ++ [c]) rest := by
  rw [scan, if_pos (.inr h)]

/-- What stands in front of the value. -/
theorem scan_bytes {s : Bytes} (h : (44 : Byte) ∉ s) (item rest : Bytes) :
    scan false item (s ++ rest) = scan false (item ++ s) rest := by
  induction s generalizing item with
  | nil => simp
  | cons c s ih =>
      have hc : c ≠ 44 := fun hc => h (hc ▸ List.mem_cons_self)
      rw [List.cons_append, scan_byte hc, ih (fun hm => h (List.mem_cons_of_mem c hm)),
        List.append_assoc, List.singleton_append]

theorem scan_escaped (past : Bool) (item rest : Bytes) :
    scan past item (92 :: 44 :: rest) = scan true (item ++ [44]) rest := by
  rw [scan_byte (by decide), scan, if_neg (by simp), if_pos (by simp), List.dropLast_concat]

theorem escape_cons (c : Byte) (v : Bytes) :
    escape (c :: v) = (if c = 44 then [92, 44] else [c]) ++ escape v := rfl

/-- **A value is read.** The byte behind it is passed over if it ends in a comma. -/
theorem scan_escape (v item rest : Bytes) (past : Bool) :
    scan past item (escape v ++ rest) =
      scan (if v = [] then past else v.getLast? = some 44) (item ++ v) rest := by
  induction v generalizing item past with
  | nil => simp [escape]
  | cons c v ih =>
      have hlast : (if v = [] then decide (c = 44) else decide (v.getLast? = some 44)) =
          decide ((c :: v).getLast? = some 44) := by
        cases v with
        | nil => simp
        | cons d v => simp
      by_cases hc : c = 44
      · subst hc
        rw [escape_cons, if_pos rfl, List.append_assoc, List.cons_append, List.cons_append,
          List.nil_append, scan_escaped, ih, List.append_assoc, List.singleton_append,
          if_neg (List.cons_ne_nil _ _), ← hlast]
        rfl
      · rw [escape_cons, if_neg hc, List.append_assoc, List.singleton_append, scan_byte hc, ih,
          List.append_assoc, List.singleton_append, if_neg (List.cons_ne_nil _ _), ← hlast]
        simp [hc]

/-! ## The scan of an item -/

/-- The last byte of a value is that of the item. -/
theorem Assignment.last_item {a : Assignment} {c : Byte} (hc : c ≠ 61) :
    a.item.getLast? = some c ↔ a.value.getLast? = some c := by
  rw [item]
  cases a.value with
  | nil => simp [Ne.symm hc]
  | cons b v => simp

theorem close_item {a : Assignment} (hn : a.Named) (hp : a.Plain) : close a.item = [a.call] := by
  unfold close Assignment.call Assignment.item
  cases hv : a.value with
  | nil =>
      have hne := hp.set_or_named hv
      simp [callOf, hne]
  | cons b v =>
      have hlast : (a.name ++ 61 :: b :: v).getLast? ≠ some 61 := by
        have := hp.last_eq
        rw [hv] at this
        simpa using this
      have hspace : (a.name ++ 61 :: b :: v).dropWhile isspace = a.name ++ 61 :: b :: v := by
        cases hname : a.name with
        | nil => rfl
        | cons c n =>
            have hc := hn.name_space c (by simp [hname])
            simp [hc]
      rw [if_neg hlast, hspace]
      simp [callOf]

/-- The scan of an assignment's text. -/
theorem scan_text {a : Assignment} (hn : a.Named) (rest : Bytes) :
    scan false [] (a.text ++ rest) =
      scan (a.value.getLast? = some 44) a.item rest := by
  have hpre : (44 : Byte) ∉ a.name ++ [61] := by simpa using hn.name_comma
  have htext : a.text ++ rest = (a.name ++ [61]) ++ (escape a.value ++ rest) := by
    simp [Assignment.text]
  rw [htext, scan_bytes hpre, scan_escape, List.nil_append, List.append_assoc,
    List.singleton_append, Assignment.item]
  congr 1
  cases a.value <;> simp

/-- The text of assignments that are all read as they were written. -/
theorem scan_textOf {as : List Assignment} (hn : ∀ a ∈ as, a.Named) (h : Readable as) :
    scan false [] (textOf as) = as.map Assignment.call := by
  induction as with
  | nil => rfl
  | cons a as ih =>
      obtain ⟨hplain, hclosed⟩ := h
      have hna := hn a List.mem_cons_self
      have hpa := hplain a List.mem_cons_self
      cases as with
      | nil =>
          have := scan_text hna []
          rw [List.append_nil] at this
          rw [textOf, this, List.map_singleton, ← close_item hna hpa]
          rfl
      | cons b as =>
          have hca := hclosed a (by simp)
          have hlast : a.item.getLast? ≠ some 92 :=
            mt (Assignment.last_item (by decide)).mp hca.2
          rw [textOf, scan_text hna, decide_eq_false hca.1, scan, if_neg (by simp), if_neg hlast,
            close_item hna hpa, ih (fun x hx => hn x (List.mem_cons_of_mem a hx))]
          · rfl
          · exact ⟨fun x hx => hplain x (List.mem_cons_of_mem a hx),
              fun x hx => hclosed x (by simp [List.dropLast_cons_of_ne_nil, hx])⟩
          · simp

/-! ## The other direction -/

theorem mem_callOf {mk : Bytes → Call} {s : Bytes} {c : Call} (h : c ∈ callOf mk s) :
    s ≠ [] ∧ c = mk s := by
  unfold callOf at h
  split at h
  · cases h
  · exact ⟨‹_›, List.mem_singleton.mp h⟩

/-- Nothing without a name is unset. -/
theorem unset_nil_notMem (past : Bool) (item rest : Bytes) :
    Call.unset [] ∉ scan past item rest := by
  have hclose : ∀ item, Call.unset [] ∉ close item := by
    intro item h
    unfold close at h
    split at h
    · obtain ⟨hne, heq⟩ := mem_callOf h
      exact hne (Call.unset.inj heq).symm
    · obtain ⟨-, heq⟩ := mem_callOf h
      cases heq
  induction rest generalizing past item with
  | nil => exact hclose item
  | cons c rest ih =>
      rw [scan]
      split
      · exact ih _ _
      · split
        · exact ih _ _
        · rw [List.mem_append, not_or]
          exact ⟨hclose item, ih _ _⟩

/-- The next call for an item that has begun is an unset, or has all of the item in it. -/
theorem first_call {item : Bytes} (hlen : 2 ≤ item.length)
    (hhead : ∀ b ∈ item.head?, isspace b = false) (past : Bool) (rest : Bytes) :
    ∃ c cs, scan past item rest = c :: cs ∧
      ((∃ s, c = .unset s) ∨ ∃ s, c = .put s ∧ item.length ≤ s.length) := by
  have hclose : ∀ item : Bytes, 2 ≤ item.length → (∀ b ∈ item.head?, isspace b = false) →
      ∃ c, close item = [c] ∧ ((∃ s, c = .unset s) ∨ ∃ s, c = .put s ∧ item.length ≤ s.length) := by
    intro item hlen hhead
    match item, hlen, hhead with
    | b :: d :: item, _, hhead =>
        have hb : isspace b = false := hhead b rfl
        unfold close callOf
        split
        · exact ⟨_, if_neg (by simp), .inl ⟨_, rfl⟩⟩
        · exact ⟨_, if_neg (by simp [hb]), .inr ⟨_, rfl, by simp [hb]⟩⟩
  induction rest generalizing past item with
  | nil =>
      obtain ⟨c, hc, h⟩ := hclose item hlen hhead
      exact ⟨c, [], hc, h⟩
  | cons x rest ih =>
      rw [scan]
      split
      · obtain ⟨c, cs, hc, h⟩ := @ih (item ++ [x]) (by simp; omega)
          (by rwa [List.head?_append_of_ne_nil _ (by rintro rfl; simp at hlen)]) false
        refine ⟨c, cs, hc, h.imp_right fun ⟨s, hs, hl⟩ => ⟨s, hs, ?_⟩⟩
        simp only [List.length_append] at hl
        omega
      · split
        · have hl : (item.dropLast ++ [44]).length = item.length := by simp; omega
          have hh : (item.dropLast ++ [44]).head? = item.head? := by
            match item, hlen with
            | b :: d :: item, _ => rfl
          obtain ⟨c, cs, hc, h⟩ := @ih (item.dropLast ++ [44]) (by omega) (by rwa [hh]) true
          exact ⟨c, cs, hc, by rwa [hl] at h⟩
        · obtain ⟨c, hc, h⟩ := hclose item hlen hhead
          exact ⟨c, _, by rw [hc]; rfl, h⟩

theorem textOf_ne_nil (a : Assignment) (as : List Assignment) : textOf (a :: as) ≠ [] := by
  cases as <;> simp [textOf, Assignment.text]

section Item

variable {a : Assignment}

/-- Nothing without a name is unset. -/
theorem Assignment.two_le_item (hname : a.value = [] → a.name ≠ []) : 2 ≤ a.item.length := by
  rw [item, List.length_append, List.length_cons]
  cases hv : a.value with
  | nil =>
      have hpos := List.length_pos_iff.mpr (hname hv)
      omega
  | cons c v =>
      rw [List.length_cons]
      omega

theorem Assignment.Named.head_item (hn : a.Named) : ∀ b ∈ a.item.head?, isspace b = false := by
  rw [item]
  cases hname : a.name with
  | nil => simp [isspace]
  | cons c n => exact fun b hb => hn.name_space b (by rw [hname]; exact hb)

theorem Assignment.call_put {c : Byte} (hc : a.value.getLast? = some c) :
    a.call = .put a.item := by
  refine if_neg fun hv => ?_
  rw [hv] at hc
  cases hc

/-- A value that ends in `=` unsets a variable. -/
theorem close_unset (hlen : 2 ≤ a.item.length) (h61 : a.value.getLast? = some 61) :
    ∃ s, close a.item = [.unset s] := by
  have hlast : a.item.getLast? = some 61 := by
    rw [Assignment.item]
    cases hv : a.value with
    | nil => simp
    | cons b v => simpa [hv] using h61
  refine ⟨a.item.dropLast, ?_⟩
  rw [close, if_pos hlast, callOf, if_neg]
  intro hd
  have hzero := congrArg List.length hd
  rw [List.length_dropLast, List.length_nil] at hzero
  omega

/-- The last byte of a value is not `=`, if the item is put. -/
theorem last_ne_of_close {calls cs : List Call} (hlen : 2 ≤ a.item.length)
    (h : close a.item ++ calls = a.call :: cs) : a.value.getLast? ≠ some 61 := by
  intro h61
  obtain ⟨s, hs⟩ := close_unset hlen h61
  rw [hs, Assignment.call_put h61] at h
  cases h

/-- A longer item is not put as the one it begins with. -/
theorem scan_longer {past : Bool} {rest : Bytes} {cs : List Call} (hlen : 2 ≤ a.item.length)
    (hn : a.Named) {item : Bytes} (hitem : item.head? = a.item.head?)
    (hx : a.item.length < item.length) (hcall : a.call = .put a.item) :
    scan past item rest ≠ a.call :: cs := by
  intro heq
  obtain ⟨c, cs', hc, hkind⟩ := @first_call item (by omega) (hitem ▸ hn.head_item) past rest
  rw [hc, hcall] at heq
  obtain ⟨rfl, -⟩ := List.cons.inj heq
  rcases hkind with ⟨s, hs⟩ | ⟨s, hs, hls⟩
  · cases hs
  · cases hs
    omega

/-- **An assignment with others behind it** is read as it was written only if a separator can follow
its value. -/
theorem closed_of_scan {rest : Bytes} {cs : List Call} (hn : a.Named)
    (hname : a.value = [] → a.name ≠ []) (hrest : rest ≠ [])
    (h : scan false [] (a.text ++ 44 :: rest) = a.call :: cs) :
    a.Plain ∧ a.Closed ∧ scan false [] rest = cs := by
  have hlen := a.two_le_item hname
  rw [scan_text hn] at h
  have h44 : a.value.getLast? ≠ some 44 := by
    intro hc
    rw [decide_eq_true hc, scan, if_pos (.inl rfl)] at h
    have hhead : (a.item ++ [44]).head? = a.item.head? :=
      List.head?_append_of_ne_nil _ (List.ne_nil_of_length_pos (by omega))
    exact scan_longer hlen hn hhead (by simp) (a.call_put hc) h
  rw [decide_eq_false h44, scan, if_neg (by simp)] at h
  have h92 : a.value.getLast? ≠ some 92 := by
    intro hc
    obtain ⟨x, rest, rfl⟩ := List.exists_cons_of_ne_nil hrest
    rw [if_pos ((Assignment.last_item (by decide)).mpr hc), scan, if_pos (.inl rfl)] at h
    have hhead : (a.item.dropLast ++ [44] ++ [x]).head? = a.item.head? := by
      match a.item, hlen with
      | b :: d :: item, _ => rfl
    refine scan_longer hlen hn hhead ?_ (a.call_put hc) h
    simp only [List.length_append, List.length_dropLast, List.length_singleton]
    omega
  rw [if_neg (mt (Assignment.last_item (by decide)).mp h92)] at h
  have hplain : a.Plain := ⟨hname, last_ne_of_close hlen h⟩
  rw [close_item hn hplain, List.singleton_append] at h
  exact ⟨hplain, ⟨h44, h92⟩, (List.cons.inj h).2⟩

/-- The last assignment is read as it was written. -/
theorem plain_of_scan {cs : List Call} (hn : a.Named) (hname : a.value = [] → a.name ≠ [])
    (h : scan false [] a.text = a.call :: cs) : a.Plain := by
  have htext := scan_text hn []
  rw [List.append_nil] at htext
  rw [htext, scan, ← List.append_nil (close _)] at h
  exact ⟨hname, last_ne_of_close (a.two_le_item hname) h⟩

end Item

/-- Where the text has the calls it was written for, it is read as it was written. -/
theorem readable_of_scan {as : List Assignment} (hn : ∀ a ∈ as, a.Named)
    (h : scan false [] (textOf as) = as.map Assignment.call) : Readable as := by
  induction as with
  | nil => exact ⟨fun a ha => (List.not_mem_nil ha).elim, fun a ha => (List.not_mem_nil ha).elim⟩
  | cons a as ih =>
      have hna := hn a List.mem_cons_self
      have hname : a.value = [] → a.name ≠ [] := by
        intro hv hn
        have hmem : Call.unset [] ∈ (a :: as).map Assignment.call := by
          simp [Assignment.call, hv, hn]
        exact unset_nil_notMem _ _ _ (h ▸ hmem)
      cases as with
      | nil =>
          refine ⟨fun x hx => ?_, fun x hx => absurd hx List.not_mem_nil⟩
          obtain rfl := List.mem_singleton.mp hx
          exact plain_of_scan hna hname h
      | cons b as =>
          obtain ⟨hplain, hclosed, hrest⟩ := closed_of_scan hna hname (textOf_ne_nil b as) h
          obtain ⟨hps, hcs⟩ := ih (fun x hx => hn x (List.mem_cons_of_mem a hx)) hrest
          refine ⟨fun x hx => ?_, fun x hx => ?_⟩
          · rcases List.mem_cons.mp hx with rfl | hx
            · exact hplain
            · exact hps x hx
          · rw [List.dropLast_cons_of_ne_nil (List.cons_ne_nil _ _)] at hx
            rcases List.mem_cons.mp hx with rfl | hx
            · exact hclosed
            · exact hcs x hx

/-! ## The buffer -/

/-- The buffer at the pointer: what is in front of the item, the item, the text that is left, and
what is behind it. -/
structure At (st : St) (before item rest junk : Bytes) : Prop where
  buf_eq : st.buf = before ++ (item ++ (rest ++ 0 :: junk))
  ptr2_eq : st.ptr2 = before.length
  ptr1_eq : st.ptr1 = before.length + item.length
  item_nul : (0 : Byte) ∉ item
  rest_nul : (0 : Byte) ∉ rest
  before_end : before = [] ∨ ∃ s, before = s ++ [0]

theorem behind_item {before item tail : Bytes} {c : Byte} (hc : c ≠ 0)
    (hb : before = [] ∨ ∃ s, before = s ++ [0]) :
    behind (before ++ (item ++ tail)) (before.length + item.length) c =
      (item.getLast? = some c : Bool) := by
  unfold behind
  rcases List.eq_nil_or_concat' item with rfl | ⟨u, d, rfl⟩
  · rcases hb with rfl | ⟨s, rfl⟩
    · simp
    · simp [Ne.symm hc]
  · have hidx : before.length + (u ++ [d]).length - 1 = before.length + u.length := by
      simp
    rw [hidx, List.getElem?_append_right (by omega)]
    simp

theorem strAt_item {before item tail : Bytes} (h0 : (0 : Byte) ∉ item) :
    strAt (before ++ (item ++ 0 :: tail)) before.length = item := by
  rw [strAt, List.drop_left, cstr_append _ h0]

/-- An item that was ended by a NUL. -/
theorem closeItem_eq {before item : Bytes} (tail : Bytes) (h0 : (0 : Byte) ∉ item)
    (hb : before = [] ∨ ∃ s, before = s ++ [0]) :
    ∃ item', item'.length = item.length ∧
      closeItem (before ++ (item ++ 0 :: tail)) (before.length + item.length) before.length =
        (before ++ (item' ++ 0 :: tail), close item) := by
  unfold closeItem close
  rw [behind_item (by decide) hb]
  by_cases h61 : item.getLast? = some 61
  · obtain ⟨u, rfl⟩ : ∃ u, item = u ++ [61] := by
      rcases List.eq_nil_or_concat' item with rfl | ⟨u, d, rfl⟩
      · simp at h61
      · exact ⟨u, by simpa using h61⟩
    have hu : (0 : Byte) ∉ u := fun h => h0 (List.mem_append_left _ h)
    have hset : (before ++ ((u ++ [61]) ++ 0 :: tail)).set
        (before.length + (u ++ [61]).length - 1) 0 = before ++ (u ++ 0 :: (0 :: tail)) := by
      have hidx : before.length + (u ++ [61]).length - 1 = before.length + u.length := by simp
      rw [hidx, List.set_append_right _ _ (by omega), Nat.add_sub_cancel_left]
      simp
    refine ⟨u ++ [0], by simp, ?_⟩
    rw [if_pos (by simp), if_pos (by simp)]
    dsimp only
    rw [hset, strAt_item hu]
    simp
  · refine ⟨item, rfl, ?_⟩
    rw [if_neg (by simpa using h61), if_neg h61, strAt_item h0]

/-- A text is moved over the byte in front of it. -/
theorem moveLeft_eq {u s junk : Bytes} {c : Byte} (h0 : (0 : Byte) ∉ s) :
    moveLeft (u ++ c :: (s ++ 0 :: junk)) (u.length + 1) = u ++ s ++ 0 :: 0 :: junk := by
  have hdrop : (u ++ c :: (s ++ 0 :: junk)).drop (u.length + 1) = s ++ 0 :: junk := by
    rw [List.drop_append, List.drop_eq_nil_of_le (by omega), List.nil_append,
      Nat.add_sub_cancel_left]
    rfl
  have hs : strAt (u ++ c :: (s ++ 0 :: junk)) (u.length + 1) = s := by
    rw [strAt, hdrop, cstr_append _ h0]
  rw [moveLeft, hs, Nat.add_sub_cancel, List.take_left, ← List.drop_drop, hdrop, List.drop_left]

/-- **The buffer is read as its text.** -/
theorem parse_eq {n : Nat} {st : St} {before item rest junk : Bytes}
    (h : At st before item rest junk) (hn : rest.length + 1 ≤ n) :
    ∃ st', parse n st = some st' ∧ st'.calls = st.calls ++ scan false item rest ∧
      st'.buf.length = st.buf.length := by
  induction n generalizing st before item rest junk with
  | zero => omega
  | succ n ih =>
      obtain ⟨hbuf, hptr2, hptr1, hitem, hrest, hend⟩ := h
      have hchar : (st.buf)[st.ptr1]? = (rest ++ 0 :: junk).head? := by
        rw [hbuf, hptr1, List.getElem?_append_right (by omega), Nat.add_sub_cancel_left,
          List.getElem?_append_right (Nat.le_refl _), Nat.sub_self, List.head?_eq_getElem?]
      cases rest with
      | nil =>
          obtain ⟨item', hlen, hclose⟩ := closeItem_eq junk hitem hend
          have hbuf' : st.buf = before ++ (item ++ 0 :: junk) := by simpa using hbuf
          refine ⟨{ st with buf := before ++ (item' ++ 0 :: junk), calls := st.calls ++ close item },
            ?_, rfl, by simp [hbuf', hlen]⟩
          simp only [parse, hchar, List.nil_append, List.head?_cons, Option.bind_eq_bind,
            Option.bind_some, if_true]
          rw [hptr1, hptr2, hbuf', hclose]
      | cons c rest =>
          have hc0 : c ≠ 0 := fun h => hrest (h ▸ List.mem_cons_self)
          have hrest' : (0 : Byte) ∉ rest := fun h => hrest (List.mem_cons_of_mem c h)
          have hbehind : behind st.buf st.ptr1 92 = (item.getLast? = some 92 : Bool) := by
            rw [hbuf, hptr1]
            exact behind_item (by decide) hend
          simp only [parse, hchar, List.cons_append, List.head?_cons, Option.bind_eq_bind,
            Option.bind_some, if_neg hc0, hbehind, decide_eq_true_eq]
          rw [scan]
          by_cases hcomma : c = 44
          · subst hcomma
            have hover : ¬ (false = true ∨ (44 : Byte) ≠ 44) := by simp
            rw [if_pos rfl, if_neg hover]
            by_cases h92 : item.getLast? = some 92
            · rw [if_pos h92, if_pos h92]
              obtain ⟨u, rfl⟩ : ∃ u, item = u ++ [92] := by
                rcases List.eq_nil_or_concat' item with rfl | ⟨u, d, rfl⟩
                · simp at h92
                · exact ⟨u, by simpa using h92⟩
              have hu : (0 : Byte) ∉ u := fun h => hitem (List.mem_append_left _ h)
              have hmove : moveLeft st.buf st.ptr1 =
                  before ++ ((u ++ [44]) ++ (rest ++ 0 :: 0 :: junk)) := by
                have hplace : st.ptr1 = (before ++ u).length + 1 := by
                  simp [hptr1, Nat.add_assoc]
                have hsplit : st.buf = (before ++ u) ++ 92 :: ((44 :: rest) ++ 0 :: junk) := by
                  simp [hbuf]
                rw [hplace, hsplit, moveLeft_eq (by simp [hrest'])]
                simp
              have hlen : (moveLeft st.buf st.ptr1).length = st.buf.length := by
                rw [hmove, hbuf]
                simp
                omega
              rw [List.dropLast_concat]
              cases rest with
              | nil =>
                  -- the pointer is behind the NUL that was moved
                  obtain ⟨m, rfl⟩ : ∃ m, n = m + 1 := ⟨n - 1, by simp at hn; omega⟩
                  have hbuf' : moveLeft st.buf st.ptr1 = before ++ ((u ++ [44]) ++ 0 :: 0 :: junk) := by
                    simpa using hmove
                  have hat : ∀ i, (before ++ ((u ++ [44]) ++ 0 :: 0 :: junk))[st.ptr1 + i]? =
                      (0 :: 0 :: junk)[i]? := by
                    intro i
                    have hidx : st.ptr1 + i = (before ++ (u ++ [44])).length + i := by simp [hptr1]
                    rw [hidx, ← List.append_assoc, List.getElem?_append_right (by omega),
                      Nat.add_sub_cancel_left]
                  have hnul : (0 : Byte) ∉ u ++ [44] := by simp [hu]
                  have hno : behind (moveLeft st.buf st.ptr1) (st.ptr1 + 1) 61 = false := by
                    rw [hbuf', behind, Nat.add_sub_cancel, ← Nat.add_zero st.ptr1, hat 0]
                    simp
                  have hclose : close (u ++ [44]) = callOf .put ((u ++ [44]).dropWhile isspace) := by
                    simp [close]
                  refine ⟨⟨moveLeft st.buf st.ptr1, st.ptr1 + 1, st.ptr2,
                    st.calls ++ close (u ++ [44])⟩, ?_, rfl, hlen⟩
                  rw [hclose, parse, closeItem, hno, hptr2, hbuf', hat 1, strAt_item hnul]
                  rfl
              | cons x rest =>
                  have hx : x ≠ 0 := fun h => hrest' (h ▸ List.mem_cons_self)
                  rw [scan, if_pos (.inl rfl), ← hlen]
                  refine @ih _ before _ _ (0 :: junk) ⟨?_, hptr2, ?_, ?_, ?_, hend⟩ ?_
                  · simp [hmove]
                  · simp [hptr1]
                    omega
                  · simp [hu, hx.symm]
                  · exact fun h => hrest' (List.mem_cons_of_mem x h)
                  · simp only [List.length_cons] at hn
                    omega
            · rw [if_neg h92, if_neg h92]
              have hset : st.buf.set st.ptr1 0 = before ++ (item ++ 0 :: (rest ++ 0 :: junk)) := by
                rw [hbuf, hptr1, List.set_append_right _ _ (by omega), Nat.add_sub_cancel_left,
                  List.set_append_right _ _ (Nat.le_refl _), Nat.sub_self, List.cons_append,
                  List.set_cons_zero]
              obtain ⟨item', hlen, hclose⟩ := closeItem_eq (rest ++ 0 :: junk) hitem hend
              rw [hset, hptr1, hptr2, hclose]
              dsimp only
              have hat : At ⟨before ++ (item' ++ 0 :: (rest ++ 0 :: junk)),
                  before.length + item.length + 1, before.length + item.length + 1,
                  st.calls ++ close item⟩ (before ++ item' ++ [0]) [] rest junk :=
                ⟨by simp, by simp [hlen, Nat.add_assoc], by simp [hlen, Nat.add_assoc], by simp,
                  hrest', .inr ⟨_, rfl⟩⟩
              obtain ⟨st', hst', hcalls, hlength⟩ := ih hat (by simp only [List.length_cons] at hn; omega)
              refine ⟨st', hst', by rw [hcalls, List.append_assoc], ?_⟩
              rw [hlength, hbuf]
              simp [hlen]
          · rw [if_neg hcomma, if_pos (.inr hcomma)]
            refine @ih _ before _ _ junk ⟨?_, hptr2, ?_, ?_, hrest', hend⟩ ?_
            · simp [hbuf]
            · simp [hptr1]
              omega
            · simp [hitem, hc0.symm]
            · simp only [List.length_cons] at hn
              omega

/-- The calls of a text, and its buffer. -/
theorem parseEnv_eq {text : Bytes} (h0 : (0 : Byte) ∉ text) :
    ∃ st, parseEnv text = some st ∧ st.calls = scan false [] text ∧
      st.buf.length = text.length + 1 := by
  have hat : At ⟨text ++ [0], 0, 0, []⟩ [] [] text [] :=
    ⟨rfl, rfl, rfl, List.not_mem_nil, h0, .inl rfl⟩
  obtain ⟨st, hst, hcalls, hlen⟩ := parse_eq (n := text.length + 2) hat (by omega)
  exact ⟨st, hst, hcalls, by simpa using hlen⟩

theorem Assignment.Named.text_nul {a : Assignment} (h : a.Named) : (0 : Byte) ∉ a.text := by
  have hescape : (0 : Byte) ∉ escape a.value := by
    intro hm
    obtain ⟨c, hc, hm⟩ := List.mem_flatMap.mp hm
    split at hm
    · simp at hm
    · rw [List.mem_singleton] at hm
      exact h.value_nul (hm ▸ hc)
  simp [Assignment.text, h.name_nul, hescape]

theorem textOf_nul {as : List Assignment} (hn : ∀ a ∈ as, a.Named) : (0 : Byte) ∉ textOf as := by
  induction as with
  | nil => simp [textOf]
  | cons a as ih =>
      have ha := (hn a List.mem_cons_self).text_nul
      cases as with
      | nil => exact ha
      | cons b as =>
          have hrest := ih fun x hx => hn x (List.mem_cons_of_mem a hx)
          have htext : textOf (a :: b :: as) = a.text ++ 44 :: textOf (b :: as) := rfl
          simp [htext, ha, hrest]

/-- **Assignments are applied as written** just when each is read as it was written. -/
theorem calls_textOf_iff {as : List Assignment} (hn : ∀ a ∈ as, a.Named) :
    (parseEnv (textOf as)).map St.calls = some (as.map Assignment.call) ↔ Readable as := by
  obtain ⟨st, hst, hcalls, -⟩ := parseEnv_eq (textOf_nul hn)
  rw [hst, Option.map_some, Option.some.injEq, hcalls]
  exact ⟨readable_of_scan hn, scan_textOf hn⟩

end IndimailMta.Environment
