import IndimailMta.Base
import IndimailMta.Lib.Lines
import Mathlib.Data.List.DropRight

/-!
# Requests of `qmail-clean`

`qmail-clean` reads requests, each with a NUL at its end, and answers with one byte: `+` when the
files of the message are gone, `!` when one could not be removed, `x` when it does not take the
request for one. The number is looked for from the end of the request backwards.

The answers stay in step with the requests, and the files removed are those of the message that
is named, exactly when every request is `Orderly`: for a byte that is not a digit an `x` is
written and the loop goes on to the next byte, not to the next request, and a request that begins
with `todo` without a slash behind it is carried out.
-/

namespace IndimailMta.Clean

open IndimailMta Lines

/-- `conf_split` and `bigtodo`. -/
structure Conf where
  split : Nat
  bigtodo : Bool
  split_pos : 0 < split

variable (nm : Ulongs) (c : Conf)

/-- `fmtqfn`, without the NUL. -/
def fmtqfn (dirslash : Bytes) (id : Nat) (flagsplit : Bool) : Bytes :=
  dirslash ++ (if flagsplit then nm.fmtUlong (id % c.split) ++ asc "/" else []) ++ nm.fmtUlong id

def intd (id : Nat) : Bytes := fmtqfn nm c (asc "intd/") id c.bigtodo

def mess (id : Nat) : Bytes := fmtqfn nm c (asc "mess/") id true

def todo (id : Nat) : Bytes := fmtqfn nm c (asc "todo/") id c.bigtodo

/-! ## `main` -/

/-- What `unlink` does with a name. -/
inductive Unlink where
  | removed
  | noent
  | failed
  deriving DecidableEq, Repr

/-- One round of the loop: the bytes written, the files removed, and `id`. -/
structure Round where
  responses : Bytes
  removed : List Bytes
  id : Nat
  deriving DecidableEq, Repr

/-- The loop over the bytes of the number: where it stops, and the bytes it writes. -/
def checkLoop (line : Bytes) : Nat → Nat × Bytes
  | 0 => (0, [])
  | i + 1 =>
      if 4 < i + 1 then
        if (line)[i + 1]? = some 47 then (i + 1, [])
        else if ((line)[i + 1]?).all isDigit then checkLoop line i
        -- the `continue` of the source is one of this loop
        else ((checkLoop line i).1, asc "x" ++ (checkLoop line i).2)
      else (i + 1, [])

/-- The macro `U`, for one name after the other, and the answer. -/
def unlinks (disk : Bytes → Unlink) : List Bytes → Bytes × List Bytes
  | [] => (asc "+", [])
  | fnbuf :: rest =>
      match disk fnbuf with
      | .failed => (asc "!", [])
      | .noent => unlinks disk rest
      | .removed => ((unlinks disk rest).1, fnbuf :: (unlinks disk rest).2)

/-- What is done for a request that was let through. -/
def carryOut (disk : Bytes → Unlink) (line : Bytes) (id : Nat) : Bytes × List Bytes :=
  if line.take 5 = asc "foop/" then unlinks disk [intd nm c id, mess nm c id]
  else if line.take 4 = asc "todo" then unlinks disk [intd nm c id, todo nm c id]
  else (asc "x", [])

/-- One request: `line` has its NUL. -/
def handle (disk : Bytes → Unlink) (id : Nat) (line : Bytes) : Round :=
  if line.length < 7 then ⟨asc "x", [], id⟩
  else if 100 < line.length then ⟨asc "x", [], id⟩
  else
    let i := (checkLoop line (line.length - 2)).1
    let xs := (checkLoop line (line.length - 2)).2
    if (line)[i]? = some 47 then
      let scan := nm.scanUlong (line.drop (i + 1))
      if scan.1 = 0 then ⟨xs ++ asc "x", [], scan.2⟩
      else
        let r := carryOut nm c disk line scan.2
        ⟨xs ++ r.1, r.2, scan.2⟩
    else
      let r := carryOut nm c disk line id
      ⟨xs ++ r.1, r.2, id⟩

/-- The loop over the requests, with what `unlink` does in each round. -/
def rounds (disks : Nat → Bytes → Unlink) : Nat → Nat → List Bytes → List Round
  | _, _, [] => []
  | k, id, request :: rest =>
      let r := handle nm c (disks k) id (request ++ [0])
      r :: rounds disks (k + 1) r.id rest

/-- `main`, on the bytes of its input: `id` is what is in the variable at first. -/
def main (disks : Nat → Bytes → Unlink) (id : Nat) (input : Bytes) : List Round :=
  rounds nm c disks 0 id (fields 0 input)

/-! ## What is to hold -/

/-- `dir` begins the request, a directory may come next, and `n` in decimal is its end. -/
def Names (dir request : Bytes) (n : Nat) : Prop :=
  ∃ sub digits, request = dir ++ sub ++ digits ∧ (sub = [] ∨ ∃ d, sub = d ++ asc "/") ∧
    digits ≠ [] ∧ (∀ b ∈ digits, isDigit b = true) ∧ n = digitsValue digits

/-- One answer, and only files of the message that is named are removed. -/
structure Answered (request : Bytes) (r : Round) : Prop where
  once : r.responses.length = 1
  only : ∀ name ∈ r.removed, ∃ n,
    (Names (asc "foop/") request n ∧ (name = intd nm c n ∨ name = mess nm c n)) ∨
    (Names (asc "todo/") request n ∧ (name = intd nm c n ∨ name = todo nm c n))

/-- Where the number is looked for: behind the last slash from the sixth byte on. -/
def number (request : Bytes) : Bytes := (request.drop 5).rtakeWhile (· ≠ 47)

/-- A request of a length that is let through has only digits there; if it has any, it does not
begin with `todo` alone, and the number of a request to remove files is an `unsigned long`. -/
def Orderly (request : Bytes) : Prop :=
  6 ≤ request.length → request.length ≤ 99 →
    (∀ b ∈ number request, isDigit b = true) ∧
    (number request ≠ [] →
      (request.take 4 = asc "todo" → request[4]? = some 47) ∧
      (request.take 5 = asc "foop/" ∨ request.take 5 = asc "todo/" →
        digitsValue (number request) < 2 ^ 64))

/-! ## Names -/

variable {nm c} {request : Bytes} {id n : Nat}

theorem slash_notMem {ds : Bytes} (h : ∀ b ∈ ds, isDigit b = true) : (47 : Byte) ∉ ds :=
  fun hb => absurd (h 47 hb) (by decide)

/-- What is behind the last slash, if there is none in it. -/
theorem rtakeWhile_slash {t ds : Bytes} (ht : t = [] ∨ ∃ d, t = d ++ asc "/")
    (hds : (47 : Byte) ∉ ds) : (t ++ ds).rtakeWhile (· ≠ 47) = ds := by
  have hall : ∀ b ∈ ds.reverse, decide (b ≠ 47) = true := by
    intro b hb
    apply decide_eq_true
    rintro rfl
    exact hds (List.mem_reverse.mp hb)
  have hstop : t.reverse.takeWhile (· ≠ (47 : Byte)) = [] := by
    rcases ht with rfl | ⟨d, rfl⟩
    · rfl
    · rw [List.reverse_append]
      rfl
  rw [List.rtakeWhile, List.reverse_append, List.takeWhile_append_of_pos hall, hstop,
    List.append_nil, List.reverse_reverse]

/-- The number of a request is found. -/
theorem Names.number_eq {dir : Bytes} (h : Names dir request n) (hdir : dir.length = 5) :
    request.take 5 = dir ∧ n = digitsValue (number request) := by
  obtain ⟨sub, digits, rfl, hsub, -, hd, rfl⟩ := h
  constructor
  · rw [List.append_assoc, List.take_left' hdir]
  · rw [number, List.append_assoc, List.drop_left' hdir, rtakeWhile_slash hsub (slash_notMem hd)]

theorem fmtqfn_rtakeWhile (d : Bytes) (flagsplit : Bool) :
    (fmtqfn nm c (d ++ asc "/") id flagsplit).rtakeWhile (· ≠ 47) = nm.fmtUlong id := by
  rw [fmtqfn]
  apply rtakeWhile_slash _ (slash_notMem (nm.fmt_isDigit id))
  right
  cases flagsplit with
  | true => exact ⟨d ++ asc "/" ++ nm.fmtUlong (id % c.split), by simp [List.append_assoc]⟩
  | false => exact ⟨d, by simp⟩

/-- The files of two messages have different names. -/
theorem intd_inj (h : intd nm c id = intd nm c n) : id = n := by
  have hr := congrArg (List.rtakeWhile (· ≠ (47 : Byte))) h
  have hd : asc "intd/" = asc "intd" ++ asc "/" := by decide
  rw [intd, intd, hd, fmtqfn_rtakeWhile, fmtqfn_rtakeWhile, nm.fmt_eq, nm.fmt_eq] at hr
  rw [← digitsValue_decimalText id, hr, digitsValue_decimalText]

theorem fmtqfn_take (dirslash : Bytes) (flagsplit : Bool) :
    (fmtqfn nm c dirslash id flagsplit).take dirslash.length = dirslash := by
  rw [fmtqfn, List.append_assoc, List.take_left]

theorem fmtqfn_ne {dirslash dirslash' : Bytes} (hlen : dirslash.length = dirslash'.length)
    (hne : dirslash ≠ dirslash') (flagsplit flagsplit' : Bool) :
    fmtqfn nm c dirslash id flagsplit ≠ fmtqfn nm c dirslash' n flagsplit' := by
  intro h
  have ht := congrArg (List.take dirslash.length) h
  rw [fmtqfn_take, hlen, fmtqfn_take] at ht
  exact hne ht

theorem intd_ne_mess : intd nm c id ≠ mess nm c n :=
  fmtqfn_ne (by decide) (by decide) c.bigtodo true

theorem intd_ne_todo : intd nm c id ≠ todo nm c n :=
  fmtqfn_ne (by decide) (by decide) c.bigtodo c.bigtodo

/-! ## The loop over the bytes of the number -/

/-- A request is cut where the loop stops. -/
theorem exists_head (h : 6 ≤ request.length) : ∃ t, request = t ++ number request ∧
    5 ≤ t.length ∧ (t.length = 5 ∨ t.getLast? = some 47) ∧ (47 : Byte) ∉ number request := by
  have hlen : (request.take 5).length = 5 := by
    rw [List.length_take]
    omega
  refine ⟨request.take 5 ++ (request.drop 5).rdropWhile (· ≠ 47), ?_, ?_, ?_, ?_⟩
  · rw [List.append_assoc, number, List.rdropWhile_append_rtakeWhile, List.take_append_drop]
  · rw [List.length_append, hlen]
    omega
  · by_cases hnil : (request.drop 5).rdropWhile (· ≠ (47 : Byte)) = []
    · left
      rw [hnil, List.append_nil, hlen]
    · right
      have hlast := List.rdropWhile_last_not _ _ hnil
      rw [List.getLast?_append_of_ne_nil _ hnil, List.getLast?_eq_getLast_of_ne_nil hnil]
      simpa using hlast
  · intro hb
    have hne := List.mem_rtakeWhile_imp hb
    exact absurd hne (by decide)

/-- The loop stops at the slash, or at the fifth byte, and writes an `x` for each byte that is
not a digit. -/
theorem checkLoop_eq {t : Bytes} (h5 : 5 ≤ t.length) (ht : t.length = 5 ∨ t.getLast? = some 47)
    (ds : Bytes) (hds : (47 : Byte) ∉ ds) (rest : Bytes) :
    checkLoop (t ++ ds ++ rest) (t.length + ds.length - 1) =
      (t.length - 1, List.replicate (ds.countP fun b => !isDigit b) 120) := by
  induction ds using List.reverseRecOn generalizing rest with
  | nil =>
      obtain ⟨k, hk⟩ : ∃ k, t.length = k + 1 := ⟨t.length - 1, by omega⟩
      obtain ⟨j, rfl⟩ : ∃ j, k = j + 1 := ⟨k - 1, by omega⟩
      rw [List.length_nil, Nat.add_zero, hk, Nat.add_sub_cancel, checkLoop, List.append_nil]
      by_cases h4 : 4 < j + 1
      · have hlast : t.getLast? = some 47 := by
          rcases ht with h | h
          · omega
          · exact h
        have hb : (t ++ rest)[j + 1]? = some 47 := by
          rw [List.getElem?_append_left (by omega)]
          rw [List.getLast?_eq_getElem?, hk] at hlast
          exact hlast
        rw [if_pos h4, if_pos hb]
        rfl
      · rw [if_neg h4]
        rfl
  | append_singleton ds b ih =>
      rw [List.mem_append, List.mem_singleton, not_or] at hds
      have hb : (t ++ (ds ++ [b]) ++ rest)[t.length + ds.length]? = some b := by
        rw [List.append_assoc, List.append_assoc, ← List.append_assoc,
          List.getElem?_append_right (by rw [List.length_append]), List.length_append,
          Nat.sub_self]
        rfl
      have hnext := ih hds.1 ([b] ++ rest)
      rw [show t ++ ds ++ ([b] ++ rest) = t ++ (ds ++ [b]) ++ rest by simp] at hnext
      obtain ⟨k, hk⟩ : ∃ k, t.length + ds.length = k + 1 := ⟨t.length + ds.length - 1, by omega⟩
      rw [hk, Nat.add_sub_cancel] at hnext
      rw [List.length_append, List.length_singleton, ← Nat.add_assoc, Nat.add_sub_cancel, hk,
        checkLoop, if_pos (by omega), ← hk, hb, if_neg (by simpa using Ne.symm hds.2), hnext,
        List.countP_append]
      cases hd : isDigit b with
      | true => simp [hd]
      | false => simp [hd, asc, List.replicate_succ]

/-! ## One request -/

variable {disk : Bytes → Unlink}

/-- The bytes written for the number of a request. -/
def strays (request : Bytes) : Bytes :=
  List.replicate ((number request).countP fun b => !isDigit b) 120

/-- A request of a length that is let through. -/
theorem handle_eq {t : Bytes} (h6 : 6 ≤ request.length) (h99 : request.length ≤ 99)
    (heq : request = t ++ number request) (h5 : 5 ≤ t.length)
    (ht : t.length = 5 ∨ t.getLast? = some 47) (hds : (47 : Byte) ∉ number request) :
    handle nm c disk id (request ++ [0]) =
      if t.getLast? = some 47 then
        let scan := scanDecimal (number request ++ [0])
        if scan.1 = 0 then ⟨strays request ++ asc "x", [], scan.2⟩
        else
          let r := carryOut nm c disk (request ++ [0]) scan.2
          ⟨strays request ++ r.1, r.2, scan.2⟩
      else
        let r := carryOut nm c disk (request ++ [0]) id
        ⟨strays request ++ r.1, r.2, id⟩ := by
  have hlen : (request ++ [0]).length = request.length + 1 := List.length_append
  have hloop : checkLoop (request ++ [0]) ((request ++ [0]).length - 2) =
      (t.length - 1, strays request) := by
    have hlen' := congrArg List.length heq
    rw [List.length_append] at hlen'
    rw [hlen, show request.length + 1 - 2 = t.length + (number request).length - 1 by omega]
    have hloop := checkLoop_eq h5 ht (number request) hds [0]
    rwa [← heq] at hloop
  have hlast : (request ++ [0])[t.length - 1]? = t.getLast? := by
    rw [heq, List.append_assoc, List.getElem?_append_left (by omega), List.getLast?_eq_getElem?]
  have hdrop : (request ++ [0]).drop (t.length - 1 + 1) = number request ++ [0] := by
    rw [Nat.sub_add_cancel (by omega)]
    conv_lhs => rw [heq]
    rw [List.append_assoc, List.drop_left]
  rw [handle, if_neg (by omega), if_neg (by omega), hloop]
  simp only [hlast, hdrop, nm.scan_eq]

theorem unlinks_length (names : List Bytes) : (unlinks disk names).1.length = 1 := by
  induction names with
  | nil => rfl
  | cons name rest ih =>
      rw [unlinks]
      split
      · rfl
      · exact ih
      · exact ih

theorem unlinks_subset (names : List Bytes) : (unlinks disk names).2 ⊆ names := by
  induction names with
  | nil => exact List.Subset.refl _
  | cons name rest ih =>
      rw [unlinks]
      split
      · exact List.nil_subset _
      · exact List.subset_cons_of_subset name ih
      · exact List.cons_subset_cons name ih

theorem carryOut_length (line : Bytes) : (carryOut nm c disk line id).1.length = 1 := by
  rw [carryOut]
  split
  · exact unlinks_length _
  · split
    · exact unlinks_length _
    · rfl

theorem countP_eq_zero : (number request).countP (fun b => !isDigit b) = 0 ↔
    ∀ b ∈ number request, isDigit b = true := by
  rw [List.countP_eq_zero]
  simp

theorem scan_number (h : ∀ b ∈ number request, isDigit b = true) :
    scanDecimal (number request ++ [0]) =
      ((number request).length, digitsValue (number request) % 2 ^ 64) := by
  rw [scanDecimal, takeWhile_isDigit_append h (by simp [isDigit])]

/-- The first bytes of a request, in the line. -/
theorem take_line {k : Nat} (h : k ≤ request.length) :
    (request ++ [0]).take k = request.take k := by
  rw [List.take_append_of_le_length h]

theorem carryOut_line (h6 : 6 ≤ request.length) :
    carryOut nm c disk (request ++ [0]) id =
      if request.take 5 = asc "foop/" then unlinks disk [intd nm c id, mess nm c id]
      else if request.take 4 = asc "todo" then unlinks disk [intd nm c id, todo nm c id]
      else (asc "x", []) := by
  rw [carryOut, take_line (by omega), take_line (by omega)]

theorem names_of_take {t dir : Bytes} (heq : request = t ++ number request) (h5 : 5 ≤ t.length)
    (ht : t.length = 5 ∨ t.getLast? = some 47) (hd : ∀ b ∈ number request, isDigit b = true)
    (hne : number request ≠ []) (hdir : request.take 5 = dir) :
    Names dir request (digitsValue (number request)) := by
  refine ⟨t.drop 5, number request, ?_, ?_, hne, hd, rfl⟩
  · rw [heq, List.take_append_of_le_length h5] at hdir
    rw [← hdir, List.take_append_drop]
    exact heq
  · rcases ht with h | h
    · exact Or.inl (List.drop_eq_nil_of_le (Nat.le_of_eq h))
    · by_cases hlen : t.length ≤ 5
      · exact Or.inl (List.drop_eq_nil_of_le hlen)
      · have hlast : (t.drop 5).getLast? = some 47 := by
          rw [List.getLast?_drop, if_neg hlen, h]
        exact Or.inr (List.getLast?_eq_some_iff.mp hlast)

/-- Where there is no slash before the number, it begins with the sixth byte. -/
theorem fifth_of_getLast {t : Bytes} (heq : request = t ++ number request)
    (ht : t.length = 5 ∨ t.getLast? = some 47) (hne : t.getLast? ≠ some 47) :
    t.length = 5 ∧ request[4]? ≠ some 47 := by
  have hlen : t.length = 5 := ht.resolve_right hne
  refine ⟨hlen, ?_⟩
  rw [heq, List.getElem?_append_left (by omega)]
  rwa [List.getLast?_eq_getElem?, hlen] at hne

theorem fifth_of_take {dir : Bytes} (h : request.take 5 = dir) : request[4]? = dir[4]? := by
  rw [← h, List.getElem?_take_of_lt (by decide)]

theorem take_five (h : request.take 4 = asc "todo") (h4 : request[4]? = some 47) :
    request.take 5 = asc "todo/" := by
  rw [List.take_add_one, h, h4]
  rfl

/-- **An orderly request** is answered once, and only files of its message are removed. -/
theorem Orderly.answered (h : Orderly request) :
    Answered nm c request (handle nm c disk id (request ++ [0])) := by
  have hlen : (request ++ [0]).length = request.length + 1 := List.length_append
  by_cases h6 : 6 ≤ request.length
  swap
  · rw [handle, if_pos (by omega)]
    exact ⟨rfl, fun name hn => absurd hn List.not_mem_nil⟩
  by_cases h99 : request.length ≤ 99
  swap
  · rw [handle, if_neg (by omega), if_pos (by omega)]
    exact ⟨rfl, fun name hn => absurd hn List.not_mem_nil⟩
  obtain ⟨hdigits, hform⟩ := h h6 h99
  obtain ⟨t, heq, h5, ht, hds⟩ := exists_head h6
  have hstrays : strays request = [] := by
    rw [strays, countP_eq_zero.mpr hdigits]
    rfl
  rw [handle_eq h6 h99 heq h5 ht hds, scan_number hdigits, hstrays]
  simp only [List.nil_append]
  split
  · -- a number behind a slash
    split
    · exact ⟨rfl, fun name hn => absurd hn List.not_mem_nil⟩
    · rename_i hne
      have hne' : number request ≠ [] := fun h0 => hne (by rw [h0]; rfl)
      refine ⟨carryOut_length _, fun name hn => ⟨digitsValue (number request), ?_⟩⟩
      rw [carryOut_line h6] at hn
      split at hn
      · rename_i hfoop
        rw [Nat.mod_eq_of_lt ((hform hne').2 (Or.inl hfoop))] at hn
        have hmem := unlinks_subset _ hn
        exact Or.inl ⟨names_of_take heq h5 ht hdigits hne' hfoop, by simpa using hmem⟩
      · split at hn
        · rename_i htodo
          have hfive := take_five htodo ((hform hne').1 htodo)
          rw [Nat.mod_eq_of_lt ((hform hne').2 (Or.inr hfive))] at hn
          have hmem := unlinks_subset _ hn
          exact Or.inr ⟨names_of_take heq h5 ht hdigits hne' hfive, by simpa using hmem⟩
        · exact absurd hn List.not_mem_nil
  · -- no slash: `id` is that of an earlier request, and nothing is removed
    rename_i hlast
    obtain ⟨ht5, h4⟩ := fifth_of_getLast heq ht hlast
    have hne : number request ≠ [] := by
      intro h0
      rw [h0, List.append_nil] at heq
      rw [heq] at h6
      omega
    refine ⟨carryOut_length _, fun name hn => ?_⟩
    rw [carryOut_line h6] at hn
    split at hn
    · rename_i hfoop
      exact absurd (fifth_of_take hfoop) h4
    · split at hn
      · rename_i htodo
        exact absurd ((hform hne).1 htodo) h4
      · exact absurd hn List.not_mem_nil

/-- On a disk that removes every file, a request that is carried out removes `intd`. -/
theorem intd_removed {t : Bytes} (h6 : 6 ≤ request.length) (h99 : request.length ≤ 99)
    (heq : request = t ++ number request) (h5 : 5 ≤ t.length)
    (ht : t.length = 5 ∨ t.getLast? = some 47) (hds : (47 : Byte) ∉ number request)
    (hdigits : ∀ b ∈ number request, isDigit b = true) (hne : number request ≠ [])
    (hdir : request.take 5 = asc "foop/" ∨ request.take 4 = asc "todo") :
    intd nm c (if t.getLast? = some 47 then digitsValue (number request) % 2 ^ 64 else id) ∈
      (handle nm c (fun _ => .removed) id (request ++ [0])).removed := by
  have hact : ∀ id, intd nm c id ∈ (carryOut nm c (fun _ => .removed) (request ++ [0]) id).2 := by
    intro id
    rw [carryOut_line h6]
    split
    · exact List.mem_cons_self
    · rename_i hfoop
      rw [if_pos (hdir.resolve_left hfoop)]
      exact List.mem_cons_self
  have hlen : (number request).length ≠ 0 := fun h0 => hne (List.eq_nil_of_length_eq_zero h0)
  rw [handle_eq h6 h99 heq h5 ht hds, scan_number hdigits]
  split
  · simp only
    rw [if_neg hlen]
    exact hact _
  · exact hact _

/-- A request that is answered once whatever the disk does, with only files of its message
removed, is orderly. -/
theorem orderly_of_answered
    (h : Answered nm c request (handle nm c (fun _ => .removed) id (request ++ [0]))) :
    Orderly request := by
  intro h6 h99
  obtain ⟨t, heq, h5, ht, hds⟩ := exists_head h6
  have hdigits : ∀ b ∈ number request, isDigit b = true := by
    rw [← countP_eq_zero]
    have hone := h.once
    rw [handle_eq h6 h99 heq h5 ht hds] at hone
    split at hone
    · simp only at hone
      split at hone
      · rw [List.length_append, strays, List.length_replicate] at hone
        have hx : (asc "x").length = 1 := rfl
        omega
      · simp only at hone
        rw [List.length_append, strays, List.length_replicate, carryOut_length] at hone
        omega
    · simp only at hone
      rw [List.length_append, strays, List.length_replicate, carryOut_length] at hone
      omega
  -- a file that is removed shows which message was taken
  have hremoved := fun hne hdir =>
    h.only _ (intd_removed h6 h99 heq h5 ht hds hdigits hne hdir)
  refine ⟨hdigits, fun hne => ⟨fun htodo => ?_, fun hdir => ?_⟩⟩
  · -- a file is removed, so the request names a message
    obtain ⟨n, ⟨hn, -⟩ | ⟨hn, -⟩⟩ := hremoved hne (Or.inr htodo)
    · rw [fifth_of_take (hn.number_eq rfl).1]
      rfl
    · rw [fifth_of_take (hn.number_eq rfl).1]
      rfl
  · have h4 : request[4]? = some 47 := by
      rcases hdir with hdir | hdir
      · rw [fifth_of_take hdir]
        rfl
      · rw [fifth_of_take hdir]
        rfl
    have hlast : t.getLast? = some 47 := by
      by_contra hl
      exact (fifth_of_getLast heq ht hl).2 h4
    have hdir' : request.take 5 = asc "foop/" ∨ request.take 4 = asc "todo" := by
      rcases hdir with hdir | hdir
      · exact Or.inl hdir
      · right
        have htake := congrArg (List.take 4) hdir
        rwa [List.take_take] at htake
    have hrem := hremoved hne hdir'
    rw [if_pos hlast] at hrem
    -- the file has the number of the request
    obtain ⟨n, ⟨hn, hname⟩ | ⟨hn, hname⟩⟩ := hrem
    · have hv := intd_inj (hname.resolve_right intd_ne_mess)
      rw [← (hn.number_eq rfl).2, ← hv]
      exact Nat.mod_lt _ (by decide)
    · have hv := intd_inj (hname.resolve_right intd_ne_todo)
      rw [← (hn.number_eq rfl).2, ← hv]
      exact Nat.mod_lt _ (by decide)

/-! ## The whole input -/

theorem rounds_answered {disks : Nat → Bytes → Unlink} {requests : List Bytes} {k : Nat}
    (h : ∀ request ∈ requests, Orderly request) :
    List.Forall₂ (Answered nm c) requests (rounds nm c disks k id requests) := by
  induction requests generalizing k id with
  | nil => exact List.Forall₂.nil
  | cons request rest ih =>
      rw [rounds]
      apply List.Forall₂.cons
      · exact (h request List.mem_cons_self).answered
      · exact ih fun r hr => h r (List.mem_cons_of_mem request hr)

theorem orderly_of_rounds {requests : List Bytes} {k : Nat}
    (h : List.Forall₂ (Answered nm c) requests
      (rounds nm c (fun _ _ => .removed) k id requests)) :
    ∀ request ∈ requests, Orderly request := by
  induction requests generalizing k id with
  | nil => exact fun request hr => absurd hr List.not_mem_nil
  | cons request rest ih =>
      rw [rounds] at h
      cases h with
      | cons hhead htail =>
          intro r hr
          rcases List.mem_cons.mp hr with rfl | hr
          · exact orderly_of_answered hhead
          · exact ih htail r hr

/-- **Every request is answered once, and only files of its message are removed**, whatever
`unlink` does, exactly when all requests are orderly. -/
theorem main_answered_iff (nm : Ulongs) (c : Conf) (id : Nat) (input : Bytes) :
    (∀ disks, List.Forall₂ (Answered nm c) (fields 0 input) (main nm c disks id input)) ↔
      ∀ request ∈ fields 0 input, Orderly request := by
  constructor
  · intro h
    exact orderly_of_rounds (h fun _ _ => .removed)
  · intro h disks
    exact rounds_answered h

/-- A letter behind the number: two answers, and the files of message 1 are removed. -/
theorem foop_answered_twice : ¬ ∀ nm c disks id input,
    List.Forall₂ (Answered nm c) (fields 0 input) (main nm c disks id input) := by
  intro h
  have hr := h ulongs ⟨23, true, by decide⟩ (fun _ _ => .removed) 0 (asc "foop/1a" ++ [0])
  cases hr with
  | cons hone _ => exact absurd hone.once (by decide +kernel)

end IndimailMta.Clean
