import IndimailMta.Users.Assign

/-!
# Users

`nughde_get` looks a local part up in the cdb: first under the name with a NUL behind it, then
under its prefixes, from the longest on. A prefix is skipped if its last byte, in lower case, is
not among the last bytes of the wildcard names, which are stored as they are written.

`SPAWN` splits the six values that were found.
-/

namespace IndimailMta.Users

open IndimailMta Lines

/-! ## `nughde_get` -/

/-- What becomes of a lookup: a record is found, at a position, and read; or `qmail-getpw` is run;
or the file is no cdb of users. -/
inductive Lookup where
  | found (pos : Nat) (nughde : Bytes)
  | getpw
  | qlx_cdb
  deriving DecidableEq, Repr

/-- The position of the first record under a key. -/
def cdb_seek (cdb : Cdb) (key : Bytes) : Option Nat := cdb.findIdx? fun r => r.1 == key

def cdb_bread (cdb : Cdb) (pos : Nat) : Bytes := (cdb[pos]?.map Prod.snd).getD []

/-- The loop over `i`. -/
def search (cdb : Cdb) (wildchars lower local_ : Bytes) : Nat → Bool → Lookup
  | 0, _ => .getpw
  | i + 1, flagwild =>
      if flagwild = false ∨ i + 1 = 1 ∨ lower.getD i 0 ∈ wildchars then
        match cdb_seek cdb (lower.take (i + 1)) with
        | some pos =>
            .found pos (cdb_bread cdb pos ++ (if flagwild then local_.drop i else []) ++ [0])
        | none => search cdb wildchars lower local_ i true
      else search cdb wildchars lower local_ i true

def nughde_get (cdb : Option Cdb) (local_ : Bytes) : Lookup :=
  match cdb with
  | none => .getpw
  | some cdb =>
      match cdb_seek cdb [] with
      | none => .qlx_cdb
      | some pos =>
          search cdb (cdb_bread cdb pos) (caseLower (33 :: local_ ++ [0])) local_
            (caseLower (33 :: local_ ++ [0])).length false

/-! ## The values -/

/-- The values of an assignment. -/
structure Args where
  user : Bytes
  uid : Nat
  gid : Nat
  home : Bytes
  dash : Bytes
  ext : Bytes
  deriving DecidableEq, Repr

variable (nm : Ulongs)

/-- A number as a `uid_t`. -/
def scanId (x : Bytes) : Nat := (nm.scanUlong x).2 % 2 ^ 32

/-- The split in `SPAWN`. -/
def spawnArgs (nughde : Bytes) : Option Args := do
  let (user, x) ← field 0 nughde
  let uid := scanId nm x
  let (_, x) ← field 0 x
  let gid := scanId nm x
  let (_, x) ← field 0 x
  let (home, x) ← field 0 x
  let (dash, x) ← field 0 x
  let (ext, _) ← field 0 x
  return ⟨user, uid, gid, home, dash, ext⟩

/-! ## What the file means -/

/-- The values of a line, with what is left of the local part. -/
def assigned (e : Entry) (rest : Bytes) : Args where
  user := e.values.getD 0 []
  uid := scanId nm (e.values.getD 1 [] ++ [0])
  gid := scanId nm (e.values.getD 2 [] ++ [0])
  home := e.values.getD 3 []
  dash := e.values.getD 4 []
  ext := e.values.getD 5 [] ++ rest

def Entry.Named (e : Entry) (name : Bytes) : Prop := caseLower e.name = caseLower name

instance (e : Entry) (name : Bytes) : Decidable (e.Named name) :=
  inferInstanceAs (Decidable (caseLower e.name = caseLower name))

/-- The first simple assignment of a name. -/
def simpleLine (es : List Entry) (name : Bytes) : Option Nat :=
  es.findIdx? fun e => decide (e.mark = 61 ∧ e.Named name)

/-- The first wildcard assignment of a name. -/
def wildLine (es : List Entry) (name : Bytes) : Option Nat :=
  es.findIdx? fun e => decide (e.mark = 43 ∧ e.Named name)

/-- The first line of a name that is not a wildcard assignment. -/
def otherLine (es : List Entry) (name : Bytes) : Option Nat :=
  es.findIdx? fun e => decide (e.mark ≠ 43 ∧ e.Named name)

/-- The greatest length up to `n` that has a line. -/
def longest (line : Nat → Option Nat) : Nat → Option (Nat × Nat)
  | 0 => (line 0).map fun j => (j, 0)
  | n + 1 =>
      match line (n + 1) with
      | some j => some (j, n + 1)
      | none => longest line n

/-- The line of a local part, and what is left of the local part. -/
def meant (es : List Entry) (local_ : Bytes) : Option (Nat × Bytes) :=
  match simpleLine es local_ with
  | some j => some (j, [])
  | none =>
      (longest (fun k => wildLine es (local_.take k)) local_.length).map fun p =>
        (p.1, local_.drop p.2)

/-- The lookup has found the line that is meant, and its values are those of the line. -/
def Finds (es : List Entry) (local_ : Bytes) (l : Lookup) : Prop :=
  match meant es local_ with
  | none => l = .getpw
  | some (j, rest) =>
      ∃ e nughde, es[j]? = some e ∧ l = .found j nughde ∧
        spawnArgs nm nughde = some (assigned nm e rest)

/-- The first line with this name that is not a wildcard line, if there is one, is a simple
assignment; and if there is none, the longest wildcard that the local part begins with is empty,
or its last byte, in lower case, is the last byte of a wildcard name. -/
structure Reached (es : List Entry) (local_ : Bytes) : Prop where
  simple : ∀ j ∈ otherLine es local_, ∀ e ∈ es[j]?, e.mark = 61
  wild : otherLine es local_ = none → ∀ j k,
    longest (fun k => wildLine es (local_.take k)) local_.length = some (j, k + 1) →
      IsWild es ((caseLower local_).getD k 0)

/-! ## The longest -/

section Longest

variable {line : Nat → Option Nat} {n j k : Nat}

theorem longest_eq_none : longest line n = none ↔ ∀ k ≤ n, line k = none := by
  induction n with
  | zero => simp [longest]
  | succ n ih =>
      rw [longest]
      cases h : line (n + 1) with
      | some j =>
          refine iff_of_false nofun fun hall => ?_
          rw [hall (n + 1) (Nat.le_refl _)] at h
          exact nomatch h
      | none =>
          dsimp only
          rw [ih]
          constructor
          · intro hall k hk
            rcases Nat.lt_or_eq_of_le hk with hk | rfl
            · exact hall k (Nat.le_of_lt_succ hk)
            · exact h
          · exact fun hall k hk => hall k (Nat.le_succ_of_le hk)

theorem longest_eq_some : longest line n = some (j, k) ↔
    k ≤ n ∧ line k = some j ∧ ∀ m, k < m → m ≤ n → line m = none := by
  induction n with
  | zero =>
      rw [longest, Option.map_eq_some_iff]
      constructor
      · rintro ⟨j', hj, heq⟩
        obtain ⟨rfl, rfl⟩ := Prod.mk.inj heq
        exact ⟨Nat.le_refl _, hj, fun m hm hle => absurd hle (Nat.not_le_of_lt hm)⟩
      · rintro ⟨hk, hj, -⟩
        obtain rfl := Nat.le_zero.mp hk
        exact ⟨j, hj, rfl⟩
  | succ n ih =>
      rw [longest]
      cases h : line (n + 1) with
      | some i =>
          dsimp only
          constructor
          · intro heq
            obtain ⟨rfl, rfl⟩ := Prod.mk.inj (Option.some.inj heq)
            exact ⟨Nat.le_refl _, h, fun m hm hle => absurd hle (Nat.not_le_of_lt hm)⟩
          · rintro ⟨hk, hj, hlater⟩
            rcases Nat.lt_or_eq_of_le hk with hk | rfl
            · rw [hlater (n + 1) hk (Nat.le_refl _)] at h
              exact nomatch h
            · rw [hj] at h
              rw [Option.some.inj h]
      | none =>
          dsimp only
          rw [ih]
          constructor
          · rintro ⟨hk, hj, hlater⟩
            refine ⟨Nat.le_succ_of_le hk, hj, ?_⟩
            intro m hm hle
            rcases Nat.lt_or_eq_of_le hle with hlt | rfl
            · exact hlater m hm (Nat.le_of_lt_succ hlt)
            · exact h
          · rintro ⟨hk, hj, hlater⟩
            refine ⟨?_, hj, fun m hm hle => hlater m hm (Nat.le_succ_of_le hle)⟩
            rcases Nat.lt_or_eq_of_le hk with hlt | rfl
            · exact Nat.le_of_lt_succ hlt
            · rw [hj] at h
              exact nomatch h

end Longest

/-! ## Keys -/

variable {nm} {es : List Entry} {cdb : Cdb} {local_ : Bytes} {e : Entry}

theorem caseLower_append (s t : Bytes) : caseLower (s ++ t) = caseLower s ++ caseLower t :=
  List.map_append

theorem nul_mem_caseLower {s : Bytes} : 0 ∈ caseLower s ↔ 0 ∈ s := mem_caseLower (by decide)

/-- The key that is asked for first. -/
theorem key_eq_exact (hplain : e.Plain) :
    e.key = caseLower (33 :: local_ ++ [0]) ↔ e.mark ≠ 43 ∧ e.Named local_ := by
  have hkey : caseLower (33 :: local_ ++ [0]) = caseLower (33 :: local_) ++ [0] :=
    caseLower_append _ _
  rw [hkey, Entry.key]
  by_cases hm : e.mark = 43
  · rw [if_pos hm, List.append_nil]
    refine iff_of_false ?_ fun h => h.1 hm
    intro h
    have h0 : 0 ∈ caseLower (33 :: e.name) := by
      rw [h]
      simp
    rcases List.mem_cons.mp (nul_mem_caseLower.mp h0) with h33 | h0
    · exact absurd h33 (by decide)
    · exact hplain.name h0
  · rw [if_neg hm, List.append_cancel_right_eq]
    constructor
    · exact fun h => ⟨hm, (List.cons.inj h).2⟩
    · exact fun h => congrArg (33 :: ·) h.2

/-- The key of a prefix. -/
theorem key_eq_prefix {name : Bytes} (hname : 0 ∉ name) :
    e.key = caseLower (33 :: name) ↔ e.mark = 43 ∧ e.Named name := by
  rw [Entry.key]
  by_cases hm : e.mark = 43
  · rw [if_pos hm, List.append_nil]
    constructor
    · exact fun h => ⟨hm, (List.cons.inj h).2⟩
    · exact fun h => congrArg (33 :: ·) h.2
  · rw [if_neg hm]
    refine iff_of_false ?_ fun h => hm h.1
    intro h
    have h0 : 0 ∈ caseLower (33 :: name) := by
      rw [← h]
      simp
    rcases List.mem_cons.mp (nul_mem_caseLower.mp h0) with h33 | h0
    · exact absurd h33 (by decide)
    · exact hname h0

/-- The last record is under the empty key, and no other is. -/
theorem cdb_seek_records {key : Bytes} (wild : Bytes) (hkey : key ≠ []) :
    cdb_seek (es.map Entry.record ++ [([], wild)]) key =
      es.findIdx? fun e => decide (e.key = key) := by
  have hlast : ([([], wild)] : Cdb).findIdx? (fun r => r.1 == key) = none := by
    rw [List.findIdx?_eq_none_iff]
    intro r hr
    rw [List.mem_singleton.mp hr]
    exact beq_eq_false_iff_ne.mpr (Ne.symm hkey)
  rw [cdb_seek, List.findIdx?_append, hlast, Option.map_none, Option.or_none, List.findIdx?_map]
  apply congrArg (es.findIdx? ·)
  ext e
  rw [Function.comp_apply, Bool.eq_iff_iff, beq_iff_eq, decide_eq_true_eq]
  rfl

theorem cdb_seek_nil (es : List Entry) (wild : Bytes) :
    cdb_seek (es.map Entry.record ++ [([], wild)]) [] = some es.length := by
  have hnone : (es.map Entry.record).findIdx? (fun r => r.1 == []) = none := by
    rw [List.findIdx?_eq_none_iff]
    intro r hr
    obtain ⟨e, -, rfl⟩ := List.mem_map.mp hr
    rfl
  rw [cdb_seek, List.findIdx?_append, hnone, Option.none_or, List.length_map]
  exact congrArg some (Nat.zero_add _)

theorem cdb_bread_record {j : Nat} (wild : Bytes) (he : es[j]? = some e) :
    cdb_bread (es.map Entry.record ++ [([], wild)]) j = [0].intercalate e.values := by
  have hlt : j < es.length := (List.getElem?_eq_some_iff.mp he).1
  rw [cdb_bread, List.getElem?_append_left (by simpa using hlt), List.getElem?_map, he]
  rfl

theorem cdb_bread_last (es : List Entry) (wild : Bytes) :
    cdb_bread (es.map Entry.record ++ [([], wild)]) es.length = wild := by
  rw [cdb_bread, List.getElem?_append_right (by simp), List.length_map, Nat.sub_self]
  rfl

/-- Two searches whose tests agree on the list. -/
theorem findIdx?_congr {p q : Entry → Bool} (h : ∀ e ∈ es, p e = q e) :
    es.findIdx? p = es.findIdx? q := by
  induction es with
  | nil => rfl
  | cons e es ih =>
      rw [List.findIdx?_cons, List.findIdx?_cons, h e List.mem_cons_self,
        ih fun x hx => h x (List.mem_cons_of_mem e hx)]

/-! ## The search -/

section Search

variable {wild : Bytes}

theorem seek_exact (hplain : ∀ e ∈ es, e.Plain) :
    cdb_seek (es.map Entry.record ++ [([], wild)]) (caseLower (33 :: local_ ++ [0])) =
      otherLine es local_ := by
  have hkey : caseLower (33 :: local_ ++ [0]) ≠ [] := List.cons_ne_nil _ _
  rw [cdb_seek_records wild hkey]
  apply findIdx?_congr
  intro e he
  rw [decide_eq_decide]
  exact key_eq_exact (hplain e he)

theorem seek_prefix {name : Bytes} (hname : 0 ∉ name) :
    cdb_seek (es.map Entry.record ++ [([], wild)]) (caseLower (33 :: name)) = wildLine es name := by
  have hkey : caseLower (33 :: name) ≠ [] := List.cons_ne_nil _ _
  rw [cdb_seek_records wild hkey]
  apply findIdx?_congr
  intro e _
  rw [decide_eq_decide]
  exact key_eq_prefix hname

theorem take_lower {i : Nat} (hi : i ≤ local_.length) :
    (caseLower (33 :: local_ ++ [0])).take (i + 1) = caseLower (33 :: local_.take i) := by
  rw [caseLower, List.cons_append, List.map_cons, List.take_succ_cons, ← List.map_take,
    List.take_append_of_le_length hi]
  rfl

theorem getD_lower {i : Nat} (hi : i < local_.length) :
    (caseLower (33 :: local_ ++ [0])).getD (i + 1) 0 = (caseLower local_).getD i 0 := by
  have hlen : i < (caseLower local_).length := by
    rw [caseLower, List.length_map]
    exact hi
  have hcons : caseLower (33 :: local_ ++ [0]) = 33 :: (caseLower local_ ++ [0]) :=
    caseLower_append _ _
  rw [hcons, List.getD_cons_succ, List.getD_eq_getElem?_getD, List.getElem?_append_left hlen,
    ← List.getD_eq_getElem?_getD]

/-- The lines that are looked at. -/
def listed (es : List Entry) (wild local_ : Bytes) (k : Nat) : Option Nat :=
  if k = 0 ∨ (caseLower local_).getD (k - 1) 0 ∈ wild then wildLine es (local_.take k) else none

/-- The loop below the name itself. -/
theorem search_prefixes (hl : 0 ∉ local_) {n : Nat} (hn : n ≤ local_.length) :
    search (es.map Entry.record ++ [([], wild)]) wild (caseLower (33 :: local_ ++ [0])) local_
        (n + 1) true =
      match longest (listed es wild local_) n with
      | none => .getpw
      | some (j, k) =>
          .found j (cdb_bread (es.map Entry.record ++ [([], wild)]) j ++ local_.drop k ++ [0]) := by
  induction n with
  | zero =>
      have hline : listed es wild local_ 0 = wildLine es (local_.take 0) := if_pos (Or.inl rfl)
      rw [search, if_pos (Or.inr (Or.inl rfl)), take_lower hn,
        seek_prefix fun h => hl (List.mem_of_mem_take h), longest, hline]
      cases wildLine es (local_.take 0) <;> rfl
  | succ n ih =>
      have hrec := ih (Nat.le_of_succ_le hn)
      have hiff : (true = false ∨ n + 1 + 1 = 1 ∨
          (caseLower (33 :: local_ ++ [0])).getD (n + 1) 0 ∈ wild) ↔
            (n + 1 = 0 ∨ (caseLower local_).getD (n + 1 - 1) 0 ∈ wild) := by
        rw [getD_lower hn, Nat.add_sub_cancel]
        simp
      rw [search, longest, listed]
      by_cases hwild : n + 1 = 0 ∨ (caseLower local_).getD (n + 1 - 1) 0 ∈ wild
      · rw [if_pos (hiff.mpr hwild), if_pos hwild, take_lower hn,
          seek_prefix fun h => hl (List.mem_of_mem_take h)]
        cases wildLine es (local_.take (n + 1)) with
        | none => exact hrec
        | some j => rfl
      · rw [if_neg fun h => hwild (hiff.mp h), if_neg hwild]
        exact hrec

/-- What is found: the name itself first. -/
theorem nughde_get_eq (hplain : ∀ e ∈ es, e.Plain) (hl : 0 ∉ local_) :
    nughde_get (some (es.map Entry.record ++ [([], wild)])) local_ =
      match otherLine es local_ with
      | some j => .found j (cdb_bread (es.map Entry.record ++ [([], wild)]) j ++ [0])
      | none =>
          match longest (listed es wild local_) local_.length with
          | none => .getpw
          | some (j, k) =>
              .found j (cdb_bread (es.map Entry.record ++ [([], wild)]) j ++ local_.drop k ++
                [0]) := by
  have hlen : (caseLower (33 :: local_ ++ [0])).length = local_.length + 1 + 1 := by
    simp [caseLower]
  have htake : (caseLower (33 :: local_ ++ [0])).take (local_.length + 1 + 1) =
      caseLower (33 :: local_ ++ [0]) := by
    rw [← hlen, List.take_length]
  rw [nughde_get, cdb_seek_nil]
  dsimp only
  rw [cdb_bread_last, hlen, search, if_pos (Or.inl rfl), htake, seek_exact hplain]
  cases otherLine es local_ with
  | some j =>
      dsimp only
      rw [if_neg Bool.false_ne_true, List.append_nil]
  | none => exact search_prefixes hl (Nat.le_refl _)

end Search

/-! ## The split -/

theorem scanId_append (s t : Bytes) : scanId nm (s ++ 0 :: t) = scanId nm (s ++ [0]) := by
  have htake : ∀ t : Bytes, (s ++ 0 :: t).takeWhile isDigit = s.takeWhile isDigit := by
    intro t
    induction s with
    | nil => rfl
    | cons ch s ih =>
        rw [List.cons_append, List.takeWhile_cons, List.takeWhile_cons, ih]
  rw [scanId, scanId, nm.scan_eq, nm.scan_eq, scanDecimal, scanDecimal, htake, htake]

/-- The values of an entry are split again. -/
theorem spawnArgs_record (he : e.Plain) {rest : Bytes} (hrest : 0 ∉ rest) :
    spawnArgs nm ([0].intercalate e.values ++ rest ++ [0]) = some (assigned nm e rest) := by
  obtain ⟨mark, name, values⟩ := e
  match values, he.six with
  | [a, b, c, d, f, g], _ =>
      have hv : ∀ v ∈ [a, b, c, d, f, g], (0 : Byte) ∉ v := he.values
      have hext : (0 : Byte) ∉ g ++ rest := by
        rw [List.mem_append, not_or]
        exact ⟨hv g (by simp), hrest⟩
      have htext : [(0 : Byte)].intercalate [a, b, c, d, f, g] ++ rest ++ [0] =
          a ++ 0 :: (b ++ 0 :: (c ++ 0 :: (d ++ 0 :: (f ++ 0 :: (g ++ rest ++ 0 :: []))))) := by
        simp [List.intercalate, List.intersperse]
      rw [htext, spawnArgs, field_append (hv a (by simp))]
      simp only [Option.bind_eq_bind, Option.bind_some, field_append (hv b (by simp)),
        field_append (hv c (by simp)), field_append (hv d (by simp)), field_append (hv f (by simp)),
        field_append hext]
      rw [assigned, scanId_append b, scanId_append c]
      rfl

/-! ## The line that is meant -/

variable {j k : Nat} {name : Bytes}

theorem getElem?_of_findIdx? {p : Entry → Bool} (h : es.findIdx? p = some j) :
    ∃ e, es[j]? = some e ∧ p e = true := by
  obtain ⟨hlt, hp, -⟩ := List.findIdx?_eq_some_iff_getElem.mp h
  exact ⟨es[j], List.getElem?_eq_getElem hlt, hp⟩

theorem otherLine_eq_some (h : otherLine es name = some j) :
    ∃ e, es[j]? = some e ∧ e.mark ≠ 43 ∧ e.Named name := by
  obtain ⟨e, he, hp⟩ := getElem?_of_findIdx? h
  exact ⟨e, he, of_decide_eq_true hp⟩

theorem wildLine_eq_some (h : wildLine es name = some j) :
    ∃ e, es[j]? = some e ∧ e.mark = 43 ∧ e.Named name := by
  obtain ⟨e, he, hp⟩ := getElem?_of_findIdx? h
  exact ⟨e, he, of_decide_eq_true hp⟩

/-- Where the first line that is not a wildcard is a simple assignment, it is the first such. -/
theorem simpleLine_of_otherLine (h : otherLine es name = some j) (he : es[j]? = some e)
    (hm : e.mark = 61) : simpleLine es name = some j := by
  obtain ⟨hlt, hp, hearlier⟩ := List.findIdx?_eq_some_iff_getElem.mp h
  obtain ⟨hlt', hej⟩ := List.getElem?_eq_some_iff.mp he
  have hp' := of_decide_eq_true hp
  rw [simpleLine, List.findIdx?_eq_some_iff_getElem]
  refine ⟨hlt, ?_, ?_⟩
  · rw [hej] at hp' ⊢
    exact decide_eq_true ⟨hm, hp'.2⟩
  · intro i hi hsimple
    obtain ⟨hmi, hni⟩ := of_decide_eq_true hsimple
    refine hearlier i hi (decide_eq_true ⟨?_, hni⟩)
    rw [hmi]
    decide

theorem simpleLine_eq_none (h : otherLine es name = none) : simpleLine es name = none := by
  rw [simpleLine, List.findIdx?_eq_none_iff]
  intro e he
  have hno := of_decide_eq_false (List.findIdx?_eq_none_iff.mp h e he)
  refine decide_eq_false fun hs => hno ⟨?_, hs.2⟩
  rw [hs.1]
  decide

/-- Only simple and wildcard assignments are meant. -/
theorem mark_of_meant {rest : Bytes} (h : meant es local_ = some (j, rest)) :
    ∃ e, es[j]? = some e ∧ (e.mark = 61 ∨ e.mark = 43) := by
  rw [meant] at h
  cases hs : simpleLine es local_ with
  | some i =>
      rw [hs] at h
      obtain ⟨rfl, -⟩ := Prod.mk.inj (Option.some.inj h)
      obtain ⟨e, he, hp⟩ := getElem?_of_findIdx? hs
      exact ⟨e, he, Or.inl (of_decide_eq_true hp).1⟩
  | none =>
      rw [hs] at h
      obtain ⟨p, hp, heq⟩ := Option.map_eq_some_iff.mp h
      obtain ⟨rfl, -⟩ := Prod.mk.inj heq
      obtain ⟨-, hline, -⟩ := longest_eq_some.mp hp
      obtain ⟨e, he, hm, -⟩ := wildLine_eq_some hline
      exact ⟨e, he, Or.inr hm⟩

/-- A line is the line of one length only. -/
theorem length_unique {m : Nat} (hk : k ≤ local_.length) (hm : m ≤ local_.length)
    (h : wildLine es (local_.take k) = some j) (h' : wildLine es (local_.take m) = some j) :
    k = m := by
  obtain ⟨e, he, -, hn⟩ := wildLine_eq_some h
  obtain ⟨e', he', -, hn'⟩ := wildLine_eq_some h'
  obtain rfl : e = e' := Option.some.inj (he ▸ he')
  have hlen := congrArg List.length (hn.symm.trans hn')
  rw [caseLower, caseLower, List.length_map, List.length_map, List.length_take, List.length_take,
    Nat.min_eq_left hk, Nat.min_eq_left hm] at hlen
  exact hlen

/-- The prefixes that are looked at. -/
def Tried (es : List Entry) (local_ : Bytes) (k : Nat) : Prop :=
  k = 0 ∨ IsWild es ((caseLower local_).getD (k - 1) 0)

theorem listed_eq {wild : Bytes} (hwild : ∀ ch, ch ∈ wild ↔ IsWild es ch) (htried : Tried es local_ k) :
    listed es wild local_ k = wildLine es (local_.take k) :=
  if_pos (htried.imp_right (hwild _).mpr)

theorem listed_eq_some {wild : Bytes} (hwild : ∀ ch, ch ∈ wild ↔ IsWild es ch)
    (h : listed es wild local_ k = some j) :
    Tried es local_ k ∧ wildLine es (local_.take k) = some j := by
  rw [listed] at h
  split at h
  · rename_i hk
    exact ⟨hk.imp_right (hwild _).mp, h⟩
  · exact nomatch h

theorem listed_eq_none {wild : Bytes} (h : wildLine es (local_.take k) = none) :
    listed es wild local_ k = none := by
  rw [listed, h, ite_self]

/-- A lookup finds the line that is meant, and none where there is none, if and only if the line
that is found under the name itself is a simple assignment and the longest prefix is tried. -/
theorem users_found_iff (nm : Ulongs) (assign : Bytes) (cdb : Cdb) (local_ : Bytes)
    (h : newu assign = some cdb) (hl : 0 ∉ local_) :
    Finds nm (entries assign) local_ (nughde_get (some cdb) local_) ↔
      Reached (entries assign) local_ := by
  obtain ⟨hplain, wild, rfl, hwild⟩ := compiled_of_newu h
  generalize entries assign = es at hplain hwild ⊢
  rw [nughde_get_eq hplain hl]
  cases ho : otherLine es local_ with
  | some j =>
      obtain ⟨e, he, hne, hnamed⟩ := otherLine_eq_some ho
      dsimp only
      constructor
      · intro hf
        refine ⟨?_, fun hnone => by rw [ho] at hnone; exact nomatch hnone⟩
        intro j' hj' e' he'
        obtain rfl : j = j' := Option.some.inj (ho ▸ hj')
        obtain rfl : e = e' := Option.some.inj (he ▸ he')
        rw [Finds] at hf
        cases hm : meant es local_ with
        | none =>
            rw [hm] at hf
            exact nomatch hf
        | some p =>
            rw [hm] at hf
            obtain ⟨e', nughde, -, hfound, -⟩ := hf
            obtain ⟨e', he', hmark⟩ := mark_of_meant hm
            rw [← (Lookup.found.inj hfound).1, he] at he'
            obtain rfl := Option.some.inj he'
            exact hmark.resolve_right hne
      · intro hr
        have hs := simpleLine_of_otherLine ho he (hr.simple j ho e he)
        rw [Finds, meant, hs]
        refine ⟨e, _, he, rfl, ?_⟩
        rw [cdb_bread_record wild he]
        have hargs : spawnArgs nm ([0].intercalate e.values ++ [] ++ [0]) =
            some (assigned nm e []) :=
          spawnArgs_record (hplain e (List.mem_of_getElem? he)) List.not_mem_nil
        rwa [List.append_nil] at hargs
  | none =>
      have hs := simpleLine_eq_none ho
      have hother : ∀ j ∈ otherLine es local_, ∀ e ∈ es[j]?, e.mark = 61 := by
        intro j hj
        rw [ho] at hj
        exact nomatch hj
      dsimp only
      rw [Finds, meant, hs]
      cases hlong : longest (fun k => wildLine es (local_.take k)) local_.length with
      | none =>
          have hnone : longest (listed es wild local_) local_.length = none :=
            longest_eq_none.mpr fun k hk => listed_eq_none (longest_eq_none.mp hlong k hk)
          rw [hnone]
          refine iff_of_true rfl ⟨hother, ?_⟩
          intro _ j k hjk
          rw [hlong] at hjk
          exact nomatch hjk
      | some p =>
          obtain ⟨j, k⟩ := p
          obtain ⟨hk, hline, hlater⟩ := longest_eq_some.mp hlong
          by_cases htried : Tried es local_ k
          · -- the longest prefix is tried, and no longer one has a line
            have hsome : longest (listed es wild local_) local_.length = some (j, k) :=
              longest_eq_some.mpr ⟨hk, (listed_eq hwild htried).trans hline,
                fun m hm hle => listed_eq_none (hlater m hm hle)⟩
            obtain ⟨e, he, -, -⟩ := wildLine_eq_some hline
            rw [hsome]
            refine iff_of_true ?_ ⟨hother, ?_⟩
            · refine ⟨e, _, he, rfl, ?_⟩
              rw [cdb_bread_record wild he]
              exact spawnArgs_record (hplain e (List.mem_of_getElem? he))
                fun h0 => hl (List.mem_of_mem_drop h0)
            · intro _ j' k' hjk
              rw [hlong] at hjk
              obtain ⟨-, rfl⟩ := Prod.mk.inj (Option.some.inj hjk)
              exact htried.resolve_left (Nat.succ_ne_zero _)
          · -- it is skipped: another line is found, or none
            refine iff_of_false ?_ ?_
            · rintro ⟨e, nughde, -, hfound, -⟩
              cases hcode : longest (listed es wild local_) local_.length with
              | none =>
                  rw [hcode] at hfound
                  exact nomatch hfound
              | some p =>
                  obtain ⟨i, m⟩ := p
                  rw [hcode] at hfound
                  obtain ⟨hm, hlisted, -⟩ := longest_eq_some.mp hcode
                  obtain ⟨htried', hline'⟩ := listed_eq_some hwild hlisted
                  rw [(Lookup.found.inj hfound).1] at hline'
                  exact htried (length_unique hk hm hline hline' ▸ htried')
            · intro hr
              apply htried
              cases k with
              | zero => exact Or.inl rfl
              | succ k => exact Or.inr (hr.wild ho j k hlong)

/-! ## A name in capitals -/

def assignFile : Bytes := asc "+Joe-X:joe:507:100:/home/joe:-::\n.\n"

/-- The name of the wildcard line ends with a capital letter, and is never looked for. -/
theorem capital_is_skipped : ¬ ∀ (nm : Ulongs) (assign : Bytes) (cdb : Cdb) (local_ : Bytes),
    newu assign = some cdb → 0 ∉ local_ → local_ ≠ [] →
      Finds nm (entries assign) local_ (nughde_get (some cdb) local_) := by
  intro h
  obtain ⟨e, nughde, -, hfound, -⟩ := h ulongs assignFile
    [(asc "!joe-x", asc "joe" ++ [0] ++ asc "507" ++ [0] ++ asc "100" ++ [0] ++ asc "/home/joe" ++
      [0] ++ asc "-" ++ [0]), ([], asc "X")] (asc "joe-xa") (by decide +kernel) (by decide)
    (by decide)
  have hgetpw : nughde_get (some [(asc "!joe-x", asc "joe" ++ [0] ++ asc "507" ++ [0] ++
      asc "100" ++ [0] ++ asc "/home/joe" ++ [0] ++ asc "-" ++ [0]), ([], asc "X")])
      (asc "joe-xa") = .getpw := by decide +kernel
  rw [hgetpw] at hfound
  exact nomatch hfound

theorem users_found_iff_joe :
    Finds ulongs (entries (asc "+joe-:joe:507:100:/home/joe:-::\n.\n")) (asc "Joe-Direct")
        (nughde_get (some [(asc "!joe-", asc "joe" ++ [0] ++ asc "507" ++ [0] ++ asc "100" ++ [0] ++
          asc "/home/joe" ++ [0] ++ asc "-" ++ [0]), ([], asc "-")]) (asc "Joe-Direct")) ↔
      Reached (entries (asc "+joe-:joe:507:100:/home/joe:-::\n.\n")) (asc "Joe-Direct") :=
  users_found_iff ulongs _ _ _ (by decide +kernel) (by decide)

end IndimailMta.Users
