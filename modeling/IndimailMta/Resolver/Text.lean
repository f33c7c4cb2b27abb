import IndimailMta.Resolver.Domain
import IndimailMta.Lib.Splits
import Mathlib.Data.List.ReduceOption

/-!
# The names of domains in texts

In a text the labels stand between dots, and a backslash in front of a character, or of up to three octal
digits, takes away what it means. `dns_domain_fromdot` packs the name that a text has, and
`dns_domain_todot_cat` writes a text for a packed name.
-/

namespace IndimailMta.Resolver

open IndimailMta IndimailMta.Lib.Splits

/-! ## From a text -/

def isOctal (ch : Byte) : Bool := 48 ≤ ch && ch ≤ 55

/-- The characters that the turns of the loop in `dns_domain_fromdot` take: `none` is a dot that ends a
label. A backslash at the end is left out. -/
def tokens : Bytes → List (Option Byte)
  | [] => []
  | ch :: buf =>
      if ch = 46 then none :: tokens buf
      else if ch ≠ 92 then some ch :: tokens buf
      else
        match buf with
        | [] => []
        | a :: buf' =>
            if !isOctal a then some a :: tokens buf'
            else
              match buf' with
              | [] => [some (a - 48)]
              | b :: buf'' =>
                  if !isOctal b then some (a - 48) :: tokens (b :: buf'')
                  else
                    match buf'' with
                    | [] => [some ((a - 48) <<< 3 + (b - 48))]
                    | c :: buf''' =>
                        if !isOctal c then some ((a - 48) <<< 3 + (b - 48)) :: tokens (c :: buf''')
                        else some (((a - 48) <<< 3 + (b - 48)) <<< 3 + (c - 48)) :: tokens buf'''

theorem tokens_dot (buf : Bytes) : tokens (46 :: buf) = none :: tokens buf := by
  rw [tokens.eq_def]
  exact if_pos rfl

theorem tokens_char {ch : Byte} (hdot : ch ≠ 46) (hslash : ch ≠ 92) (buf : Bytes) :
    tokens (ch :: buf) = some ch :: tokens buf := by
  rw [tokens.eq_def]
  dsimp only
  rw [if_neg hdot, if_pos hslash]

theorem tokens_octal {a b c : Byte} (ha : isOctal a = true) (hb : isOctal b = true) (hc : isOctal c = true)
    (buf : Bytes) :
    tokens (92 :: a :: b :: c :: buf) = some (((a - 48) <<< 3 + (b - 48)) <<< 3 + (c - 48)) :: tokens buf := by
  rw [tokens.eq_def]
  simp only [ha, hb, hc, Bool.not_true, Bool.false_eq_true, if_false]
  rfl

/-- The variables of `dns_domain_fromdot`. -/
structure FromDot where
  label : Bytes
  name : Bytes

def endLabel (s : FromDot) : Option FromDot :=
  if s.label = [] then some s
  else if 255 < s.name.length + s.label.length + 1 then none
  else some ⟨[], s.name ++ UInt8.ofNat s.label.length :: s.label⟩

/-- A turn of the loop. -/
def fromdotTurn (s : FromDot) : Option Byte → Option FromDot
  | none => endLabel s
  | some ch => if 63 ≤ s.label.length then none else some { s with label := s.label ++ [ch] }

def fromdotEnd (s : FromDot) : Option Bytes := do
  let s ← endLabel s
  if 255 < s.name.length + 1 then none else some (s.name ++ [0])

def dns_domain_fromdot (buf : Bytes) : Option Bytes :=
  ((tokens buf).foldlM fromdotTurn ⟨[], []⟩).bind fromdotEnd

/-- The parts of a text between dots that are not empty. -/
def labelsOf (ts : List (Option Byte)) : List Bytes := (words Option.isNone ts).map List.reduceOption

section FromDot

variable {label name : Bytes} {n : Name} {l : Label} {ts : List (Option Byte)}

theorem labelsOf_label (hne : label ≠ []) (hts : ts.head?.any (fun t => !t.isNone) = false) :
    labelsOf (label.map some ++ ts) = label :: labelsOf ts := by
  have hmap : ∀ t ∈ label.map some, Option.isNone t = false := by
    intro t ht
    obtain ⟨b, -, rfl⟩ := List.mem_map.mp ht
    rfl
  have hmapne : label.map some ≠ [] := fun h => hne (List.map_eq_nil_iff.mp h)
  rw [labelsOf, words_append_stop hmapne hmap hts, List.map_cons, labelsOf, List.reduceOption, List.filterMap_map]
  exact congrArg (· :: _) (List.filterMap_some)

/-- The first part of a text that does not start with a dot. -/
theorem labelsOf_front (hne : label ≠ []) (ts : List (Option Byte)) :
    ∃ more rest, labelsOf (label.map some ++ ts) = (label ++ more) :: rest := by
  induction ts generalizing label with
  | nil =>
      refine ⟨[], labelsOf [], ?_⟩
      rw [List.append_nil label]
      exact labelsOf_label hne rfl
  | cons t ts ih =>
      cases t with
      | none =>
          refine ⟨[], labelsOf (none :: ts), ?_⟩
          rw [List.append_nil]
          exact labelsOf_label hne rfl
      | some b =>
          obtain ⟨more, rest, h⟩ := @ih (label ++ [b]) (List.concat_ne_nil b label)
          refine ⟨b :: more, rest, ?_⟩
          rw [List.map_append, List.append_assoc, List.append_assoc] at h
          exact h

/-- A name that has what a text has from some place on. -/
def Named (label : Bytes) (ts : List (Option Byte)) (name : Bytes) (n : Name) : Prop :=
  n.map Label.bytes = labelsOf (label.map some ++ ts) ∧ name.length + (pack n).length ≤ 255

/-- The label that is over is not too long, and there is room for it. -/
theorem named_label (hne : label ≠ []) (hts : ts.head?.any (fun t => !t.isNone) = false) :
    Named label ts name n ↔ ∃ l n', n = l :: n' ∧ l.bytes = label ∧
      Named [] ts (name ++ l.packed) n' := by
  rw [Named, labelsOf_label hne hts]
  constructor
  · rintro ⟨hn, hlen⟩
    cases n with
    | nil => exact absurd hn (List.cons_ne_nil _ _).symm
    | cons l n' =>
        obtain ⟨hl, hn'⟩ := List.cons.inj hn
        refine ⟨l, n', rfl, hl, hn', ?_⟩
        rw [pack_cons, List.length_cons, List.length_append] at hlen
        rw [List.length_append, l.length_packed]
        omega
  · rintro ⟨l, n', rfl, rfl, hn', hlen⟩
    refine ⟨congrArg (l.bytes :: ·) hn', ?_⟩
    rw [List.length_append, l.length_packed] at hlen
    rw [pack_cons, List.length_cons, List.length_append]
    omega

theorem endLabel_nil (name : Bytes) : endLabel ⟨[], name⟩ = some ⟨[], name⟩ := if_pos rfl

theorem endLabel_label (l : Label) (name : Bytes) :
    endLabel ⟨l.bytes, name⟩ =
      if 255 < name.length + l.bytes.length + 1 then none else some ⟨[], name ++ l.packed⟩ := by
  have hne : l.bytes ≠ [] := fun h => absurd l.pos (by rw [h]; exact Nat.lt_irrefl 0)
  rw [endLabel, if_neg hne]
  rfl

/-- A label is over, and what comes then packs the rest. -/
theorem endLabel_packs {f : FromDot → Option Bytes} {q : Bytes} (hlabel : label.length ≤ 63)
    (hts : ts.head?.any (fun t => !t.isNone) = false)
    (hf : ∀ name, f ⟨[], name⟩ = some q ↔ ∃ n, Named [] ts name n ∧ q = name ++ pack n) :
    (endLabel ⟨label, name⟩).bind f = some q ↔ ∃ n, Named label ts name n ∧ q = name ++ pack n := by
  by_cases hne : label = []
  · rw [hne, endLabel_nil, Option.bind_some]
    exact hf name
  obtain ⟨l, rfl⟩ : ∃ l : Label, l.bytes = label := ⟨⟨label, List.length_pos_iff.mpr hne, hlabel⟩, rfl⟩
  have hiff : (∃ n, Named l.bytes ts name n ∧ q = name ++ pack n) ↔
      ∃ n, Named [] ts (name ++ l.packed) n ∧ q = name ++ l.packed ++ pack n := by
    constructor
    · rintro ⟨n, hn, rfl⟩
      obtain ⟨k, n', rfl, hk, hn'⟩ := (named_label hne hts).mp hn
      rw [Label.ext_bytes hk] at hn' ⊢
      refine ⟨n', hn', ?_⟩
      rw [pack_cons, List.append_assoc]
      rfl
    · rintro ⟨n, hn, rfl⟩
      refine ⟨l :: n, (named_label hne hts).mpr ⟨l, n, rfl, rfl, hn⟩, ?_⟩
      rw [pack_cons, List.append_assoc]
      rfl
  rw [endLabel_label, hiff]
  by_cases hlen : 255 < name.length + l.bytes.length + 1
  · rw [if_pos hlen]
    refine iff_of_false (Option.some_ne_none _).symm ?_
    rintro ⟨n, ⟨-, hle⟩, -⟩
    have hpos := length_pack_pos n
    rw [List.length_append, l.length_packed] at hle
    omega
  · rw [if_neg hlen, Option.bind_some]
    exact hf _

/-- **From any place on**, the loop packs what the text has, if the name is not too long. -/
theorem fromdot_loop (ts : List (Option Byte)) (label name : Bytes) (hlabel : label.length ≤ 63) (q : Bytes) :
    (ts.foldlM fromdotTurn ⟨label, name⟩).bind fromdotEnd = some q ↔
      ∃ n, Named label ts name n ∧ q = name ++ pack n := by
  induction ts generalizing label name with
  | nil =>
      refine endLabel_packs (f := fun s => if 255 < s.name.length + 1 then none else some (s.name ++ [0]))
        hlabel rfl fun name => ?_
      by_cases hlen : 255 < name.length + 1
      · rw [if_pos hlen]
        refine iff_of_false (Option.some_ne_none _).symm ?_
        rintro ⟨n, ⟨-, hle⟩, -⟩
        have hpos := length_pack_pos n
        omega
      · rw [if_neg hlen, Option.some_inj]
        constructor
        · rintro rfl
          exact ⟨[], ⟨rfl, Nat.le_of_not_lt hlen⟩, rfl⟩
        · rintro ⟨n, ⟨hn, -⟩, rfl⟩
          rw [List.map_eq_nil_iff.mp hn]
          rfl
  | cons t ts ih =>
      rw [List.foldlM_cons, Option.bind_eq_bind, Option.bind_assoc]
      cases t with
      | none =>
          refine endLabel_packs hlabel rfl fun name => ?_
          have hdot : labelsOf (none :: ts) = labelsOf ts := by
            rw [labelsOf, words_cons_of_sep rfl, labelsOf]
          rw [ih [] name (Nat.zero_le 63)]
          refine exists_congr fun n => and_congr_left fun _ => ?_
          rw [Named, Named, List.map_nil, List.nil_append, List.nil_append, hdot]
      | some ch =>
          rw [fromdotTurn]
          by_cases hlen : 63 ≤ label.length
          · rw [if_pos hlen, Option.bind_none]
            refine iff_of_false (Option.some_ne_none _).symm ?_
            rintro ⟨n, ⟨hn, -⟩, -⟩
            obtain ⟨more, rest, hfront⟩ := labelsOf_front (List.concat_ne_nil ch label) ts
            rw [List.map_append, List.append_assoc] at hfront
            rw [List.map_singleton, List.singleton_append] at hfront
            rw [hfront] at hn
            have hmem : label ++ [ch] ++ more ∈ n.map Label.bytes := hn ▸ List.mem_cons_self
            obtain ⟨l, -, hl⟩ := List.mem_map.mp hmem
            have hshort := l.short
            rw [hl, List.length_append, List.length_append, List.length_singleton] at hshort
            omega
          · rw [if_neg hlen, Option.bind_some]
            have hlabel' : (label ++ [ch]).length ≤ 63 := by
              rw [List.length_append, List.length_singleton]
              omega
            rw [ih (label ++ [ch]) name hlabel']
            refine exists_congr fun n => and_congr_left fun _ => ?_
            rw [Named, Named, List.map_append, List.append_assoc]
            rfl

/-- **A text is accepted** if its parts between dots that are not empty are labels, and the name that they
make has at most 255 bytes. -/
theorem fromdot_packs (buf q : Bytes) :
    dns_domain_fromdot buf = some q ↔
      ∃ n : Name, n.map Label.bytes = labelsOf (tokens buf) ∧ (pack n).length ≤ 255 ∧ q = pack n := by
  rw [dns_domain_fromdot, fromdot_loop (tokens buf) [] [] (Nat.zero_le 63) q]
  refine exists_congr fun n => ?_
  rw [Named, List.map_nil, List.nil_append, List.length_nil, Nat.zero_add, List.nil_append, and_assoc]

end FromDot

/-! ## To a text -/

/-- The characters that are written as they are. -/
def isPlain (ch : Byte) : Bool :=
  (97 ≤ ch && ch ≤ 122) || (48 ≤ ch && ch ≤ 57) || ch = 45 || ch = 95

/-- What is written for a byte of a label. -/
def todotByte (ch : Byte) : Bytes :=
  let ch2 := if 65 ≤ ch ∧ ch ≤ 90 then ch + 32 else ch
  if isPlain ch2 then [ch2] else [92, (ch2 >>> 6 &&& 7) + 48, (ch2 >>> 3 &&& 7) + 48, (ch2 &&& 7) + 48]

/-- The loop of `dns_domain_todot_cat`: how many bytes of the label are to come. -/
def todotLoop : Nat → Bytes → Option Bytes
  | _, [] => none
  | k + 1, ch :: d => (todotLoop k d).map (todotByte ch ++ ·)
  | 0, ch :: d => if ch = 0 then some [] else (todotLoop ch.toNat d).map (46 :: ·)

/-- What is appended to `out`. -/
def dns_domain_todot_cat : Bytes → Option Bytes
  | [] => none
  | ch :: d => if ch = 0 then some [46] else todotLoop ch.toNat d

/-- The text of a label. -/
def Label.text (l : Label) : Bytes := l.bytes.flatMap todotByte

/-- The text of a name. -/
def nameText (n : Name) : Bytes := if n = [] then [46] else [46].intercalate (n.map Label.text)

section ToDot

variable {n : Name} {l : Label} {rest : Bytes}

theorem todotLoop_skip (bytes rest : Bytes) :
    todotLoop bytes.length (bytes ++ rest) = (todotLoop 0 rest).map (bytes.flatMap todotByte ++ ·) := by
  induction bytes with
  | nil =>
      rw [List.length_nil, List.nil_append, List.flatMap_nil]
      exact Option.map_id'.symm
  | cons b bytes ih =>
      rw [List.length_cons, List.cons_append, todotLoop, ih, Option.map_map, List.flatMap_cons]
      refine congrArg (Option.map · _) (funext fun x => ?_)
      exact (List.append_assoc _ _ _).symm

theorem todotLoop_pack (l : Label) (n : Name) (rest : Bytes) :
    todotLoop l.bytes.length (l.bytes ++ (pack n ++ rest)) = some ([46].intercalate ((l :: n).map Label.text)) := by
  induction n generalizing l with
  | nil =>
      rw [todotLoop_skip, List.map_singleton, List.intercalate_singleton]
      exact congrArg some (List.append_nil _)
  | cons k n ih =>
      rw [todotLoop_skip, pack_cons, List.cons_append, List.append_assoc, todotLoop, if_neg k.length_ne_zero,
        k.toNat_length, ih]
      simp only [List.map_cons, List.intercalate_cons_cons, List.append_assoc]
      rfl

theorem dns_domain_todot_pack (n : Name) (rest : Bytes) :
    dns_domain_todot_cat (pack n ++ rest) = some (nameText n) := by
  cases n with
  | nil => rfl
  | cons l n =>
      rw [pack_cons, List.cons_append, List.append_assoc, dns_domain_todot_cat, if_neg l.length_ne_zero,
        l.toNat_length, todotLoop_pack, nameText, if_neg (List.cons_ne_nil l n)]

/-- The digits of a byte. -/
theorem octal_digits (ch : Byte) :
    isOctal ((ch >>> 6 &&& 7) + 48) = true ∧ isOctal ((ch >>> 3 &&& 7) + 48) = true ∧
      isOctal ((ch &&& 7) + 48) = true ∧
      (((ch >>> 6 &&& 7) + 48 - 48) <<< 3 + ((ch >>> 3 &&& 7) + 48 - 48)) <<< 3 + ((ch &&& 7) + 48 - 48) = ch := by
  have hall : ∀ n < 256,
      isOctal ((UInt8.ofNat n >>> 6 &&& 7) + 48) = true ∧ isOctal ((UInt8.ofNat n >>> 3 &&& 7) + 48) = true ∧
        isOctal ((UInt8.ofNat n &&& 7) + 48) = true ∧
        (((UInt8.ofNat n >>> 6 &&& 7) + 48 - 48) <<< 3 + ((UInt8.ofNat n >>> 3 &&& 7) + 48 - 48)) <<< 3 +
          ((UInt8.ofNat n &&& 7) + 48 - 48) = UInt8.ofNat n := by decide +kernel
  have h := hall ch.toNat ch.toNat_lt
  rwa [UInt8.ofNat_toNat] at h

theorem isPlain_ne {ch : Byte} (h : isPlain ch = true) : ch ≠ 46 ∧ ch ≠ 92 := by
  refine ⟨?_, ?_⟩
  · rintro rfl
    exact absurd h (by decide)
  · rintro rfl
    exact absurd h (by decide)

/-- What is written for a byte is read as the byte, in lower case. -/
theorem tokens_todotByte (ch : Byte) (buf : Bytes) :
    tokens (todotByte ch ++ buf) = some (if 65 ≤ ch ∧ ch ≤ 90 then ch + 32 else ch) :: tokens buf := by
  rw [todotByte]
  generalize (if 65 ≤ ch ∧ ch ≤ 90 then ch + 32 else ch) = ch2
  by_cases h : isPlain ch2 = true
  · obtain ⟨hdot, hslash⟩ := isPlain_ne h
    rw [if_pos h, List.singleton_append, tokens_char hdot hslash]
  · obtain ⟨ha, hb, hc, hval⟩ := octal_digits ch2
    rw [if_neg h]
    simp only [List.cons_append, List.nil_append]
    rw [tokens_octal ha hb hc, hval]

theorem tokens_label (l : Label) (buf : Bytes) :
    tokens (l.text ++ buf) = l.lower.bytes.map some ++ tokens buf := by
  change tokens (l.bytes.flatMap todotByte ++ buf) = (caseLower l.bytes).map some ++ tokens buf
  induction l.bytes with
  | nil => rfl
  | cons ch bytes ih =>
      rw [List.flatMap_cons, List.append_assoc, tokens_todotByte, ih]
      rfl

/-- The labels of the text of a name. -/
theorem labelsOf_text (l : Label) (n : Name) :
    labelsOf (tokens ([46].intercalate ((l :: n).map Label.text))) = (lowerName (l :: n)).map Label.bytes := by
  have hne : ∀ k : Label, k.lower.bytes ≠ [] := fun k h => absurd k.lower.pos (by rw [h]; exact Nat.lt_irrefl 0)
  induction n generalizing l with
  | nil =>
      have htokens := tokens_label l []
      rw [List.append_nil] at htokens
      rw [List.map_singleton, List.intercalate_singleton, htokens]
      exact labelsOf_label (hne l) rfl
  | cons k n ih =>
      have hdot : labelsOf (tokens (46 :: [46].intercalate ((k :: n).map Label.text))) =
          (lowerName (k :: n)).map Label.bytes := by
        rw [tokens_dot, labelsOf, words_cons_of_sep rfl, ← labelsOf, ih]
      have hstop : (tokens (46 :: [46].intercalate ((k :: n).map Label.text))).head?.any (fun t => !t.isNone) =
          false := by
        rw [tokens_dot]
        rfl
      have hjoin : [46].intercalate ((l :: k :: n).map Label.text) =
          l.text ++ 46 :: [46].intercalate ((k :: n).map Label.text) := by
        simp only [List.map_cons, List.intercalate_cons_cons, List.append_assoc]
        rfl
      rw [hjoin, tokens_label, labelsOf_label (hne l) hstop, hdot]
      rfl

theorem todotByte_plain (ch : Byte) : ∀ x ∈ todotByte ch, isPlain x = true ∨ x = 92 := by
  intro x hx
  rw [todotByte] at hx
  generalize (if 65 ≤ ch ∧ ch ≤ 90 then ch + 32 else ch) = ch2 at hx
  have hdigit : ∀ y : Byte, isOctal y = true → isPlain y = true := by
    intro y hy
    rw [isOctal, Bool.and_eq_true, decide_eq_true_iff, decide_eq_true_iff] at hy
    have hle : y ≤ 57 := UInt8.le_trans hy.2 (by decide)
    simp [isPlain, hy.1, hle]
  by_cases h : isPlain ch2 = true
  · rw [if_pos h, List.mem_singleton] at hx
    exact .inl (hx ▸ h)
  · obtain ⟨ha, hb, hc, -⟩ := octal_digits ch2
    rw [if_neg h] at hx
    simp only [List.mem_cons, List.not_mem_nil, or_false] at hx
    rcases hx with rfl | rfl | rfl | rfl
    · exact .inr rfl
    · exact .inl (hdigit _ ha)
    · exact .inl (hdigit _ hb)
    · exact .inl (hdigit _ hc)

theorem nameText_plain (n : Name) : ∀ x ∈ nameText n, isPlain x = true ∨ x = 92 ∨ x = 46 := by
  have hlabel : ∀ l : Label, ∀ x ∈ l.text, isPlain x = true ∨ x = 92 ∨ x = 46 := by
    intro l x hx
    obtain ⟨ch, -, hx⟩ := List.mem_flatMap.mp hx
    exact (todotByte_plain ch x hx).imp_right .inl
  intro x hx
  cases n with
  | nil => exact .inr (.inr (List.mem_singleton.mp hx))
  | cons l n =>
      rw [nameText, if_neg (List.cons_ne_nil l n)] at hx
      induction n generalizing l with
      | nil =>
          rw [List.map_singleton, List.intercalate_singleton] at hx
          exact hlabel l x hx
      | cons k n ih =>
          rw [List.map_cons, List.map_cons, List.intercalate_cons_cons, List.mem_append, List.mem_append] at hx
          rcases hx with (hx | hx) | hx
          · exact hlabel l x hx
          · exact .inr (.inr (List.mem_singleton.mp hx))
          · exact ih k hx

/-- **A name comes back** from its text, in lower case, and the text has only letters, digits, `-`, `_`, dots
and backslashes. -/
theorem fromdot_todot (n : Name) (rest : Bytes) (h : (pack n).length ≤ 255) :
    ∃ text, dns_domain_todot_cat (pack n ++ rest) = some text ∧
      dns_domain_fromdot text = some (pack (lowerName n)) ∧
      ∀ x ∈ text, isPlain x = true ∨ x = 92 ∨ x = 46 := by
  have hlength : (pack (lowerName n)).length ≤ 255 := by
    rw [← caseLower_pack, caseLower, List.length_map]
    exact h
  refine ⟨nameText n, dns_domain_todot_pack n rest, ?_, nameText_plain n⟩
  rw [fromdot_packs]
  refine ⟨lowerName n, ?_, hlength, rfl⟩
  cases n with
  | nil => rfl
  | cons l n =>
      rw [nameText, if_neg (List.cons_ne_nil l n)]
      exact (labelsOf_text l n).symm

/-- The name `A.`: its one label is a letter and a dot. -/
theorem fromdot_todot_letter : ∃ text,
    dns_domain_todot_cat (pack [⟨[65, 46], by decide, by decide⟩] ++ []) = some text ∧
    dns_domain_fromdot text = some (pack (lowerName [⟨[65, 46], by decide, by decide⟩])) ∧
    ∀ x ∈ text, isPlain x = true ∨ x = 92 ∨ x = 46 :=
  fromdot_todot [⟨[65, 46], by decide, by decide⟩] [] (by decide)

end ToDot

end IndimailMta.Resolver
