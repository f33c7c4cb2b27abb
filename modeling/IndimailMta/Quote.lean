import IndimailMta.Smtpd.Session

/-!
# Quoted addresses

`quote2` writes an address for a command of SMTP or a header: the part before the last `@` is
put in quotes if it is not a sequence of atoms with dots between them. `addrparse` of
`qmail-smtpd` takes the quotes off again.
-/

namespace IndimailMta.Quote

open IndimailMta Smtpd

/-- The bytes an atom may have, and the dot. -/
def ok : List Nat := [
  0, 0, 0, 0, 0, 0, 0, 0, 0, 0, 0, 0, 0, 0, 0, 0,
  0, 0, 0, 0, 0, 0, 0, 0, 0, 0, 0, 0, 0, 0, 0, 0,
  0, 7, 0, 7, 7, 7, 7, 7, 0, 0, 7, 7, 0, 7, 7, 7,
  7, 7, 7, 7, 7, 7, 7, 7, 7, 7, 0, 0, 0, 7, 0, 7,
  0, 7, 7, 7, 7, 7, 7, 7, 7, 7, 7, 7, 7, 7, 7, 7,
  7, 7, 7, 7, 7, 7, 7, 7, 7, 7, 7, 0, 0, 0, 7, 7,
  7, 7, 7, 7, 7, 7, 7, 7, 7, 7, 7, 7, 7, 7, 7, 7,
  7, 7, 7, 7, 7, 7, 7, 7, 7, 7, 7, 7, 7, 7, 7, 0]

def quote_need (s : Bytes) : Bool :=
  s.isEmpty || s.any (fun uch => 128 ≤ uch || ok.getD uch.toNat 0 == 0) ||
    s.head? == some 46 || s.getLast? == some 46 || (s.zip s.tail).any (· == (46, 46))

/-- The loop of `doit`. -/
def escape (s : Bytes) : Bytes :=
  s.flatMap fun ch => if ch = 13 ∨ ch = 10 ∨ ch = 34 ∨ ch = 92 then [92, ch] else [ch]

def doit (s : Bytes) : Bytes := 34 :: (escape s ++ [34])

def quote (s : Bytes) : Bytes := if quote_need s then doit s else s

def quote2 (s : Bytes) : Bytes :=
  if s = [] then s
  else
    let j := byteRchr s 64
    if j = s.length then quote s else quote (s.take j) ++ s.drop j

/-! ## What `unquote` makes of the parts -/

/-- `addrparse` copies it, in quotes or not. -/
def Plain (ch : Byte) : Prop := ch ≠ 62 ∧ ch ≠ 34 ∧ ch ≠ 92

instance : DecidablePred Plain := fun ch => inferInstanceAs (Decidable (ch ≠ 62 ∧ ch ≠ 34 ∧ ch ≠ 92))

theorem unquote_plain {s : Bytes} (h : ∀ ch ∈ s, Plain ch) (tail : Bytes) :
    unquote 62 false false (s ++ tail) = s ++ unquote 62 false false tail := by
  induction s with
  | nil => rfl
  | cons ch s ih =>
      obtain ⟨h62, h34, h92⟩ := h ch (by simp)
      rw [List.cons_append, unquote]
      simp only [Bool.not_false, Bool.true_and, beq_iff_eq]
      rw [if_neg h62, if_neg h92, if_neg h34, ih fun b hb => h b (by simp [hb])]
      rfl

theorem unquote_escape (s tail : Bytes) :
    unquote 62 false true (escape s ++ tail) = s ++ unquote 62 false true tail := by
  induction s with
  | nil => rfl
  | cons ch s ih =>
      rw [escape, List.flatMap_cons, ← escape, List.append_assoc]
      split
      · -- behind a backslash every byte is copied
        rw [List.cons_append, List.cons_append, List.nil_append, unquote]
        simp only [Bool.not_true, Bool.false_and, beq_self_eq_true, if_true]
        rw [if_neg Bool.false_ne_true, unquote, ih]
        rfl
      · rename_i h
        simp only [not_or] at h
        rw [List.cons_append, List.nil_append, unquote]
        simp only [Bool.not_true, Bool.false_and, beq_iff_eq]
        rw [if_neg Bool.false_ne_true, if_neg h.2.2.2, if_neg h.2.2.1, ih]
        rfl

theorem unquote_doit (s tail : Bytes) :
    unquote 62 false false (doit s ++ tail) = s ++ unquote 62 false false tail := by
  rw [doit, List.cons_append, List.append_assoc, unquote]
  simp only [Bool.not_false, Bool.true_and, beq_iff_eq]
  rw [if_neg (by decide), if_neg (by decide), if_true, unquote_escape, List.singleton_append,
    unquote]
  simp only [Bool.not_true, Bool.false_and, beq_iff_eq]
  rw [if_neg Bool.false_ne_true, if_neg (by decide), if_true]

theorem ok_plain : ∀ ch : Byte, ok.getD ch.toNat 0 ≠ 0 → ch ≠ 62 ∧ ch ≠ 34 ∧ ch ≠ 92 ∧ ch ≠ 64 := by
  rintro ch h
  refine ⟨?_, ?_, ?_, ?_⟩ <;>
  · rintro rfl
    exact h (by decide)

theorem of_not_quote_need {s : Bytes} (h : quote_need s = false) :
    s ≠ [] ∧ ∀ ch ∈ s, Plain ch ∧ ch ≠ 64 := by
  simp only [quote_need, Bool.or_eq_false_iff, List.isEmpty_eq_false_iff, List.any_eq_false] at h
  obtain ⟨⟨⟨⟨hne, hok⟩, -⟩, -⟩, -⟩ := h
  refine ⟨hne, fun ch hch => ?_⟩
  have hch := hok ch hch
  simp only [Bool.or_eq_true, decide_eq_true_eq, beq_iff_eq, not_or] at hch
  obtain ⟨h62, h34, h92, h64⟩ := ok_plain ch hch.2
  exact ⟨⟨h62, h34, h92⟩, h64⟩

theorem unquote_quote (s tail : Bytes) :
    unquote 62 false false (quote s ++ tail) = s ++ unquote 62 false false tail := by
  rw [quote]
  split
  · exact unquote_doit s tail
  · rename_i h
    exact unquote_plain (fun ch hch => ((of_not_quote_need (by simpa using h)).2 ch hch).1) tail

/-- A quoted text does not look like a source route. -/
theorem head_quote (s : Bytes) : ∃ ch t, quote s = ch :: t ∧ ch ≠ 64 := by
  rw [quote]
  split
  · exact ⟨34, escape s ++ [34], rfl, by decide⟩
  · rename_i h
    obtain ⟨hne, hch⟩ := of_not_quote_need (by simpa using h)
    obtain ⟨ch, t, rfl⟩ := List.exists_cons_of_ne_nil hne
    exact ⟨ch, t, rfl, (hch ch (by simp)).2⟩

/-! ## Addresses -/

theorem quote2_cases (s : Bytes) :
    s = [] ∧ quote2 s = [] ∨ s ≠ [] ∧ (64 : Byte) ∉ s ∧ quote2 s = quote s ∨
      ∃ u v, s = u ++ 64 :: v ∧ (64 : Byte) ∉ v ∧ quote2 s = quote u ++ 64 :: v := by
  rcases eq_or_ne s [] with rfl | hne
  · exact Or.inl ⟨rfl, rfl⟩
  right
  obtain ⟨hno, hpos⟩ | ⟨u, v, rfl, hv, hpos⟩ := byteRchr_cases s 64
  · left
    refine ⟨hne, hno, ?_⟩
    rw [quote2, if_neg hne]
    simp only [hpos, if_true]
  · right
    refine ⟨u, v, rfl, hv, ?_⟩
    rw [quote2, if_neg hne]
    simp only [hpos]
    rw [if_neg (by simp), List.take_left, List.drop_left]

theorem unquote_quote2 {s : Bytes} (h : ∀ ch ∈ s.drop (byteRchr s 64 + 1), Plain ch)
    (tail : Bytes) : unquote 62 false false (quote2 s ++ 62 :: tail) = s := by
  have hend : unquote 62 false false (62 :: tail) = [] := by
    rw [unquote]
    rfl
  rcases quote2_cases s with ⟨rfl, hq⟩ | ⟨-, -, hq⟩ | ⟨u, v, rfl, hv, hq⟩
  · rw [hq, List.nil_append, hend]
  · rw [hq, unquote_quote, hend, List.append_nil]
  · rw [byteRchr_append hv, show u ++ (64 : Byte) :: v = (u ++ [64]) ++ v by simp,
      List.drop_left' (by simp)] at h
    have hplain : ∀ ch ∈ 64 :: v, Plain ch := by
      intro ch hch
      rcases List.mem_cons.mp hch with rfl | hch
      · exact ⟨by decide, by decide, by decide⟩
      · exact h ch hch
    rw [hq, List.append_assoc, unquote_quote, unquote_plain hplain, hend, List.append_nil]

theorem stripRoute_quote2 (s tail : Bytes) :
    stripRoute (quote2 s ++ 62 :: tail) = quote2 s ++ 62 :: tail := by
  rw [stripRoute, if_neg]
  rcases quote2_cases s with ⟨rfl, hq⟩ | ⟨-, -, hq⟩ | ⟨u, v, rfl, -, hq⟩
  · rw [hq]
    simp
  · obtain ⟨ch, t, hch, hne⟩ := head_quote s
    rw [hq, hch]
    simpa using hne
  · obtain ⟨ch, t, hch, hne⟩ := head_quote u
    rw [hq, hch]
    simpa using hne

theorem nul_notMem_quote {s : Bytes} (h : (0 : Byte) ∉ s) : (0 : Byte) ∉ quote s := by
  rw [quote]
  split
  · simp only [doit, escape, List.mem_cons, List.mem_append, List.mem_flatMap, not_or, not_exists,
      not_and, List.not_mem_nil, not_false_eq_true, and_true]
    refine ⟨by decide, fun ch hch => ?_, by decide⟩
    have hne : (0 : Byte) ≠ ch := fun h0 => h (h0 ▸ hch)
    split
    · simp only [List.mem_cons, List.not_mem_nil, or_false, not_or]
      exact ⟨by decide, hne⟩
    · simpa using hne
  · exact h

theorem nul_notMem_quote2 {s : Bytes} (h : (0 : Byte) ∉ s) : (0 : Byte) ∉ quote2 s := by
  rcases quote2_cases s with ⟨rfl, hq⟩ | ⟨-, -, hq⟩ | ⟨u, v, rfl, -, hq⟩
  · rw [hq]
    exact h
  · rw [hq]
    exact nul_notMem_quote h
  · simp only [List.mem_append, not_or] at h
    rw [hq]
    simp only [List.mem_append, not_or]
    exact ⟨nul_notMem_quote h.1, h.2⟩

/-- **The parser undoes the quoter.** -/
theorem addrparse_quote2 (site : Site) (s rest : Bytes) (hliphost : site.liphost = none)
    (hnul : (0 : Byte) ∉ s) (hlen : s.length < 900)
    (hdomain : ∀ ch ∈ s.drop (byteRchr s 64 + 1), Plain ch) :
    addrparse site (60 :: (quote2 s ++ 62 :: rest)) = some s := by
  have harg : cstr (60 :: (quote2 s ++ 62 :: rest)) = 60 :: (quote2 s ++ 62 :: cstr rest) := by
    have hq : ∀ b ∈ 60 :: (quote2 s ++ [62]), decide (b ≠ 0) = true := by
      intro b hb
      refine decide_eq_true fun h0 => ?_
      have hmem : (0 : Byte) ∉ 60 :: (quote2 s ++ [62]) := by
        simp only [List.mem_cons, List.mem_append, List.not_mem_nil, or_false, not_or]
        exact ⟨by decide, nul_notMem_quote2 hnul, by decide⟩
      exact hmem (h0 ▸ hb)
    have happ := @List.takeWhile_append_of_pos _ _ _ rest hq
    simpa [cstr] using happ
  rw [addrparse, harg, List.dropWhile_cons_of_neg (by simp)]
  simp only [stripRoute_quote2, unquote_quote2 hdomain, localiphost, hliphost]
  rw [if_neg (by omega)]

theorem addrparse_quote2_dots :
    addrparse {} (60 :: (quote2 (asc "a..\"b@c\\@example.org") ++ 62 :: asc " SIZE=1")) =
      some (asc "a..\"b@c\\@example.org") :=
  addrparse_quote2 {} _ _ rfl (by decide +kernel) (by decide +kernel) (by decide +kernel)

end IndimailMta.Quote
