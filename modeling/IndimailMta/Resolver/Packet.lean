import IndimailMta.Resolver.Domain

/-!
# Names in packets

In a packet a name may go on at another place: two bytes of which the first is at least 192 say where.
`dns_packet_getname` follows them, as long as the loop has turns; `dns_packet_skipname` finds the end of a
name without reading it.

A function that has to read behind the end of the packet fails, and `none` is what it returns then.
-/

namespace IndimailMta.Resolver

open IndimailMta

/-! ## Functions -/

/-- `dns_packet_copy`: what is copied to `out`, and the position behind it. -/
def dns_packet_copy (buf : Bytes) : Nat → Nat → Option (Bytes × Nat)
  | pos, 0 => some ([], pos)
  | pos, outlen + 1 => do
      let ch ← buf[pos]?
      let (out, pos) ← dns_packet_copy buf (pos + 1) outlen
      return (ch :: out, pos)

/-- The loop of `dns_packet_skipname`: how many bytes are to be skipped, what is left of the packet, and
where it starts. -/
def skipLoop : Nat → Bytes → Nat → Option Nat
  | _, [], _ => none
  | k + 1, _ :: buf, pos => skipLoop k buf (pos + 1)
  | 0, ch :: buf, pos =>
      if 192 ≤ ch then some (pos + 2)
      else if 64 ≤ ch then none
      else if ch = 0 then some (pos + 1)
      else skipLoop ch.toNat buf (pos + 1)

def dns_packet_skipname (buf : Bytes) (pos : Nat) : Option Nat := skipLoop 0 (buf.drop pos) pos

/-- The loop of `dns_packet_getname`: how many turns there are left, `pos`, `state`, `firstcompress` and
`name`. The inner loop reads the byte where it goes as the outer one does in its next turn. -/
def getnameLoop (buf : Bytes) : Nat → Nat → Nat → Nat → Bytes → Option (Bytes × Nat)
  | 0, _, _, _, _ => none
  | left + 1, pos, state, firstcompress, name =>
      match buf[pos]? with
      | none => none
      | some ch =>
          if state ≠ 0 then
            if 255 < name.length + 1 then none
            else getnameLoop buf left (pos + 1) (state - 1) firstcompress (name ++ [ch])
          else if 192 ≤ ch then
            match buf[pos + 1]? with
            | none => none
            | some ch' =>
                getnameLoop buf left ((ch.toNat - 192) * 256 + ch'.toNat) 0
                  (if firstcompress = 0 then pos + 2 else firstcompress) name
          else if 64 ≤ ch then none
          else if 255 < name.length + 1 then none
          else if ch = 0 then some (name ++ [ch], if firstcompress = 0 then pos + 1 else firstcompress)
          else getnameLoop buf left (pos + 1) ch.toNat firstcompress (name ++ [ch])

def dns_packet_getname (buf : Bytes) (pos : Nat) : Option (Bytes × Nat) := do
  let (name, pos) ← getnameLoop buf 999 pos 0 0 []
  let d ← dns_domain_copy name
  return (d, pos)

/-! ## What a packet has -/

/-- At a position of a packet a name starts; how often it goes on elsewhere, and the position behind it. -/
inductive NameAt (buf : Bytes) : Nat → Name → Nat → Nat → Prop where
  | root {pos : Nat} (zero : buf[pos]? = some 0) : NameAt buf pos [] 0 (pos + 1)
  | label {pos j next : Nat} {n : Name} (l : Label) (length : buf[pos]? = some l.length)
      (bytes : l.bytes <+: buf.drop (pos + 1)) (rest : NameAt buf (pos + 1 + l.bytes.length) n j next) :
      NameAt buf pos (l :: n) j next
  | jump {pos j next : Nat} {n : Name} (hi lo : Byte) (high : buf[pos]? = some hi) (le : 192 ≤ hi)
      (low : buf[pos + 1]? = some lo) (rest : NameAt buf ((hi.toNat - 192) * 256 + lo.toNat) n j next) :
      NameAt buf pos n (j + 1) (pos + 2)

section Names

variable {buf name q : Bytes} {n : Name} {pos j next left : Nat} {ch : Byte}

theorem Label.length_lt (l : Label) : ¬ 64 ≤ l.length := by
  rw [UInt8.le_iff_toNat_le, l.toNat_length]
  have h := l.short
  have h64 : (64 : Byte).toNat = 64 := rfl
  omega

theorem not_low (h : 192 ≤ ch) : 64 ≤ ch := UInt8.le_trans (by decide) h

/-- A byte below 64 is the length of a label, or the end. -/
theorem exists_label {bytes : Bytes} (hlow : ¬ 64 ≤ ch) (hne : ch ≠ 0) (hlen : bytes.length = ch.toNat) :
    ∃ l : Label, l.bytes = bytes ∧ l.length = ch := by
  have hpos : 0 < ch.toNat := Nat.pos_of_ne_zero fun h => hne (UInt8.toNat_inj.mp h)
  have hshort : ch.toNat ≤ 63 := by
    rw [UInt8.le_iff_toNat_le] at hlow
    have h64 : (64 : Byte).toNat = 64 := rfl
    omega
  refine ⟨⟨bytes, hlen ▸ hpos, hlen ▸ hshort⟩, rfl, ?_⟩
  rw [Label.length, hlen, UInt8.ofNat_toNat]

theorem not_nameAt (h : buf[pos]? = none) : ¬ NameAt buf pos n j next := by
  intro hn
  cases hn with
  | root zero => rw [h] at zero; cases zero
  | label l length _ _ => rw [h] at length; cases length
  | jump hi lo high _ _ _ => rw [h] at high; cases high

theorem nameAt_zero (h : buf[pos]? = some 0) : NameAt buf pos n j next ↔ n = [] ∧ j = 0 ∧ next = pos + 1 := by
  constructor
  · intro hn
    cases hn with
    | root zero => exact ⟨rfl, rfl, rfl⟩
    | label l length _ _ => exact absurd (Option.some.inj (length.symm.trans h)) l.length_ne_zero
    | jump hi lo high le _ _ =>
        rw [Option.some.inj (high.symm.trans h)] at le
        exact absurd le (by decide)
  · rintro ⟨rfl, rfl, rfl⟩
    exact .root h

theorem nameAt_label (h : buf[pos]? = some ch) (hlow : ¬ 64 ≤ ch) (hne : ch ≠ 0) :
    NameAt buf pos n j next ↔ ∃ l n', n = l :: n' ∧ l.length = ch ∧ l.bytes <+: buf.drop (pos + 1) ∧
      NameAt buf (pos + 1 + l.bytes.length) n' j next := by
  constructor
  · intro hn
    cases hn with
    | root zero => exact absurd (Option.some.inj (h.symm.trans zero)) hne
    | label l length bytes rest => exact ⟨l, _, rfl, Option.some.inj (length.symm.trans h), bytes, rest⟩
    | jump hi lo high le _ _ =>
        rw [Option.some.inj (high.symm.trans h)] at le
        exact absurd (not_low le) hlow
  · rintro ⟨l, n', rfl, hl, hbytes, hrest⟩
    exact .label l (hl ▸ h) hbytes hrest

theorem nameAt_jump (h : buf[pos]? = some ch) (hhigh : 192 ≤ ch) :
    NameAt buf pos n j next ↔ ∃ lo j' next', buf[pos + 1]? = some lo ∧ j = j' + 1 ∧ next = pos + 2 ∧
      NameAt buf ((ch.toNat - 192) * 256 + lo.toNat) n j' next' := by
  constructor
  · intro hn
    cases hn with
    | root zero =>
        rw [Option.some.inj (h.symm.trans zero)] at hhigh
        exact absurd hhigh (by decide)
    | label l length _ _ =>
        rw [Option.some.inj (h.symm.trans length)] at hhigh
        exact absurd (not_low hhigh) l.length_lt
    | jump hi lo high le low rest =>
        rw [Option.some.inj (h.symm.trans high)]
        exact ⟨lo, _, _, low, rfl, rfl, rest⟩
  · rintro ⟨lo, j', next', hlo, rfl, rfl, hrest⟩
    exact .jump ch lo h hhigh hlo hrest

theorem not_nameAt_between (h : buf[pos]? = some ch) (hhigh : ¬ 192 ≤ ch) (hlow : 64 ≤ ch) :
    ¬ NameAt buf pos n j next := by
  intro hn
  cases hn with
  | root zero =>
      rw [Option.some.inj (h.symm.trans zero)] at hlow
      exact absurd hlow (by decide)
  | label l length _ _ =>
      rw [Option.some.inj (h.symm.trans length)] at hlow
      exact l.length_lt hlow
  | jump hi lo high le _ _ =>
      rw [Option.some.inj (high.symm.trans h)] at le
      exact hhigh le

/-! ## Getname -/

theorem drop_of_getElem? (h : buf[pos]? = some ch) : buf.drop pos = ch :: buf.drop (pos + 1) := by
  obtain ⟨hlt, hget⟩ := List.getElem?_eq_some_iff.mp h
  rw [List.drop_eq_getElem_cons hlt, hget]

theorem drop_of_none (h : buf[pos]? = none) : buf.drop pos = [] :=
  List.drop_eq_nil_iff.mpr (List.getElem?_eq_none_iff.mp h)

/-- The turns that copy a label. -/
theorem getnameLoop_copies (k left pos fc : Nat) (name : Bytes) (hname : name.length ≤ 255) (x : Bytes × Nat) :
    getnameLoop buf left pos k fc name = some x ↔
      ∃ bytes left', left = k + left' ∧ bytes.length = k ∧ bytes <+: buf.drop pos ∧ name.length + k ≤ 255 ∧
        getnameLoop buf left' (pos + k) 0 fc (name ++ bytes) = some x := by
  induction k generalizing left pos name with
  | zero =>
      constructor
      · intro h
        refine ⟨[], left, (Nat.zero_add left).symm, rfl, List.nil_prefix, hname, ?_⟩
        rw [List.append_nil]
        exact h
      · rintro ⟨bytes, left', rfl, hlen, -, -, h⟩
        rw [List.length_eq_zero_iff.mp hlen, List.append_nil, Nat.add_zero] at h
        rw [Nat.zero_add]
        exact h
  | succ k ih =>
      cases left with
      | zero =>
          refine iff_of_false (Option.some_ne_none _).symm ?_
          rintro ⟨bytes, left', hleft, -⟩
          omega
      | succ left =>
          cases hch : buf[pos]? with
          | none =>
              rw [getnameLoop, hch]
              refine iff_of_false (Option.some_ne_none _).symm ?_
              rintro ⟨bytes, left', -, hlen, hbytes, -⟩
              rw [drop_of_none hch, List.prefix_nil] at hbytes
              rw [hbytes] at hlen
              cases hlen
          | some ch =>
              rw [getnameLoop, hch]
              dsimp only
              rw [if_pos (Nat.succ_ne_zero k)]
              by_cases hroom : 255 < name.length + 1
              · rw [if_pos hroom]
                refine iff_of_false (Option.some_ne_none _).symm ?_
                rintro ⟨bytes, left', -, -, -, hle, -⟩
                omega
              · have hname' : (name ++ [ch]).length ≤ 255 := by
                  rw [List.length_append, List.length_singleton]
                  omega
                rw [if_neg hroom, Nat.add_sub_cancel, ih left (pos + 1) (name ++ [ch]) hname',
                  drop_of_getElem? hch]
                constructor
                · rintro ⟨bytes, left', rfl, hlen, hbytes, hle, h⟩
                  rw [List.length_append, List.length_singleton] at hle
                  refine ⟨ch :: bytes, left', by omega, congrArg Nat.succ hlen,
                    List.cons_prefix_cons.mpr ⟨rfl, hbytes⟩, by omega, ?_⟩
                  rw [List.append_assoc, Nat.add_assoc, Nat.add_comm 1] at h
                  exact h
                · rintro ⟨bytes, left', hleft, hlen, hbytes, hle, h⟩
                  cases bytes with
                  | nil => cases hlen
                  | cons c bytes =>
                      obtain ⟨rfl, htail⟩ := List.cons_prefix_cons.mp hbytes
                      refine ⟨bytes, left', by omega, Nat.succ.inj hlen, htail, ?_, ?_⟩
                      · rw [List.length_append, List.length_singleton]
                        omega
                      · rw [List.append_assoc, Nat.add_assoc, Nat.add_comm 1]
                        exact h

/-- What the loop finds between two labels. -/
def Found (buf : Bytes) (left pos fc : Nat) (name : Bytes) (x : Bytes × Nat) : Prop :=
  ∃ n j next, NameAt buf pos n j next ∧ name.length + (pack n).length ≤ 255 ∧ (pack n).length + j ≤ left ∧
    x = (name ++ pack n, if fc = 0 then next else fc)

theorem found_zero {fc : Nat} {x : Bytes × Nat} (h : buf[pos]? = some 0) (hroom : ¬ 255 < name.length + 1) :
    Found buf (left + 1) pos fc name x ↔ x = (name ++ [0], if fc = 0 then pos + 1 else fc) := by
  constructor
  · rintro ⟨n, j, next, hn, -, -, rfl⟩
    obtain ⟨rfl, -, rfl⟩ := (nameAt_zero h).mp hn
    rfl
  · rintro rfl
    exact ⟨[], 0, pos + 1, .root h, Nat.le_of_not_lt hroom, Nat.succ_le_succ (Nat.zero_le left), rfl⟩

theorem found_jump {fc : Nat} {x : Bytes × Nat} (h : buf[pos]? = some ch) (hhigh : 192 ≤ ch) :
    Found buf (left + 1) pos fc name x ↔ ∃ lo, buf[pos + 1]? = some lo ∧
      Found buf left ((ch.toNat - 192) * 256 + lo.toNat) (if fc = 0 then pos + 2 else fc) name x := by
  have hfirst : ∀ next : Nat, (if (if fc = 0 then pos + 2 else fc) = 0 then next else
      if fc = 0 then pos + 2 else fc) = if fc = 0 then pos + 2 else fc := by
    intro next
    refine if_neg fun h => ?_
    split at h
    · cases h
    · contradiction
  constructor
  · rintro ⟨n, j, next, hn, hlen, hleft, rfl⟩
    obtain ⟨lo, j', next', hlo, rfl, rfl, hrest⟩ := (nameAt_jump h hhigh).mp hn
    refine ⟨lo, hlo, n, j', next', hrest, hlen, by omega, ?_⟩
    rw [hfirst]
  · rintro ⟨lo, hlo, n, j', next', hrest, hlen, hleft, rfl⟩
    refine ⟨n, j' + 1, pos + 2, .jump ch lo h hhigh hlo hrest, hlen, by omega, ?_⟩
    rw [hfirst]

theorem found_label {fc : Nat} {x : Bytes × Nat} (h : buf[pos]? = some ch) (hlow : ¬ 64 ≤ ch) (hne : ch ≠ 0) :
    Found buf (left + 1) pos fc name x ↔ ∃ bytes left', left = ch.toNat + left' ∧ bytes.length = ch.toNat ∧
      bytes <+: buf.drop (pos + 1) ∧ (name ++ [ch]).length + ch.toNat ≤ 255 ∧
      Found buf left' (pos + 1 + ch.toNat) fc (name ++ [ch] ++ bytes) x := by
  constructor
  · rintro ⟨n, j, next, hn, hlen, hleft, rfl⟩
    obtain ⟨l, n', rfl, rfl, hbytes, hrest⟩ := (nameAt_label h hlow hne).mp hn
    rw [pack_cons, List.length_cons, List.length_append] at hlen hleft
    rw [l.toNat_length]
    refine ⟨l.bytes, left - l.bytes.length, by omega, rfl, hbytes, ?_, n', j, next, hrest, ?_, by omega, ?_⟩
    · rw [List.length_append, List.length_singleton]
      omega
    · rw [List.length_append, List.length_append, List.length_singleton]
      omega
    · rw [pack_cons, List.append_assoc, List.append_assoc]
      rfl
  · rintro ⟨bytes, left', rfl, hbytes, hprefix, -, n, j, next, hrest, hlen, hleft, rfl⟩
    obtain ⟨l, rfl, rfl⟩ := exists_label hlow hne hbytes
    rw [List.length_append, List.length_append, List.length_singleton] at hlen
    rw [← hbytes] at hrest ⊢
    refine ⟨l :: n, j, next, .label l h hprefix hrest, ?_, ?_, ?_⟩
    · rw [pack_cons, List.length_cons, List.length_append]
      omega
    · rw [pack_cons, List.length_cons, List.length_append]
      omega
    · rw [pack_cons, List.append_assoc, List.append_assoc]
      rfl

/-- **The loop** reads the name, if it is not too long and the turns are enough. -/
theorem getnameLoop_iff (left pos fc : Nat) (name : Bytes) (x : Bytes × Nat) :
    getnameLoop buf left pos 0 fc name = some x ↔ Found buf left pos fc name x := by
  induction left using Nat.strongRecOn generalizing pos fc name with
  | ind left ih =>
    cases left with
    | zero =>
        refine iff_of_false (Option.some_ne_none _).symm ?_
        rintro ⟨n, j, next, -, -, hle, -⟩
        have hpos := length_pack_pos n
        omega
    | succ left =>
        cases hch : buf[pos]? with
        | none =>
            rw [getnameLoop, hch]
            refine iff_of_false (Option.some_ne_none _).symm ?_
            rintro ⟨n, j, next, hn, -⟩
            exact not_nameAt hch hn
        | some ch =>
            rw [getnameLoop, hch]
            dsimp only
            rw [if_neg (not_not_intro rfl)]
            by_cases hhigh : 192 ≤ ch
            · rw [if_pos hhigh, found_jump hch hhigh]
              cases hlo : buf[pos + 1]? with
              | none =>
                  refine iff_of_false (Option.some_ne_none _).symm ?_
                  rintro ⟨lo, h, -⟩
                  cases h
              | some lo =>
                  dsimp only
                  rw [ih left (Nat.lt_succ_self left)]
                  constructor
                  · exact fun h => ⟨lo, rfl, h⟩
                  · rintro ⟨_, h, hfound⟩
                    cases h
                    exact hfound
            rw [if_neg hhigh]
            by_cases hlow : 64 ≤ ch
            · rw [if_pos hlow]
              refine iff_of_false (Option.some_ne_none _).symm ?_
              rintro ⟨n, j, next, hn, -⟩
              exact not_nameAt_between hch hhigh hlow hn
            rw [if_neg hlow]
            by_cases hroom : 255 < name.length + 1
            · rw [if_pos hroom]
              refine iff_of_false (Option.some_ne_none _).symm ?_
              rintro ⟨n, j, next, -, hle, -⟩
              have hpos := length_pack_pos n
              omega
            rw [if_neg hroom]
            by_cases hzero : ch = 0
            · rw [if_pos hzero]
              rw [hzero] at hch ⊢
              rw [found_zero hch hroom, Option.some_inj, eq_comm]
            · have hname : (name ++ [ch]).length ≤ 255 := by
                rw [List.length_append, List.length_singleton]
                omega
              rw [if_neg hzero, getnameLoop_copies _ _ _ _ _ hname, found_label hch hlow hzero]
              constructor
              · rintro ⟨bytes, left', hleft, hlen, hprefix, hle, h⟩
                exact ⟨bytes, left', hleft, hlen, hprefix, hle, (ih left' (by omega) _ _ _).mp h⟩
              · rintro ⟨bytes, left', hleft, hlen, hprefix, hle, h⟩
                exact ⟨bytes, left', hleft, hlen, hprefix, hle, (ih left' (by omega) _ _ _).mpr h⟩

/-- **`dns_packet_getname`** returns the name that is there, if it has at most 255 bytes, and with the number
of its jumps less than 1000. -/
theorem dns_packet_getname_iff (buf : Bytes) (pos : Nat) (d : Bytes) (next : Nat) :
    dns_packet_getname buf pos = some (d, next) ↔
      ∃ n j, NameAt buf pos n j next ∧ d = pack n ∧ (pack n).length ≤ 255 ∧ (pack n).length + j < 1000 := by
  have hcopy : ∀ n : Name, dns_domain_copy (pack n) = some (pack n) := by
    intro n
    have h := dns_domain_copy_pack n []
    rwa [List.append_nil] at h
  rw [dns_packet_getname]
  constructor
  · intro h
    obtain ⟨⟨name, r⟩, hloop, h⟩ := Option.bind_eq_some_iff.mp h
    obtain ⟨n, j, next', hn, hlen, hleft, hx⟩ := (getnameLoop_iff 999 pos 0 [] _).mp hloop
    rw [if_pos rfl, List.nil_append] at hx
    cases hx
    rw [List.length_nil, Nat.zero_add] at hlen
    dsimp only at h
    rw [hcopy] at h
    cases h
    exact ⟨n, j, hn, rfl, hlen, by omega⟩
  · rintro ⟨n, j, hn, rfl, hlen, hleft⟩
    have hloop : getnameLoop buf 999 pos 0 0 [] = some (pack n, next) := by
      rw [getnameLoop_iff]
      refine ⟨n, j, next, hn, ?_, by omega, rfl⟩
      rw [List.length_nil, Nat.zero_add]
      exact hlen
    rw [hloop]
    simp only [Option.bind_eq_bind, Option.bind_some, hcopy]
    rfl

/-! ## Skipname -/

theorem skipLoop_skip (bytes rest : Bytes) (pos : Nat) :
    skipLoop bytes.length (bytes ++ rest) pos = skipLoop 0 rest (pos + bytes.length) := by
  induction bytes generalizing pos with
  | nil => rfl
  | cons b bytes ih =>
      rw [List.length_cons, List.cons_append, skipLoop, ih, Nat.add_assoc, Nat.add_comm 1]

/-- **`dns_packet_skipname`** finds the end of a name. -/
theorem dns_packet_skipname_of (h : NameAt buf pos n j next) : dns_packet_skipname buf pos = some next := by
  rw [dns_packet_skipname]
  induction h with
  | root zero =>
      rw [drop_of_getElem? zero, skipLoop, if_neg (by decide), if_neg (by decide), if_pos rfl]
  | @label pos j next n l length bytes rest ih =>
      obtain ⟨tail, htail⟩ := bytes
      have hdrop : buf.drop (pos + 1 + l.bytes.length) = tail := by
        rw [← List.drop_drop, ← htail, List.drop_left]
      rw [hdrop] at ih
      rw [drop_of_getElem? length, skipLoop, if_neg fun h => l.length_lt (not_low h), if_neg l.length_lt,
        if_neg l.length_ne_zero, l.toNat_length, ← htail, skipLoop_skip, ih]
  | jump hi lo high le low rest ih => rw [drop_of_getElem? high, skipLoop, if_pos le]

/-- **The two functions agree** on where a name ends that the first one accepts. -/
theorem dns_packet_names_iff (buf : Bytes) (pos : Nat) (d : Bytes) (next : Nat) :
    dns_packet_getname buf pos = some (d, next) ↔
      dns_packet_skipname buf pos = some next ∧
        ∃ n j, NameAt buf pos n j next ∧ d = pack n ∧ (pack n).length ≤ 255 ∧ (pack n).length + j < 1000 := by
  rw [dns_packet_getname_iff]
  constructor
  · rintro ⟨n, j, hn, hd⟩
    exact ⟨dns_packet_skipname_of hn, n, j, hn, hd⟩
  · exact And.right

/-! ## Names that do not go on elsewhere -/

theorem nameAt_pack (front : Bytes) (n : Name) (back : Bytes) :
    NameAt (front ++ pack n ++ back) front.length n 0 (front.length + (pack n).length) := by
  induction n generalizing front with
  | nil => exact .root (by simp)
  | cons l n ih =>
      have hbuf : front ++ pack (l :: n) ++ back = (front ++ l.packed) ++ pack n ++ back := by
        rw [pack_cons, List.append_assoc front]
        simp [Label.packed]
      have hrest := ih (front ++ l.packed)
      rw [← hbuf, List.length_append, l.length_packed] at hrest
      have hlen : front.length + (pack (l :: n)).length = front.length + (l.bytes.length + 1) + (pack n).length := by
        rw [pack_cons, List.length_cons, List.length_append]
        omega
      rw [hlen]
      refine .label l ?_ ?_ ?_
      · rw [pack_cons, List.append_assoc]
        simp
      · rw [pack_cons, List.append_assoc, List.drop_append, List.drop_eq_nil_of_le (Nat.le_succ _)]
        simp
      · have hsum : front.length + 1 + l.bytes.length = front.length + (l.bytes.length + 1) := by omega
        rw [hsum]
        exact hrest

/-- **What was packed is read again**, and nothing else, wherever it stands in a packet. -/
theorem dns_packet_getname_pack (front : Bytes) (n : Name) (back : Bytes) (h : (pack n).length ≤ 255) :
    dns_packet_getname (front ++ pack n ++ back) front.length =
      some (pack n, front.length + (pack n).length) := by
  rw [dns_packet_getname_iff]
  exact ⟨n, 0, nameAt_pack front n back, rfl, h, by omega⟩

end Names

end IndimailMta.Resolver
