import Mathlib.Data.List.TakeWhile
import IndimailMta.Ip.Text

/-!
# What is written

`ip4_fmt` writes four numbers with dots between them. `ip6_fmt` writes a text of groups, or two of
them with `::` between; or, for an address that is mapped from IPv4, a group and four numbers.
-/

namespace IndimailMta.Ip

open IndimailMta Tcprules

def groups : Bytes → List (Byte × Byte)
  | a :: b :: s => (a, b) :: groups s
  | _ => []

variable {tx : Texts} {s : Bytes}

/-! ## IPv4 -/

theorem length_decimalText_le (b : Byte) : (decimalText b.toNat).length ≤ 3 := by
  have hb := UInt8.toNat_lt b
  have h1 : ∀ n, n < 10 → (decimalText n).length = 1 := fun n h => by simp [decimalText_of_lt h]
  have h2 : ∀ n, n < 100 → (decimalText n).length ≤ 2 := by
    intro n h
    by_cases h10 : n < 10
    · rw [h1 n h10]
      decide
    · rw [decimalText_of_le (by omega), List.length_append, h1 (n / 10) (by omega)]
      exact Nat.le_refl 2
  by_cases h100 : b.toNat < 100
  · exact Nat.le_succ_of_le (h2 _ h100)
  · rw [decimalText_of_le (by omega), List.length_append]
    exact Nat.succ_le_succ (h2 _ (by omega))

theorem octet_fmt (tx : Texts) (b : Byte) : Octet (tx.fmtUlong b.toNat) b where
  ne_nil := tx.fmt_ne_nil _
  short := by
    rw [tx.ulong_eq]
    exact length_decimalText_le b
  digits := tx.fmt_isDigit _
  value := by rw [tx.ulong_eq, digitsValue_decimalText]

theorem ip4_fmt_ip4 (tx : Texts) {ip : Bytes} (h : ip.length = 4) : Ip4 (ip4_fmt tx ip) ip := by
  match ip, h with
  | [a, b, c, d], _ =>
      exact ⟨.cons (octet_fmt tx a) (.cons (octet_fmt tx b) (.cons (octet_fmt tx c)
        (.one (octet_fmt tx d)))), rfl⟩

/-! ## What `ip6_fmt` writes -/

section
variable {ip6 : Bytes} {j : Nat} {gs ps qs : List (Byte × Byte)}

theorem plainText_cons (tx : Texts) (g : Byte × Byte) (gs : List (Byte × Byte)) :
    plainText tx (g :: gs) = hex tx g ++ if gs = [] then [] else 58 :: plainText tx gs := by
  cases gs <;> simp [plainText]

theorem toNat_group_eq_zero {g : Byte × Byte} : g.1.toNat * 256 + g.2.toNat = 0 ↔ g = (0, 0) := by
  constructor
  · intro h
    ext1
    · exact UInt8.toNat_inj.mp (show g.1.toNat = 0 by omega)
    · exact UInt8.toNat_inj.mp (show g.2.toNat = 0 by omega)
  · rintro rfl
    rfl

theorem octets_at {g : Byte × Byte} (hdrop : ip6.drop j = octets (g :: gs)) :
    ip6.getD j 0 = g.1 ∧ ip6.getD (j + 1) 0 = g.2 := by
  rw [List.getD_eq_getElem?_getD, List.getD_eq_getElem?_getD, ← List.head?_drop,
    ← List.head?_drop, ← List.drop_drop, hdrop]
  exact ⟨rfl, rfl⟩

/-- One group that is written out. -/
theorem fmtLoop_group {g : Byte × Byte} {compressed : Bool} (hm : ip6.take 12 ≠ V4mappedprefix)
    (hdrop : ip6.drop j = octets (g :: gs)) (hj : j + 2 * (gs.length + 1) = 16)
    (hg : compressed = true ∨ g ≠ (0, 0)) :
    fmtLoop tx ip6 (gs.length + 1) j false compressed s =
      fmtLoop tx ip6 gs.length (j + 2) false compressed
        (s ++ hex tx g ++ if gs = [] then [] else [58]) := by
  obtain ⟨h1, h2⟩ := octets_at hdrop
  have hlast : j < 14 ↔ gs ≠ [] := by
    rw [← List.length_pos_iff]
    omega
  have hz : ¬ (g.1.toNat * 256 + g.2.toNat = 0 ∧ compressed = false) := by
    rw [toNat_group_eq_zero]
    rintro ⟨rfl, rfl⟩
    simp at hg
  rw [fmtLoop, if_neg (fun h => hm h.2)]
  simp only [h1, h2, if_neg hz, Bool.false_or, Bool.false_eq_true, if_false, hlast, hex]
  by_cases hgs : gs = [] <;> simp [hgs]

theorem drop_next {g : Byte × Byte} (hdrop : ip6.drop j = octets (g :: gs)) :
    ip6.drop (j + 2) = octets gs := by
  rw [← List.drop_drop, hdrop]
  rfl

theorem fmtLoop_plain {compressed : Bool} (hm : ip6.take 12 ≠ V4mappedprefix)
    (hdrop : ip6.drop j = octets gs) (hj : j + 2 * gs.length = 16)
    (hg : compressed = true ∨ (0, 0) ∉ gs) :
    fmtLoop tx ip6 gs.length j false compressed s = s ++ plainText tx gs := by
  induction gs generalizing j s with
  | nil => simp [fmtLoop, plainText]
  | cons g gs ih =>
      have hg1 : compressed = true ∨ g ≠ (0, 0) := hg.imp_right fun h => by
        rintro rfl
        exact h List.mem_cons_self
      have hg2 : compressed = true ∨ (0, 0) ∉ gs :=
        hg.imp_right fun h hmem => h (List.mem_cons_of_mem _ hmem)
      rw [List.length_cons, fmtLoop_group hm hdrop hj hg1,
        ih (drop_next hdrop) (by rw [List.length_cons] at hj; omega) hg2, plainText_cons]
      by_cases hgs : gs = [] <;> simp [hgs, plainText]

/-- A group of zeros, in the first run. -/
theorem fmtLoop_zero {compressing : Bool} (hm : ip6.take 12 ≠ V4mappedprefix)
    (hdrop : ip6.drop j = octets ((0, 0) :: gs)) :
    fmtLoop tx ip6 (gs.length + 1) j compressing false s =
      fmtLoop tx ip6 gs.length (j + 2) true false
        (if compressing = false ∧ j = 0 then s ++ [58] else s) := by
  obtain ⟨h1, h2⟩ := octets_at hdrop
  rw [fmtLoop, if_neg (fun h => hm h.2)]
  simp only [h1, h2]
  rw [if_pos (by decide)]

/-- The first run ends. -/
theorem fmtLoop_close {g : Byte × Byte} (hm : ip6.take 12 ≠ V4mappedprefix)
    (hdrop : ip6.drop j = octets (g :: gs)) (hg : g ≠ (0, 0)) :
    fmtLoop tx ip6 (gs.length + 1) j true false s =
      fmtLoop tx ip6 (gs.length + 1) j false true (s ++ [58]) := by
  obtain ⟨h1, h2⟩ := octets_at hdrop
  have hz : g.1.toNat * 256 + g.2.toNat ≠ 0 := fun h => hg (toNat_group_eq_zero.mp h)
  conv_lhs => rw [fmtLoop, if_neg (fun h => hm h.2), h1, h2, if_neg (fun h => hz h.1)]
  conv_rhs => rw [fmtLoop, if_neg (fun h => hm h.2), h1, h2, if_neg (fun h => hz h.1)]
  rfl

/-- In a run of zeros. -/
theorem fmtLoop_run (hm : ip6.take 12 ≠ V4mappedprefix) (hdrop : ip6.drop j = octets gs)
    (hj : j + 2 * gs.length = 16) :
    fmtLoop tx ip6 gs.length j true false s =
      s ++ 58 :: plainText tx (gs.dropWhile (· = (0, 0))) := by
  induction gs generalizing j s with
  | nil => simp [fmtLoop, plainText]
  | cons g gs ih =>
      by_cases hg : g = (0, 0)
      · subst hg
        rw [List.length_cons, fmtLoop_zero hm hdrop, if_neg (by simp),
          ih (drop_next hdrop) (by rw [List.length_cons] at hj; omega),
          List.dropWhile_cons_of_pos (by simp)]
      · have hplain := @fmtLoop_plain tx (s ++ [58]) ip6 j (g :: gs) true hm hdrop hj (.inl rfl)
        rw [List.length_cons] at hplain ⊢
        rw [fmtLoop_close hm hdrop hg, hplain, List.dropWhile_cons_of_neg (by simpa using hg),
          List.append_assoc, List.singleton_append]

/-- In front of the first run of zeros. -/
theorem fmtLoop_front (hm : ip6.take 12 ≠ V4mappedprefix) (hps : (0, 0) ∉ ps)
    (hdrop : ip6.drop j = octets (ps ++ (0, 0) :: gs))
    (hj : j + 2 * (ps ++ (0, 0) :: gs).length = 16) :
    fmtLoop tx ip6 (ps ++ (0, 0) :: gs).length j false false s =
      s ++ (if ps = [] then if j = 0 then [58] else [] else plainText tx ps ++ [58]) ++
        58 :: plainText tx (gs.dropWhile (· = (0, 0))) := by
  induction ps generalizing j s with
  | nil =>
      rw [List.nil_append, List.length_cons] at hj
      rw [List.nil_append, List.length_cons, fmtLoop_zero hm hdrop,
        fmtLoop_run hm (drop_next hdrop) (by omega), if_pos rfl]
      by_cases hj0 : j = 0 <;> simp [hj0]
  | cons p ps ih =>
      have hp : p ≠ (0, 0) := by
        rintro rfl
        exact hps List.mem_cons_self
      rw [List.cons_append, List.length_cons] at hj
      rw [List.cons_append] at hdrop
      rw [List.cons_append, List.length_cons, fmtLoop_group hm hdrop hj (.inr hp),
        if_neg (by simp), ih (fun h => hps (List.mem_cons_of_mem _ h)) (drop_next hdrop) (by omega),
        if_neg (Nat.succ_ne_zero (j + 1)), if_neg (List.cons_ne_nil p ps), plainText_cons]
      by_cases hnil : ps = [] <;> simp [hnil]

end

theorem octets_groups {d : Bytes} (h : d.length % 2 = 0) : octets (groups d) = d := by
  induction d using groups.induct with
  | case1 a b s ih =>
      have hs : s.length % 2 = 0 := by
        rw [List.length_cons, List.length_cons] at h
        omega
      have hoct : octets ((a, b) :: groups s) = a :: b :: octets (groups s) := rfl
      rw [groups, hoct, ih hs]
  | case2 s hs =>
      match s, hs, h with
      | [], _, _ => rfl
      | [_], _, h => cases h
      | a :: b :: s, hs, _ => exact (hs a b s rfl).elim

theorem length_octets (gs : List (Byte × Byte)) : (octets gs).length = 2 * gs.length := by
  induction gs with
  | nil => rfl
  | cons g gs ih =>
      have hoct : octets (g :: gs) = g.1 :: g.2 :: octets gs := rfl
      rw [hoct, List.length_cons, List.length_cons, ih, List.length_cons]
      omega

theorem length_groups {d : Bytes} (h : d.length = 16) : (groups d).length = 8 := by
  have := length_octets (groups d)
  rw [octets_groups (by omega), h] at this
  omega

theorem cutRun_some {gs ps qs : List (Byte × Byte)} (h : cutRun gs = some (ps, qs)) :
    ∃ zs, gs = ps ++ (0, 0) :: zs ∧ (0, 0) ∉ ps ∧ qs = zs.dropWhile (· = (0, 0)) := by
  unfold cutRun at h
  split at h
  · cases h
  · next hne =>
      obtain ⟨rfl, rfl⟩ : gs.takeWhile (· ≠ (0, 0)) = ps ∧
          (gs.dropWhile (· ≠ (0, 0))).dropWhile (· = (0, 0)) = qs := by simpa using h
      cases hd : gs.dropWhile (· ≠ (0, 0)) with
      | nil => exact (hne hd).elim
      | cons z zs =>
          have hz : z = (0, 0) := by
            have := List.head?_dropWhile_not (· ≠ ((0, 0) : Byte × Byte)) gs
            rw [hd] at this
            simpa using this
          subst hz
          refine ⟨zs, ?_, ?_, ?_⟩
          · rw [← hd, List.takeWhile_append_dropWhile]
          · intro hmem
            simpa using List.all_eq_true.mp List.all_takeWhile _ hmem
          · rw [List.dropWhile_cons_of_pos (by simp)]

theorem cutRun_none {gs : List (Byte × Byte)} (h : cutRun gs = none) : (0, 0) ∉ gs := by
  unfold cutRun at h
  split at h
  · next hd =>
      exact fun hmem => by simpa using List.dropWhile_eq_nil_iff.mp hd _ hmem
  · cases h

/-- **What `ip6_fmt` writes.** -/
theorem ip6_fmt_eq {ip6 : Bytes} (h : ip6.length = 16) (hm : ip6.take 12 ≠ V4mappedprefix) :
    ip6_fmt tx ip6 = match cutRun (groups ip6) with
      | none => plainText tx (groups ip6)
      | some (ps, qs) => plainText tx ps ++ 58 :: 58 :: plainText tx qs := by
  have hoct : octets (groups ip6) = ip6 := octets_groups (by omega)
  have hlen := length_groups h
  rw [ip6_fmt, ← hlen]
  cases hc : cutRun (groups ip6) with
  | none =>
      exact fmtLoop_plain (j := 0) hm hoct.symm (by omega) (.inr (cutRun_none hc))
  | some c =>
      obtain ⟨ps, qs⟩ := c
      obtain ⟨zs, hgs, hps, rfl⟩ := cutRun_some hc
      rw [hgs] at hoct hlen ⊢
      rw [fmtLoop_front (j := 0) hm hps hoct.symm (by omega)]
      by_cases hnil : ps = [] <;> simp [hnil, plainText]

/-- What is mapped from IPv4. -/
theorem ip6_fmt_mapped {ip6 : Bytes} (h : ip6.length = 16) (hm : ip6.take 12 = V4mappedprefix) :
    ip6_fmt tx ip6 = 58 :: 58 :: (hex tx (255, 255) ++ 58 :: ip4_fmt tx (ip6.drop 12)) := by
  match ip6, h with
  | [a0, a1, a2, a3, a4, a5, a6, a7, a8, a9, a10, a11, b0, b1, b2, b3], _ =>
      obtain ⟨rfl, rfl, rfl, rfl, rfl, rfl, rfl, rfl, rfl, rfl, rfl, rfl⟩ :
          a0 = 0 ∧ a1 = 0 ∧ a2 = 0 ∧ a3 = 0 ∧ a4 = 0 ∧ a5 = 0 ∧ a6 = 0 ∧ a7 = 0 ∧ a8 = 0 ∧
            a9 = 0 ∧ a10 = 255 ∧ a11 = 255 := by simpa [ V4mappedprefix] using hm
      simp [ip6_fmt, fmtLoop, V4mappedprefix, hex]

theorem group_hex (tx : Texts) (g : Byte × Byte) : Group (hex tx g) g.1 g.2 where
  ne_nil := tx.xlong_ne_nil _
  short := by
    have h1 := UInt8.toNat_lt g.1
    have h2 := UInt8.toNat_lt g.2
    exact tx.xlong_short _ (by omega)
  hex := tx.xlong_isHex _
  value := tx.xlong_value _

/-- Groups that are written out. -/
theorem groups_plainText (tx : Texts) {gs : List (Byte × Byte)} (h : gs ≠ []) :
    Groups (plainText tx gs) (octets gs) ∧ (46 : Byte) ∉ plainText tx gs := by
  have hdot : ∀ g, (46 : Byte) ∉ hex tx g := fun g hm =>
    absurd (tx.xlong_isHex _ 46 hm) (by decide)
  induction gs with
  | nil => exact (h rfl).elim
  | cons g gs ih =>
      by_cases hgs : gs = []
      · subst hgs
        exact ⟨.one (group_hex tx g), hdot g⟩
      · obtain ⟨hg, hd⟩ := ih hgs
        rw [plainText_cons, if_neg hgs]
        refine ⟨.cons (group_hex tx g) hg, ?_⟩
        rw [List.mem_append, List.mem_cons, not_or, not_or]
        exact ⟨hdot g, by decide, hd⟩

end IndimailMta.Ip
