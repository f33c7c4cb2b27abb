import IndimailMta.Ip.Format
import IndimailMta.Tcprules.Meaning

/-!
# Addresses are read as they were written

Each loop of `ip6_scan` reads a text of groups one at a time, and the length it counts is that of
the text. Where nothing is behind the `::`, the second loop takes one from the length.
-/

namespace IndimailMta.Ip

open IndimailMta Tcprules

/-- An address of so many octets. -/
def Addr (n : Nat) := { d : Bytes // d.length = n }

/-- What follows an address: the NUL, or a `]` and more. -/
def ending : Option Bytes → Bytes
  | none => []
  | some s => 93 :: s

variable {tx : Texts} {t rest s d bs : Bytes} {a b : Byte} {n len : Nat}

/-- What ends an address. -/
def Ends (rest : Bytes) : Prop := ∀ x ∈ rest.head?, isHex x = false ∧ x ≠ 46 ∧ x ≠ 58

theorem ends_ending (after : Option Bytes) : Ends (ending after) := by
  cases after with
  | none => exact fun x hx => by cases hx
  | some s =>
      intro x hx
      obtain rfl := Option.some.inj hx
      decide

theorem isDigit_of_isHex {x : Byte} (h : isHex x = false) : isDigit x = false := by
  by_contra hd
  rw [isHex_of_isDigit (by simpa using hd)] at h
  cases h

/-! ## IPv4 -/

/-- Numbers are read, and their text is counted. -/
theorem scanNumbers_dotted (h : Dotted t bs) (hr : ∀ x ∈ rest.head?, isDigit x = false) :
    scanNumbers tx bs.length (t ++ rest) = some (t.length, bs) := by
  induction h with
  | @one t b h =>
      have hpos := List.length_pos_iff.mpr h.ne_nil
      have hb := UInt8.toNat_lt b
      rw [List.length_singleton, scanNumbers]
      simp only [scanUlong_octet h hr]
      rw [if_neg (by omega), if_neg (by omega), if_pos trivial, UInt8.ofNat_toNat]
  | @cons t u b bs h hd ih =>
      have hpos := List.length_pos_iff.mpr h.ne_nil
      have hb := UInt8.toNat_lt b
      have hdot : ∀ x ∈ (46 :: u ++ rest).head?, isDigit x = false := by
        intro x hx
        obtain rfl := Option.some.inj hx
        rfl
      have hbs : bs.length ≠ 0 := by
        cases hd <;> simp
      have hdrop : (t ++ (46 :: u ++ rest)).drop t.length = 46 :: u ++ rest := List.drop_left
      have hdrop' : (t ++ (46 :: u ++ rest)).drop (t.length + 1) = u ++ rest := by
        rw [← List.drop_drop, hdrop]
        rfl
      rw [List.length_cons, scanNumbers, List.append_assoc]
      simp only [scanUlong_octet h hdot, hdrop, hdrop', ih]
      have hhead : (46 :: u ++ rest).head? = some 46 := rfl
      rw [if_neg (by omega), if_neg (by omega), if_neg hbs, if_pos hhead, UInt8.ofNat_toNat,
        List.length_append, List.length_cons]
      simp only [Option.map_some, Option.some.injEq, Prod.mk.injEq, and_true]
      omega

theorem ip4_scan_ip4 (h : Ip4 t bs) (hr : ∀ x ∈ rest.head?, isDigit x = false) :
    ip4_scan tx (t ++ rest) = some (t.length, bs) := by
  have := @scanNumbers_dotted tx _ _ _ h.1 hr
  rwa [h.2] at this

/-- A text whose first colon is not behind a dot is not read. -/
theorem ip4_scan_none (hu : ∀ x ∈ t, isHex x = true) : ip4_scan tx (t ++ 58 :: rest) = none := by
  have hnext : ∀ u : Bytes, (∀ x ∈ u, isHex x = true) →
      ((u ++ 58 :: rest).drop ((u ++ 58 :: rest).takeWhile isDigit).length).head? ≠ some 46 := by
    intro u hu
    induction u with
    | nil =>
        intro h
        have h58 : (58 : Byte) = 46 := Option.some.inj h
        exact absurd h58 (by decide)
    | cons x u ih =>
        rw [List.forall_mem_cons] at hu
        by_cases hx : isDigit x = true
        · rw [List.cons_append, List.takeWhile_cons_of_pos hx]
          exact ih hu.2
        · rw [List.cons_append, List.takeWhile_cons_of_neg hx]
          intro h
          have hx46 : x = 46 := Option.some.inj h
          rw [hx46] at hu
          exact absurd hu.1 (by decide)
  rw [ip4_scan, scanNumbers]
  simp only [tx.scan_eq, scanDecimal]
  split_ifs with h0 h1 h2 h3
  · rfl
  · rfl
  · exact absurd h2 (by decide)
  · exact absurd h3 (hnext t hu)
  · rfl

/-! ## A group -/

theorem Ends.isHex (h : Ends rest) : ∀ x ∈ rest.head?, isHex x = false := fun x hx => (h x hx).1

theorem Ends.isDigit (h : Ends rest) : ∀ x ∈ rest.head?, isDigit x = false := fun x hx =>
  isDigit_of_isHex (h x hx).1

theorem Ends.colon (h : Ends rest) : rest.head? ≠ some 58 := fun h58 => (h 58 h58).2.2 rfl

/-- What follows a group: no digit, and no dot. -/
def Stops (rest : Bytes) : Prop := ∀ x ∈ rest.head?, isHex x = false ∧ x ≠ 46

theorem Ends.stops (h : Ends rest) : Stops rest := fun x hx => ⟨(h x hx).1, (h x hx).2.1⟩

theorem stops_colon (rest : Bytes) : Stops (58 :: rest) := by
  intro x hx
  obtain rfl := Option.some.inj hx
  decide

/-- Two octets are written. -/
theorem write_two {α : Type} {size : Nat} (h : d.length + 2 ≤ size) (x y : Byte)
    (k : Bytes → Option α) :
    (write size d x).bind (fun d => (write size d y).bind k) = k (d ++ [x, y]) := by
  have h1 : d.length < size := by omega
  have h2 : (d ++ [x]).length < size := by
    rw [List.length_append, List.length_singleton]
    omega
  rw [write, if_pos h1, Option.bind_some, write, if_pos h2, Option.bind_some, List.append_assoc]
  rfl

/-- What the scanner makes of the number in front of the first dot, in hexadecimal. -/
theorem scanXlong_dotted (h : Ip4 t bs) :
    (tx.scanXlong (t ++ rest)).1 ≠ 0 ∧
      ((t ++ rest).drop (tx.scanXlong (t ++ rest)).1).head? = some 46 ∧
      ∃ x u, t = x :: u ∧ x ≠ 58 := by
  obtain ⟨u, b, v, ho, rfl, x, w, rfl⟩ := h.head
  have hshort := ho.short
  have hscan := tx.scan_hex (x :: w) (46 :: (v ++ rest)) (by omega)
    (fun y hy => isHex_of_isDigit (ho.digits y hy)) (by
      intro y hy
      obtain rfl := Option.some.inj hy
      rfl)
  have htext : (x :: w ++ 46 :: v) ++ rest = x :: w ++ 46 :: (v ++ rest) := by simp
  rw [htext, hscan]
  refine ⟨by simp, by rw [List.drop_left]; rfl, x, w ++ 46 :: v, rfl, ?_⟩
  rintro rfl
  exact absurd (ho.digits 58 List.mem_cons_self) (by decide)

/-- The separator is passed over, and counted. -/
theorem sep_length (first : Bool) {x : Byte} {u : Bytes} (hx : x ≠ 58) :
    (if (sep first ++ x :: u).head? = some 58 then len + 1 else len) =
      len + (sep first).length := by
  cases first <;> simp [sep, hx]

/-! ## In front of the `::` -/

/-- One turn. -/
theorem scanPrefix_turn (first : Bool) (h : Group t a b) (hr : Stops rest)
    (hd : d.length + 2 ≤ 16) :
    scanPrefix tx (n + 1) len d (sep first ++ (t ++ rest)) =
      if d.length + 2 = 16 then
        some (.done (len + (sep first).length + t.length) (d ++ [a, b]))
      else scanPrefix tx n (len + (sep first).length + t.length) (d ++ [a, b]) rest := by
  obtain ⟨x, u, rfl, hx⟩ := h.head
  obtain ⟨-, hno, hs⟩ := sep_head first (x := x) (u := u ++ rest) hx
  have hscan : tx.scanXlong (x :: (u ++ rest)) = ((x :: u).length, a.toNat * 256 + b.toNat) :=
    scanXlong_group h fun y hy => (hr y hy).1
  have hnext : rest.head? ≠ some 46 := fun h46 => (hr 46 h46).2 rfl
  have hdrop : (x :: (u ++ rest)).drop (x :: u).length = rest := List.drop_left
  have hoct := group_octets a b
  rw [scanPrefix, List.cons_append, if_neg hno]
  simp only [hs, hscan, hdrop, sep_length first hx]
  rw [if_neg (by simp), if_neg (fun h => hnext h.2)]
  simp only [Option.bind_eq_bind]
  rw [write_two hd, hoct, List.length_append]
  rfl

/-- All groups of an address. -/
theorem scanPrefix_whole (h : Groups t bs) (first : Bool) (hr : Ends rest)
    (hlen : d.length + bs.length = 16) (hn : bs.length ≤ 2 * n) :
    scanPrefix tx n len d (sep first ++ (t ++ rest)) =
      some (.done (len + (sep first).length + t.length) (d ++ bs)) := by
  induction h generalizing n len d first with
  | @one t a b h =>
      rw [List.length_cons, List.length_singleton] at hlen hn
      obtain ⟨n, rfl⟩ := Nat.exists_eq_add_one.mpr (show 0 < n by omega)
      rw [scanPrefix_turn first h hr.stops (by omega), if_pos hlen]
  | @ip4 t bs h =>
      have h4 := h.2
      obtain ⟨n, rfl⟩ := Nat.exists_eq_add_one.mpr (show 0 < n by omega)
      obtain ⟨hne, hdot, x, u, rfl, hx⟩ := @scanXlong_dotted tx _ rest _ h
      obtain ⟨-, hno, hs⟩ := sep_head first (x := x) (u := u ++ rest) hx
      have hip4 := @ip4_scan_ip4 tx _ rest _ h hr.isDigit
      rw [List.cons_append] at hne hdot hip4
      rw [scanPrefix, List.cons_append, if_neg hno]
      simp only [hs, sep_length first hx]
      rw [if_neg hne, if_pos ⟨by omega, hdot⟩, hip4]
      simp only [Nat.add_comm]
  | @cons t v a b bs h hr' ih =>
      rw [List.length_cons, List.length_cons] at hlen hn
      obtain ⟨n, rfl⟩ := Nat.exists_eq_add_one.mpr (show 0 < n by omega)
      have hpos := List.length_pos_iff.mpr hr'.ne_nil
      have htext : t ++ 58 :: v ++ rest = t ++ 58 :: (v ++ rest) := by simp
      have hnext := @ih (d ++ [a, b]) n (len + (sep first).length + t.length) false
        (by rw [List.length_append]; exact (by omega : d.length + 2 + bs.length = 16)) (by omega)
      rw [htext, scanPrefix_turn first h (stops_colon _) (by omega), if_neg (by omega)]
      refine hnext.trans ?_
      simp only [sep, List.append_assoc, List.length_append, List.length_cons, List.length_nil,
        List.cons_append, List.nil_append, Bool.false_eq_true, if_false]
      congr 2
      omega

/-- The groups in front of a `::`. -/
theorem scanPrefix_front (h : Groups t bs) (hdot : (46 : Byte) ∉ t) (first : Bool)
    (hlen : d.length + bs.length ≤ 14) (hn : bs.length + 2 ≤ 2 * n) :
    scanPrefix tx n len d (sep first ++ (t ++ 58 :: 58 :: s)) =
      some (.compact (len + (sep first).length + t.length + 2) (d ++ bs) s) := by
  have hend : ∀ {n len : Nat} {d : Bytes}, 0 < n →
      scanPrefix tx n len d (58 :: 58 :: s) = some (.compact (len + 2) d s) := by
    intro n len d hn
    obtain ⟨n, rfl⟩ := Nat.exists_eq_add_one.mpr hn
    rw [scanPrefix, if_pos ⟨rfl, rfl⟩]
    rfl
  induction h generalizing n len d first with
  | @one t a b h =>
      rw [List.length_cons, List.length_singleton] at hlen hn
      obtain ⟨n, rfl⟩ := Nat.exists_eq_add_one.mpr (show 0 < n by omega)
      rw [scanPrefix_turn first h (stops_colon _) (by omega), if_neg (by omega), hend (by omega)]
  | @ip4 t bs h =>
      obtain ⟨u, b, rest, ho, rfl, hx⟩ := h.head
      exact absurd (List.mem_append_right u List.mem_cons_self) hdot
  | @cons t v a b bs h hr ih =>
      rw [List.length_cons, List.length_cons] at hlen hn
      obtain ⟨n, rfl⟩ := Nat.exists_eq_add_one.mpr (show 0 < n by omega)
      have hv : (46 : Byte) ∉ v := by
        intro hin
        exact hdot (List.mem_append_right t (List.mem_cons_of_mem _ hin))
      have htext : t ++ 58 :: v ++ 58 :: 58 :: s = t ++ 58 :: (v ++ 58 :: 58 :: s) := by simp
      have hnext := @ih (d ++ [a, b]) n (len + (sep first).length + t.length) hv false
        (by rw [List.length_append]; exact (by omega : d.length + 2 + bs.length ≤ 14)) (by omega)
      rw [htext, scanPrefix_turn first h (stops_colon _) (by omega), if_neg (by omega)]
      refine hnext.trans ?_
      simp only [sep, List.append_assoc, List.length_append, List.length_cons, List.length_nil,
        List.cons_append, List.nil_append, Bool.false_eq_true, if_false]
      congr 2
      omega

/-! ## Behind the `::` -/

section
variable {suffix : Bytes} {pl : Nat}

theorem sep_goes_on (first : Bool) (hfirst : first = true ↔ suffix = []) {x : Byte} {u : Bytes}
    (hx : x ≠ 58) :
    ¬ ((sep first ++ x :: u).head? = some 58 ∧ suffix = [] ∨
      (sep first ++ x :: u).head? ≠ some 58 ∧ suffix ≠ []) := by
  obtain ⟨hcolon, -, -⟩ := sep_head first (x := x) (u := u) hx
  rw [hcolon, ← hfirst, Ne, hcolon, Ne, ← hfirst]
  cases first <;> simp

/-- One turn. -/
theorem scanSuffix_turn (first : Bool) (hfirst : first = true ↔ suffix = []) (h : Group t a b)
    (hr : Stops rest) (hd : suffix.length + 2 ≤ 16) :
    scanSuffix tx (n + 1) pl len suffix (sep first ++ (t ++ rest)) =
      if pl + (suffix.length + 2) = 16 then
        some (len + (sep first).length + t.length, suffix ++ [a, b])
      else scanSuffix tx n pl (len + (sep first).length + t.length) (suffix ++ [a, b]) rest := by
  obtain ⟨x, u, rfl, hx⟩ := h.head
  obtain ⟨-, -, hs⟩ := sep_head first (x := x) (u := u ++ rest) hx
  have hscan : tx.scanXlong (x :: (u ++ rest)) = ((x :: u).length, a.toNat * 256 + b.toNat) :=
    scanXlong_group h fun y hy => (hr y hy).1
  have hnext : rest.head? ≠ some 46 := fun h46 => (hr 46 h46).2 rfl
  have hdrop : (x :: (u ++ rest)).drop (x :: u).length = rest := List.drop_left
  have hoct := group_octets a b
  rw [scanSuffix, List.cons_append, if_neg (sep_goes_on first hfirst hx)]
  simp only [hs, hscan, hdrop, sep_length first hx]
  rw [if_neg (by simp), if_neg (fun h => hnext h.2), if_neg (fun h => hnext h.2)]
  simp only [Option.bind_eq_bind]
  rw [write_two hd, hoct, List.length_append]
  rfl

/-- All groups. -/
theorem scanSuffix_whole (h : Groups t bs) (first : Bool) (hfirst : first = true ↔ suffix = [])
    (hr : Ends rest) (hlen : pl + suffix.length + bs.length ≤ 14) (hn : bs.length + 2 ≤ 2 * n) :
    scanSuffix tx n pl len suffix (sep first ++ (t ++ rest)) =
      some (len + (sep first).length + t.length, suffix ++ bs) := by
  induction h generalizing n len suffix first with
  | @one t a b h =>
      rw [List.length_cons, List.length_singleton] at hlen hn
      obtain ⟨n, rfl⟩ := Nat.exists_eq_add_one.mpr (show 0 < n by omega)
      obtain ⟨m, rfl⟩ := Nat.exists_eq_add_one.mpr (show 0 < n by omega)
      rw [scanSuffix_turn first hfirst h hr.stops (by omega), if_neg (by omega), scanSuffix,
        if_pos (.inr ⟨hr.colon, by simp⟩)]
  | @ip4 t bs h =>
      have h4 := h.2
      obtain ⟨n, rfl⟩ := Nat.exists_eq_add_one.mpr (show 0 < n by omega)
      obtain ⟨hne, hdot, x, u, rfl, hx⟩ := @scanXlong_dotted tx _ rest _ h
      obtain ⟨-, -, hs⟩ := sep_head first (x := x) (u := u ++ rest) hx
      have hip4 := @ip4_scan_ip4 tx _ rest _ h hr.isDigit
      rw [List.cons_append] at hne hdot hip4
      rw [scanSuffix, List.cons_append, if_neg (sep_goes_on first hfirst hx)]
      simp only [hs, sep_length first hx]
      rw [if_neg hne, if_pos ⟨by omega, hdot⟩, hip4]
      simp only
      rw [if_pos (by omega)]
  | @cons t v a b bs h hr' ih =>
      rw [List.length_cons, List.length_cons] at hlen hn
      obtain ⟨n, rfl⟩ := Nat.exists_eq_add_one.mpr (show 0 < n by omega)
      have htext : t ++ 58 :: v ++ rest = t ++ 58 :: (v ++ rest) := by simp
      have hnext := @ih n (len + (sep first).length + t.length) (suffix ++ [a, b]) false (by simp)
        (by rw [List.length_append]; exact (by omega : pl + (suffix.length + 2) + bs.length ≤ 14))
        (by omega)
      rw [htext, scanSuffix_turn first hfirst h (stops_colon _) (by omega), if_neg (by omega)]
      refine hnext.trans ?_
      simp only [sep, List.append_assoc, List.length_append, List.length_cons, List.length_nil,
        List.cons_append, List.nil_append, Bool.false_eq_true, if_false]
      congr 2
      omega

/-- Nothing is behind the `::`. -/
theorem scanSuffix_nil (hr : Ends rest) :
    scanSuffix tx (n + 1) pl len [] rest = some (len - 1, []) := by
  have hscan : tx.scanXlong rest = (0, hexValue []) :=
    tx.scan_hex [] rest (by simp) (by simp) hr.isHex
  rw [scanSuffix, if_neg (by simp [hr.colon]), if_neg hr.colon, if_neg hr.colon]
  simp only [hscan, if_true]

end

/-! ## The text of an address -/

/-- The text of an IPv6 address is not that of an IPv4 address. -/
theorem ip4_scan_ip6 (h : Ip6 t bs) : ip4_scan tx (t ++ rest) = none := by
  cases h with
  | full h hlen =>
      obtain ⟨u, v, hu, rfl⟩ := h.colon (by omega)
      rw [List.append_assoc]
      exact ip4_scan_none hu
  | @compact p ps s ss hp hs hlen =>
      rw [List.append_assoc]
      rcases hp with ⟨rfl, -⟩ | ⟨hp, hdot⟩
      · exact ip4_scan_none (t := []) (by simp)
      · cases hp with
        | one h => exact ip4_scan_none h.hex
        | ip4 h =>
            obtain ⟨u, b, v, ho, rfl, hx⟩ := h.head
            exact absurd (List.mem_append_right u List.mem_cons_self) hdot
        | @cons u v a b bs h hr =>
            rw [List.append_assoc]
            exact ip4_scan_none h.hex

theorem ip6_scan_groups (h : Groups t bs) (hlen : bs.length = 16) (hr : Ends rest) :
    ip6_scan tx (t ++ rest) = some (t.length, bs) := by
  have hip4 : ip4_scan tx (t ++ rest) = none := ip4_scan_ip6 (.full h hlen)
  have hpre : scanPrefix tx 8 0 [] (t ++ rest) = some (.done (0 + 0 + t.length) bs) :=
    scanPrefix_whole h true hr (by simpa using hlen) (by omega)
  rw [ip6_scan, hip4]
  simp only [hpre, Option.bind_eq_bind, Option.bind_some, Nat.zero_add]

theorem ip6_scan_compact {p ps ss : Bytes} (hp : p = [] ∧ ps = [] ∨ Groups p ps ∧ 46 ∉ p)
    (hs : s = [] ∧ ss = [] ∨ Groups s ss) (hlen : ps.length + ss.length ≤ 14) (hr : Ends rest) :
    ip6_scan tx (p ++ 58 :: 58 :: s ++ rest) =
      some (p.length + 2 + s.length - (if ss = [] then 1 else 0),
        ps ++ List.replicate (16 - ps.length - ss.length) 0 ++ ss) := by
  have htext : p ++ 58 :: 58 :: s ++ rest = p ++ 58 :: 58 :: (s ++ rest) := by simp
  have hip4 : ip4_scan tx (p ++ 58 :: 58 :: (s ++ rest)) = none := by
    rw [← htext]
    exact ip4_scan_ip6 (.compact hp hs hlen)
  have hpre : scanPrefix tx 8 0 [] (p ++ 58 :: 58 :: (s ++ rest)) =
      some (.compact (p.length + 2) ps (s ++ rest)) := by
    rcases hp with ⟨rfl, rfl⟩ | ⟨hp, hdot⟩
    · rfl
    · have := @scanPrefix_front tx _ (s ++ rest) [] _ 8 0 hp hdot true (by simp; omega) (by omega)
      simpa [sep] using this
  have hsuf : scanSuffix tx 8 ps.length (p.length + 2) [] (s ++ rest) =
      some (p.length + 2 + s.length - (if ss = [] then 1 else 0), ss) := by
    rcases hs with ⟨rfl, rfl⟩ | hs
    · exact scanSuffix_nil hr
    · have := @scanSuffix_whole tx _ rest _ 8 (p.length + 2) [] ps.length hs true (by simp) hr
        (by simp; omega) (by omega)
      rw [if_neg hs.ne_nil]
      simpa [sep] using this
  have hcut : (zeroed ps).take (16 - ss.length) =
      ps ++ List.replicate (16 - ps.length - ss.length) 0 := by
    have hmin : min (16 - ss.length - ps.length) (16 - ps.length) = 16 - ps.length - ss.length := by
      omega
    rw [zeroed, List.take_append, List.take_of_length_le (by omega), List.take_replicate, hmin]
  rw [htext, ip6_scan, hip4]
  simp only [hpre, hsuf, Option.bind_eq_bind, Option.bind_some]
  rw [if_pos (by omega), hcut]

/-- The text of an IPv6 address is read. -/
theorem ip6_scan_ip6 (h : Ip6 t bs) (hr : Ends rest) :
    ∃ len, len ≠ 0 ∧ ip6_scan tx (t ++ rest) = some (len, bs) := by
  cases h with
  | full h hlen =>
      obtain ⟨u, v, hu, rfl⟩ := h.colon (by omega)
      exact ⟨_, by simp, ip6_scan_groups h hlen hr⟩
  | compact hp hs hlen =>
      refine ⟨_, ?_, ip6_scan_compact hp hs hlen hr⟩
      split_ifs <;> omega

theorem octets_append (gs hs : List (Byte × Byte)) :
    octets (gs ++ hs) = octets gs ++ octets hs := List.flatMap_append

theorem octets_zeros {zs : List (Byte × Byte)} (h : ∀ z ∈ zs, z = (0, 0)) :
    octets zs = List.replicate (2 * zs.length) 0 := by
  induction zs with
  | nil => rfl
  | cons z zs ih =>
      have hoct : octets (z :: zs) = z.1 :: z.2 :: octets zs := rfl
      rw [hoct, ih fun x hx => h x (List.mem_cons_of_mem z hx), h z List.mem_cons_self,
        List.length_cons, Nat.mul_succ, List.replicate_succ, List.replicate_succ]

/-- **`ip6_scan` reads what `ip6_fmt` wrote**; of a text that ends in `::` it counts one byte too
few. -/
theorem ip6_scan_fmt {ip6 : Bytes} (h : ip6.length = 16) (hr : Ends rest) :
    ip6_scan tx (ip6_fmt tx ip6 ++ rest) =
      some ((ip6_fmt tx ip6).length - (if EndsInRun (groups ip6) then 1 else 0), ip6) := by
  have hoct : octets (groups ip6) = ip6 := octets_groups (by omega)
  have hlen := length_groups h
  by_cases hm : ip6.take 12 = V4mappedprefix
  · obtain ⟨v, h4, rfl⟩ : ∃ v : Bytes, v.length = 4 ∧ ip6 = V4mappedprefix ++ v := by
      refine ⟨ip6.drop 12, ?_, ?_⟩
      · rw [List.length_drop, h]
      · rw [← hm, List.take_append_drop]
    have hend : ¬ EndsInRun (groups ( V4mappedprefix ++ v)) := by
      match v, h4 with
      | [a, b, c, d], _ => simp [EndsInRun, cutRun, groups, V4mappedprefix]
    have hdrop : ( V4mappedprefix ++ v).drop 12 = v := rfl
    have hs : Groups (hex tx (255, 255) ++ 58 :: ip4_fmt tx v) (255 :: 255 :: v) :=
      .cons (group_hex tx (255, 255)) (.ip4 (ip4_fmt_ip4 tx h4))
    have hscan := @ip6_scan_compact tx rest _ [] [] _ (.inl ⟨rfl, rfl⟩) (.inr hs) (by simp [h4]) hr
    rw [ip6_fmt_mapped h hm, if_neg hend, hdrop]
    refine hscan.trans ?_
    rw [if_neg (List.cons_ne_nil _ _), List.length_cons, List.length_cons, h4]
    simp only [List.length_nil, List.length_cons, Nat.zero_add, Nat.add_comm 2]
    rfl
  · rw [ip6_fmt_eq h hm]
    cases hc : cutRun (groups ip6) with
    | none =>
        have hend : ¬ EndsInRun (groups ip6) := by simp [EndsInRun, hc]
        have hne : groups ip6 ≠ [] := by
          intro hnil
          rw [hnil] at hlen
          cases hlen
        obtain ⟨hg, -⟩ := groups_plainText tx hne
        rw [hoct] at hg
        simp only [if_neg hend]
        exact ip6_scan_groups hg h hr
    | some c =>
        obtain ⟨ps, qs⟩ := c
        obtain ⟨zs, hgs, -, hqs⟩ := cutRun_some hc
        have hends : EndsInRun (groups ip6) ↔ octets qs = [] := by
          rw [EndsInRun, hc, Option.map_some, Option.some.injEq]
          cases qs <;> simp [octets]
        have hzs : octets (zs.takeWhile (· = (0, 0))) =
            List.replicate (2 * (zs.takeWhile (· = (0, 0))).length) 0 :=
          octets_zeros fun z hz => by simpa using List.mem_takeWhile_imp hz
        have hsplit : ip6 = octets ps ++ (0 :: 0 :: List.replicate
            (2 * (zs.takeWhile (· = (0, 0))).length) 0) ++ octets qs := by
          have hzq : zs = zs.takeWhile (· = (0, 0)) ++ qs := by
            rw [hqs, List.takeWhile_append_dropWhile]
          have hz0 : octets ((0, 0) :: zs) = 0 :: 0 :: octets zs := rfl
          conv_lhs => rw [← hoct, hgs, octets_append, hz0, hzq, octets_append, hzs]
          simp
        have hsum := congrArg List.length hsplit
        simp only [List.length_append, List.length_cons, List.length_replicate, h] at hsum
        have hzeros : List.replicate (16 - (octets ps).length - (octets qs).length) (0 : Byte) =
            0 :: 0 :: List.replicate (2 * (zs.takeWhile (· = (0, 0))).length) 0 := by
          rw [← List.replicate_succ, ← List.replicate_succ]
          congr 1
          omega
        have hp : plainText tx ps = [] ∧ octets ps = [] ∨
            Groups (plainText tx ps) (octets ps) ∧ 46 ∉ plainText tx ps := by
          by_cases hps : ps = []
          · exact .inl (by simp [hps, plainText, octets])
          · exact .inr (groups_plainText tx hps)
        have hs : plainText tx qs = [] ∧ octets qs = [] ∨
            Groups (plainText tx qs) (octets qs) := by
          by_cases hq : qs = []
          · exact .inl (by simp [hq, plainText, octets])
          · exact .inr (groups_plainText tx hq).1
        have hscan := @ip6_scan_compact tx rest _ _ _ _ hp hs (by omega) hr
        refine hscan.trans ?_
        rw [hzeros, ← hsplit]
        simp only [hends, List.length_append, List.length_cons]
        congr 3
        omega

theorem ip6_fmt_pos {ip6 : Bytes} (h : ip6.length = 16) : 0 < (ip6_fmt tx ip6).length := by
  by_cases hm : ip6.take 12 = V4mappedprefix
  · rw [ip6_fmt_mapped h hm]
    exact Nat.succ_pos _
  · rw [ip6_fmt_eq h hm]
    split
    · have hlen := length_groups h
      match groups ip6, hlen with
      | g :: gs, _ =>
          rw [plainText_cons, List.length_append]
          exact Nat.add_pos_left (List.length_pos_iff.mpr (tx.xlong_ne_nil _)) _
    · rw [List.length_append]
      exact Nat.add_pos_right _ (Nat.succ_pos _)

/-! ## Every text -/

theorem scanNumbers_length {n i : Nat} {s ip : Bytes} (h : scanNumbers tx n s = some (i, ip)) :
    ip.length = n := by
  induction n generalizing s i ip with
  | zero =>
      cases h
      rfl
  | succ n ih =>
      rw [scanNumbers] at h
      split_ifs at h with h1 h2 h3 h4
      · cases h
        rw [h3]
        rfl
      · obtain ⟨q, hq, heq⟩ := Option.map_eq_some_iff.mp h
        cases heq
        rw [List.length_cons, ih hq]

/-- The first loop writes inside the result, and ends. -/
theorem scanPrefix_inside (hd : d.length + 2 * n = 16) (hn : n ≠ 0) :
    ∃ part, scanPrefix tx n len d s = some part ∧
      ∀ len' d' s', part = .compact len' d' s' → d'.length % 2 = 0 ∧ d'.length < 16 := by
  induction n generalizing len d s with
  | zero => exact (hn rfl).elim
  | succ n ih =>
      rw [scanPrefix]
      by_cases hcolon : s.head? = some 58 ∧ s.tail.head? = some 58
      · rw [if_pos hcolon]
        exact ⟨_, rfl, fun len' d' s' h => by
          cases h
          omega⟩
      · rw [if_neg hcolon]
        generalize (if s.head? = some 58 then s.tail else s) = u
        generalize (if s.head? = some 58 then len + 1 else len) = k
        dsimp only
        split_ifs with h0 hdot
        · exact ⟨_, rfl, fun len' d' s' h => by cases h⟩
        · split
          · exact ⟨_, rfl, fun len' d' s' h => by cases h⟩
          · exact ⟨_, rfl, fun len' d' s' h => by cases h⟩
        · simp only [Option.bind_eq_bind]
          rw [write_two (by omega), List.length_append]
          split_ifs with h16
          · exact ⟨_, rfl, fun len' d' s' h => by cases h⟩
          · rw [List.length_cons, List.length_singleton] at h16
            refine ih ?_ (by omega)
            rw [List.length_append, List.length_cons, List.length_singleton]
            omega

/-- The second loop writes inside its buffer, and ends. -/
theorem scanSuffix_inside {pl : Nat} {suffix : Bytes} (heven : (pl + suffix.length) % 2 = 0)
    (hlt : pl + suffix.length < 16) (hn : 16 - (pl + suffix.length) ≤ 2 * n) :
    ∃ len' suffix', scanSuffix tx n pl len suffix s = some (len', suffix') ∧
      suffix'.length ≤ 16 := by
  induction n generalizing pl len suffix s with
  | zero => omega
  | succ n ih =>
      rw [scanSuffix]
      by_cases hstop : s.head? = some 58 ∧ suffix = [] ∨ s.head? ≠ some 58 ∧ suffix ≠ []
      · rw [if_pos hstop]
        exact ⟨len, suffix, rfl, by omega⟩
      · rw [if_neg hstop]
        generalize (if s.head? = some 58 then s.tail else s) = u
        generalize (if s.head? = some 58 then len + 1 else len) = k
        dsimp only
        by_cases h0 : (tx.scanXlong u).1 = 0
        · rw [if_pos h0]
          exact ⟨_, suffix, rfl, by omega⟩
        · rw [if_neg h0]
          split
          · next j ip4 hip4 =>
              have h4 : ip4.length = 4 := by
                split_ifs at hip4
                exact scanNumbers_length hip4
              rw [if_pos (by split_ifs at hip4; omega)]
              refine ⟨_, _, rfl, ?_⟩
              rw [List.length_append, h4]
              split_ifs at hip4
              omega
          · simp only [Option.bind_eq_bind]
            rw [write_two (by omega)]
            -- behind a number with a dot that is not read, the sum of the lengths is 14
            generalize hq : (if suffix.length + pl ≤ 12 ∧
                (u.drop (tx.scanXlong u).1).head? = some 46 then 12 - suffix.length else pl) = q
            have hsum : (q + (suffix.length + 2)) % 2 = 0 ∧ q + (suffix.length + 2) ≤ 16 ∧
                16 - (q + (suffix.length + 2)) ≤ 2 * n := by
              split_ifs at hq <;> omega
            rw [List.length_append, List.length_cons, List.length_singleton]
            by_cases h16 : q + (suffix.length + 2) = 16
            · rw [if_pos h16]
              refine ⟨_, _, rfl, ?_⟩
              rw [List.length_append, List.length_cons, List.length_singleton]
              omega
            · rw [if_neg h16]
              refine ih ?_ ?_ ?_ <;>
                rw [List.length_append, List.length_cons, List.length_singleton] <;> omega

/-- **No text makes `ip6_scan` write outside its buffers.** -/
theorem ip6_scan_inside (tx : Texts) (s : Bytes) : (ip6_scan tx s).isSome = true := by
  rw [ip6_scan]
  split
  · rfl
  · obtain ⟨part, hpart, hcompact⟩ := @scanPrefix_inside tx s [] 8 0 rfl (by decide)
    simp only [hpart, Option.bind_eq_bind, Option.bind_some]
    cases part with
    | fail d => rfl
    | done len d => rfl
    | compact len d u =>
        obtain ⟨heven, hlt⟩ := hcompact len d u rfl
        obtain ⟨len', suffix, hsuf, h16⟩ :=
          @scanSuffix_inside tx u 8 len d.length [] heven hlt (by omega)
        simp only [hsuf, Option.bind_some, if_pos h16, Option.isSome_some]

/-! ## Addresses -/

/-- **The text of an address is read back**, unless its first run of zeros goes on to the end; and
no text makes `ip6_scan` write outside its buffers. -/
theorem address_text_iff (tx : Texts) (ip : Addr 4) (ip6 : Addr 16) (after : Option Bytes)
    (more s : Bytes) :
    (ip4_scan tx (ip4_fmt tx ip.1 ++ ending after) = some ((ip4_fmt tx ip.1).length, ip.1) ∧
      ip4_scanbracket tx (91 :: (ip4_fmt tx ip.1 ++ 93 :: more)) =
        some ((ip4_fmt tx ip.1).length + 2, ip.1)) ∧
    (ip6_scan tx (ip6_fmt tx ip6.1 ++ ending after) = some ((ip6_fmt tx ip6.1).length, ip6.1) ∧
        ip6_scanbracket tx (91 :: (ip6_fmt tx ip6.1 ++ 93 :: more)) =
          some ((ip6_fmt tx ip6.1).length + 2, ip6.1) ↔
      ¬ EndsInRun (groups ip6.1)) ∧
    (ip6_scan tx s).isSome = true := by
  refine ⟨⟨?_, ?_⟩, ?_, ip6_scan_inside tx s⟩
  · exact ip4_scan_ip4 (ip4_fmt_ip4 tx ip.2) (ends_ending after).isDigit
  · have hscan := @ip4_scan_ip4 tx _ (93 :: more) _ (ip4_fmt_ip4 tx ip.2)
      (ends_ending (some more)).isDigit
    have hdrop : (91 :: (ip4_fmt tx ip.1 ++ 93 :: more)).drop ((ip4_fmt tx ip.1).length + 1) =
        93 :: more := List.drop_left
    rw [ip4_scanbracket, if_neg (by simp), List.tail_cons, hscan]
    simp only [hdrop]
    rfl
  · have hscan := @ip6_scan_fmt tx _ _ ip6.2 (ends_ending after)
    have hbracket := @ip6_scan_fmt tx (93 :: more) _ ip6.2 (ends_ending (some more))
    have hpos := @ip6_fmt_pos tx _ ip6.2
    by_cases hend : EndsInRun (groups ip6.1)
    · rw [if_pos hend] at hscan
      refine iff_of_false (fun h => ?_) (not_not_intro hend)
      rw [hscan] at h
      have hlen := congrArg Prod.fst (Option.some.inj h.1)
      dsimp only at hlen
      omega
    · rw [if_neg hend, Nat.sub_zero] at hscan hbracket
      refine iff_of_true ⟨hscan, ?_⟩ hend
      have hdrop : (91 :: (ip6_fmt tx ip6.1 ++ 93 :: more)).drop
          ((ip6_fmt tx ip6.1).length + 1) = 93 :: more := List.drop_left
      rw [ip6_scanbracket, if_neg (by simp), List.tail_cons, hbracket]
      simp only [hdrop, Option.bind_eq_bind, Option.bind_some]
      rw [if_neg (by omega), if_neg (by simp)]

/-! ## Two texts -/

def hexDigits : Nat → Nat → Bytes
  | 0, _ => []
  | left + 1, n =>
      if n < 16 then [hexChar n] else hexDigits left (n / 16) ++ [hexChar (n % 16)]

theorem hexDigits_value {left n : Nat} (h : n < left) : hexValue (hexDigits left n) = n := by
  induction left generalizing n with
  | zero => exact absurd h (Nat.not_lt_zero n)
  | succ left ih =>
      rw [hexDigits]
      split_ifs with h16
      · exact (by simp [hexValue, (hexChar_spec n h16).2] : hexValue [hexChar n] = n)
      · have hval := ih (show n / 16 < left by omega)
        rw [hexValue] at hval
        rw [hexValue, List.foldl_append, hval, List.foldl_cons, List.foldl_nil,
          (hexChar_spec (n % 16) (by omega)).2]
        omega

theorem hexDigits_length {left n k : Nat} (h : n < 16 ^ (k + 1)) :
    (hexDigits left n).length ≤ k + 1 := by
  induction left generalizing n k with
  | zero => exact Nat.zero_le _
  | succ left ih =>
      rw [hexDigits]
      split_ifs with h16
      · exact Nat.succ_le_succ (Nat.zero_le k)
      · cases k with
        | zero => exact absurd h h16
        | succ k =>
            rw [List.length_append]
            exact Nat.succ_le_succ (ih (by rw [Nat.pow_succ] at h; omega))

theorem hexDigits_isHex {left n : Nat} : ∀ x ∈ hexDigits left n, isHex x = true := by
  induction left generalizing n with
  | zero => exact fun x hx => absurd hx List.not_mem_nil
  | succ left ih =>
      intro x hx
      rw [hexDigits] at hx
      split_ifs at hx with h16
      · rw [List.mem_singleton.mp hx]
        exact (hexChar_spec n h16).1
      · rcases List.mem_append.mp hx with hx | hx
        · exact ih x hx
        · rw [List.mem_singleton.mp hx]
          exact (hexChar_spec (n % 16) (by omega)).1

/-- Texts with the digits that are needed. -/
def texts : Texts where
  toScanners := scanners
  fmtXlong n := hexDigits (n + 1) n
  xlong_ne_nil n := by
    rw [hexDigits]
    split_ifs <;> simp
  xlong_short n hn := hexDigits_length hn
  xlong_isHex n := hexDigits_isHex
  xlong_value n := hexDigits_value (Nat.lt_succ_self n)
  ulong_eq n := rfl

/-- `1::` is not read to its end, and `[1::]` is no address. -/
theorem trailing_run_is_short :
    let ip6 : Bytes := 0 :: 1 :: List.replicate 14 0
    ip6_fmt texts ip6 = asc "1::" ∧ ip6_scan texts (asc "1::") = some (2, ip6) ∧
      ip6_scanbracket texts (asc "[1::]") = some (0, ip6) := by
  decide +kernel

end IndimailMta.Ip
