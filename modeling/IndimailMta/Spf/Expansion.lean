import IndimailMta.Spf.Macros

/-!
# What a text expands to

A text is made of parts. A literal part stands for itself, and a macro for the value of its letter,
split at its delimiters, reversed or not, of which the right-most parts are joined by dots.
-/

namespace IndimailMta.Spf

open IndimailMta Tcprules Ip Lib.Splits

/-! ## Macros -/

structure Macro where
  letter : Byte
  escaped : Bool
  number : Bytes
  reversed : Bool
  delimiters : Bytes
  deriving DecidableEq, Repr

/-- A letter, with `x` in front or not, a number, other letters, and delimiters. -/
def Macro.read (body : Bytes) : Option Macro :=
  match (if body.head? = some 120 then body.tail else body) with
  | [] => none
  | c :: rest =>
      let lower := if 65 ≤ c ∧ c ≤ 90 then c + 32 else c
      let behind := rest.dropWhile isDigit
      some {
        letter := if body.head? = some 120 then lower - 32 else lower
        escaped := decide (65 ≤ c ∧ c ≤ 90)
        number := rest.takeWhile isDigit
        reversed := decide (114 ∈ behind.takeWhile isLetter)
        delimiters := if behind.dropWhile isLetter = [] then [46] else behind.dropWhile isLetter }

def Macro.parts (m : Macro) : Option Nat := if m.number = [] then none else some (digitsValue m.number)

/-- The right-most parts. -/
def rightmost (n : Option Nat) (ps : List Bytes) : List Bytes :=
  match n with
  | none => ps
  | some n => ps.drop (ps.length - n)

/-- What a macro makes of a value. -/
def Macro.cut (m : Macro) (v : Bytes) : Bytes :=
  let ps := v.splitOnP fun x => decide (x ∈ m.delimiters)
  [46].intercalate (rightmost m.parts (if m.reversed then ps.reverse else ps))

def Macro.written (m : Macro) (v : Bytes) : Bytes := if m.escaped then urlencode (m.cut v) else m.cut v

/-- The name that is found for the client, where none is remembered. -/
def foundName (e : Site) (domain_p : Bytes) : Bytes :=
  let name := (spf_ptr e ⟨[], [], []⟩ domain_p).1.sender_fqdn
  if name = [] then asc "unknown" else name

/-- The values of the letters l, s, o, d, i, t, p, v, h, E, R and S. -/
def valueOf (e : Site) (errormsg domain_p : Bytes) (letter : Byte) : Option Bytes :=
  if letter = 108 then
    some (if 64 ∈ e.addr then e.addr.take (byteRchr e.addr 64) else asc "postmaster")
  else if letter = 115 then some e.addr
  else if letter = 111 then
    if 64 ∈ e.addr then some (e.addr.drop (byteRchr e.addr 64 + 1)) else none
  else if letter = 100 then some domain_p
  else if letter = 105 then
    some (if e.statics.ipv6use then ip6_fmt e.tx e.statics.ip6.1 else ip4_fmt e.tx e.statics.ip.1)
  else if letter = 116 then some (e.tx.fmtUlong e.now)
  else if letter = 112 then some (foundName e domain_p)
  else if letter = 118 then some (if e.statics.ipv6use then asc "ip6" else asc "in-addr")
  else if letter = 104 then some e.helohost
  else if letter = 69 then some errormsg
  else if letter = 82 then some e.localhost
  else if letter = 83 then
    some (if e.expdomain ≠ [] then asc "SPF record at " ++ cstr e.expdomain else asc "local policy")
  else none

/-! ## Texts -/

inductive Part where
  | char (c : Byte)
  | percent
  | space
  | hexspace
  | stray
  | subst (body : Bytes)

/-- How a part is written. -/
def Part.write : Part → Bytes
  | .char c => [c]
  | .percent => [37, 37]
  | .space => [37, 95]
  | .hexspace => [37, 45]
  | .stray => [37]
  | .subst body => 37 :: 123 :: (body ++ [125])

def writeAll (ps : List Part) : Bytes := ps.flatMap Part.write

/-- What is behind a percent sign that stands for itself. -/
def Stray (rest : Bytes) : Prop :=
  rest.head? ≠ some 37 ∧ rest.head? ≠ some 95 ∧ rest.head? ≠ some 45 ∧
    (rest.head? = some 123 → 125 ∉ rest)

/-- The parts are read as they are written. -/
def Separate : List Part → Prop
  | [] => True
  | .char c :: ps => c ≠ 37 ∧ Separate ps
  | .stray :: ps => Stray (writeAll ps) ∧ Separate ps
  | .subst body :: ps => 125 ∉ body ∧ Separate ps
  | _ :: ps => Separate ps

/-- What a part stands for. A macro without a letter stands for nothing, and so does a letter
without a value. -/
def Part.stands (e : Site) (errormsg domain_p : Bytes) : Part → Bytes
  | .char c => [c]
  | .percent => [37]
  | .space => [32]
  | .hexspace => asc "%20"
  | .stray => [37]
  | .subst body =>
      match Macro.read body with
      | none => []
      | some m => m.written ((valueOf e errormsg domain_p m.letter).getD [])

def standsAll (e : Site) (errormsg domain_p : Bytes) (ps : List Part) : Bytes :=
  ps.flatMap (Part.stands e errormsg domain_p)

/-! ## The searches -/

section
variable {u t s c : Bytes} {d : Byte}

theorem byteRcspn_append (hd : decide (d ∈ c) = true) (ht : ∀ x ∈ t, decide (x ∈ c) = false) :
    byteRcspn (u ++ d :: t) c = u.length := by
  have hfind : (u ++ d :: t).reverse.findIdx? (fun x => decide (x ∈ c)) = some t.length := by
    rw [List.reverse_append, List.reverse_cons, List.append_assoc, List.findIdx?_append,
      List.findIdx?_eq_none_iff.mpr fun x hx => ht x (List.mem_reverse.mp hx)]
    simp [List.findIdx?_cons, hd]
  rw [byteRcspn, hfind]
  simp only [List.length_append, List.length_cons]
  omega

theorem byteRcspn_none (h : ∀ x ∈ s, decide (x ∈ c) = false) : byteRcspn s c = s.length := by
  rw [byteRcspn, List.findIdx?_eq_none_iff.mpr fun x hx => h x (List.mem_reverse.mp hx)]

/-- No byte is a delimiter, or there is a last one. -/
theorem last_delimiter (s c : Bytes) :
    (∀ x ∈ s, decide (x ∈ c) = false) ∨
      ∃ u d t, s = u ++ d :: t ∧ decide (d ∈ c) = true ∧ ∀ x ∈ t, decide (x ∈ c) = false := by
  induction s using List.reverseRecOn with
  | nil => exact .inl (by simp)
  | append_singleton s x ih =>
      by_cases hx : decide (x ∈ c) = true
      · exact .inr ⟨s, x, [], rfl, hx, by simp⟩
      · have hx' : decide (x ∈ c) = false := Bool.eq_false_iff.mpr hx
        rcases ih with hno | ⟨u, d, t, rfl, hd, ht⟩
        · refine .inl fun y hy => ?_
          rcases List.mem_append.mp hy with hy | hy
          · exact hno y hy
          · rwa [List.mem_singleton.mp hy]
        · refine .inr ⟨u, d, t ++ [x], by simp, hd, fun y hy => ?_⟩
          rcases List.mem_append.mp hy with hy | hy
          · exact ht y hy
          · rwa [List.mem_singleton.mp hy]

theorem byteCspn_append (hu : ∀ x ∈ u, decide (x ∈ c) = false) (hd : decide (d ∈ c) = true) :
    byteCspn (u ++ d :: t) c = u.length := by
  rw [byteCspn, List.findIdx_append, if_neg]
  · simp [List.findIdx_cons, hd]
  · rw [Nat.not_lt]
    exact Nat.le_of_eq (List.findIdx_eq_length_of_false hu).symm

theorem byteCspn_none (h : ∀ x ∈ s, decide (x ∈ c) = false) : byteCspn s c = s.length :=
  List.findIdx_eq_length_of_false h

theorem first_delimiter (s c : Bytes) :
    (∀ x ∈ s, decide (x ∈ c) = false) ∨
      ∃ u d t, s = u ++ d :: t ∧ decide (d ∈ c) = true ∧ ∀ x ∈ u, decide (x ∈ c) = false := by
  induction s with
  | nil => exact .inl (by simp)
  | cons x s ih =>
      by_cases hx : decide (x ∈ c) = true
      · exact .inr ⟨[], x, s, rfl, hx, by simp⟩
      · have hx' : decide (x ∈ c) = false := Bool.eq_false_iff.mpr hx
        rcases ih with hno | ⟨u, d, t, rfl, hd, hu⟩
        · exact .inl (List.forall_mem_cons.mpr ⟨hx', hno⟩)
        · exact .inr ⟨x :: u, d, t, rfl, hd, List.forall_mem_cons.mpr ⟨hx', hu⟩⟩

end

/-! ## The loops -/

/-- The number of parts that a loop has still to find: none if it has no end to come to. -/
def wanted (digits : Int) : Option Nat := if digits < 0 then none else some digits.toNat

theorem wanted_pred {digits : Int} (h0 : digits ≠ 0) (h1 : digits - 1 ≠ 0) :
    (wanted digits = none ∧ wanted (digits - 1) = none) ∨
      ∃ k, wanted digits = some (k + 2) ∧ wanted (digits - 1) = some (k + 1) := by
  by_cases hneg : digits < 0
  · left
    exact ⟨if_pos hneg, if_pos (by omega)⟩
  · right
    refine ⟨digits.toNat - 2, ?_, ?_⟩
    · rw [wanted, if_neg hneg]
      congr 1
      omega
    · rw [wanted, if_neg (by omega)]
      congr 1
      omega

theorem rightmost_concat {n : Nat} {ps : List Bytes} {q : Bytes} :
    rightmost (some (n + 1)) (ps ++ [q]) = rightmost (some n) ps ++ [q] := by
  have hlen : (ps ++ [q]).length - (n + 1) = ps.length - n := by simp
  rw [rightmost, rightmost, hlen, List.drop_append_of_le_length (Nat.sub_le _ _)]

theorem rightmost_ne_nil {n : Nat} {ps : List Bytes} (h : ps ≠ []) :
    rightmost (some (n + 1)) ps ≠ [] := by
  have hpos := List.length_pos_iff.mpr h
  rw [rightmost, ← List.length_pos_iff, List.length_drop]
  omega

/-- **The others keep the right-most parts.** -/
theorem keepBack_parts {sa split : Bytes} {turns pos : Nat} {digits : Int} (hturns : pos < turns)
    (hpos : pos ≤ sa.length) :
    keepBack sa split turns pos digits ≤ pos ∧
      ((sa.take pos).drop (keepBack sa split turns pos digits)).map
          (fun x => if decide (x ∈ split) then 46 else x) =
        [46].intercalate
          (rightmost (wanted digits) ((sa.take pos).splitOnP fun x => decide (x ∈ split))) := by
  induction turns generalizing pos digits with
  | zero => exact absurd hturns (Nat.not_lt_zero _)
  | succ turns ih =>
      rw [keepBack]
      by_cases h0 : digits = 0
      · have hlen : (sa.take pos).drop pos = [] := List.drop_eq_nil_of_le (List.length_take_le _ _)
        rw [if_pos h0, h0, hlen]
        refine ⟨Nat.le_refl _, ?_⟩
        simp [wanted, rightmost]
      · rw [if_neg h0]
        dsimp only
        rcases last_delimiter (sa.take pos) split with hno | ⟨w, d, part, heq, hd, hpart⟩
        · have hlen : (sa.take pos).length = pos := List.length_take_of_le hpos
          have hparts : rightmost (wanted digits) [sa.take pos] = [sa.take pos] := by
            rw [wanted]
            split_ifs with hneg
            · rfl
            · obtain ⟨k, hk⟩ : ∃ k, digits.toNat = k + 1 := ⟨digits.toNat - 1, by omega⟩
              simp [rightmost, hk]
          rw [byteRcspn_none hno, hlen, if_pos (Nat.lt_succ_self _), List.drop_zero,
            map_replace_eq hno, List.splitOnP_eq_singleton hno, hparts, List.intercalate_singleton]
          exact ⟨Nat.zero_le _, rfl⟩
        · have hlen : w.length + (part.length + 1) = pos := by
            rw [← List.length_cons (a := d), ← List.length_append, ← heq]
            exact List.length_take_of_le hpos
          have hsplit := splitOnP_concat (p := fun x => decide (x ∈ split)) (w := w) hd hpart
          rw [heq, byteRcspn_append hd hpart, if_neg (by omega), hsplit]
          by_cases h1 : digits - 1 = 0
          · have hdigits : digits = ((0 : Nat) + 1 : Nat) := by omega
            have hdrop : (w ++ d :: part).drop (w.length + 1) = part := by
              rw [← List.drop_drop, List.drop_left, List.drop_one, List.tail_cons]
            have hnone : rightmost (some 0) (w.splitOnP fun x => decide (x ∈ split)) = [] := by
              rw [rightmost, Nat.sub_zero, List.drop_length]
            rw [if_pos h1, hdrop, map_replace_eq hpart, hdigits]
            refine ⟨by omega, ?_⟩
            rw [show wanted ((0 : Nat) + 1 : Nat) = some (0 + 1) from rfl, rightmost_concat, hnone,
              List.nil_append, List.intercalate_singleton]
          · have htake : sa.take w.length = w := by
              have := congrArg (List.take w.length) heq
              rwa [List.take_take, Nat.min_eq_left (by omega), List.take_left] at this
            obtain ⟨hle, hih⟩ := @ih w.length (digits - 1) (by omega) (by omega)
            rw [htake] at hih
            rw [if_neg h1, Nat.add_sub_cancel, List.drop_append_of_le_length hle, List.map_append,
              hih, List.map_cons, if_pos hd, map_replace_eq hpart]
            refine ⟨by omega, ?_⟩
            have hne := List.splitOnP_ne_nil (fun x => decide (x ∈ split)) w
            rcases wanted_pred h0 h1 with ⟨hw, hw'⟩ | ⟨k, hw, hw'⟩
            · rw [hw, hw', rightmost, rightmost, intercalate_concat hne]
              simp
            · rw [hw, hw', rightmost_concat, intercalate_concat (rightmost_ne_nil hne)]
              simp

/-- The parts from the last to the first. -/
theorem emit_parts {sa split : Bytes} {turns pos : Nat} (hturns : pos < turns)
    (hpos : pos ≤ sa.length) :
    emit sa split turns pos =
      [46].intercalate ((sa.take pos).splitOnP fun x => decide (x ∈ split)).reverse := by
  induction turns generalizing pos with
  | zero => exact absurd hturns (Nat.not_lt_zero _)
  | succ turns ih =>
      rw [emit]
      by_cases h0 : pos = 0
      · rw [if_pos h0, h0]
        simp
      · rw [if_neg h0]
        dsimp only
        have hlen : (sa.take pos).length = pos := List.length_take_of_le hpos
        rcases last_delimiter (sa.take pos) split with hno | ⟨w, d, part, heq, hd, hpart⟩
        · have hnil : emit sa split turns (0 - 1) = [] := by
            cases turns <;> simp [emit]
          rw [byteRcspn_none hno, hlen, if_pos (Nat.lt_succ_self _), if_neg (Nat.lt_irrefl 0), hnil,
            List.splitOnP_eq_singleton hno, List.reverse_singleton, List.intercalate_singleton]
          simp
        · have hwlen : w.length + (part.length + 1) = pos := by
            rw [← List.length_cons (a := d), ← List.length_append, ← heq, hlen]
          have hsplit := splitOnP_concat (p := fun x => decide (x ∈ split)) (w := w) hd hpart
          have hne := List.splitOnP_ne_nil (fun x => decide (x ∈ split)) w
          have hdrop : (w ++ d :: part).drop (w.length + 1) = part := by
            rw [← List.drop_drop, List.drop_left, List.drop_one, List.tail_cons]
          have htake : sa.take w.length = w := by
            have := congrArg (List.take w.length) heq
            rwa [List.take_take, Nat.min_eq_left (by omega), List.take_left] at this
          rw [heq, byteRcspn_append hd hpart, if_neg (by omega), hsplit,
            intercalate_reverse_concat hne, if_pos (Nat.succ_pos _), hdrop, Nat.add_sub_cancel,
            ih (by omega) (by omega), htake]
          simp

/-- The first parts. -/
def leftmost (n : Option Nat) (ps : List Bytes) : List Bytes :=
  match n with
  | none => ps
  | some n => ps.take n

theorem rightmost_reverse (n : Option Nat) (ps : List Bytes) :
    rightmost n ps.reverse = (leftmost n ps).reverse := by
  cases n with
  | none => rfl
  | some n => rw [rightmost, leftmost, List.length_reverse, ← List.reverse_take]

theorem leftmost_singleton {digits : Int} (h : digits ≠ 0) (q : Bytes) :
    leftmost (wanted digits) [q] = [q] := by
  rw [wanted]
  split_ifs with hneg
  · rfl
  · obtain ⟨k, hk⟩ : ∃ k, digits.toNat = k + 1 := ⟨digits.toNat - 1, by omega⟩
    rw [hk, leftmost, List.take_succ_cons, List.take_nil]

/-- The position behind the first parts. -/
theorem keepFront_parts {sa split : Bytes} {turns pos : Nat} {digits : Int}
    (hturns : sa.length - pos < turns) (hpos : pos ≤ sa.length) (h0 : digits ≠ 0) :
    pos ≤ keepFront sa split turns pos digits ∧
      keepFront sa split turns pos digits ≤ sa.length ∧
      ((sa.take (keepFront sa split turns pos digits)).drop pos).splitOnP
          (fun x => decide (x ∈ split)) =
        leftmost (wanted digits) ((sa.drop pos).splitOnP fun x => decide (x ∈ split)) := by
  induction turns generalizing pos digits with
  | zero => exact absurd hturns (Nat.not_lt_zero _)
  | succ turns ih =>
      rw [keepFront, if_neg h0]
      dsimp only
      rcases first_delimiter (sa.drop pos) split with hno | ⟨u, d, t, heq, hd, hu⟩
      · have hlen : pos + byteCspn (sa.drop pos) split = sa.length := by
          rw [byteCspn_none hno, List.length_drop]
          omega
        rw [hlen, if_pos (Nat.le_refl _), List.take_length, List.splitOnP_eq_singleton hno,
          leftmost_singleton h0]
        exact ⟨hpos, Nat.le_refl _, rfl⟩
      · have hlen : u.length + (t.length + 1) = sa.length - pos := by
          rw [← List.length_cons (a := d), ← List.length_append, ← heq, List.length_drop]
        have hsplit := List.splitOnP_append_cons_of_forall_mem hu d hd t
        have htake : ∀ r, (sa.take r).drop pos = (u ++ d :: t).take (r - pos) := fun r => by
          rw [List.drop_take, heq]
        rw [heq, byteCspn_append hu hd, if_neg (by omega), hsplit, htake]
        by_cases h1 : digits - 1 = 0
        · have hdigits : digits = ((1 : Nat) : Int) := by omega
          rw [if_pos h1, Nat.add_sub_cancel_left, List.take_left, List.splitOnP_eq_singleton hu,
            hdigits]
          exact ⟨by omega, by omega, rfl⟩
        · obtain ⟨hge, hle, hih⟩ := @ih (pos + u.length + 1) (digits - 1) (by omega) (by omega) h1
          have hdrop : sa.drop (pos + u.length + 1) = t := by
            rw [Nat.add_assoc, ← List.drop_drop, heq, ← List.drop_drop, List.drop_left,
              List.drop_one, List.tail_cons]
          rw [List.drop_take, hdrop] at hih
          obtain ⟨k, hk⟩ : ∃ k, keepFront sa split turns (pos + u.length + 1) (digits - 1) - pos =
              u.length + (k + 1) :=
            ⟨keepFront sa split turns (pos + u.length + 1) (digits - 1) - (pos + u.length + 1),
              by omega⟩
          have hk' : keepFront sa split turns (pos + u.length + 1) (digits - 1) -
              (pos + u.length + 1) = k := by omega
          rw [if_neg h1, hk, List.take_length_add_append, List.take_succ_cons,
            List.splitOnP_append_cons_of_forall_mem hu d hd, ← hk', hih]
          refine ⟨by omega, hle, ?_⟩
          rcases wanted_pred h0 h1 with ⟨hw, hw'⟩ | ⟨j, hw, hw'⟩
          · rw [hw, hw', leftmost, leftmost]
          · rw [hw, hw', leftmost, leftmost, List.take_succ_cons]

/-! ## The values -/

/-- The last `@` of the sender, whose NUL is counted. -/
theorem byteRchr_nul (addr : Bytes) :
    byteRchr (addr ++ [0]) 64 =
        (if 64 ∈ addr then byteRchr addr 64 else addr.length + 1) ∧
      (64 ∈ addr → byteRchr addr 64 < addr.length) := by
  rcases byteRchr_cases addr 64 with ⟨hno, hlen⟩ | ⟨u, t, rfl, ht, hlen⟩
  · have hno' : (64 : Byte) ∉ addr ++ [0] := by
      simp only [List.mem_append, List.mem_singleton]
      exact fun h => h.elim hno (by decide)
    rw [if_neg hno, byteRchr_of_notMem hno']
    exact ⟨by simp, fun h => (hno h).elim⟩
  · have ht' : (64 : Byte) ∉ t ++ [0] := by
      simp only [List.mem_append, List.mem_singleton]
      exact fun h => h.elim ht (by decide)
    rw [hlen, if_pos (by simp), List.append_assoc, List.cons_append, byteRchr_append ht']
    exact ⟨rfl, fun _ => by simp⟩

/-- What the names of the client add up to does not depend on anything but the name that is
remembered. -/
theorem overNames_name (e : Site) (spec : Bytes) {h h' : Held} (r : Result) (ssa : List Bytes)
    (heq : h.sender_fqdn = h'.sender_fqdn) :
    (overNames e spec h r ssa).1.sender_fqdn = (overNames e spec h' r ssa).1.sender_fqdn ∧
      (overNames e spec h r ssa).2 = (overNames e spec h' r ssa).2 := by
  induction ssa generalizing h h' r with
  | nil => exact ⟨heq, rfl⟩
  | cons name ssa ih =>
      rw [overNames, overNames]
      cases e.dns_ip name with
      | DNS_MEM => exact ⟨heq, rfl⟩
      | DNS_SOFT => exact ⟨heq, rfl⟩
      | DNS_HARD => exact ih r heq
      | found ia =>
          dsimp only
          rw [heq]
          exact ih _ rfl

theorem spf_ptr_name (e : Site) (domain_p : Bytes) {h : Held} (hnil : h.sender_fqdn = []) :
    (spf_ptr e h domain_p).1.sender_fqdn =
      (spf_ptr e ⟨[], [], []⟩ domain_p).1.sender_fqdn := by
  have hunknown : ([] : Bytes) ≠ asc "unknown" := by decide
  simp only [spf_ptr, hnil, if_neg hunknown]
  cases e.dns_ptr with
  | DNS_MEM => simp [hnil]
  | DNS_SOFT => simp
  | DNS_HARD => simp [hnil]
  | found ssa =>
      obtain ⟨hname, hresult⟩ := @overNames_name e domain_p h ⟨[], [], []⟩ .SPF_NONE ssa hnil
      simp only [hresult, hname]
      split_ifs <;> simp [hname, hnil]

/-- A letter whose value is not one of those that are kept. -/
theorem load_sa (e : Site) (h : Held) (errormsg domain_p : Bytes) {ch : Byte} (hp : ch ≠ 112)
    (hE : ch ≠ 69) :
    (load e h domain_p ch).sa = (valueOf e errormsg domain_p ch).getD h.sa := by
  obtain ⟨hrchr, hlt⟩ := byteRchr_nul e.addr
  by_cases hl : ch = 108
  · have hload : (load e h domain_p 108).sa =
        if byteRchr (e.addr ++ [0]) 64 < e.addr.length + 1 then
          e.addr.take (byteRchr (e.addr ++ [0]) 64) else asc "postmaster" := rfl
    have hval : (valueOf e errormsg domain_p 108).getD h.sa =
        if 64 ∈ e.addr then e.addr.take (byteRchr e.addr 64) else asc "postmaster" := rfl
    rw [hl, hload, hval, hrchr]
    by_cases hat : 64 ∈ e.addr
    · rw [if_pos hat, if_pos hat, if_pos (Nat.lt_succ_of_lt (hlt hat))]
    · rw [if_neg hat, if_neg hat, if_neg (Nat.lt_irrefl _)]
  by_cases ho : ch = 111
  · have hload : load e h domain_p 111 =
        if e.addr.length + 1 < byteRchr (e.addr ++ [0]) 64 + 1 then h
        else { h with sa := e.addr.drop (byteRchr (e.addr ++ [0]) 64 + 1) } := rfl
    have hval : valueOf e errormsg domain_p 111 =
        if 64 ∈ e.addr then some (e.addr.drop (byteRchr e.addr 64 + 1)) else none := rfl
    rw [ho, hload, hval, hrchr]
    by_cases hat : 64 ∈ e.addr
    · have := hlt hat
      rw [if_pos hat, if_pos hat, if_neg (by omega)]
      rfl
    · rw [if_neg hat, if_neg hat, if_pos (Nat.lt_succ_self _)]
      rfl
  rw [load, valueOf, if_neg hl, if_neg hl]
  by_cases h115 : ch = 115
  · rw [if_pos h115, if_pos h115]
    rfl
  rw [if_neg h115, if_neg h115]
  rw [if_neg ho, if_neg ho]
  by_cases h100 : ch = 100
  · rw [if_pos h100, if_pos h100]
    rfl
  rw [if_neg h100, if_neg h100]
  by_cases h105 : ch = 105
  · rw [if_pos h105, if_pos h105]
    rfl
  rw [if_neg h105, if_neg h105]
  by_cases h116 : ch = 116
  · rw [if_pos h116, if_pos h116]
    rfl
  rw [if_neg h116, if_neg h116]
  rw [if_neg hp, if_neg hp]
  by_cases h118 : ch = 118
  · rw [if_pos h118, if_pos h118]
    rfl
  rw [if_neg h118, if_neg h118]
  by_cases h104 : ch = 104
  · rw [if_pos h104, if_pos h104]
    rfl
  rw [if_neg h104, if_neg h104]
  rw [if_neg hE, if_neg hE]
  by_cases h82 : ch = 82
  · rw [if_pos h82, if_pos h82]
    rfl
  rw [if_neg h82, if_neg h82]
  by_cases h83 : ch = 83
  · rw [if_pos h83, if_pos h83]
    rfl
  rw [if_neg h83, if_neg h83]
  rfl

theorem load_p (e : Site) (h : Held) (domain_p : Bytes) :
    (load e h domain_p 112).sa =
      if h.sender_fqdn = [] then foundName e domain_p else h.sender_fqdn := by
  by_cases hnil : h.sender_fqdn = []
  · have hname := spf_ptr_name e domain_p hnil
    simp [load, hnil, hname, foundName]
  · simp [load, hnil]

theorem Macro.cut_nil (m : Macro) : m.cut [] = [] := by
  have hone : rightmost m.parts [[]] = [[]] ∨ rightmost m.parts [[]] = [] := by
    cases hparts : m.parts with
    | none => exact .inl rfl
    | some n => cases n <;> simp [rightmost]
  rw [Macro.cut]
  rcases hone with h | h <;> simp [h]

/-- What was loaded or found before makes no difference to a macro. -/
structure Settled (e : Site) (errormsg domain_p : Bytes) (h : Held) (m : Macro) : Prop where
  unset : valueOf e errormsg domain_p m.letter = none → m.cut h.sa = []
  name : m.letter = 112 → h.sender_fqdn ≠ [] →
    m.cut h.sender_fqdn = m.cut (foundName e domain_p)
  error : m.letter = 69 →
    m.cut (if h.errormsg = [] then h.sa else h.errormsg) = m.cut errormsg

theorem settled_iff {e : Site} {errormsg domain_p : Bytes} {h : Held} {m : Macro} :
    Settled e errormsg domain_p h m ↔
      m.cut (load e h domain_p m.letter).sa =
        m.cut ((valueOf e errormsg domain_p m.letter).getD []) := by
  by_cases hp : m.letter = 112
  · have hval : valueOf e errormsg domain_p 112 = some (foundName e domain_p) := rfl
    rw [hp, load_p, hval, Option.getD_some]
    constructor
    · intro hs
      split_ifs with hnil
      · rfl
      · exact hs.name hp hnil
    · intro heq
      refine ⟨fun h0 => ?_, fun _ hne => ?_, fun hE => ?_⟩
      · rw [hp, hval] at h0
        cases h0
      · rwa [if_neg hne] at heq
      · rw [hp] at hE
        exact absurd hE (by decide)
  by_cases hE : m.letter = 69
  · have hval : valueOf e errormsg domain_p 69 = some errormsg := rfl
    have hload : (load e h domain_p 69).sa = if h.errormsg = [] then h.sa else h.errormsg := by
      by_cases hnil : h.errormsg = [] <;> simp [load, hnil]
    rw [hE, hload, hval, Option.getD_some]
    constructor
    · intro hs
      exact hs.error hE
    · intro heq
      refine ⟨fun h0 => ?_, fun h0 => (hp h0).elim, fun _ => heq⟩
      rw [hE, hval] at h0
      cases h0
  · rw [load_sa e h errormsg domain_p hp hE]
    constructor
    · intro hs
      cases hval : valueOf e errormsg domain_p m.letter with
      | none => rw [Option.getD_none, Option.getD_none, hs.unset hval, m.cut_nil]
      | some v => rfl
    · intro heq
      refine ⟨fun h0 => ?_, fun h0 => (hp h0).elim, fun h0 => (hE h0).elim⟩
      rwa [h0, Option.getD_none, Option.getD_none, m.cut_nil] at heq

/-! ## Escapes -/

theorem hexdigits_inj : ∀ i < 16, ∀ j < 16, hexdigits.getD i 0 = hexdigits.getD j 0 → i = j := by
  decide

/-- The bytes that are not escaped are not the sign of an escape. -/
theorem urlByte_append_inj {x y : Byte} {s t : Bytes} (h : urlByte x ++ s = urlByte y ++ t) :
    x = y ∧ s = t := by
  have hpercent : urlchr_table.getD (37 : Byte).toNat 1 ≠ 0 := by decide
  have hx16 : x.toNat / 16 < 16 := by
    have := UInt8.toNat_lt x
    omega
  have hy16 : y.toNat / 16 < 16 := by
    have := UInt8.toNat_lt y
    omega
  rw [urlByte, urlByte] at h
  split_ifs at h with hx hy hy
  · simp only [List.cons_append, List.nil_append, List.cons.injEq, true_and] at h
    obtain ⟨hhigh, hlow, hrest⟩ := h
    have h1 := hexdigits_inj _ hx16 _ hy16 hhigh
    have h2 := hexdigits_inj _ (Nat.mod_lt _ (by decide)) _ (Nat.mod_lt _ (by decide)) hlow
    exact ⟨UInt8.toNat_inj.mp (by omega), hrest⟩
  · have hyp : y = 37 := (List.cons.inj h).1.symm
    rw [hyp] at hy
    exact (hy hpercent).elim
  · have hxp : x = 37 := (List.cons.inj h).1
    rw [hxp] at hx
    exact (hx hpercent).elim
  · exact List.cons.inj h

theorem urlencode_inj {a b : Bytes} (h : urlencode a = urlencode b) : a = b := by
  have hne : ∀ x : Byte, urlByte x ≠ [] := fun x => by
    rw [urlByte]
    split_ifs <;> simp
  induction a generalizing b with
  | nil =>
      cases b with
      | nil => rfl
      | cons y b =>
          rw [urlencode, urlencode, List.flatMap_nil, List.flatMap_cons] at h
          exact (hne y (List.append_eq_nil_iff.mp h.symm).1).elim
  | cons x a ih =>
      cases b with
      | nil =>
          rw [urlencode, urlencode, List.flatMap_nil, List.flatMap_cons] at h
          exact (hne x (List.append_eq_nil_iff.mp h).1).elim
      | cons y b =>
          rw [urlencode, urlencode, List.flatMap_cons, List.flatMap_cons] at h
          obtain ⟨rfl, hrest⟩ := urlByte_append_inj h
          rw [ih hrest]

theorem Macro.written_inj {m : Macro} {v w : Bytes} :
    m.written v = m.written w ↔ m.cut v = m.cut w := by
  rw [Macro.written, Macro.written]
  split_ifs with hesc
  · exact ⟨urlencode_inj, congrArg urlencode⟩
  · exact Iff.rfl

/-! ## The digits -/

section
variable {turns d : Nat} {n rest : Bytes} {r : Int × Bytes}

/-- The loop does not end at a digit behind 1000000. -/
theorem digitsLoop_stuck {digits : Int} {x : Byte} (hd : 1000000 ≤ digits) (hx : isDigit x = true) :
    digitsLoop turns digits (x :: rest) = none := by
  induction turns generalizing digits with
  | zero => rfl
  | succ turns ih =>
      have hneg : ¬ digits < 0 := by omega
      rw [digitsLoop, if_pos hx, if_neg hneg]
      dsimp only
      rw [if_pos hd]
      exact ih (by decide)

/-- The loop ends if and only if no digit stands behind 1000000 or more. -/
theorem digitsLoop_some (hn : ∀ x ∈ n, isDigit x = true)
    (hr : ∀ x ∈ rest.head?, isDigit x = false)
    (h : digitsLoop turns (d : Int) (n ++ rest) = some r) :
    (∀ k < n.length, (n.take k).foldl (fun v x => v * 10 + (x.toNat - 48)) d < 1000000) ∧
      r = (((n.foldl (fun v x => v * 10 + (x.toNat - 48)) d : Nat) : Int), rest) := by
  induction n generalizing turns d with
  | nil =>
      refine ⟨fun k hk => absurd hk (Nat.not_lt_zero _), ?_⟩
      cases turns with
      | zero => cases h
      | succ turns =>
          cases rest with
          | nil =>
              cases h
              rfl
          | cons x rest =>
              have hx := hr x rfl
              rw [List.nil_append, digitsLoop, if_neg (by rw [hx]; decide)] at h
              exact (Option.some.inj h).symm
  | cons x n ih =>
      have hx := hn x List.mem_cons_self
      by_cases hd : 1000000 ≤ d
      · rw [List.cons_append, digitsLoop_stuck (by omega) hx] at h
        cases h
      · cases turns with
        | zero => cases h
        | succ turns =>
            have hneg : ¬ (d : Int) < 0 := by omega
            have hsmall : ¬ (1000000 : Int) ≤ d := by omega
            rw [List.cons_append, digitsLoop, if_pos hx, if_neg hneg] at h
            dsimp only at h
            have hcast : (d : Int) * 10 + ((x.toNat - 48 : Nat) : Int) =
                ((d * 10 + (x.toNat - 48) : Nat) : Int) := by omega
            rw [if_neg hsmall, hcast] at h
            obtain ⟨hshort, hres⟩ := ih (fun y hy => hn y (List.mem_cons_of_mem _ hy)) h
            refine ⟨fun k hk => ?_, hres⟩
            cases k with
            | zero => exact Nat.lt_of_not_le hd
            | succ k => exact hshort k (Nat.lt_of_succ_lt_succ hk)

theorem digitsLoop_short (hn : ∀ x ∈ n, isDigit x = true)
    (hr : ∀ x ∈ rest.head?, isDigit x = false) (hturns : n.length < turns)
    (hshort : ∀ k < n.length,
      (n.take k).foldl (fun v x => v * 10 + (x.toNat - 48)) d < 1000000) :
    ∃ r, digitsLoop turns (d : Int) (n ++ rest) = some r := by
  induction n generalizing turns d with
  | nil =>
      obtain ⟨turns, rfl⟩ : ∃ k, turns = k + 1 := ⟨turns - 1, by omega⟩
      cases rest with
      | nil => exact ⟨_, rfl⟩
      | cons x rest =>
          have hx := hr x rfl
          exact ⟨_, by rw [List.nil_append, digitsLoop, if_neg (by rw [hx]; decide)]⟩
  | cons x n ih =>
      obtain ⟨turns, rfl⟩ : ∃ k, turns = k + 1 := ⟨turns - 1, by omega⟩
      have hd : d < 1000000 := hshort 0 (Nat.succ_pos _)
      have hneg : ¬ (d : Int) < 0 := by omega
      have hsmall : ¬ (1000000 : Int) ≤ d := by omega
      rw [List.cons_append, digitsLoop, if_pos (hn x List.mem_cons_self), if_neg hneg]
      dsimp only
      have hcast : (d : Int) * 10 + ((x.toNat - 48 : Nat) : Int) =
          ((d * 10 + (x.toNat - 48) : Nat) : Int) := by omega
      rw [if_neg hsmall, hcast]
      exact ih (fun y hy => hn y (List.mem_cons_of_mem _ hy)) (Nat.lt_of_succ_lt_succ hturns)
        fun k hk => hshort (k + 1) (Nat.succ_lt_succ hk)

end

/-! ## One macro -/

/-- The letters that are found. -/
theorem lettersLoop_eq (reverse : Bool) (spec : Bytes) :
    lettersLoop reverse spec =
      (reverse || decide (114 ∈ spec.takeWhile isLetter), spec.dropWhile isLetter) := by
  induction spec generalizing reverse with
  | nil => simp [lettersLoop]
  | cons x spec ih =>
      rw [lettersLoop]
      by_cases hx : isLetter x = true
      · rw [if_pos hx, ih, List.takeWhile_cons_of_pos hx, List.dropWhile_cons_of_pos hx]
        by_cases hr : x = 114
        · simp [hr]
        · simp [hr, eq_comm]
      · rw [if_neg hx, List.takeWhile_cons_of_neg hx, List.dropWhile_cons_of_neg hx]
        simp

/-- A number that the loop over digits comes to the end of. -/
def Short (number : Bytes) : Prop := ∀ k < number.length, digitsValue (number.take k) < 1000000

/-- What a macro leaves, and the output. -/
def Macro.result (e : Site) (h : Held) (domain_p : Bytes) (m : Macro) (out : Bytes) : Held × Bytes :=
  let h := load e h domain_p m.letter
  ({ h with sa := if m.escaped then m.cut h.sa else h.sa },
    (if m.reversed then out else out.map fun x => if decide (x ∈ m.delimiters) then 46 else x) ++
      m.written h.sa)

/-- A macro that is not reversed: the right-most parts, and the delimiters of the output. -/
theorem forward_parts {m : Macro} {digits : Int} (hdigits : wanted digits = m.parts)
    (hrev : m.reversed = false) (sa out : Bytes) :
    (let expand := out ++ sa.drop (keepBack sa m.delimiters (sa.length + 1) sa.length digits)
      if m.delimiters ≠ [46] then expand.map fun x => if x ∈ m.delimiters then 46 else x
      else expand) =
      (out.map fun x => if decide (x ∈ m.delimiters) then 46 else x) ++ m.cut sa := by
  have hparts := (@keepBack_parts sa m.delimiters (sa.length + 1) sa.length digits
    (Nat.lt_succ_self _) (Nat.le_refl _)).2
  rw [List.take_length, hdigits] at hparts
  have hcut : m.cut sa = (sa.drop (keepBack sa m.delimiters (sa.length + 1) sa.length digits)).map
      fun x => if decide (x ∈ m.delimiters) then 46 else x := by
    rw [hparts, Macro.cut, hrev]
    rfl
  rw [hcut, ← List.map_append]
  dsimp only
  split_ifs with hdot
  · simp only [decide_eq_true_eq]
  · rw [not_not] at hdot
    refine (map_replace_eq_self_iff.mpr fun x _ hx => ?_).symm
    rw [hdot, decide_eq_true_eq, List.mem_singleton] at hx
    exact hx

/-- A reversed one: the first parts, from the last of them. -/
theorem backward_parts {m : Macro} {digits : Int} (hdigits : wanted digits = m.parts)
    (hrev : m.reversed = true) (sa : Bytes) :
    emit sa m.delimiters (sa.length + 1) (keepFront sa m.delimiters (sa.length + 1) 0 digits) =
      m.cut sa := by
  rw [Macro.cut, hrev, if_pos rfl, ← hdigits, rightmost_reverse]
  by_cases h0 : digits = 0
  · have hfront : keepFront sa m.delimiters (sa.length + 1) 0 0 = 0 := by rw [keepFront, if_pos rfl]
    rw [h0, hfront, emit, if_pos rfl]
    simp [wanted, leftmost]
  · obtain ⟨-, hle, hparts⟩ := @keepFront_parts sa m.delimiters (sa.length + 1) 0 digits (by omega)
      (Nat.zero_le _) h0
    rw [List.drop_zero, List.drop_zero] at hparts
    rw [emit_parts (by omega) hle, hparts]

theorem substWith_eq (e : Site) (h : Held) (domain_p out : Bytes) (m : Macro) {digits : Int}
    (hdigits : wanted digits = m.parts) :
    substWith e h out domain_p m.letter m.escaped digits m.reversed m.delimiters =
      m.result e h domain_p out := by
  have hlen : (if m.reversed then out
      else out.map fun x => if decide (x ∈ m.delimiters) then 46 else x).length = out.length := by
    split_ifs
    · rfl
    · rw [List.length_map]
  have hout : (if m.reversed then out ++ emit (load e h domain_p m.letter).sa m.delimiters
        ((load e h domain_p m.letter).sa.length + 1)
        (keepFront (load e h domain_p m.letter).sa m.delimiters
          ((load e h domain_p m.letter).sa.length + 1) 0 digits)
      else
        let expand := out ++ (load e h domain_p m.letter).sa.drop
          (keepBack (load e h domain_p m.letter).sa m.delimiters
            ((load e h domain_p m.letter).sa.length + 1) (load e h domain_p m.letter).sa.length
            digits)
        if m.delimiters ≠ [46] then expand.map fun x => if x ∈ m.delimiters then 46 else x
        else expand) =
      (if m.reversed then out else out.map fun x => if decide (x ∈ m.delimiters) then 46 else x) ++
        m.cut (load e h domain_p m.letter).sa := by
    cases hrev : m.reversed with
    | false => exact forward_parts hdigits hrev _ _
    | true => rw [if_pos rfl, if_pos rfl, backward_parts hdigits hrev]
  rw [substWith, Macro.result]
  dsimp only at hout ⊢
  rw [hout, Macro.written, ← hlen, List.drop_left, List.take_left]
  split_ifs <;> rfl

theorem dropWhile_head (rest : Bytes) : ∀ x ∈ (rest.dropWhile isDigit).head?, isDigit x = false := by
  intro x hx
  have := List.head?_dropWhile_not isDigit rest
  rw [Option.mem_def.mp hx] at this
  simpa using this

/-- The loop over digits, from where it begins. -/
theorem digitsLoop_start {turns : Nat} {x : Byte} (rest : Bytes) (hx : isDigit x = true) :
    digitsLoop turns (-1) (x :: rest) = digitsLoop turns (0 : Nat) (x :: rest) := by
  cases turns with
  | zero => rfl
  | succ turns =>
      rw [digitsLoop, digitsLoop, if_pos hx, if_pos hx]
      rfl

theorem digitsLoop_read {turns : Nat} {rest : Bytes} {r : Int × Bytes}
    (h : digitsLoop turns (-1) rest = some r) :
    Short (rest.takeWhile isDigit) ∧ r.2 = rest.dropWhile isDigit ∧
      wanted r.1 = if rest.takeWhile isDigit = [] then none
        else some (digitsValue (rest.takeWhile isDigit)) := by
  have hrest := List.takeWhile_append_dropWhile (p := isDigit) (l := rest)
  have hn : ∀ x ∈ rest.takeWhile isDigit, isDigit x = true := fun x hx =>
    List.mem_takeWhile_imp hx
  have hr := dropWhile_head rest
  revert hrest hn hr
  generalize rest.takeWhile isDigit = n
  generalize rest.dropWhile isDigit = behind
  rintro rfl hn hr
  cases n with
  | nil =>
      refine ⟨fun k hk => absurd hk (Nat.not_lt_zero _), ?_⟩
      rw [List.nil_append] at h
      cases turns with
      | zero => cases h
      | succ turns =>
          cases behind with
          | nil =>
              cases h
              exact ⟨rfl, rfl⟩
          | cons x behind =>
              have hx := hr x rfl
              rw [digitsLoop, if_neg (by rw [hx]; decide)] at h
              cases h
              exact ⟨rfl, rfl⟩
  | cons x n =>
      rw [List.cons_append, digitsLoop_start _ (hn x List.mem_cons_self), ← List.cons_append] at h
      obtain ⟨hshort, rfl⟩ := digitsLoop_some hn hr h
      refine ⟨hshort, rfl, ?_⟩
      rw [if_neg (List.cons_ne_nil _ _), wanted, if_neg (by omega), Int.toNat_natCast]
      rfl

/-- A text without a letter has no effect; of the others, those with a short number come to an
end. -/
theorem spfsubst_some {e : Site} {turns : Nat} {h : Held} {out body domain_p : Bytes}
    {r : Held × Bytes} (hr : spfsubst e turns h out body domain_p = some r) :
    match Macro.read body with
    | none => r = (h, out)
    | some m => Short m.number ∧ r = m.result e h domain_p out := by
  rw [spfsubst] at hr
  rw [Macro.read]
  cases hbody : (if body.head? = some 120 then body.tail else body) with
  | nil =>
      rw [hbody] at hr
      exact (Option.some.inj hr).symm
  | cons c rest =>
      rw [hbody] at hr
      dsimp only at hr ⊢
      cases hdigits : digitsLoop turns (-1) rest with
      | none =>
          rw [hdigits] at hr
          cases hr
      | some q =>
          obtain ⟨hshort, hbehind, hwanted⟩ := digitsLoop_read hdigits
          refine ⟨hshort, ?_⟩
          rw [hdigits] at hr
          dsimp only at hr
          rw [← Option.some.inj hr, ← substWith_eq e h domain_p out _ hwanted, lettersLoop_eq,
            hbehind]
          simp only [decide_eq_true_eq, Bool.false_or, ne_eq, ite_not]

theorem spfsubst_short (e : Site) {turns : Nat} (h : Held) {out body : Bytes} (domain_p : Bytes)
    (hturns : body.length < turns) (hshort : ∀ m, Macro.read body = some m → Short m.number) :
    ∃ r, spfsubst e turns h out body domain_p = some r := by
  rw [spfsubst]
  rw [Macro.read] at hshort
  cases hbody : (if body.head? = some 120 then body.tail else body) with
  | nil => exact ⟨_, rfl⟩
  | cons c rest =>
      rw [hbody] at hshort
      have hlen : rest.length < body.length := by
        have := congrArg List.length hbody
        split_ifs at this
        · rw [List.length_tail, List.length_cons] at this
          omega
        · rw [List.length_cons] at this
          omega
      have hn := hshort _ rfl
      have hrest := List.takeWhile_append_dropWhile (p := isDigit) (l := rest)
      have hdigit : ∀ x ∈ rest.takeWhile isDigit, isDigit x = true := fun x hx =>
        List.mem_takeWhile_imp hx
      have hle : (rest.takeWhile isDigit).length ≤ rest.length :=
        (List.takeWhile_prefix isDigit).length_le
      have hloop : ∃ q, digitsLoop turns (-1) rest = some q := by
        cases hnil : rest.takeWhile isDigit with
        | nil =>
            obtain ⟨turns, rfl⟩ : ∃ k, turns = k + 1 := ⟨turns - 1, by omega⟩
            rw [hnil, List.nil_append] at hrest
            have hr := dropWhile_head rest
            rw [hrest] at hr
            cases rest with
            | nil => exact ⟨_, rfl⟩
            | cons x rest =>
                have hx := hr x rfl
                exact ⟨_, by rw [digitsLoop, if_neg (by rw [hx]; decide)]⟩
        | cons x n =>
            have hshort' : ∀ k < (rest.takeWhile isDigit).length,
                ((rest.takeWhile isDigit).take k).foldl (fun v x => v * 10 + (x.toNat - 48)) 0 <
                  1000000 := hn
            obtain ⟨q, hq⟩ := @digitsLoop_short turns 0 _ _ hdigit (dropWhile_head rest) (by omega)
              hshort'
            rw [hrest] at hq
            rw [hnil, List.cons_append] at hrest
            refine ⟨q, ?_⟩
            rw [← hrest] at hq ⊢
            rw [digitsLoop_start _ (hdigit x (by rw [hnil]; exact List.mem_cons_self)), hq]
      obtain ⟨q, hq⟩ := hloop
      dsimp only
      rw [hq]
      exact ⟨_, rfl⟩

end IndimailMta.Spf
