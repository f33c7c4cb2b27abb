import IndimailMta.Base

/-!
# Archive rules

`set_archive` looks for the rules that match an address and appends their destinations to
`arch_email`. The rules are in one text, each with a NUL, and two counters go through it: the
pointer to the rule, and a length that the loop counts up once more at the end of each turn. From
the third rule on the pointer is one byte late. The flag of a `!` is never taken back.

`Apart` says when this makes no difference: then what is appended is what the rules give when each
is looked at alone.
-/

namespace IndimailMta.Queue.Archive

open IndimailMta

/-! ## One rule -/

/-- `do_match`: 1 for a match, 0 for none, and errors; the bytes that lie behind `arch_email`, a `Z` that
`stralloc_cat` leaves there and what was in the memory before. -/
structure Conf where
  do_match : Bytes → Bytes → Int
  beyond : Bytes → Bytes

variable (conf : Conf)

/-- The destination with its `%u`, `%d` and `%e`. -/
def expand (addr : Bytes) : Bytes → Bytes
  | [] => []
  | 37 :: c :: rest =>
      if c = 117 then addr.take (byteRchr addr 64) ++ expand addr rest
      else if c = 100 then addr.drop (byteRchr addr 64 + 1) ++ expand addr rest
      else if c = 101 then addr ++ expand addr rest
      else 37 :: expand addr (c :: rest)
  | b :: rest => b :: expand addr rest

/-- What a turn of the loop finds: the text to be appended, the flag of a `!`, and whether the turn
leaves the counters as they are. -/
structure Look where
  tmpe : Option Bytes
  negate : Bool
  stays : Bool
  deriving DecidableEq, Repr

/-- The address field of a rule, and its destination. -/
def found (addr : Bytes) (negate : Bool) (field : Bytes) : Look :=
  match field.dropWhile (· ≠ 58) with
  | [] => ⟨none, negate, false⟩
  | _ :: dest =>
      let pattern := field.takeWhile (· ≠ 58)
      let matched := pattern = [] ∨ conf.do_match addr pattern = if negate then 0 else 1
      ⟨if dest ≠ [] ∧ matched then some (84 :: expand addr dest) else none, negate, false⟩

def look (type : Byte) (addr : Bytes) (negate : Bool) (rule : Bytes) : Look :=
  let c := rule.headD 0
  if (c = 58 ∨ c = 42) ∧ type = 70 ∨ (c = 70 ∨ c = 84) ∧ c ≠ type then ⟨none, negate, false⟩
  else
    match rule.dropWhile (· ≠ 58) with
    | [] => ⟨none, negate, false⟩
    | _ :: field =>
        if field.headD 0 = 33 then
          -- a `continue` in front of the line that moves the pointer
          if field.tail.headD 0 = 58 then ⟨none, true, true⟩
          else found conf addr true field.tail
        else found conf addr negate field

/-! ## The loop -/

/-- Is the text among those from a pointer into `arch_email` on? -/
def listed : Nat → Bytes → Bytes → Bool
  | 0, _, _ => false
  | fuel + 1, ptr, tmpe =>
      if ptr.headD 0 = 0 then false
      else if tmpe.isPrefixOf ptr then true
      else listed fuel (ptr.drop ((cstr ptr).length + 1)) tmpe

/-- A text among those in the bytes `mem`. -/
def among (mem text : Bytes) : Bool := listed (mem.length + 1) mem (text ++ [0])

/-- Append, if it is not there. -/
def append (arch_email tmpe : Bytes) : Bytes :=
  let mem := arch_email ++ conf.beyond arch_email
  if arch_email ≠ [] ∧ listed (mem.length + 1) mem (tmpe ++ [0]) then arch_email
  else arch_email ++ (tmpe ++ [0])

structure St where
  len : Nat
  rule_ptr : Nat
  negate : Bool
  arch_email : Bytes
  deriving DecidableEq, Repr

/-- The body of the loop. -/
def body (type : Byte) (addr ar_rules : Bytes) (st : St) : St :=
  let rule := cstr (ar_rules.drop st.rule_ptr)
  let l := look conf type addr st.negate rule
  if l.stays then { st with negate := l.negate }
  else
    let len := st.len + (rule.length + 1)
    ⟨len, len, l.negate, l.tmpe.elim st.arch_email (append conf st.arch_email)⟩

/-- The loop. Its length grows with each turn. -/
def scan (type : Byte) (addr ar_rules : Bytes) : Nat → St → St
  | 0, st => st
  | fuel + 1, st =>
      if st.len < ar_rules.length then
        let st := body conf type addr ar_rules st
        scan type addr ar_rules fuel { st with len := st.len + 1 }
      else st

def set_archive (ar_rules arch_email eaddr : Bytes) : Bytes :=
  (scan conf (eaddr.headD 0) eaddr.tail ar_rules ar_rules.length
    ⟨0, 0, false, arch_email⟩).arch_email

/-! ## Rules that stand apart -/

variable (type : Byte) (addr : Bytes)

/-- What is appended for a rule alone. -/
def alone (rule : Bytes) : Option Bytes := (look conf type addr false rule).tmpe

/-- The rules from the third on, each with the text that is read for it: a rule without its first
byte. Behind an empty rule, which is passed over, a rule is read from its first byte. -/
def late : List Bytes → List (Bytes × Bytes)
  | [] => []
  | [[]] => []
  | [] :: r :: rules => (r, r) :: late rules
  | (b :: r) :: rules => (b :: r, r) :: late rules

/-- The rules, each with the text that is read for it. -/
def reads : List Bytes → List (Bytes × Bytes)
  | [] => []
  | [r] => [(r, r)]
  | r₁ :: r₂ :: rules => (r₁, r₁) :: (r₂, r₂) :: late rules

/-- Rules that are looked at as if each was alone. -/
structure Apart (rules : List Bytes) : Prop where
  own : ∀ p ∈ reads rules, alone conf type addr p.2 = alone conf type addr p.1
  plain : (reads rules).Pairwise fun p q =>
    (look conf type addr false p.2).negate = true →
      (look conf type addr true q.2).tmpe = (look conf type addr false q.2).tmpe
  bare : (reads rules).Pairwise fun p q =>
    (look conf type addr false p.2).stays = true → alone conf type addr q.1 = none

variable {conf type addr} {rules : List Bytes} {st : St}

/-! ## One turn -/

theorem look_nil (negate : Bool) : look conf type addr negate [] = ⟨none, negate, false⟩ := by
  simp [look]

theorem found_flags (negate : Bool) (field : Bytes) :
    (found conf addr negate field).stays = false ∧
      (found conf addr negate field).negate = negate := by
  rw [found]
  split <;> exact ⟨rfl, rfl⟩

/-- The flag plays no role for the counters, and is not taken back. -/
theorem look_flags (negate : Bool) (rule : Bytes) :
    (look conf type addr negate rule).stays = (look conf type addr false rule).stays ∧
      (look conf type addr negate rule).negate =
        (negate || (look conf type addr false rule).negate) := by
  rw [look, look]
  split
  · simp
  · split
    · simp
    · split
      · split
        · simp
        · simp [found_flags]
      · simp [found_flags]

/-- A turn that leaves the counters finds nothing. -/
theorem look_stays {negate : Bool} {rule : Bytes}
    (h : (look conf type addr negate rule).stays = true) :
    (look conf type addr negate rule).tmpe = none := by
  rw [look] at h ⊢
  split
  · rfl
  · rename_i hskip
    rw [if_neg hskip] at h
    split
    · rfl
    · split
      · split
        · rfl
        · simp_all [found_flags]
      · simp_all [found_flags]

/-- The texts from a list, one after another. -/
def run (conf : Conf) (type : Byte) (addr : Bytes) : Bool → Bytes → List Bytes → Bytes
  | _, arch_email, [] => arch_email
  | negate, arch_email, t :: ts =>
      let l := look conf type addr negate t
      if l.stays then arch_email
      else run conf type addr l.negate (l.tmpe.elim arch_email (append conf arch_email)) ts

theorem scan_stop {ar_rules : Bytes} (fuel : Nat) (h : ar_rules.length ≤ st.len) :
    scan conf type addr ar_rules fuel st = st := by
  cases fuel with
  | zero => rfl
  | succ fuel => rw [scan, if_neg (Nat.not_lt_of_le h)]

/-- A turn that leaves the counters as they are is repeated to the end. -/
theorem scan_stays {ar_rules : Bytes} (fuel : Nat)
    (h : (look conf type addr false (cstr (ar_rules.drop st.rule_ptr))).stays = true) :
    (scan conf type addr ar_rules fuel st).arch_email = st.arch_email := by
  induction fuel generalizing st with
  | zero => rfl
  | succ fuel ih =>
      rw [scan]
      split
      · have hbody : body conf type addr ar_rules st =
            { st with
              negate :=
                (look conf type addr st.negate (cstr (ar_rules.drop st.rule_ptr))).negate } := by
          rw [body]
          simp only
          rw [if_pos ((look_flags _ _).1.trans h)]
        simp only [hbody]
        rw [ih]
        exact h
      · rfl

/-! ## The pointer -/

/-- A turn at a rule. -/
theorem body_eq {ar_rules pre rest r : Bytes} (hr : 0 ∉ r) (h : ar_rules = pre ++ (r ++ 0 :: rest))
    (hptr : st.rule_ptr = pre.length)
    (hgo : (look conf type addr st.negate r).stays = false) :
    body conf type addr ar_rules st =
      ⟨st.len + (r.length + 1), st.len + (r.length + 1), (look conf type addr st.negate r).negate,
        (look conf type addr st.negate r).tmpe.elim st.arch_email (append conf st.arch_email)⟩ := by
  have hrule : cstr (ar_rules.drop st.rule_ptr) = r := by
    rw [h, hptr, List.drop_left, cstr_append rest hr]
  rw [body]
  simp only
  rw [hrule, if_neg (by rw [hgo]; exact Bool.false_ne_true)]

/-- **From the second rule on**: the pointer stands at a text, the length one byte behind it, and
the next text is read one byte late. -/
theorem scan_late {ar_rules : Bytes} (fuel : Nat) :
    ∀ {rules : List Bytes} {pre r : Bytes} {st : St},
      ar_rules = pre ++ nuls (r :: rules) → 0 ∉ r → (∀ q ∈ rules, 0 ∉ q) →
      st.rule_ptr = pre.length → st.len = pre.length + 1 → (nuls (r :: rules)).length ≤ fuel →
      (scan conf type addr ar_rules fuel st).arch_email =
        run conf type addr st.negate st.arch_email (r :: (late rules).map fun p => p.2) := by
  induction fuel with
  | zero =>
      intro rules pre r st _ _ _ _ _ hfuel
      simp at hfuel
  | succ fuel ih =>
      intro rules pre r st h hr h0 hptr hlen hfuel
      have htotal : ar_rules.length = pre.length + (r.length + 1 + (nuls rules).length) := by
        rw [h, nuls_cons]
        simp only [List.length_append, List.length_cons]
        omega
      rw [nuls_cons, List.length_append, List.length_cons] at hfuel
      rw [nuls_cons] at h
      have hrule : cstr (ar_rules.drop st.rule_ptr) = r := by
        rw [h, hptr, List.drop_left, cstr_append _ hr]
      rw [run]
      by_cases hstays : (look conf type addr st.negate r).stays = true
      · -- the counters stay: nothing else is looked at
        rw [if_pos hstays]
        apply scan_stays
        rw [hrule, ← (look_flags st.negate r).1, hstays]
      rw [if_neg hstays]
      rw [Bool.not_eq_true] at hstays
      by_cases hin : st.len < ar_rules.length
      · rw [scan, if_pos hin, body_eq hr h hptr hstays]
        simp only
        rcases rules with _ | ⟨s, rules⟩
        · -- the last one
          rw [scan_stop _ (by simp only [htotal, hlen, nuls_nil, List.length_nil]; omega)]
          rfl
        rw [List.forall_mem_cons] at h0
        cases s with
        | cons b s =>
            -- the next rule is read without its first byte
            have h0s := h0.1
            rw [List.mem_cons, not_or] at h0s
            rw [@ih rules (pre ++ (r ++ [0, b])) s _ _ h0s.2 h0.2 _ _ _]
            · rfl
            · rw [h]
              simp
            · simp only [hlen, List.length_append, List.length_cons, List.length_nil]
              omega
            · simp only [hlen, List.length_append, List.length_cons, List.length_nil]
              omega
            · simp only [nuls_cons, List.length_append, List.length_cons] at hfuel ⊢
              omega
        | nil =>
            -- an empty one is passed over
            rcases rules with _ | ⟨s, rules⟩
            · rw [scan_stop _ (by
                simp only [htotal, hlen, nuls_cons, nuls_nil, List.length_append, List.length_cons,
                  List.length_nil]
                omega)]
              rfl
            rw [List.forall_mem_cons] at h0
            rw [@ih rules (pre ++ (r ++ [0, 0])) s _ _ h0.2.1 h0.2.2 _ _ _]
            · rfl
            · rw [h]
              simp
            · simp only [hlen, List.length_append, List.length_cons, List.length_nil]
              omega
            · simp only [hlen, List.length_append, List.length_cons, List.length_nil]
              omega
            · simp only [nuls_cons, List.length_append, List.length_cons,
                List.length_nil] at hfuel ⊢
              omega
      · -- an empty text at the end
        have hr0 : r = [] := List.length_eq_zero_iff.mp (by omega)
        have hrules : rules = [] := by
          cases rules with
          | nil => rfl
          | cons s rules =>
              rw [nuls_cons, List.length_append, List.length_cons] at htotal
              omega
        rw [scan, if_neg hin, hr0, hrules, look_nil]
        rfl

/-- The loop reads the texts. -/
theorem scan_reads (h0 : ∀ r ∈ rules, 0 ∉ r) (arch_email : Bytes) :
    (scan conf type addr (nuls rules) (nuls rules).length ⟨0, 0, false, arch_email⟩).arch_email =
      run conf type addr false arch_email ((reads rules).map fun p => p.2) := by
  rcases rules with _ | ⟨r, rules⟩
  · rfl
  rw [List.forall_mem_cons] at h0
  have h : nuls (r :: rules) = [] ++ (r ++ 0 :: nuls rules) := nuls_cons r rules
  have hrule : cstr (nuls (r :: rules)) = r := by
    rw [h, List.nil_append, cstr_append _ h0.1]
  have hlen : (nuls (r :: rules)).length = (r.length + (nuls rules).length) + 1 := by
    rw [nuls_cons, List.length_append, List.length_cons]
    omega
  have hfirst : ∃ ps, reads (r :: rules) = (r, r) :: ps := by
    cases rules with
    | nil => exact ⟨[], rfl⟩
    | cons s rules => exact ⟨_, rfl⟩
  obtain ⟨ps, hps⟩ := hfirst
  by_cases hstays : (look conf type addr false r).stays = true
  · rw [hps, List.map_cons, run]
    simp only
    rw [if_pos hstays]
    apply scan_stays
    rw [List.drop_zero, hrule, hstays]
  have hgo := hstays
  rw [Bool.not_eq_true] at hgo
  rw [hlen, scan, if_pos (by rw [hlen]; exact Nat.succ_pos _), body_eq h0.1 h rfl hgo, hps,
    List.map_cons, run]
  simp only
  rw [if_neg hstays]
  rcases rules with _ | ⟨s, rules⟩
  · rw [scan_stop _ (by simp only [hlen, nuls_nil, List.length_nil]; omega)]
    obtain ⟨-, rfl⟩ := List.cons.inj hps
    rfl
  obtain ⟨-, rfl⟩ := List.cons.inj hps
  rw [List.forall_mem_cons] at h0
  rw [@scan_late conf type addr _ _ rules (r ++ [0]) s _ _ h0.2.1 h0.2.2 _ _ _]
  · rfl
  · rw [nuls_cons]
    simp
  · simp only [List.length_append, List.length_cons, List.length_nil]
    omega
  · simp only [List.length_append, List.length_cons, List.length_nil]
    omega
  · omega

/-! ## Each rule alone -/

/-- Rules that stand apart are looked at as if each was alone. -/
theorem run_alone {ps : List (Bytes × Bytes)} (negate : Bool) (arch_email : Bytes)
    (hown : ∀ p ∈ ps, alone conf type addr p.2 = alone conf type addr p.1)
    (hplain : ps.Pairwise fun p q => (look conf type addr false p.2).negate = true →
      (look conf type addr true q.2).tmpe = (look conf type addr false q.2).tmpe)
    (hbare : ps.Pairwise fun p q => (look conf type addr false p.2).stays = true →
      alone conf type addr q.1 = none)
    (hnegate : negate = true →
      ∀ q ∈ ps, (look conf type addr true q.2).tmpe = (look conf type addr false q.2).tmpe) :
    run conf type addr negate arch_email (ps.map fun p => p.2) =
      (ps.filterMap fun p => alone conf type addr p.1).foldl (append conf) arch_email := by
  induction ps generalizing negate arch_email with
  | nil => rfl
  | cons p ps ih =>
      rw [List.forall_mem_cons] at hown
      rw [List.pairwise_cons] at hplain hbare
      obtain ⟨hstays, hflag⟩ := @look_flags conf type addr negate p.2
      have htmpe : (look conf type addr negate p.2).tmpe = alone conf type addr p.1 := by
        rw [← hown.1, alone]
        -- a flag left by an earlier rule makes no difference here
        cases negate with
        | false => rfl
        | true => exact hnegate rfl p List.mem_cons_self
      rw [List.map_cons, run]
      rw [htmpe, hflag, hstays]
      by_cases hs : (look conf type addr false p.2).stays = true
      · have hnone : alone conf type addr p.1 = none := by
          rw [← hown.1]
          exact look_stays hs
        have hrest : (ps.filterMap fun p => alone conf type addr p.1) = [] :=
          List.filterMap_eq_nil_iff.mpr fun q hq => hbare.1 q hq hs
        rw [if_pos hs, List.filterMap_cons, hnone, hrest]
        rfl
      · rw [if_neg hs, ih _ _ hown.2 hplain.2 hbare.2]
        · rw [List.filterMap_cons]
          cases alone conf type addr p.1 with
          | none => rfl
          | some t => rfl
        · intro hn q hq
          rcases Bool.or_eq_true_iff.mp hn with hn | hn
          · exact hnegate hn q (List.mem_cons_of_mem _ hq)
          · exact hplain.1 q hq hn

/-- The rules that are passed over give nothing. -/
theorem reads_alone (rules : List Bytes) :
    ((reads rules).filterMap fun p => alone conf type addr p.1) =
      rules.filterMap (alone conf type addr) := by
  have hnil : alone conf type addr [] = none := by
    rw [alone, look_nil]
  have hlate : ∀ rs : List Bytes, ((late rs).filterMap fun p => alone conf type addr p.1) =
      rs.filterMap (alone conf type addr) := by
    intro rs
    induction rs using late.induct with
    | case1 => rfl
    | case2 => simp [late, hnil]
    | case3 r rs ih => simp [late, hnil, ih, List.filterMap_cons]
    | case4 b r rs ih => simp [late, ih, List.filterMap_cons]
  rcases rules with _ | ⟨r₁, _ | ⟨r₂, rules⟩⟩
  · rfl
  · rfl
  · simp [reads, List.filterMap_cons, hlate]

/-! ## The texts that are appended -/

theorem notMem_expand {dest : Bytes} (ha : 0 ∉ addr) (hd : 0 ∉ dest) : 0 ∉ expand addr dest := by
  have htake : ∀ n, 0 ∉ addr.take n := fun n h => ha (List.mem_of_mem_take h)
  have hdrop : ∀ n, 0 ∉ addr.drop n := fun n h => ha (List.mem_of_mem_drop h)
  induction dest using expand.induct with
  | case1 => simp [expand]
  | case2 rest ih => simp_all [expand]
  | case3 rest _ ih => simp_all [expand]
  | case4 rest _ _ ih => simp_all [expand]
  | case5 c rest _ _ _ ih => simp_all [expand]
  | case6 b rest h ih => simp_all [expand]

/-- What is appended for a rule is a text. -/
theorem alone_text {rule t : Bytes} (ha : 0 ∉ addr) (hr : 0 ∉ rule)
    (h : alone conf type addr rule = some t) : t ≠ [] ∧ 0 ∉ t := by
  have hdrop : ∀ {s : Bytes} {c : Byte} {dest : Bytes}, 0 ∉ s →
      s.dropWhile (· ≠ 58) = c :: dest → 0 ∉ dest := by
    intro s c dest hs hd hmem
    have hmem' : (0 : Byte) ∈ s.dropWhile (· ≠ 58) := hd ▸ List.mem_cons_of_mem c hmem
    exact hs ((List.dropWhile_sublist _).mem hmem')
  have hfound : ∀ {negate : Bool} {field : Bytes}, 0 ∉ field →
      (found conf addr negate field).tmpe = some t → t ≠ [] ∧ 0 ∉ t := by
    intro negate field hf hsome
    rw [found] at hsome
    split at hsome
    · cases hsome
    · rename_i dest hd
      rw [Option.ite_none_right_eq_some] at hsome
      obtain rfl := Option.some.inj hsome.2
      refine ⟨List.cons_ne_nil _ _, ?_⟩
      rw [List.mem_cons, not_or]
      exact ⟨by decide, notMem_expand ha (hdrop hf hd)⟩
  rw [alone, look] at h
  split at h
  · cases h
  · split at h
    · cases h
    · rename_i field hd
      have hf := hdrop hr hd
      split at h
      · split at h
        · cases h
        · exact hfound (fun hm => hf (List.mem_of_mem_tail hm)) h
      · exact hfound hf h

/-- Longer fuel finds nothing more. -/
theorem listed_fuel {tmpe ptr : Bytes} {fuel fuel' : Nat} (hfuel : ptr.length < fuel)
    (hfuel' : ptr.length < fuel') : listed fuel ptr tmpe = listed fuel' ptr tmpe := by
  induction fuel generalizing fuel' ptr with
  | zero => exact absurd hfuel (Nat.not_lt_zero _)
  | succ fuel ih =>
      obtain ⟨fuel', rfl⟩ := Nat.exists_eq_succ_of_ne_zero (Nat.ne_zero_of_lt hfuel')
      rw [listed, listed]
      cases ptr with
      | nil => rfl
      | cons b ptr =>
          have hshort : ((b :: ptr).drop ((cstr (b :: ptr)).length + 1)).length ≤ ptr.length := by
            rw [List.length_drop, List.length_cons]
            omega
          rw [List.length_cons] at hfuel hfuel'
          rw [@ih _ fuel' (by omega) (by omega)]

theorem listed_iff {entries : List Bytes} {t mem : Bytes} (ht : 0 ∉ t)
    (he : ∀ e ∈ entries, e ≠ [] ∧ 0 ∉ e) {fuel : Nat} (hfuel : (nuls entries ++ mem).length < fuel) :
    listed fuel (nuls entries ++ mem) (t ++ [0]) = true ↔ t ∈ entries ∨ among mem t = true := by
  induction entries generalizing fuel with
  | nil =>
      -- the loop goes on behind the end
      rw [nuls_nil, List.nil_append] at hfuel ⊢
      rw [listed_fuel hfuel (Nat.lt_succ_self _), among]
      simp
  | cons e entries ih =>
      obtain ⟨fuel, rfl⟩ := Nat.exists_eq_succ_of_ne_zero (Nat.ne_zero_of_lt hfuel)
      rw [List.forall_mem_cons] at he
      obtain ⟨⟨hne, h0⟩, he⟩ := he
      have hmem' : nuls (e :: entries) ++ mem = e ++ 0 :: (nuls entries ++ mem) := by
        rw [nuls_cons, List.append_assoc]
        rfl
      have hhead : (e ++ 0 :: (nuls entries ++ mem)).headD 0 ≠ 0 := by
        cases e with
        | nil => exact absurd rfl hne
        | cons b e =>
            intro hb
            exact h0 (hb ▸ List.mem_cons_self)
      have hsame : (t ++ [0]).isPrefixOf (e ++ 0 :: (nuls entries ++ mem)) = true ↔ t = e := by
        rw [List.isPrefixOf_iff_prefix]
        constructor
        · rintro ⟨k, hk⟩
          rw [List.append_assoc, List.singleton_append] at hk
          have hc := congrArg cstr hk
          rwa [cstr_append _ ht, cstr_append _ h0] at hc
        · rintro rfl
          exact ⟨nuls entries ++ mem, by simp⟩
      have hshort : (nuls entries ++ mem).length < fuel := by
        rw [hmem', List.length_append, List.length_cons] at hfuel
        omega
      rw [listed, hmem', if_neg hhead, cstr_append _ h0, List.mem_cons]
      split
      · rename_i hp
        simp [hsame.mp hp]
      · rename_i hp
        have hdrop : (e ++ 0 :: (nuls entries ++ mem)).drop (e.length + 1) =
            nuls entries ++ mem := by
          rw [← List.drop_drop, List.drop_left]
          rfl
        rw [hdrop, ih he hshort, or_assoc]
        exact (or_iff_right fun h => hp (hsame.mpr h)).symm

theorem append_nuls {entries : List Bytes} {t : Bytes} (ht : 0 ∉ t)
    (hbeyond : ∀ a, among (conf.beyond a) t = false) (he : ∀ e ∈ entries, e ≠ [] ∧ 0 ∉ e) :
    append conf (nuls entries) t =
      if t ∈ entries then nuls entries else nuls (entries ++ [t]) := by
  have hnew : nuls entries ++ (t ++ [0]) = nuls (entries ++ [t]) := by
    rw [nuls_append, nuls_cons, nuls_nil]
  have hlisted : listed ((nuls entries ++ conf.beyond (nuls entries)).length + 1)
      (nuls entries ++ conf.beyond (nuls entries)) (t ++ [0]) = true ↔ t ∈ entries := by
    rw [listed_iff ht he (Nat.lt_succ_self _), hbeyond]
    simp
  have hne : t ∈ entries → nuls entries ≠ [] := by
    intro hmem hnil
    have hlen := length_le_nuls entries
    rw [hnil, List.length_nil, Nat.le_zero, List.length_eq_zero_iff] at hlen
    rw [hlen] at hmem
    cases hmem
  rw [append, hnew]
  by_cases hmem : t ∈ entries
  · rw [if_pos hmem, if_pos ⟨hne hmem, hlisted.mpr hmem⟩]
  · rw [if_neg hmem, if_neg fun h => hmem (hlisted.mp h.2)]

/-- Texts are appended once, unless they are there. -/
theorem foldl_append {entries ts : List Bytes} (ht : ∀ t ∈ ts, t ≠ [] ∧ 0 ∉ t)
    (hbeyond : ∀ t ∈ ts, ∀ a, among (conf.beyond a) t = false) (he : ∀ e ∈ entries, e ≠ [] ∧ 0 ∉ e) :
    ∃ new, ts.foldl (append conf) (nuls entries) = nuls (entries ++ new) ∧ new.Nodup ∧
      ∀ d, d ∈ new ↔ d ∈ ts ∧ d ∉ entries := by
  induction ts generalizing entries with
  | nil => exact ⟨[], by simp, List.nodup_nil, by simp⟩
  | cons t ts ih =>
      rw [List.forall_mem_cons] at ht hbeyond
      rw [List.foldl_cons, append_nuls ht.1.2 hbeyond.1 he]
      by_cases hmem : t ∈ entries
      · -- it is there, and nothing is appended
        rw [if_pos hmem]
        obtain ⟨new, hnew, hnodup, hiff⟩ := ih ht.2 hbeyond.2 he
        refine ⟨new, hnew, hnodup, fun d => ?_⟩
        rw [hiff, List.mem_cons]
        constructor
        · rintro ⟨hd, hno⟩
          exact ⟨Or.inr hd, hno⟩
        · rintro ⟨rfl | hd, hno⟩
          · exact absurd hmem hno
          · exact ⟨hd, hno⟩
      · rw [if_neg hmem]
        have he' : ∀ e ∈ entries ++ [t], e ≠ [] ∧ 0 ∉ e := by
          intro e h
          rcases List.mem_append.mp h with h | h
          · exact he e h
          · rw [List.mem_singleton.mp h]
            exact ht.1
        obtain ⟨new, hnew, hnodup, hiff⟩ := ih ht.2 hbeyond.2 he'
        refine ⟨t :: new, ?_, ?_, fun d => ?_⟩
        · rw [hnew, List.append_assoc]
          rfl
        · rw [List.nodup_cons]
          exact ⟨fun h => ((hiff t).mp h).2 (by simp), hnodup⟩
        · rw [List.mem_cons, hiff, List.mem_append, List.mem_singleton, List.mem_cons]
          constructor
          · rintro (rfl | ⟨hd, hno⟩)
            · exact ⟨Or.inl rfl, hmem⟩
            · exact ⟨Or.inr hd, fun h => hno (Or.inl h)⟩
          · rintro ⟨rfl | hd, hno⟩
            · exact Or.inl rfl
            · by_cases hdt : d = t
              · exact Or.inl hdt
              · exact Or.inr ⟨hd, not_or.mpr ⟨hno, hdt⟩⟩

/-- **What is appended**, if the rules stand apart and what lies behind `arch_email` repeats none of their
destinations: the texts that the rules give alone, each once, and none that is there. -/
theorem set_archive_apart {entries : List Bytes} (h0 : ∀ r ∈ rules, 0 ∉ r) (ha : 0 ∉ addr)
    (he : ∀ e ∈ entries, e ≠ [] ∧ 0 ∉ e)
    (hbeyond : ∀ t ∈ rules.filterMap (alone conf type addr), ∀ a, among (conf.beyond a) t = false)
    (h : Apart conf type addr rules) :
    ∃ new, set_archive conf (nuls rules) (nuls entries) (type :: addr) = nuls (entries ++ new) ∧
      new.Nodup ∧ ∀ d, d ∈ new ↔ d ∈ rules.filterMap (alone conf type addr) ∧ d ∉ entries := by
  have hts : ∀ t ∈ rules.filterMap (alone conf type addr), t ≠ [] ∧ 0 ∉ t := by
    intro t ht
    obtain ⟨r, hr, hsome⟩ := List.mem_filterMap.mp ht
    exact alone_text ha (h0 r hr) hsome
  obtain ⟨new, hnew, hspec⟩ := foldl_append hts hbeyond he
  refine ⟨new, ?_, hspec⟩
  show (scan conf type addr _ _ _).arch_email = _
  rw [scan_reads h0, run_alone _ _ h.own h.plain h.bare (fun hf => by cases hf), reads_alone, hnew]

/-- Patterns that match themselves; behind `arch_email` is the `Z`, and a text of an earlier use. -/
def exact : Conf :=
  ⟨fun text pattern => if text = pattern then 1 else 0, fun _ => nuls [asc "Zb-arch@c", asc "Told@y"]⟩

/-- Three rules, and a recipient that matches two of them. -/
theorem set_archive_three : ∃ new,
    set_archive exact
        (nuls [asc "T:a@b:x@y", asc "F:a@b:f@y", asc "*:a@b:%u-arch@%d"]) (nuls [asc "Tx@y"])
        (84 :: asc "a@b") = nuls ([asc "Tx@y"] ++ new) ∧
      new.Nodup ∧ ∀ d, d ∈ new ↔
        d ∈ [asc "T:a@b:x@y", asc "F:a@b:f@y", asc "*:a@b:%u-arch@%d"].filterMap
          (alone exact 84 (asc "a@b")) ∧ d ∉ [asc "Tx@y"] := by
  apply set_archive_apart
  · decide +kernel
  · decide +kernel
  · decide +kernel
  · have hapart : ∀ t ∈ [asc "T:a@b:x@y", asc "F:a@b:f@y", asc "*:a@b:%u-arch@%d"].filterMap
        (alone exact 84 (asc "a@b")), among (nuls [asc "Zb-arch@c", asc "Told@y"]) t = false := by
      decide +kernel
    exact fun t ht _ => hapart t ht
  · exact ⟨by decide +kernel, by decide +kernel, by decide +kernel⟩

/-- The third rule for a sender is lost; a rule behind one with `!` is turned round. -/
theorem set_archive_third :
    (set_archive exact (nuls [asc "F:a@b:x", asc "F:c@d:y", asc "F:e@f:z"]) [] (70 :: asc "e@f") =
        [] ∧
      [asc "F:a@b:x", asc "F:c@d:y", asc "F:e@f:z"].filterMap (alone exact 70 (asc "e@f")) =
        [asc "Tz"]) ∧
    set_archive exact (nuls [asc "F:!a@b:x", asc "F:c@d:y"]) [] (70 :: asc "a@b") =
        nuls [asc "Ty"] ∧
      [asc "F:!a@b:x", asc "F:c@d:y"].filterMap (alone exact 70 (asc "a@b")) = [] := by
  decide +kernel

end IndimailMta.Queue.Archive
