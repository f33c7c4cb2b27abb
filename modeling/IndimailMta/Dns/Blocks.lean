import Mathlib.Algebra.GroupWithZero.Nat
import Mathlib.Algebra.Order.BigOperators.Group.List
import Mathlib.Algebra.Order.Group.Nat
import IndimailMta.Dns.Inside
import IndimailMta.Dns.Mxip
import IndimailMta.Ip.RoundTrip

/-!
# Each MX is a block of addresses

The loop of `dns_mxip` takes the MX records out in an order of which nothing is known but that the
preferences go up, and appends one block for each. The error of a block is that of its A lookup, and
only if its AAAA lookup has one too.
-/

namespace IndimailMta.Dns

open IndimailMta Ip SwapRemove

variable {tx : Texts} {net : Bytes → Nat → Net} {glue name : Bytes} {random : UInt64} {mx : List Mx}
  {m x y : Mx} {ia : List IpMx} {s : Pick} {flagsoft : Int} {p j n : Nat}

/-! ## Answers -/

/-- One answer less. -/
theorem find_left {rsp : Response} {f : Nat → State → Answer} {wanttype : Nat} {s : State}
    (hw : Wanted f) (hleft : 0 < s.numanswers) :
    (find rsp f wanttype s).state.numanswers + 1 = s.numanswers := by
  rw [find, if_neg (Nat.ne_of_gt hleft)]
  dsimp only
  split
  · exact Nat.sub_add_cancel hleft
  · split
    · exact Nat.sub_add_cancel hleft
    · split
      · exact Nat.sub_add_cancel hleft
      · split
        · split
          · rw [hw.left]
            exact Nat.sub_add_cancel hleft
          · rw [hw.left]
            exact Nat.sub_add_cancel hleft
        · exact Nat.sub_add_cancel hleft

/-- **The loop is not cut off**: it has a turn for each answer, and more turns change nothing. -/
theorem collect_of_le {α : Type} (k : Find) (rsp : Response) (wanttype : Nat) (item : State → α) :
    ∀ {n : Nat} {s : State}, s.numanswers ≤ n →
      collect (k.run rsp wanttype) item n s = collect (k.run rsp wanttype) item s.numanswers s := by
  rw [Find.run_eq]
  intro n
  induction n with
  | zero =>
      intro s hs
      rw [Nat.le_zero.mp hs]
  | succ n ih =>
      intro s hs
      rcases Nat.eq_zero_or_pos s.numanswers with h0 | hleft
      · rw [h0, collect, collect]
        dsimp only
        rw [find_none_left h0]
        rfl
      · have hnext := @find_left rsp _ wanttype _ (k.wanted_data rsp) hleft
        have hrest := ih (s := (find rsp (k.data rsp) wanttype s).state) (by omega)
        rw [← hnext, collect, collect, hrest]

/-! ## The smallest preference -/

/-- The preference at a place. -/
def prefAt (mx : List Mx) (k : Nat) : Nat := (mx.getD k ⟨[], 0⟩).p

/-- Nothing before `j` is smaller than what was found. -/
def Least (mx : List Mx) (j : Nat) (s : Pick) : Prop :=
  s.i < j ∧ ∀ k < j, prefAt mx s.i ≤ prefAt mx k

theorem Least.step (h : Least mx j s) : Least mx (j + 1) (s.step mx j) := by
  obtain ⟨hi, hmin⟩ := h
  have hnew : prefAt mx j ≤ prefAt mx s.i → ∀ t : Pick, t.i = j → Least mx (j + 1) t := by
    intro hle t ht
    refine ⟨ht ▸ Nat.lt_succ_self j, fun k hk => ?_⟩
    rw [ht]
    rcases Nat.lt_succ_iff_lt_or_eq.mp hk with hk | rfl
    · exact Nat.le_trans hle (hmin k hk)
    · exact Nat.le_refl _
  have hold : prefAt mx s.i ≤ prefAt mx j → ∀ t : Pick, t.i = s.i → Least mx (j + 1) t := by
    intro hle t ht
    refine ⟨ht ▸ Nat.lt_succ_of_lt hi, fun k hk => ?_⟩
    rw [ht]
    rcases Nat.lt_succ_iff_lt_or_eq.mp hk with hk | rfl
    · exact hmin k hk
    · exact hle
  rw [Pick.step]
  split
  · rename_i hlt
    exact hnew (Nat.le_of_lt hlt) _ rfl
  · rename_i hge
    split
    · rename_i heq
      dsimp only
      split
      · exact hnew (Nat.le_of_eq heq) _ rfl
      · exact hold (Nat.le_of_eq heq.symm) _ rfl
    · exact hold (Nat.le_of_not_lt hge) _ rfl

theorem Least.loop (mx : List Mx) (random : UInt64) (n : Nat) :
    Least mx (n + 1) (((List.range n).map (· + 1)).foldl (Pick.step mx) ⟨0, 1, random⟩) := by
  induction n with
  | zero =>
      refine ⟨Nat.zero_lt_one, fun k hk => ?_⟩
      rw [Nat.lt_one_iff.mp hk]
      exact Nat.le_refl _
  | succ n ih =>
      rw [List.range_succ, List.map_append, List.foldl_append]
      exact ih.step

theorem pick_least (h : mx ≠ []) :
    (pick random mx).1 < mx.length ∧
      ∀ k < mx.length, prefAt mx (pick random mx).1 ≤ prefAt mx k := by
  have hloop := Least.loop mx random (mx.length - 1)
  rwa [Nat.sub_add_cancel (List.length_pos_iff.mpr h)] at hloop

theorem pick_min (random : UInt64) (mx : List Mx) (x : Mx) (hx : mx[(pick random mx).1]? = some x) :
    ∀ y ∈ mx, x.p ≤ y.p := by
  intro y hy
  have hne : mx ≠ [] := List.ne_nil_of_mem hy
  obtain ⟨k, hk, rfl⟩ := List.getElem_of_mem hy
  have hle := (@pick_least random mx hne).2 k hk
  rwa [prefAt, prefAt, List.getD_eq_getElem?_getD, List.getD_eq_getElem?_getD, hx,
    List.getElem?_eq_getElem hk] at hle

/-- The order in which the MX records are taken. -/
def visits (random : UInt64) (mx : List Mx) : List Mx := order pick mx.length random mx

theorem visits_perm (random : UInt64) (mx : List Mx) : (visits random mx).Perm mx :=
  order_perm (fun _ _ h => (pick_least h).1) random mx

theorem visits_sorted (random : UInt64) (mx : List Mx) :
    (visits random mx).Pairwise fun x y => x.p ≤ y.p :=
  order_sorted (fun _ _ h => (pick_least h).1) pick_min random mx

/-! ## One name -/

/-- The addresses of a name: itself, or what its two lookups find. -/
def addrs (tx : Texts) (net : Bytes → Nat → Net) (name : Bytes) : List Addr :=
  match literal tx name with
  | some ip => [.ip ip]
  | none => (lookupIp6 net name).1.map .ip6 ++ (lookupIp net name).1.map .ip

/-- The block of a name. -/
def block (tx : Texts) (net : Bytes → Nat → Net) (name : Bytes) (p : Nat) : List IpMx :=
  match literal tx name with
  | some ip => [⟨.ip ip, 0, none⟩]
  | none => (addrs tx net name).map fun a => ⟨a, p, some name⟩

/-- The error of a name. -/
def err (tx : Texts) (net : Bytes → Nat → Net) (name : Bytes) : Int :=
  (dns_ipplus tx net [] name 0).1

theorem dns_ipplus_eq (tx : Texts) (net : Bytes → Nat → Net) (ia : List IpMx) (name : Bytes) (p : Nat) :
    dns_ipplus tx net ia name p = (err tx net name, ia ++ block tx net name p) := by
  rw [err, dns_ipplus, dns_ipplus, block, addrs]
  cases literal tx name with
  | some ip => rfl
  | none => simp [List.append_assoc, Function.comp_def]

/-- The name is an address. -/
def IsLiteral (tx : Texts) (name : Bytes) : Prop := literal tx name ≠ none

/-- One of the two lookups fails for now. -/
def FailsSoft (tx : Texts) (net : Bytes → Nat → Net) (name : Bytes) : Prop :=
  literal tx name = none ∧ ((lookupIp6 net name).2 = dnsSoft ∨ (lookupIp net name).2 = dnsSoft)

/-- The AAAA lookup fails in some way, and the A lookup for now, or for memory. -/
def FailsTwice (tx : Texts) (net : Bytes → Nat → Net) (name : Bytes) : Prop :=
  literal tx name = none ∧ (lookupIp6 net name).2 ≠ 0 ∧
    ((lookupIp net name).2 = dnsMem ∨ (lookupIp net name).2 = dnsSoft)

/-- What is returned for a name that is not an address. -/
theorem err_eq (h : literal tx name = none) :
    err tx net name = if (lookupIp6 net name).2 ≠ 0 then (lookupIp net name).2 else 0 := by
  rw [err, dns_ipplus, h]
  dsimp only
  by_cases h6 : (lookupIp6 net name).2 = 0
  · rw [if_neg fun hn => hn.2 h6, if_neg fun hn => hn h6]
  · rw [if_pos h6]
    by_cases h4 : (lookupIp net name).2 = 0
    · rw [if_neg fun hn => hn.1 h4, h4]
    · rw [if_pos ⟨h4, h6⟩]

theorem err_literal {ip : Bytes} (h : literal tx name = some ip) : err tx net name = 0 := by
  rw [err, dns_ipplus, h]

theorem err_eq_iff {code : Int} (hcode : code ≠ 0) :
    err tx net name = code ↔
      literal tx name = none ∧ (lookupIp6 net name).2 ≠ 0 ∧ (lookupIp net name).2 = code := by
  cases h : literal tx name with
  | some ip =>
      rw [err_literal h]
      exact iff_of_false (Ne.symm hcode) fun hn => nomatch hn.1
  | none =>
      rw [err_eq h]
      by_cases h6 : (lookupIp6 net name).2 = 0
      · rw [if_neg fun hn => hn h6]
        exact iff_of_false (Ne.symm hcode) fun hn => hn.2.1 h6
      · rw [if_pos h6]
        exact ⟨fun h4 => ⟨rfl, h6, h4⟩, fun hn => hn.2.2⟩

theorem err_flags_iff :
    (err tx net name = dnsMem ∨ err tx net name = dnsSoft) ↔ FailsTwice tx net name := by
  rw [err_eq_iff (by decide), err_eq_iff (by decide), FailsTwice]
  constructor
  · rintro (⟨h, h6, h4⟩ | ⟨h, h6, h4⟩)
    · exact ⟨h, h6, .inl h4⟩
    · exact ⟨h, h6, .inr h4⟩
  · rintro ⟨h, h6, h4 | h4⟩
    · exact .inl ⟨h, h6, h4⟩
    · exact .inr ⟨h, h6, h4⟩

/-! ## The loop -/

/-- **The loop goes over the visits**: a block for each, and the flag of those that fail. -/
theorem expand_eq (tx : Texts) (net : Bytes → Nat → Net) :
    ∀ (n : Nat) (random : UInt64) (mx : List Mx) (flagsoft : Int) (ia : List IpMx), mx.length = n →
      (expand tx net n random mx flagsoft ia).2 =
          ia ++ (order pick n random mx).flatMap (fun m => block tx net m.sa m.p) ∧
        ((expand tx net n random mx flagsoft ia).1 ≠ 0 ↔
          flagsoft ≠ 0 ∨ ∃ m ∈ order pick n random mx, FailsTwice tx net m.sa) := by
  intro n
  induction n with
  | zero =>
      intro random mx flagsoft ia _
      simp [expand, order]
  | succ n ih =>
      intro random mx flagsoft ia hn
      obtain ⟨m, hm⟩ := @getElem?_pick _ _ mx pick
        (fun _ _ h => (pick_least h).1) random (List.ne_nil_of_length_eq_add_one hn)
      have hget : mx.getD (pick random mx).1 ⟨[], 0⟩ = m := by
        rw [List.getD_eq_getElem?_getD, hm]
        rfl
      have hlen : (swapRemove mx (pick random mx).1).length = n := by
        rw [length_swapRemove, hn, Nat.add_sub_cancel]
      rw [expand, order, hm]
      dsimp only
      rw [hget, dns_ipplus_eq]
      dsimp only
      obtain ⟨hia, hflag⟩ := ih (pick random mx).2 _
        (if err tx net m.sa = dnsMem ∨ err tx net m.sa = dnsSoft then 1 else flagsoft)
        (ia ++ block tx net m.sa m.p) hlen
      refine ⟨?_, ?_⟩
      · rw [hia, List.flatMap_cons, List.append_assoc]
      · rw [hflag]
        by_cases hm' : FailsTwice tx net m.sa
        · rw [if_pos (err_flags_iff.mpr hm')]
          exact iff_of_true (.inl (by decide)) (.inr ⟨m, List.mem_cons_self, hm'⟩)
        · rw [if_neg fun h => hm' (err_flags_iff.mp h)]
          refine or_congr_right ?_
          simp [hm']

/-! ## The domain -/

/-- The MX records that the domain has, unless the lookup for them fails. -/
def mxAnswer (tx : Texts) (net : Bytes → Nat → Net) (glue : Bytes) : Option (List Mx) :=
  if literal tx glue ≠ none then none
  else if (lookupMx net glue).2 = dnsHard then some []
  else if (lookupMx net glue).2 ≠ 0 then none
  else some (lookupMx net glue).1

theorem dns_mxip_alone (h : mxAnswer tx net glue = some []) :
    literal tx glue = none ∧
      dns_mxip tx net glue random = (err tx net glue, block tx net glue 0) := by
  rw [mxAnswer] at h
  split_ifs at h with hlit hhard hsoft
  · have hnone : literal tx glue = none := not_not.mp hlit
    rw [dns_mxip, hnone]
    dsimp only
    rw [if_pos hhard, dns_ip, dns_ipplus_eq, List.nil_append]
    exact ⟨rfl, rfl⟩
  · have hnone : literal tx glue = none := not_not.mp hlit
    rw [dns_mxip, hnone]
    dsimp only
    rw [if_neg hhard, if_neg hsoft, if_pos (Option.some.inj h), dns_ip, dns_ipplus_eq,
      List.nil_append]
    exact ⟨rfl, rfl⟩

theorem dns_mxip_blocks (h : mxAnswer tx net glue = some mx) (hne : mx ≠ []) :
    (dns_mxip tx net glue random).2 =
        (visits random mx).flatMap (fun m => block tx net m.sa m.p) ∧
      ((dns_mxip tx net glue random).1 ≠ 0 ↔ ∃ m ∈ mx, FailsTwice tx net m.sa) := by
  rw [mxAnswer] at h
  split_ifs at h with hlit hhard hsoft
  · exact absurd (Option.some.inj h).symm hne
  · obtain rfl : (lookupMx net glue).1 = mx := Option.some.inj h
    have hnone : literal tx glue = none := not_not.mp hlit
    rw [dns_mxip, hnone]
    dsimp only
    rw [if_neg hhard, if_neg hsoft, if_neg hne]
    obtain ⟨hia, hflag⟩ := expand_eq tx net _ random (lookupMx net glue).1 0 [] rfl
    refine ⟨by rw [hia, List.nil_append]; rfl, hflag.trans ?_⟩
    simp only [ne_eq, not_true_eq_false, false_or]
    exact exists_congr fun m => and_congr_left fun _ => (visits_perm random _).mem_iff

/-! ## What is asked for -/

/-- An address with its preference. -/
def IpMx.entry (ix : IpMx) : Addr × Nat := (ix.addr, ix.pref)

/-- The addresses of an MX, with its preference. -/
def entries (tx : Texts) (net : Bytes → Nat → Net) (m : Mx) : List (Addr × Nat) :=
  (addrs tx net m.sa).map fun a => (a, m.p)

/-- One of the lookups of the name fails for now, and there is no address. -/
def Barren (tx : Texts) (net : Bytes → Nat → Net) (name : Bytes) : Prop :=
  FailsSoft tx net name ∧ addrs tx net name = []

/-- Each MX is a block of addresses, in order, and a temporary failure does not become a permanent
one. -/
structure Expands (tx : Texts) (net : Bytes → Nat → Net) (glue : Bytes) (random : UInt64) : Prop where
  blocks : ∀ mx, mxAnswer tx net glue = some mx → mx ≠ [] →
    ∃ order : List Mx, order.Perm mx ∧ (order.Pairwise fun x y => x.p ≤ y.p) ∧
      (dns_mxip tx net glue random).2.map IpMx.entry = order.flatMap (entries tx net)
  soft : ∀ mx, mxAnswer tx net glue = some mx → (∃ m ∈ mx, Barren tx net m.sa) →
    (dns_mxip tx net glue random).1 ≠ 0
  alone : mxAnswer tx net glue = some [] → Barren tx net glue →
    (dns_mxip tx net glue random).1 = dnsSoft

/-- No preference is lost, and no error: an MX that is an address has the preference 0, and where a
name without an address fails for now, an A lookup does and the AAAA lookup fails too. -/
structure Merges (tx : Texts) (net : Bytes → Nat → Net) (glue : Bytes) : Prop where
  literals : ∀ mx, mxAnswer tx net glue = some mx → ∀ m ∈ mx, IsLiteral tx m.sa → m.p = 0
  mx : ∀ mx, mxAnswer tx net glue = some mx → (∃ m ∈ mx, Barren tx net m.sa) →
    ∃ m ∈ mx, FailsTwice tx net m.sa
  alone : mxAnswer tx net glue = some [] → Barren tx net glue →
    (lookupIp6 net glue).2 ≠ 0 ∧ (lookupIp net glue).2 = dnsSoft

theorem block_entries (h : IsLiteral tx m.sa → m.p = 0) :
    (block tx net m.sa m.p).map IpMx.entry = entries tx net m := by
  rw [block, entries, addrs]
  cases hlit : literal tx m.sa with
  | some ip =>
      rw [h (by rw [IsLiteral, hlit]; exact Option.some_ne_none ip)]
      rfl
  | none =>
      simp [IpMx.entry, Function.comp_def]

/-- The preferences of a list, added up. -/
def weight (l : List (Addr × Nat)) : Nat := (l.map Prod.snd).sum

theorem weight_flatMap {α : Type} (f : α → List (Addr × Nat)) (l : List α) :
    weight (l.flatMap f) = (l.map fun a => weight (f a)).sum := by
  induction l with
  | nil => rfl
  | cons a l ih =>
      rw [List.flatMap_cons, weight, List.map_append, List.sum_append, List.map_cons, List.sum_cons,
        ← ih]
      rfl

theorem weight_block_le (m : Mx) :
    weight ((block tx net m.sa m.p).map IpMx.entry) ≤ weight (entries tx net m) ∧
      (IsLiteral tx m.sa → m.p ≠ 0 →
        weight ((block tx net m.sa m.p).map IpMx.entry) < weight (entries tx net m)) := by
  cases hlit : literal tx m.sa with
  | none =>
      have hnot : ¬ IsLiteral tx m.sa := not_not.mpr hlit
      rw [block_entries fun h => absurd h hnot]
      exact ⟨Nat.le_refl _, fun h => absurd h hnot⟩
  | some ip =>
      have hblock : weight ((block tx net m.sa m.p).map IpMx.entry) = 0 := by
        rw [block, hlit]
        rfl
      have hentries : weight (entries tx net m) = m.p := by
        rw [entries, addrs, hlit]
        exact Nat.add_zero _
      rw [hblock, hentries]
      exact ⟨Nat.zero_le _, fun _ => Nat.pos_of_ne_zero⟩

/-- The blocks are those that are asked for if no preference is lost. -/
theorem blocks_iff (random : UInt64) (mx : List Mx) :
    (∃ order : List Mx, order.Perm mx ∧ (order.Pairwise fun x y => x.p ≤ y.p) ∧
      ((visits random mx).flatMap fun m => block tx net m.sa m.p).map IpMx.entry =
        order.flatMap (entries tx net)) ↔
    ∀ m ∈ mx, IsLiteral tx m.sa → m.p = 0 := by
  rw [List.map_flatMap]
  constructor
  · rintro ⟨order, hperm, -, heq⟩ m hm hlit
    by_contra hp
    have hlt := List.sum_lt_sum
      (fun m => weight ((block tx net m.sa m.p).map IpMx.entry)) (fun m => weight (entries tx net m))
      (fun m (_ : m ∈ visits random mx) => (weight_block_le m).1)
      ⟨m, (visits_perm random mx).mem_iff.mpr hm, (weight_block_le m).2 hlit hp⟩
    have hsame : ((visits random mx).map fun m => weight (entries tx net m)).sum =
        (order.map fun m => weight (entries tx net m)).sum :=
      (((visits_perm random mx).trans hperm.symm).map _).sum_eq
    rw [hsame, ← weight_flatMap, ← weight_flatMap, heq] at hlt
    exact absurd hlt (Nat.lt_irrefl _)
  · intro h
    refine ⟨visits random mx, visits_perm random mx, visits_sorted random mx, ?_⟩
    refine List.flatMap_congr fun m hm => ?_
    exact block_entries (h m ((visits_perm random mx).mem_iff.mp hm))

/-- **The expansion of a domain** keeps the order of its MX and its temporary failures if and only if
no preference and no error is lost in a name. -/
theorem dns_mxip_expands_iff (tx : Texts) (net : Bytes → Nat → Net) (glue : Bytes)
    (random : UInt64) : Expands tx net glue random ↔ Merges tx net glue := by
  constructor
  · intro h
    refine ⟨?_, ?_, ?_⟩
    · intro mx hmx m hm
      have hne : mx ≠ [] := List.ne_nil_of_mem hm
      have hblocks := h.blocks mx hmx hne
      rw [(dns_mxip_blocks hmx hne).1] at hblocks
      exact (blocks_iff random mx).mp hblocks m hm
    · intro mx hmx hbarren
      have hne : mx ≠ [] := List.ne_nil_of_mem hbarren.choose_spec.1
      exact (dns_mxip_blocks hmx hne).2.mp (h.soft mx hmx hbarren)
    · intro hmx hbarren
      have hcode := h.alone hmx hbarren
      rw [(dns_mxip_alone hmx).2] at hcode
      exact ((err_eq_iff (by decide)).mp hcode).2
  · intro h
    refine ⟨?_, ?_, ?_⟩
    · intro mx hmx hne
      rw [(dns_mxip_blocks hmx hne).1]
      exact (blocks_iff random mx).mpr (h.literals mx hmx)
    · intro mx hmx hbarren
      have hne : mx ≠ [] := List.ne_nil_of_mem hbarren.choose_spec.1
      exact (dns_mxip_blocks hmx hne).2.mpr (h.mx mx hmx hbarren)
    · intro hmx hbarren
      obtain ⟨hlit, hcode⟩ := @dns_mxip_alone tx net glue random hmx
      rw [hcode]
      exact (err_eq_iff (by decide)).mpr ⟨hlit, h.alone hmx hbarren⟩

/-- A response without a question: one MX record, with the preference 10. -/
def oneMx : Response where
  mem p := [0, 0, 0, 0, 0, 0, 0, 1, 0, 0, 0, 0, 0, 0, 15, 0, 1, 0, 0, 0, 0, 0, 5, 0, 10, 1, 98,
    0].getD p 0
  len := 28
  expand pos := if pos = 12 then some (1, []) else if pos = 25 then some (3, [98]) else none
  len_pos := by decide
  inside pos i name h := by
    split_ifs at h with hfirst hsecond
    · obtain ⟨rfl, -⟩ : 1 = i ∧ _ := by simpa using h
      omega
    · obtain ⟨rfl, -⟩ : 3 = i ∧ _ := by simpa using h
      omega

/-- The AAAA record is not to be had now, and there is no A record. -/
def outage (_ : Bytes) (wanttype : Nat) : Net :=
  ⟨513, true, true, if wanttype = tMX then .answers oneMx else .fails (wanttype = tAAAA), .fails true⟩

/-- The error of the AAAA lookup is lost, and the domain has no addresses and no error. -/
theorem outage_is_permanent : ¬ ∀ (tx : Texts) (net : Bytes → Nat → Net) (glue : Bytes)
    (random : UInt64), Expands tx net glue random := by
  intro h
  have hcode := (h texts outage (asc "a") 0).soft [⟨asc "b", 10⟩] (by decide +kernel)
    ⟨⟨asc "b", 10⟩, List.mem_cons_self, ⟨by decide +kernel, .inl (by decide +kernel)⟩, by decide +kernel⟩
  exact hcode (by decide +kernel)

end IndimailMta.Dns
