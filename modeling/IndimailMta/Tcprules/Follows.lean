import Mathlib.Data.List.Infix
import IndimailMta.Tcprules.Compiled
import IndimailMta.Tcprules.Lookup

/-!
# The rule that is found

`rules` finds a rule by its text. What it looks for first are addresses of the first levels, so
it finds the rule that is selected exactly where that is written as it is looked for (`Written`): an
IPv6 address with all its digits, an IPv4 address as it is printed, a prefix that ends with a dot; a
net in CIDR notation never is.
-/

namespace IndimailMta.Tcprules

open IndimailMta Lines

variable {sc : Scanners} {db : List Record} {rs : List Rule} {r : Remote} {rule : Rule} {l : Level}
  {beyond a : Bytes} {names : List Bytes} {text : Bytes}

/-! ## Records and rules -/

/-- A key that is no rule's address is not found. -/
theorem dorule_eq_none (hdb : List.Forall₂ IsRecord db rs) (h : ∀ x ∈ rs, x.address ≠ a) :
    dorule db a = none := by
  induction hdb with
  | nil => rfl
  | @cons d x db rs hx hrest ih =>
      rw [List.forall_mem_cons] at h
      have hne : d.key ≠ a := hx.1 ▸ h.1
      rw [dorule, List.find?_cons_of_neg (by simpa using hne)]
      exact ih h.2

theorem dorules_eq_none (hdb : List.Forall₂ IsRecord db rs)
    (h : ∀ n ∈ names, ∀ x ∈ rs, x.address ≠ n) : dorules db names = none := by
  rw [dorules, List.findSome?_eq_none_iff]
  intro n hn
  exact dorule_eq_none hdb (h n hn)

/-- The rule that is selected is found by its address. -/
theorem dorule_selected (hdb : List.Forall₂ IsRecord db rs) (h : SelectedAt rs r l rule) :
    ∃ d, dorule db rule.address = some d ∧ IsRecord d rule := by
  obtain ⟨⟨pre, post, rfl, hpre⟩, hden, -⟩ := h
  induction pre generalizing db with
  | nil =>
      cases hdb with
      | @cons d _ db _ hd hrest =>
          exact ⟨d, by rw [dorule, List.find?_cons_of_pos (by simpa using hd.1)], hd⟩
  | cons x pre ih =>
      rw [List.forall_mem_cons] at hpre
      cases hdb with
      | @cons d _ db _ hd hrest =>
          have hne : d.key ≠ rule.address := by
            intro heq
            exact hpre.1 (hd.1 ▸ heq ▸ hden)
          obtain ⟨d', hd', hrec⟩ := ih hpre.2 hrest
          refine ⟨d', ?_, hrec⟩
          rw [dorule, List.find?_cons_of_neg (by simpa using hne)]
          exact hd'

/-- It is found in a loop over keys, where the keys before its address are no rule's. -/
theorem dorules_selected (hdb : List.Forall₂ IsRecord db rs) (h : SelectedAt rs r l rule)
    {before after : List Bytes} (hnames : names = before ++ rule.address :: after)
    (hbefore : ∀ n ∈ before, ∀ x ∈ rs, x.address ≠ n) :
    ∃ d, dorules db names = some d ∧ IsRecord d rule := by
  obtain ⟨d, hd, hrec⟩ := dorule_selected hdb h
  refine ⟨d, ?_, hrec⟩
  have hnone := dorules_eq_none hdb hbefore
  rw [dorules] at hnone
  rw [hnames, dorules, List.findSome?_append, hnone, Option.none_or, List.findSome?_cons, hd]

/-! ## What is looked for -/

/-- The text by which the address is looked for first. -/
def lookupIp (sc : Scanners) (ip : Bytes) : Bytes :=
  if 58 ∈ ip then (ip6_expandaddr sc ip).getD [] else ip

theorem Ip4.no_colon {t bs : Bytes} (h : Ip4 t bs) : 58 ∉ t := by
  have hd : ∀ {t bs : Bytes}, Dotted t bs → 58 ∉ t := by
    intro t bs hd
    induction hd with
    | one h =>
        intro hin
        exact absurd (h.digits 58 hin) (by decide)
    | @cons t rest b bs h hr ih =>
        intro hin
        rcases List.mem_append.mp hin with hin | hin
        · exact absurd (h.digits 58 hin) (by decide)
        · rcases List.mem_cons.mp hin with h58 | hin
          · exact absurd h58 (by decide)
          · exact ih hin
  exact hd h.1

/-- What is looked for is a notation of the address. -/
theorem sameIp_lookup (hip : ∃ bs, IpText r.ip bs) :
    SameIp (lookupIp sc r.ip) r.ip ∧ SameIp r.ip r.ip ∧
      (58 ∈ r.ip → ip6_expandaddr sc r.ip = some (lookupIp sc r.ip)) := by
  obtain ⟨bs, hip⟩ := hip
  by_cases h58 : 58 ∈ r.ip
  · rcases hip with h4 | h6
    · exact absurd h58 h4.no_colon
    · obtain ⟨x, hx, hx6⟩ := @ip6_expandaddr_ip6 sc _ _ h6 h6.length
      have hl : lookupIp sc r.ip = x := by
        rw [lookupIp, if_pos h58, hx]
        rfl
      rw [hl]
      exact ⟨⟨bs, Or.inr hx6, Or.inr h6⟩, ⟨bs, Or.inr h6, Or.inr h6⟩, fun _ => hx⟩
  · have hl : lookupIp sc r.ip = r.ip := if_neg h58
    rw [hl]
    exact ⟨⟨bs, hip, hip⟩, ⟨bs, hip, hip⟩, fun h => absurd h h58⟩

/-! ### The keys -/

/-- The keys of 1. and 2. -/
def infoKeys (sc : Scanners) (r : Remote) : List Bytes :=
  match r.info with
  | none => []
  | some i => (i ++ 64 :: lookupIp sc r.ip) :: r.host.toList.map fun h => i ++ 64 :: 61 :: h

/-- The keys of 3. -/
def ipKeys (sc : Scanners) (r : Remote) : List Bytes :=
  if 58 ∈ r.ip then [lookupIp sc r.ip, r.ip] else [r.ip]

/-- The keys of 4. -/
def hostKeys (r : Remote) : List Bytes := r.host.toList.map fun h => 61 :: h

/-- The keys of 5. -/
def prefixKeys (r : Remote) : List Bytes := if 58 ∈ r.ip then [] else prefixes r.ip

/-- The keys of 7. and 8. -/
def suffixKeys (r : Remote) : List Bytes :=
  match r.host with
  | none => []
  | some h => ((h.tails.filter fun s => s.head? = some 46).map fun s => 61 :: s) ++ [[61]]

theorem dorules_append (as bs : List Bytes) :
    dorules db (as ++ bs) = (dorules db as).or (dorules db bs) := by
  rw [dorules, List.findSome?_append]
  rfl

theorem dorules_singleton (a : Bytes) : dorules db [a] = dorule db a := by
  rw [dorules, List.findSome?_cons, List.findSome?_nil]
  cases dorule db a <;> rfl

theorem dorules_cons (a : Bytes) (as : List Bytes) :
    dorules db (a :: as) = (dorule db a).or (dorules db as) := by
  rw [← List.singleton_append, dorules_append, dorules_singleton]

/-- The keys of 6.: bit strings. -/
def bitsKeys (sc : Scanners) (beyond : Bytes) (r : Remote) : List Bytes :=
  if 58 ∈ r.ip then
    match ip6tobitstring sc (buffer (match r.host with
      | none => r.ip
      | some host => 61 :: host) beyond) 128 with
    | none => []
    | some ipstring => bitKeys 94 ipstring beyond 128
  else bitKeys 95 (getaddressasbit sc r.ip 32) beyond 32

theorem bitsKeys_head {n : Bytes} (h : n ∈ bitsKeys sc beyond r) :
    n.head? = some 94 ∨ n.head? = some 95 := by
  have hbit : ∀ {letter : Byte} {ipstring : Bytes} {most : Nat},
      n ∈ bitKeys letter ipstring beyond most → n.head? = some letter := by
    intro letter ipstring most hn
    obtain ⟨k, -, rfl⟩ := List.mem_map.mp hn
    rfl
  rw [bitsKeys] at h
  split at h
  · split at h
    · exact absurd h List.not_mem_nil
    · exact Or.inl (hbit h)
  · exact Or.inr (hbit h)

/-- **The keys that are tried**, one after the other. -/
def keysOf (sc : Scanners) (beyond : Bytes) (r : Remote) : List Bytes :=
  infoKeys sc r ++ (ipKeys sc r ++ (hostKeys r ++ (prefixKeys r ++
    (bitsKeys sc beyond r ++ (suffixKeys r ++ [[]])))))

/-- No rule has one of the bit strings for its address. -/
def NoBits (sc : Scanners) (beyond : Bytes) (rs : List Rule) (r : Remote) : Prop :=
  ∀ n ∈ bitsKeys sc beyond r, ∀ x ∈ rs, x.address ≠ n

/-- The address of the rule that is selected is written as it is looked for. -/
def Written (sc : Scanners) (beyond : Bytes) (rs : List Rule) (r : Remote) : Level → Bytes → Prop
  | .infoIp, a => ∃ i, r.info = some i ∧ a = i ++ 64 :: lookupIp sc r.ip
  | .ip, a => a = lookupIp sc r.ip ∨ a = r.ip ∧ ∀ x ∈ rs, x.address ≠ lookupIp sc r.ip
  | .net n, a => 58 ∉ r.ip ∧ DottedPrefix r.ip n a
  | .suffix _, _ => NoBits sc beyond rs r
  | .equals, _ => NoBits sc beyond rs r
  | .empty, _ => NoBits sc beyond rs r
  | .infoHost, _ => True
  | .host, _ => True

theorem infoRules_eq : infoRules sc db (decide (58 ∈ r.ip)) r.ip r.host r.info =
    dorules db (infoKeys sc r) := by
  have hl : (if decide (58 ∈ r.ip) = true then (ip6_expandaddr sc r.ip).getD [] else r.ip) =
      lookupIp sc r.ip := by
    simp only [lookupIp, decide_eq_true_eq]
  unfold infoRules infoKeys
  rw [hl]
  cases r.info with
  | none => rfl
  | some i =>
      cases r.host with
      | none =>
          simp only [Option.toList_none, List.map_nil, dorules_singleton]
          cases dorule db (i ++ 64 :: lookupIp sc r.ip) <;> rfl
      | some h =>
          simp only [Option.toList_some, List.map_cons, List.map_nil, dorules_cons]
          cases dorule db (i ++ 64 :: lookupIp sc r.ip) with
          | none =>
              rw [Option.none_or, dorules, List.findSome?_nil, Option.or_none]
          | some d => rfl

theorem ipRules_eq (hip : ∃ bs, IpText r.ip bs) :
    ipRules sc db (decide (58 ∈ r.ip)) r.ip = dorules db (ipKeys sc r) := by
  rw [ipRules, ipKeys]
  by_cases h58 : 58 ∈ r.ip
  · rw [if_pos (decide_eq_true h58), if_pos h58, (sameIp_lookup hip).2.2 h58, Option.bind_some,
      dorules_cons, dorules_singleton]
  · rw [if_neg (by simpa using h58), if_neg h58, Option.none_or, dorules_singleton]

theorem netRules_eq : netRules sc db beyond (decide (58 ∈ r.ip)) r.ip r.host =
    dorules db (prefixKeys r ++ bitsKeys sc beyond r) := by
  unfold netRules prefixKeys bitsKeys
  by_cases h58 : 58 ∈ r.ip
  · rw [if_pos (decide_eq_true h58), if_pos h58, if_pos h58, List.nil_append]
    dsimp only
    cases ip6tobitstring sc (buffer (match r.host with
      | none => r.ip
      | some host => 61 :: host) beyond) 128 <;> rfl
  · rw [if_neg (by simpa using h58), if_neg h58, if_neg h58, dorules_append]

theorem suffixRules_eq : suffixRules db r.host = dorules db (suffixKeys r) := by
  unfold suffixRules suffixKeys
  cases r.host with
  | none => rfl
  | some h => simp only [dorules_append, dorules_singleton]

/-- **`rules` tries these keys.** -/
theorem rules_eq (hip : ∃ bs, IpText r.ip bs) : rules sc db beyond r.ip r.host r.info =
    dorules db (keysOf sc beyond r) := by
  have hhost : hostRule db r.host = dorules db (hostKeys r) := by
    rw [hostRule, hostKeys]
    cases r.host with
    | none => rfl
    | some h => simp only [Option.toList_some, List.map_cons, List.map_nil, dorules_singleton,
        Option.bind_some]
  rw [rules, keysOf]
  simp only [dorules_append, dorules_singleton]
  rw [infoRules_eq, ipRules_eq hip, hhost, netRules_eq, suffixRules_eq, dorules_append,
    Option.or_assoc]

/-! ### What the keys stand for -/

theorem infoKeys_denote (hip : ∃ bs, IpText r.ip bs) {n : Bytes} (h : n ∈ infoKeys sc r) :
    Denotes r .infoIp n ∨ Denotes r .infoHost n := by
  rw [infoKeys] at h
  cases hi : r.info with
  | none =>
      rw [hi] at h
      exact absurd h List.not_mem_nil
  | some i =>
      rw [hi] at h
      rcases List.mem_cons.mp h with rfl | h
      · exact Or.inl ⟨i, _, hi, rfl, (sameIp_lookup hip).1⟩
      · obtain ⟨host, hhost, rfl⟩ := List.mem_map.mp h
        exact Or.inr ⟨i, host, hi, Option.mem_toList.mp hhost, rfl⟩

theorem ipKeys_denote (hip : ∃ bs, IpText r.ip bs) {n : Bytes} (h : n ∈ ipKeys sc r) :
    Denotes r .ip n := by
  obtain ⟨hl, hs, -⟩ := @sameIp_lookup sc _ hip
  rw [ipKeys] at h
  split at h
  · rcases List.mem_cons.mp h with rfl | h
    · exact hl
    · rw [List.mem_singleton.mp h]
      exact hs
  · rw [List.mem_singleton.mp h]
    exact hs

theorem hostKeys_denote {n : Bytes} (h : n ∈ hostKeys r) : Denotes r .host n := by
  obtain ⟨host, hhost, rfl⟩ := List.mem_map.mp h
  exact ⟨host, Option.mem_toList.mp hhost, rfl⟩

theorem prefixKeys_denote {n : Bytes} (h : n ∈ prefixKeys r) :
    58 ∉ r.ip ∧ DottedPrefix r.ip (prefixBits r.ip n) n := by
  rw [prefixKeys] at h
  split at h
  · exact absurd h List.not_mem_nil
  · rename_i h58
    obtain ⟨hmem, hend⟩ := List.mem_filter.mp h
    obtain ⟨k, -, rfl⟩ := List.mem_map.mp hmem
    refine ⟨h58, List.take_prefix _ _, ?_, rfl⟩
    rw [Bool.or_eq_true, decide_eq_true_eq, decide_eq_true_eq] at hend
    rcases hend with hdot | hcolon
    · exact hdot
    · have hin := List.mem_of_mem_take (List.mem_of_getLast? hcolon)
      exact absurd hin h58

theorem suffixKeys_denote {n : Bytes} (h : n ∈ suffixKeys r) :
    Denotes r (.suffix (n.length - 1)) n ∨ Denotes r .equals n := by
  rw [suffixKeys] at h
  cases hh : r.host with
  | none =>
      rw [hh] at h
      exact absurd h List.not_mem_nil
  | some host =>
      rw [hh] at h
      rcases List.mem_append.mp h with h | h
      · obtain ⟨s, hs, rfl⟩ := List.mem_map.mp h
        obtain ⟨htail, hdot⟩ := List.mem_filter.mp hs
        left
        exact ⟨host, s, hh, (List.mem_tails s host).mp htail, by simpa using hdot, rfl, rfl⟩
      · right
        rw [List.mem_singleton.mp h]
        exact ⟨by rw [hh]; exact Option.some_ne_none host, rfl⟩

/-! ## The selected rule -/

/-- Keys that stand for connections at earlier levels only are no rule's. -/
theorem free_of_earlier (h : ∀ k, k.before l → ∀ x ∈ rs, ¬ Denotes r k x.address)
    (hn : ∀ n ∈ names, ∃ k, k.before l ∧ Denotes r k n) :
    ∀ n ∈ names, ∀ x ∈ rs, x.address ≠ n := by
  intro n hmem x hx heq
  obtain ⟨k, hk, hd⟩ := hn n hmem
  exact h k hk x hx (heq ▸ hd)

theorem free_append {as bs : List Bytes} (ha : ∀ n ∈ as, ∀ x ∈ rs, x.address ≠ n)
    (hb : ∀ n ∈ bs, ∀ x ∈ rs, x.address ≠ n) : ∀ n ∈ as ++ bs, ∀ x ∈ rs, x.address ≠ n := by
  intro n hn
  rcases List.mem_append.mp hn with hn | hn
  · exact ha n hn
  · exact hb n hn

/-- In a list of falling lengths the longer elements are before. -/
theorem split_of_falling {as : List Bytes} (h : as.Pairwise fun a b => b.length < a.length)
    (ha : a ∈ as) : ∃ before after, as = before ++ a :: after ∧
      ∀ b ∈ before, a.length < b.length := by
  obtain ⟨before, after, rfl⟩ := List.append_of_mem ha
  refine ⟨before, after, rfl, ?_⟩
  intro b hb
  exact (List.pairwise_append.mp h).2.2 b hb a List.mem_cons_self

theorem prefixes_falling (ip : Bytes) :
    (prefixes ip).Pairwise fun a b => b.length < a.length := by
  refine List.Pairwise.filter _ ?_
  rw [List.pairwise_map]
  refine List.Pairwise.imp_of_mem ?_ (List.pairwise_lt_range (n := ip.length))
  intro j k hj hk hlt
  rw [List.mem_range] at hj hk
  rw [List.length_take, List.length_take]
  omega

theorem tails_falling (h : Bytes) : h.tails.Pairwise fun a b => b.length < a.length := by
  induction h with
  | nil => simp
  | cons b h ih =>
      rw [List.tails_cons, List.pairwise_cons]
      refine ⟨?_, ih⟩
      intro t ht
      have := ((List.mem_tails t h).mp ht).length_le
      rw [List.length_cons]
      omega

/-- A prefix is looked for after the longer ones. -/
theorem prefixKeys_split {n : Nat} (h58 : 58 ∉ r.ip) (h : DottedPrefix r.ip n a) :
    ∃ before after, prefixKeys r = before ++ a :: after ∧
      ∀ b ∈ before, ∃ k, k.before (.net n) ∧ Denotes r k b := by
  obtain ⟨hpre, hdot, rfl⟩ := h
  have hkeys : prefixKeys r = prefixes r.ip := if_neg h58
  have hpos : a ≠ [] := by
    rintro rfl
    cases hdot
  have hmem : a ∈ prefixes r.ip := by
    refine List.mem_filter.mpr ⟨List.mem_map.mpr ⟨r.ip.length - a.length, ?_, ?_⟩, ?_⟩
    · have := hpre.length_le
      have := List.length_pos_iff.mpr hpos
      exact List.mem_range.mpr (by omega)
    · rw [Nat.sub_sub_self hpre.length_le, ← List.prefix_iff_eq_take.mp hpre]
    · rw [hdot]
      rfl
  obtain ⟨before, after, hsplit, hlong⟩ := split_of_falling (prefixes_falling r.ip) hmem
  refine ⟨before, after, hkeys.trans hsplit, ?_⟩
  intro b hb
  obtain ⟨-, hden⟩ := prefixKeys_denote (n := b) (r := r)
    (by rw [hkeys, hsplit]; exact List.mem_append_left _ hb)
  refine ⟨.net (prefixBits r.ip b), Or.inr ⟨rfl, ?_⟩, Or.inl hden⟩
  -- the longer prefix has the dots of this one, and its last
  obtain ⟨w, rfl⟩ := List.prefix_of_prefix_length_le hpre hden.1 (hlong b hb).le
  have hw : w ≠ [] := by
    rintro rfl
    have := hlong _ hb
    simp at this
  have hlast := hden.2.1
  rw [List.getLast?_append_of_ne_nil _ hw] at hlast
  have hcount : 0 < w.count 46 := List.count_pos_iff.mpr (List.mem_of_getLast? hlast)
  show prefixBits r.ip a < prefixBits r.ip (a ++ w)
  rw [prefixBits, prefixBits, List.count_append]
  omega

/-- A suffix is looked for after the longer ones. -/
theorem suffixKeys_split {h s : Bytes} (hh : r.host = some h) (hs : s <:+ h)
    (hdot : s.head? = some 46) :
    ∃ before after, suffixKeys r = before ++ (61 :: s) :: after ∧
      ∀ b ∈ before, ∃ k, k.before (.suffix s.length) ∧ Denotes r k b := by
  have hmem : s ∈ h.tails.filter fun s => s.head? = some 46 :=
    List.mem_filter.mpr ⟨(List.mem_tails s h).mpr hs, by rw [hdot]; rfl⟩
  obtain ⟨before, after, hsplit, hlong⟩ :=
    split_of_falling (List.Pairwise.filter _ (tails_falling h)) hmem
  refine ⟨before.map fun s => 61 :: s, (after.map fun s => 61 :: s) ++ [[61]], ?_, ?_⟩
  · unfold suffixKeys
    rw [hh]
    simp only [hsplit, List.map_append, List.map_cons, List.append_assoc, List.cons_append]
  · intro b hb
    obtain ⟨t, ht, rfl⟩ := List.mem_map.mp hb
    have hin : t ∈ h.tails.filter fun s => s.head? = some 46 := by
      rw [hsplit]
      exact List.mem_append_left _ ht
    obtain ⟨htail, htdot⟩ := List.mem_filter.mp hin
    exact ⟨.suffix t.length, Or.inr ⟨rfl, hlong t ht⟩, h, t, hh, (List.mem_tails t h).mp htail,
      by simpa using htdot, rfl, rfl⟩

/-- The keys for the information are no rule's at a level behind theirs. -/
theorem infoKeys_free (hip : ∃ bs, IpText r.ip bs)
    (hearlier : ∀ k, k.before l → ∀ x ∈ rs, ¬ Denotes r k x.address) (hl : 1 < l.place.1) :
    ∀ n ∈ infoKeys sc r, ∀ x ∈ rs, x.address ≠ n := by
  refine free_of_earlier hearlier fun n hn => ?_
  rcases infoKeys_denote hip hn with hd | hd
  · exact ⟨.infoIp, Or.inl (Nat.lt_trans Nat.zero_lt_one hl), hd⟩
  · exact ⟨.infoHost, Or.inl hl, hd⟩

/-- And so are the keys up to those for the host. -/
theorem hostKeys_free (hip : ∃ bs, IpText r.ip bs)
    (hearlier : ∀ k, k.before l → ∀ x ∈ rs, ¬ Denotes r k x.address) (hl : 3 < l.place.1) :
    ∀ n ∈ infoKeys sc r ++ (ipKeys sc r ++ hostKeys r), ∀ x ∈ rs, x.address ≠ n := by
  refine free_append (infoKeys_free hip hearlier (by omega)) (free_append ?_ ?_)
  · exact free_of_earlier hearlier fun n hn =>
      ⟨.ip, Or.inl (Nat.lt_trans (Nat.lt_succ_self 2) hl), ipKeys_denote hip hn⟩
  · exact free_of_earlier hearlier fun n hn => ⟨.host, Or.inl hl, hostKeys_denote hn⟩

/-- Behind the networks only the keys from the suffixes on are left. -/
theorem suffixes_split (hip : ∃ bs, IpText r.ip bs)
    (hearlier : ∀ k, k.before l → ∀ x ∈ rs, ¬ Denotes r k x.address) (hl : 4 < l.place.1)
    (hbits : NoBits sc beyond rs r) (before after : List Bytes)
    (hsplit : suffixKeys r ++ [[]] = before ++ a :: after)
    (hbefore : ∀ n ∈ before, ∃ k, k.before l ∧ Denotes r k n) :
    ∃ before after, keysOf sc beyond r = before ++ a :: after ∧
        ∀ n ∈ before, ∀ x ∈ rs, x.address ≠ n := by
  have hnets : ∀ n ∈ prefixKeys r, ∀ x ∈ rs, x.address ≠ n :=
    free_of_earlier hearlier fun n hn => ⟨.net _, Or.inl hl, Or.inl (prefixKeys_denote hn).2⟩
  refine ⟨infoKeys sc r ++ (ipKeys sc r ++ hostKeys r) ++ (prefixKeys r ++
    (bitsKeys sc beyond r ++ before)), after, ?_,
    free_append (hostKeys_free hip hearlier (by omega))
      (free_append hnets (free_append (hbits) (free_of_earlier hearlier hbefore)))⟩
  rw [keysOf, hsplit]
  simp only [List.append_assoc]

/-- The keys that are tried before the address of the selected rule are no rule's. -/
theorem keys_split (hip : ∃ bs, IpText r.ip bs) (h : SelectedAt rs r l rule)
    (hw : Written sc beyond rs r l rule.address) :
    ∃ before after, keysOf sc beyond r = before ++ rule.address :: after ∧
        ∀ n ∈ before, ∀ x ∈ rs, x.address ≠ n := by
  obtain ⟨-, hden, hearlier⟩ := h
  rw [keysOf]
  cases l with
  | infoIp =>
      obtain ⟨i, hi, ha⟩ := hw
      have hkeys : infoKeys sc r = (i ++ 64 :: lookupIp sc r.ip) ::
          r.host.toList.map fun h => i ++ 64 :: 61 :: h := by
        unfold infoKeys
        rw [hi]
      exact ⟨[], _, by rw [hkeys, ha]; rfl, fun n hn => absurd hn List.not_mem_nil⟩
  | infoHost =>
      obtain ⟨i, host, hi, hhost, ha⟩ := hden
      have hkeys : infoKeys sc r = [i ++ 64 :: lookupIp sc r.ip, i ++ 64 :: 61 :: host] := by
        unfold infoKeys
        rw [hi, hhost]
        rfl
      refine ⟨[i ++ 64 :: lookupIp sc r.ip], _, by rw [hkeys, ha]; rfl, ?_⟩
      refine free_of_earlier hearlier ?_
      intro n hn
      rw [List.mem_singleton.mp hn]
      exact ⟨.infoIp, Or.inl Nat.zero_lt_one, i, _, hi, rfl, (sameIp_lookup hip).1⟩
  | ip =>
      have hinfo : ∀ n ∈ infoKeys sc r, ∀ x ∈ rs, x.address ≠ n :=
        infoKeys_free hip hearlier (Nat.lt_succ_self 1)
      by_cases h58 : 58 ∈ r.ip
      · have hkeys : ipKeys sc r = [lookupIp sc r.ip, r.ip] := if_pos h58
        rcases hw with ha | ⟨ha, hno⟩
        · exact ⟨infoKeys sc r, _, by rw [hkeys, ha]; rfl, hinfo⟩
        · refine ⟨infoKeys sc r ++ [lookupIp sc r.ip], _, by rw [hkeys, ha, List.append_assoc]; rfl,
            free_append hinfo ?_⟩
          intro n hn
          rw [List.mem_singleton.mp hn]
          exact hno
      · have hkeys : ipKeys sc r = [r.ip] := if_neg h58
        have hl : lookupIp sc r.ip = r.ip := if_neg h58
        have ha : rule.address = r.ip := by
          rcases hw with ha | ⟨ha, -⟩
          · exact ha.trans hl
          · exact ha
        exact ⟨infoKeys sc r, _, by rw [hkeys, ha]; rfl, hinfo⟩
  | host =>
      obtain ⟨host, hhost, ha⟩ := hden
      have hkeys : hostKeys r = [61 :: host] := by
        rw [hostKeys, hhost]
        rfl
      have hip' : ∀ n ∈ ipKeys sc r, ∀ x ∈ rs, x.address ≠ n :=
        free_of_earlier hearlier fun n hn => ⟨.ip, Or.inl (Nat.lt_succ_self 2), ipKeys_denote hip hn⟩
      exact ⟨infoKeys sc r ++ ipKeys sc r, _, by rw [hkeys, ha, List.append_assoc]; rfl,
        free_append (infoKeys_free hip hearlier (by decide : 1 < 3)) hip'⟩
  | net n =>
      obtain ⟨h58, hdot⟩ := hw
      obtain ⟨before, after, hsplit, hbefore⟩ := prefixKeys_split h58 hdot
      refine ⟨infoKeys sc r ++ (ipKeys sc r ++ hostKeys r) ++ before,
        after ++ (bitsKeys sc beyond r ++ (suffixKeys r ++ [[]])), ?_,
        free_append (hostKeys_free hip hearlier (Nat.lt_succ_self 3))
          (free_of_earlier hearlier hbefore)⟩
      rw [hsplit]
      simp only [List.append_assoc, List.cons_append]
  | suffix n =>
      obtain ⟨host, s, hh, hs, hdot, rfl, ha⟩ := hden
      obtain ⟨before, after, hsplit, hbefore⟩ := suffixKeys_split hh hs hdot
      refine suffixes_split hip hearlier (Nat.lt_succ_self 4) hw before (after ++ [[]]) ?_ hbefore
      rw [hsplit, ha, List.append_assoc, List.cons_append]
  | equals =>
      obtain ⟨hh, ha⟩ := hden
      obtain ⟨host, hh⟩ := Option.ne_none_iff_exists'.mp hh
      have hkeys : suffixKeys r =
          ((host.tails.filter fun s => s.head? = some 46).map fun s => 61 :: s) ++ [[61]] := by
        unfold suffixKeys
        rw [hh]
      refine suffixes_split hip hearlier (by decide : 4 < 6) hw
        ((host.tails.filter fun s => s.head? = some 46).map fun s => 61 :: s) [[]] ?_ ?_
      · rw [hkeys, ha, List.append_assoc, List.singleton_append]
      · intro n hn
        obtain ⟨s, hs, rfl⟩ := List.mem_map.mp hn
        obtain ⟨htail, hdot⟩ := List.mem_filter.mp hs
        exact ⟨.suffix s.length, Or.inl (Nat.lt_succ_self 5), host, s, hh,
          (List.mem_tails s host).mp htail, by simpa using hdot, rfl, rfl⟩
  | empty =>
      have ha : rule.address = [] := hden
      refine suffixes_split hip hearlier (by decide : 4 < 7) hw _ [] (by rw [ha]) ?_
      intro n hn
      rcases suffixKeys_denote hn with hd | hd
      · exact ⟨.suffix _, Or.inl (by decide : 5 < 7), hd⟩
      · exact ⟨.equals, Or.inl (Nat.lt_succ_self 6), hd⟩

/-- **The rule that is selected is found, where it is written as it is looked for.** -/
theorem rules_selected (hip : ∃ bs, IpText r.ip bs) (hdb : List.Forall₂ IsRecord db rs)
    (h : SelectedAt rs r l rule) (hw : Written sc beyond rs r l rule.address) :
    ∃ d, rules sc db beyond r.ip r.host r.info = some d ∧ IsRecord d rule := by
  obtain ⟨before, after, hsplit, hbefore⟩ := @keys_split _ _ _ _ _ beyond hip h hw
  rw [rules_eq hip]
  exact dorules_selected hdb h hsplit hbefore

/-- Where no rule is selected none is found. -/
theorem rules_none (hip : ∃ bs, IpText r.ip bs) (hdb : List.Forall₂ IsRecord db rs)
    (h : ∀ l, ∀ x ∈ rs, ¬ Denotes r l x.address) (hw : NoBits sc beyond rs r) :
    rules sc db beyond r.ip r.host r.info = none := by
  rw [rules_eq hip, keysOf]
  refine dorules_eq_none hdb ?_
  have hfree : ∀ names : List Bytes, (∀ n ∈ names, ∃ k, Denotes r k n) →
      ∀ n ∈ names, ∀ x ∈ rs, x.address ≠ n := by
    rintro names hn n hmem x hx rfl
    obtain ⟨k, hk⟩ := hn x.address hmem
    exact h k x hx hk
  refine free_append (hfree _ ?_) (free_append (hfree _ ?_) (free_append (hfree _ ?_)
    (free_append (hfree _ ?_) (free_append (hw) (free_append (hfree _ ?_)
      (hfree _ ?_))))))
  · intro n hn
    rcases infoKeys_denote hip hn with hd | hd
    · exact ⟨_, hd⟩
    · exact ⟨_, hd⟩
  · exact fun n hn => ⟨_, ipKeys_denote hip hn⟩
  · exact fun n hn => ⟨_, hostKeys_denote hn⟩
  · exact fun n hn => ⟨.net _, Or.inl (prefixKeys_denote hn).2⟩
  · intro n hn
    rcases suffixKeys_denote hn with hd | hd
    · exact ⟨_, hd⟩
    · exact ⟨_, hd⟩
  · exact fun n hn => ⟨.empty, List.mem_singleton.mp hn⟩

/-! ## Only where it is written so -/

/-! ### The bytes of an address -/

/-- A byte of the text of an address. -/
def IpByte (b : Byte) : Prop := isHex b = true ∨ b = 46 ∨ b = 58

theorem Dotted.bytes {t bs : Bytes} (h : Dotted t bs) : t ≠ [] ∧ ∀ b ∈ t, IpByte b := by
  induction h with
  | one h => exact ⟨h.ne_nil, fun b hb => Or.inl (isHex_of_isDigit (h.digits b hb))⟩
  | @cons t rest b bs h hr ih =>
      refine ⟨by simp, ?_⟩
      intro x hx
      rcases List.mem_append.mp hx with hx | hx
      · exact Or.inl (isHex_of_isDigit (h.digits x hx))
      · rcases List.mem_cons.mp hx with rfl | hx
        · exact Or.inr (Or.inl rfl)
        · exact ih.2 x hx

theorem Groups.bytes {t bs : Bytes} (h : Groups t bs) : ∀ b ∈ t, IpByte b := by
  induction h with
  | one h => exact fun b hb => Or.inl (h.hex b hb)
  | ip4 h => exact h.1.bytes.2
  | @cons t rest a b bs h hr ih =>
      intro x hx
      rcases List.mem_append.mp hx with hx | hx
      · exact Or.inl (h.hex x hx)
      · rcases List.mem_cons.mp hx with rfl | hx
        · exact Or.inr (Or.inr rfl)
        · exact ih x hx

theorem IpText.bytes {t bs : Bytes} (h : IpText t bs) : t ≠ [] ∧ ∀ b ∈ t, IpByte b := by
  rcases h with h | h
  · exact h.1.bytes
  · cases h with
    | full h hlen =>
        refine ⟨?_, h.bytes⟩
        rintro rfl
        obtain ⟨u, rest, -, heq⟩ := h.colon (by omega)
        simp at heq
    | @compact p ps s ss hp hs hlen =>
        refine ⟨by simp, ?_⟩
        intro x hx
        rcases List.mem_append.mp hx with hx | hx
        · rcases hp with ⟨rfl, -⟩ | ⟨hp, -⟩
          · exact absurd hx List.not_mem_nil
          · exact hp.bytes x hx
        · rcases List.mem_cons.mp hx with rfl | hx
          · exact Or.inr (Or.inr rfl)
          · rcases List.mem_cons.mp hx with rfl | hx
            · exact Or.inr (Or.inr rfl)
            · rcases hs with ⟨rfl, -⟩ | hs
              · exact absurd hx List.not_mem_nil
              · exact hs.bytes x hx

theorem not_ipByte {b : Byte} (h : b ∈ [47, 61, 64, 94, 95]) : ¬ IpByte b := by
  simp only [List.mem_cons, List.not_mem_nil, or_false] at h
  unfold IpByte
  rcases h with rfl | rfl | rfl | rfl | rfl <;> decide

/-- A text of an address has none of these bytes. -/
theorem IpText.notMem {t bs : Bytes} (h : IpText t bs) {b : Byte} (hb : b ∈ [47, 61, 64, 94, 95]) :
    b ∉ t := fun hin => not_ipByte hb (h.bytes.2 b hin)

theorem Dotted.last {t bs : Bytes} (h : Dotted t bs) : t.getLast? ≠ some 46 := by
  induction h with
  | one h =>
      intro hl
      exact absurd (h.digits 46 (List.mem_of_getLast? hl)) (by decide)
  | @cons t rest b bs h hr ih =>
      obtain ⟨c, u, rfl⟩ := List.exists_cons_of_ne_nil hr.bytes.1
      rwa [List.getLast?_append_of_ne_nil _ (List.cons_ne_nil _ _), List.getLast?_cons_cons]

theorem Groups.last {t bs : Bytes} (h : Groups t bs) : t ≠ [] ∧ t.getLast? ≠ some 46 := by
  induction h with
  | one h =>
      refine ⟨h.ne_nil, fun hl => ?_⟩
      exact absurd (h.hex 46 (List.mem_of_getLast? hl)) (by decide)
  | ip4 h => exact ⟨h.1.bytes.1, h.1.last⟩
  | @cons t rest a b bs h hr ih =>
      obtain ⟨c, u, rfl⟩ := List.exists_cons_of_ne_nil ih.1
      refine ⟨by simp, ?_⟩
      rw [List.getLast?_append_of_ne_nil _ (List.cons_ne_nil _ _), List.getLast?_cons_cons]
      exact ih.2

/-- An address does not end with a dot. -/
theorem IpText.last {t bs : Bytes} (h : IpText t bs) : t.getLast? ≠ some 46 := by
  rcases h with h | h
  · exact h.1.last
  · cases h with
    | full h hlen => exact h.last.2
    | @compact p ps s ss hp hs hlen =>
        rcases hs with ⟨rfl, -⟩ | hs
        · simp
        · obtain ⟨c, u, rfl⟩ := List.exists_cons_of_ne_nil hs.last.1
          rw [List.getLast?_append_of_ne_nil _ (List.cons_ne_nil _ _), List.getLast?_cons_cons,
            List.getLast?_cons_cons]
          exact hs.last.2

/-- A prefix or a net, apart from the texts of other levels. -/
theorem net_text {n : Nat} (hip : ∃ bs, IpText r.ip bs)
    (h : DottedPrefix r.ip n a ∨ Cidr r.ip n a) :
    (∀ b ∈ [61, 64, 94, 95], b ∉ a) ∧ a ≠ [] ∧ (a.getLast? = some 46 ∨ 47 ∈ a) := by
  obtain ⟨bs, hip⟩ := hip
  have hsub : ∀ b : Byte, b ∈ [61, 64, 94, 95] → b ∈ [47, 61, 64, 94, 95] :=
    fun b hb => List.mem_cons_of_mem _ hb
  rcases h with ⟨hpre, hdot, -⟩ | ⟨t, mask, net, bs', rfl, -, hmask, -, -, -, htext, -⟩
  · refine ⟨fun b hb hin => hip.notMem (hsub b hb) (hpre.subset hin), ?_, Or.inl hdot⟩
    rintro rfl
    cases hdot
  · refine ⟨?_, by simp, Or.inr (by simp)⟩
    have ht : ∀ b ∈ t, IpByte b := by
      rcases htext with ⟨h6, -⟩ | ⟨hd, -⟩
      · exact (IpText.bytes (Or.inr h6)).2
      · exact hd.bytes.2
    intro b hb hin
    rcases List.mem_append.mp hin with hin | hin
    · exact not_ipByte (hsub b hb) (ht b hin)
    · rcases List.mem_cons.mp hin with rfl | hin
      · revert hb
        decide
      · exact not_ipByte (hsub b hb) (Or.inl (isHex_of_isDigit (hmask b hin)))

/-! ### What is found -/

/-- A key that is found is the first of them that a rule has for its address. -/
theorem dorules_some {d : Record} (h : dorules db names = some d) : d.key ∈ names := by
  obtain ⟨n, hn, hd⟩ := List.exists_of_findSome?_eq_some h
  rw [dorule] at hd
  have hkey := List.find?_some hd
  rw [decide_eq_true_eq] at hkey
  rwa [hkey]

theorem free_of_dorules (hdb : List.Forall₂ IsRecord db rs) (h : dorules db names = none) :
    ∀ n ∈ names, ∀ x ∈ rs, x.address ≠ n := by
  rw [dorules, List.findSome?_eq_none_iff] at h
  intro n hn x hx heq
  have hno := h n hn
  rw [dorule, List.find?_eq_none] at hno
  clear h
  induction hdb with
  | nil => exact absurd hx List.not_mem_nil
  | @cons d y db rs hy hrest ih =>
      rw [List.forall_mem_cons] at hno
      rcases List.mem_cons.mp hx with rfl | hx
      · exact hno.1 (decide_eq_true (hy.1.trans heq))
      · exact ih hx hno.2

/-- The keys in front of those among which the one that is found is are no rule's. -/
theorem free_before {as bs : List Bytes} {d : Record} (hdb : List.Forall₂ IsRecord db rs)
    (h : dorules db (as ++ bs) = some d) (hd : d.key ∉ as) :
    ∀ n ∈ as, ∀ x ∈ rs, x.address ≠ n := by
  apply free_of_dorules hdb
  rw [dorules_append] at h
  cases has : dorules db as with
  | none => rfl
  | some d' =>
      rw [has, Option.some_or, Option.some.injEq] at h
      subst h
      exact absurd (dorules_some has) hd

/-- No text that is looked for behind the information begins with it and an `@`. -/
def Clear (sc : Scanners) (beyond : Bytes) (r : Remote) : Prop :=
  ∀ i ∈ r.info, ∀ n ∈ hostKeys r ++ (bitsKeys sc beyond r ++ suffixKeys r), ¬ i ++ [64] <+: n

theorem infoKeys_at {n : Bytes} (h : n ∈ infoKeys sc r) : 64 ∈ n := by
  rw [infoKeys] at h
  cases hi : r.info with
  | none =>
      rw [hi] at h
      exact absurd h List.not_mem_nil
  | some i =>
      rw [hi] at h
      rcases List.mem_cons.mp h with rfl | h
      · simp
      · obtain ⟨host, -, rfl⟩ := List.mem_map.mp h
        simp

/-- The texts that begin with `=`. -/
theorem equals_head {n : Bytes} (h : n ∈ hostKeys r ∨ n ∈ suffixKeys r) : n.head? = some 61 := by
  rcases h with h | h
  · obtain ⟨host, -, rfl⟩ := List.mem_map.mp h
    rfl
  · rw [suffixKeys] at h
    split at h
    · exact absurd h List.not_mem_nil
    · rcases List.mem_append.mp h with h | h
      · obtain ⟨s, -, rfl⟩ := List.mem_map.mp h
        rfl
      · rw [List.mem_singleton.mp h]
        rfl

/-- Where a key without these bytes comes from. -/
theorem keysOf_cases (h : a ∈ keysOf sc beyond r) (hplain : ∀ b ∈ [61, 64, 94, 95], b ∉ a)
    (hne : a ≠ []) : a ∈ ipKeys sc r ∨ a ∈ prefixKeys r := by
  have hhead : ∀ {b : Byte}, b ∈ [61, 64, 94, 95] → a.head? ≠ some b :=
    fun hb hh => hplain _ hb (List.mem_of_head? hh)
  simp only [keysOf, List.mem_append, List.mem_singleton] at h
  rcases h with h | h | h | h | h | h | h
  · exact absurd (infoKeys_at h) (hplain 64 (by decide))
  · exact Or.inl h
  · exact absurd (equals_head (Or.inl h)) (hhead (by decide))
  · exact Or.inr h
  · rcases bitsKeys_head h with h94 | h95
    · exact absurd h94 (hhead (by decide))
    · exact absurd h95 (hhead (by decide))
  · exact absurd (equals_head (Or.inr h)) (hhead (by decide))
  · exact absurd h hne

theorem prefixKeys_last {n : Bytes} (h : n ∈ prefixKeys r) : n.getLast? = some 46 :=
  (prefixKeys_denote h).2.2.1

/-- Behind the nets: the bit strings are no rule's. -/
theorem noBits_of_found {d : Record} (hip : ∃ bs, IpText r.ip bs)
    (hdb : List.Forall₂ IsRecord db rs) (h : SelectedAt rs r l rule) (hl : 4 < l.place.1)
    (hfound : dorules db (keysOf sc beyond r) = some d) (hkey : d.key = rule.address)
    (hhead : ∀ b ∈ rule.address.head?, b = 61) : NoBits sc beyond rs r := by
  obtain ⟨⟨pre, post, hrs, -⟩, -, hearlier⟩ := h
  have hrule : rule ∈ rs := by
    rw [hrs]
    exact List.mem_append_right _ List.mem_cons_self
  have hout : ∀ {names : List Bytes}, (∀ n ∈ names, ∃ k, k.before l ∧ Denotes r k n) →
      rule.address ∉ names := by
    intro names hn hin
    exact free_of_earlier hearlier hn _ hin rule hrule rfl
  have hcut : keysOf sc beyond r = (infoKeys sc r ++ (ipKeys sc r ++ (hostKeys r ++
      (prefixKeys r ++ bitsKeys sc beyond r)))) ++ (suffixKeys r ++ [[]]) := by
    simp only [keysOf, List.append_assoc]
  rw [hcut] at hfound
  have hfree := free_before hdb hfound (by
    rw [hkey, List.mem_append, List.mem_append, List.mem_append, List.mem_append, not_or, not_or,
      not_or, not_or]
    refine ⟨hout fun n hn => ?_, hout fun n hn => ?_, hout fun n hn => ?_, hout fun n hn => ?_, ?_⟩
    · rcases infoKeys_denote hip hn with hd | hd
      · exact ⟨.infoIp, Or.inl (Nat.lt_of_le_of_lt (Nat.zero_le 4) hl), hd⟩
      · exact ⟨.infoHost, Or.inl (Nat.lt_trans (by decide : 1 < 4) hl), hd⟩
    · exact ⟨.ip, Or.inl (Nat.lt_trans (by decide : 2 < 4) hl), ipKeys_denote hip hn⟩
    · exact ⟨.host, Or.inl (Nat.lt_trans (by decide : 3 < 4) hl), hostKeys_denote hn⟩
    · exact ⟨.net _, Or.inl hl, Or.inl (prefixKeys_denote hn).2⟩
    · intro hin
      rcases bitsKeys_head hin with h94 | h95
      · exact absurd (hhead 94 h94) (by decide)
      · exact absurd (hhead 95 h95) (by decide))
  intro n hn
  apply hfree
  simp only [List.mem_append]
  exact Or.inr (Or.inr (Or.inr (Or.inr hn)))

/-- **A rule is found only where it is written as it is looked for.** -/
theorem written_of_found {d : Record} (hip : ∃ bs, IpText r.ip bs) (hclear : Clear sc beyond r)
    (hdb : List.Forall₂ IsRecord db rs) (h : SelectedAt rs r l rule)
    (hfound : rules sc db beyond r.ip r.host r.info = some d) (hkey : d.key = rule.address) :
    Written sc beyond rs r l rule.address := by
  rw [rules_eq hip] at hfound
  have hmem : rule.address ∈ keysOf sc beyond r := hkey ▸ dorules_some hfound
  have hden := h.2.1
  cases l with
  | infoHost => exact trivial
  | host => exact trivial
  | infoIp =>
      obtain ⟨i, n, hi, ha, bs, hn, hipr⟩ := hden
      have hat : 64 ∈ rule.address := by
        rw [ha]
        simp
      have hpre : i ++ [64] <+: rule.address := ⟨n, by rw [ha]; simp⟩
      simp only [keysOf, List.mem_append, List.mem_singleton] at hmem
      -- of the texts that are looked for only those with the info have its @ behind it
      rcases hmem with hm | hm | hm | hm | hm | hm | hm
      · rw [infoKeys, hi] at hm
        rcases List.mem_cons.mp hm with hm | hm
        · exact ⟨i, hi, hm⟩
        · -- a host is no address
          obtain ⟨host, -, heq⟩ := List.mem_map.mp hm
          rw [ha] at heq
          obtain ⟨-, rfl⟩ := List.cons.inj (List.append_cancel_left heq)
          exact absurd List.mem_cons_self (hn.notMem (by decide))
      · obtain ⟨bs', htext, -⟩ := ipKeys_denote hip hm
        exact absurd hat (htext.notMem (by decide))
      · exact absurd hpre (hclear i hi _ (List.mem_append_left _ hm))
      · obtain ⟨-, hat', -⟩ := prefixKeys_denote hm
        exact absurd (hat'.subset hat) (hipr.notMem (by decide))
      · exact absurd hpre (hclear i hi _ (List.mem_append_right _ (List.mem_append_left _ hm)))
      · exact absurd hpre (hclear i hi _ (List.mem_append_right _ (List.mem_append_right _ hm)))
      · rw [ha] at hm
        simp at hm
  | ip =>
      obtain ⟨bs, htext, -⟩ := hden
      have hplain : ∀ b ∈ [61, 64, 94, 95], b ∉ rule.address :=
        fun b hb => htext.notMem (List.mem_cons_of_mem _ hb)
      rcases keysOf_cases hmem hplain htext.bytes.1 with hm | hm
      · by_cases hl : rule.address = lookupIp sc r.ip
        · exact Or.inl hl
        · have h58 : 58 ∈ r.ip := by
            by_contra h58
            rw [ipKeys, if_neg h58, List.mem_singleton] at hm
            exact hl (hm.trans (if_neg h58).symm)
          have hkeys : ipKeys sc r = [lookupIp sc r.ip, r.ip] := if_pos h58
          rw [hkeys] at hm
          rcases List.mem_cons.mp hm with hm | hm
          · exact absurd hm hl
          · -- all the digits were looked for before it
            refine Or.inr ⟨List.mem_singleton.mp hm, ?_⟩
            have hcut : keysOf sc beyond r = (infoKeys sc r ++ [lookupIp sc r.ip]) ++
                ([r.ip] ++ (hostKeys r ++ (prefixKeys r ++ (bitsKeys sc beyond r ++
                  (suffixKeys r ++ [[]]))))) := by
              rw [keysOf, hkeys]
              simp
            rw [hcut] at hfound
            refine free_before hdb hfound ?_ _ (List.mem_append_right _ List.mem_cons_self)
            rw [hkey, List.mem_append, List.mem_singleton, not_or]
            exact ⟨fun hin => hplain 64 (by decide) (infoKeys_at hin), hl⟩
      · exact absurd (prefixKeys_last hm) htext.last
  | net n =>
      obtain ⟨hplain, hne, hend⟩ := net_text hip hden
      obtain ⟨bs, hipr⟩ := hip
      rcases keysOf_cases hmem hplain hne with hm | hm
      · obtain ⟨bs', htext, -⟩ := ipKeys_denote ⟨bs, hipr⟩ hm
        rcases hend with hdot | hslash
        · exact absurd hdot htext.last
        · exact absurd hslash (htext.notMem (by decide))
      · obtain ⟨h58, hdot⟩ := prefixKeys_denote hm
        refine ⟨h58, ?_⟩
        rcases hden with hden | ⟨t, mask, net, bs', heq, -⟩
        · exact hden
        · have hslash : 47 ∈ rule.address := by
            rw [heq]
            simp
          exact absurd (hdot.1.subset hslash) (hipr.notMem (by decide))
  | suffix n =>
      obtain ⟨host, s, -, -, -, -, ha⟩ := hden
      refine noBits_of_found hip hdb h (Nat.lt_succ_self 4) hfound hkey fun b hb => ?_
      rw [ha] at hb
      exact (Option.some.inj hb).symm
  | equals =>
      refine noBits_of_found hip hdb h (by decide) hfound hkey fun b hb => ?_
      rw [hden.2] at hb
      exact (Option.some.inj hb).symm
  | empty =>
      refine noBits_of_found hip hdb h (by decide) hfound hkey fun b hb => ?_
      have ha : rule.address = [] := hden
      rw [ha] at hb
      cases hb

/-- Where none is found, no bit string is a rule's. -/
theorem noBits_of_none (hip : ∃ bs, IpText r.ip bs) (hdb : List.Forall₂ IsRecord db rs)
    (h : rules sc db beyond r.ip r.host r.info = none) : NoBits sc beyond rs r := by
  rw [rules_eq hip] at h
  intro n hn
  apply free_of_dorules hdb h
  simp only [keysOf, List.mem_append]
  exact Or.inr (Or.inr (Or.inr (Or.inr (Or.inl hn))))

end IndimailMta.Tcprules
