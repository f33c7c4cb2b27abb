import Mathlib.Data.Nat.Find
import IndimailMta.Tcprules.Follows

/-!
# Compiled rules mean what the manual says

There is one rule that is followed, or none. Where no line is dropped, and the rule that is
followed is written as it is looked for, `rules` finds its record and calls back with its
instructions (`Means`); and it finds that record only there.
-/

namespace IndimailMta.Tcprules

open IndimailMta Lines

variable {sc : Scanners} {db : List Record} {rs : List Rule} {r : Remote} {rule : Rule}
  {l k : Level} {beyond text a : Bytes}

/-! ## The rule that is followed -/

/-- No net and no suffix is longer than this. -/
def longest (r : Remote) : Nat := 8 * r.ip.length + 224 + (r.host.getD []).length

theorem IpText.length_le {t bs : Bytes} (h : IpText t bs) : bs.length ≤ 16 := by
  rcases h with h | h
  · have := h.2
    omega
  · exact h.length.le

theorem place_le (h : Denotes r l a) : l.place.2 ≤ longest r := by
  cases l with
  | net n =>
      show n ≤ longest r
      rcases h with ⟨hpre, -, rfl⟩ | ⟨t, mask, net, bs, -, -, -, -, hip, hle, -⟩
      · have hcount : a.count 46 ≤ r.ip.length := List.count_le_length.trans hpre.length_le
        rw [prefixBits, longest]
        split <;> omega
      · have := hip.length_le
        rw [longest]
        omega
  | suffix n =>
      show n ≤ longest r
      obtain ⟨h, s, hh, hs, -, rfl, -⟩ := h
      have := hs.length_le
      rw [longest, hh, Option.getD_some]
      omega
  | _ => exact Nat.zero_le _

/-- The number of a level, among those of a connection. -/
def rank (r : Remote) (l : Level) : Nat :=
  l.place.1 * (longest r + 1) + (longest r - l.place.2)

theorem rank_lt (h : k.before l) (hk : k.place.2 ≤ longest r) : rank r k < rank r l := by
  rw [rank, rank]
  rcases h with h | ⟨h1, h2⟩
  · have := Nat.mul_le_mul_right (longest r + 1) (Nat.succ_le_of_lt h)
    rw [Nat.succ_mul] at this
    omega
  · rw [h1]
    omega

/-- **There is a rule that is followed, or none that stands for the connection.** -/
theorem exists_selected (rs : List Rule) (r : Remote) : ∃ o, Selected rs r o := by
  classical
  by_cases h : ∃ n l, ∃ x ∈ rs, Denotes r l x.address ∧ rank r l = n
  · -- the level of the lowest number
    obtain ⟨l, x, hx, hd, hrank⟩ := Nat.find_spec h
    have hfirst : ∃ pre rule post, rs = pre ++ rule :: post ∧
        (∀ x ∈ pre, ¬ Denotes r l x.address) ∧ Denotes r l rule.address := by
      clear hrank h
      induction rs with
      | nil => exact absurd hx List.not_mem_nil
      | cons y rs ih =>
          by_cases hy : Denotes r l y.address
          · exact ⟨[], y, rs, rfl, fun _ hin => absurd hin List.not_mem_nil, hy⟩
          · rcases List.mem_cons.mp hx with rfl | hx
            · exact absurd hd hy
            · obtain ⟨pre, rule, post, rfl, hpre, hrule⟩ := ih hx
              refine ⟨y :: pre, rule, post, rfl, ?_, hrule⟩
              rw [List.forall_mem_cons]
              exact ⟨hy, hpre⟩
    obtain ⟨pre, rule, post, heq, hpre, hrule⟩ := hfirst
    refine ⟨some rule, .some l rule ⟨⟨pre, post, heq, hpre⟩, hrule, ?_⟩⟩
    intro k hk y hy hden
    have hlt := rank_lt hk (place_le hden)
    rw [hrank] at hlt
    exact Nat.find_min h hlt ⟨k, y, hy, hden, rfl⟩
  · refine ⟨none, .none ?_⟩
    intro l x hx hd
    exact h ⟨_, l, x, hx, hd, rfl⟩

theorem place_injective (h : l.place = k.place) : l = k := by
  cases l <;> cases k <;> simp_all [Level.place]

theorem mem_of_selectedAt (h : SelectedAt rs r l rule) : rule ∈ rs := by
  obtain ⟨⟨pre, post, rfl, -⟩, -⟩ := h
  exact List.mem_append_right _ List.mem_cons_self

/-- It is at one level. -/
theorem SelectedAt.level {rule' : Rule} (h : SelectedAt rs r l rule)
    (h' : SelectedAt rs r k rule') : l = k := by
  have hmem := mem_of_selectedAt h
  have hmem' := mem_of_selectedAt h'
  obtain ⟨-, hd, hmin⟩ := h
  obtain ⟨-, hd', hmin'⟩ := h'
  apply place_injective
  rcases Nat.lt_trichotomy l.place.1 k.place.1 with hlt | h1 | hgt
  · exact absurd hd (hmin' l (Or.inl hlt) rule hmem)
  · rcases Nat.lt_trichotomy l.place.2 k.place.2 with hlt | h2 | hgt
    · exact absurd hd' (hmin k (Or.inr ⟨h1.symm, hlt⟩) rule' hmem')
    · exact Prod.ext h1 h2
    · exact absurd hd (hmin' l (Or.inr ⟨h1, hgt⟩) rule hmem)
  · exact absurd hd' (hmin k (Or.inl hgt) rule' hmem')

/-- It is one rule. -/
theorem SelectedAt.unique {rule' : Rule} (h : SelectedAt rs r l rule)
    (h' : SelectedAt rs r k rule') : rule = rule' := by
  obtain rfl := h.level h'
  obtain ⟨⟨pre, post, rfl, hpre⟩, hd, -⟩ := h
  obtain ⟨⟨pre', post', heq, hpre'⟩, hd', -⟩ := h'
  rcases List.append_eq_append_iff.mp heq with ⟨w, rfl, hw⟩ | ⟨w, rfl, hw⟩
  · cases w with
    | nil => exact (List.cons.inj hw).1
    | cons x w =>
        obtain ⟨rfl, -⟩ := List.cons.inj hw
        exact absurd hd (hpre' rule (List.mem_append_right _ List.mem_cons_self))
  · cases w with
    | nil => exact (List.cons.inj hw).1.symm
    | cons x w =>
        obtain ⟨rfl, -⟩ := List.cons.inj hw
        exact absurd hd' (hpre rule' (List.mem_append_right _ List.mem_cons_self))

/-! ## The meaning of a text -/

/-- `tcprules` and `rules` do as the manual says: the records are those of the rules, none of which
is missing, and `rules` calls back with the instructions of the rule that is followed. -/
def Means (sc : Scanners) (beyond text : Bytes) (r : Remote) (db : List Record) : Prop :=
  ∃ rs, Reads sc text rs ∧ List.Forall₂ IsRecord db rs ∧ ∃ o, Selected rs r o ∧
    (rules sc db beyond r.ip r.host r.info).map (fun d => found d.data) =
      o.map fun rule => rule.instructions

/-- And it is the record of that rule that is found. -/
def Finds (sc : Scanners) (beyond text : Bytes) (r : Remote) (db : List Record) : Prop :=
  ∃ rs, Reads sc text rs ∧ List.Forall₂ IsRecord db rs ∧ ∃ o, Selected rs r o ∧
    (rules sc db beyond r.ip r.host r.info).map (fun d => (d.key, found d.data)) =
      o.map fun rule => (rule.address, rule.instructions)

theorem Finds.means (h : Finds sc beyond text r db) : Means sc beyond text r db := by
  obtain ⟨rs, hreads, hdb, o, ho, heq⟩ := h
  refine ⟨rs, hreads, hdb, o, ho, ?_⟩
  have hsnd := congrArg (Option.map Prod.snd) heq
  rwa [Option.map_map, Option.map_map] at hsnd

/-- **The text is written as it is compiled and looked up.** -/
structure AsLookedFor (sc : Scanners) (beyond text : Bytes) (r : Remote) : Prop where
  kept : ∀ line ∈ lines 10 text, ¬ Comment line → KeptLine line
  written : ∀ rs l rule, Reads sc text rs → SelectedAt rs r l rule →
    Written sc beyond rs r l rule.address
  none : ∀ rs, Reads sc text rs → (∀ l, ∀ x ∈ rs, ¬ Denotes r l x.address) →
    NoBits sc beyond rs r

theorem mem_ruleLines {line : Bytes} : line ∈ ruleLines text ↔
    line ∈ lines 10 text ∧ ¬ Comment line := by
  rw [ruleLines, List.mem_filter, decide_eq_true_eq]

theorem finds_of_asLookedFor (h : compile sc beyond text = .ok db)
    (hip : ∃ bs, IpText r.ip bs) (hw : AsLookedFor sc beyond text r) :
    Finds sc beyond text r db := by
  obtain ⟨rs, hreads, hdb⟩ := compile_ok h fun line hl =>
    hw.kept line (mem_ruleLines.mp hl).1 (mem_ruleLines.mp hl).2
  refine ⟨rs, hreads, hdb, ?_⟩
  obtain ⟨o, ho⟩ := exists_selected rs r
  refine ⟨o, ho, ?_⟩
  cases ho with
  | some l rule hsel =>
      obtain ⟨d, hd, hrec⟩ :=
        @rules_selected _ _ _ _ _ _ beyond hip hdb hsel (hw.written rs l rule hreads hsel)
      rw [hd, Option.map_some, Option.map_some, hrec.1, hrec.2]
  | none hno =>
      rw [rules_none hip hdb hno (hw.none rs hreads hno)]
      rfl

theorem asLookedFor_of_finds (h : compile sc beyond text = .ok db)
    (hip : ∃ bs, IpText r.ip bs) (hclear : Clear sc beyond r) (hf : Finds sc beyond text r db) :
    AsLookedFor sc beyond text r := by
  obtain ⟨rs, hreads, hdb, o, ho, heq⟩ := hf
  constructor
  · intro line hl hc
    exact kept_of_reads h hreads hdb line (mem_ruleLines.mpr ⟨hl, hc⟩)
  · intro rs' l rule hreads' hsel
    obtain rfl := reads_unique hreads hreads'
    cases ho with
    | some l' rule' hsel' =>
        obtain rfl := hsel.unique hsel'
        obtain ⟨d, hd, hkey⟩ := Option.map_eq_some_iff.mp heq
        exact written_of_found hip hclear hdb hsel hd (Prod.mk.inj hkey).1
    | none hno => exact absurd hsel.2.1 (hno l rule (mem_of_selectedAt hsel))
  · intro rs' hreads' hno
    obtain rfl := reads_unique hreads hreads'
    cases ho with
    | some l rule hsel => exact absurd hsel.2.1 (hno l rule (mem_of_selectedAt hsel))
    | none _ => exact noBits_of_none hip hdb (Option.map_eq_none_iff.mp heq)

/-- **Compiled rules mean what the manual says, where they are written as they are looked for**; and
apart from connections whose information begins as a later text, the rule that is followed is
found nowhere else. -/
theorem compiled_means_iff (h : compile sc beyond text = .ok db)
    (hip : ∃ bs, IpText r.ip bs) :
    (AsLookedFor sc beyond text r → Means sc beyond text r db) ∧
    (Clear sc beyond r → (Finds sc beyond text r db ↔ AsLookedFor sc beyond text r)) :=
  ⟨fun hw => (finds_of_asLookedFor h hip hw).means, fun hclear =>
    ⟨asLookedFor_of_finds h hip hclear, finds_of_asLookedFor h hip⟩⟩

/-! ## Two texts -/

def hexChar (d : Nat) : Byte := if d < 10 then UInt8.ofNat (48 + d) else UInt8.ofNat (87 + d)

theorem hexChar_spec : ∀ d < 16, isHex (hexChar d) = true ∧ hexDigit (hexChar d) = d := by
  decide

/-- Scanners that read decimal and hexadecimal digits. -/
def scanners : Scanners where
  toNumerals := decimal
  scan_eq := ulongs.scan_eq
  scanXlong s := ((s.takeWhile isHex).length, hexValue (s.takeWhile isHex))
  fmtHexbyte b := [hexChar (b.toNat / 16), hexChar (b.toNat % 16)]
  scan_hex t rest _ ht hr := by
    have htake : (t ++ rest).takeWhile isHex = t := by
      have htail : rest.takeWhile isHex = [] := by
        cases rest with
        | nil => rfl
        | cons b bs => rw [List.takeWhile_cons_of_neg (by simp [hr b rfl])]
      rw [List.takeWhile_append_of_pos ht, htail, List.append_nil]
    rw [htake]
  hexbyte_length _ := rfl
  hexbyte_isHex b x hx := by
    have hb := UInt8.toNat_lt b
    rcases List.mem_cons.mp hx with rfl | hx
    · exact (hexChar_spec _ (by omega)).1
    · rw [List.mem_singleton.mp hx]
      exact (hexChar_spec _ (by omega)).1
  hexbyte_value a b := by
    have ha := UInt8.toNat_lt a
    have hb := UInt8.toNat_lt b
    simp only [hexValue, List.cons_append, List.nil_append, List.foldl_cons, List.foldl_nil,
      (hexChar_spec (a.toNat / 16) (by omega)).2, (hexChar_spec (a.toNat % 16) (by omega)).2,
      (hexChar_spec (b.toNat / 16) (by omega)).2, (hexChar_spec (b.toNat % 16) (by omega)).2]
    omega

/-- A connection from 10.1.2.3. -/
def remote : Remote := ⟨asc "10.1.2.3", none, none⟩

theorem ip4_remote : IpText remote.ip [10, 1, 2, 3] := by
  refine Or.inl ⟨?_, rfl⟩
  have h10 : Octet (asc "10") 10 := ⟨by decide, by decide, List.all_eq_true.mp rfl, rfl⟩
  have h1 : Octet (asc "1") 1 := ⟨by decide, by decide, List.all_eq_true.mp rfl, rfl⟩
  have h2 : Octet (asc "2") 2 := ⟨by decide, by decide, List.all_eq_true.mp rfl, rfl⟩
  have h3 : Octet (asc "3") 3 := ⟨by decide, by decide, List.all_eq_true.mp rfl, rfl⟩
  exact .cons h10 (.cons h1 (.cons h2 (.one h3)))

/-- The empty address stands for a connection at the last level only. -/
theorem denotes_nil (h : Denotes r l []) : l = .empty := by
  cases l with
  | infoIp =>
      obtain ⟨i, n, -, h, -⟩ := h
      simp at h
  | infoHost =>
      obtain ⟨i, n, -, -, h⟩ := h
      simp at h
  | ip =>
      obtain ⟨bs, h, -⟩ := h
      exact absurd rfl h.bytes.1
  | host =>
      obtain ⟨n, -, h⟩ := h
      simp at h
  | net n =>
      rcases h with ⟨-, h, -⟩ | ⟨t, mask, net, bs, h, -⟩
      · simp at h
      · simp at h
  | suffix n =>
      obtain ⟨n, s, -, -, -, -, h⟩ := h
      simp at h
  | equals => exact absurd h.2 (by simp)
  | empty => rfl

/-- The net stands for the connection at no level before its own. -/
theorem net_first {k : Level} (hk : k.before (.net 8)) :
    ¬ Denotes remote k (asc "10.0.0.0/8") := by
  intro hd
  cases k with
  | infoIp =>
      obtain ⟨i, n, hi, -⟩ := hd
      cases hi
  | infoHost =>
      obtain ⟨i, n, hi, -⟩ := hd
      cases hi
  | ip =>
      obtain ⟨bs, hip, -⟩ := hd
      have h47 : ¬ IpByte 47 := by
        rintro (h | h | h) <;> exact absurd h (by decide)
      exact h47 (hip.bytes.2 47 (by decide))
  | host =>
      obtain ⟨h, hh, -⟩ := hd
      cases hh
  | net n =>
      have hn : 8 < n := by
        rcases hk with hk | ⟨-, hk⟩
        · exact absurd hk (Nat.lt_irrefl 4)
        · exact hk
      rcases hd with ⟨-, hd, -⟩ | ⟨t, mask, net, bs, heq, -, -, hvalue, -⟩
      · exact absurd hd (by decide)
      · -- one slash, and the mask after it
        have hparts : asc "10.0.0.0" ++ 47 :: asc "8" = t ++ 47 :: mask := heq
        obtain ⟨-, -, rfl⟩ :=
          (List.append_cons_inj_of_notMem (by decide) (by decide)).mp hparts
        have h8 : digitsValue (asc "8") = 8 := by decide
        omega
  | suffix n =>
      rcases hk with hk | ⟨hk, -⟩
      · exact absurd hk (by simp [Level.place])
      · exact absurd hk (by simp [Level.place])
  | equals => exact hd.1 rfl
  | empty =>
      have hd' : asc "10.0.0.0/8" = [] := hd
      exact absurd hd' (by decide)

/-- **A net is not found**: the connection is to be denied, and is not. -/
theorem net_not_found : ∃ db,
    compile scanners [] (asc "10.0.0.0/8:deny\n:allow\n") = .ok db ∧
      (∃ bs, IpText remote.ip bs) ∧
      ¬ Means scanners [] (asc "10.0.0.0/8:deny\n:allow\n") remote db := by
  refine ⟨[⟨asc "10.0.0.0/8", [68, 0]⟩, ⟨[], []⟩], by decide +kernel, ⟨_, ip4_remote⟩, ?_⟩
  rintro ⟨rs, -, hdb, o, ho, heq⟩
  have hfound : rules scanners [⟨asc "10.0.0.0/8", [68, 0]⟩, ⟨[], []⟩] [] remote.ip remote.host
      remote.info = some ⟨[], []⟩ := by decide
  rw [hfound, Option.map_some] at heq
  cases hdb with
  | @cons _ x _ rs hx hrest =>
      cases hrest with
      | @cons _ y _ rs hy hrest =>
          cases hrest
          have hxa : x.address = asc "10.0.0.0/8" := hx.1.symm
          have hya : y.address = [] := hy.1.symm
          have hsel : SelectedAt [x, y] remote (.net 8) x := by
            refine ⟨⟨[], [y], rfl, fun _ h => absurd h List.not_mem_nil⟩, ?_, ?_⟩
            · have h10 : Octet (asc "10") 10 := ⟨by decide, by decide, List.all_eq_true.mp rfl, rfl⟩
              have h0 : Octet (asc "0") 0 := ⟨by decide, by decide, List.all_eq_true.mp rfl, rfl⟩
              refine Or.inr ⟨asc "10.0.0.0", asc "8", [10, 0, 0, 0], [10, 1, 2, 3], hxa, by decide,
                List.all_eq_true.mp rfl, by decide, ip4_remote, by decide, Or.inr ⟨?_, rfl, by decide⟩,
                by decide, by decide⟩
              exact .cons h10 (.cons h0 (.cons h0 (.one h0)))
            · intro k hk z hz hd
              rw [List.mem_cons, List.mem_singleton] at hz
              rcases hz with rfl | rfl
              · exact net_first hk (hxa ▸ hd)
              · rw [hya] at hd
                rw [denotes_nil hd] at hk
                rcases hk with hk | ⟨hk, -⟩
                · exact absurd hk (by simp [Level.place])
                · exact absurd hk (by simp [Level.place])
          cases ho with
          | some l rule h =>
              rw [← hsel.unique h, Option.map_some, Option.some.injEq, ← hx.2] at heq
              exact absurd heq (by decide)
          | none hno => exact hno _ x List.mem_cons_self hsel.2.1

/-! ### Rules of several levels -/

/-- The 16 octets that the scanner makes of an address. -/
theorem SameIp.scan {t ip : Bytes} (h : SameIp t ip) :
    (rblip6_scan sc t).2 = (rblip6_scan sc ip).2 := by
  have hscan : ∀ {t bs : Bytes}, IpText t bs → (rblip6_scan sc t).2 =
      if bs.length = 4 then (if bs = [0, 0, 0, 0] then List.replicate 12 0
        else List.replicate 10 0 ++ [255, 255]) ++ bs else bs := by
    intro t bs h
    rcases h with h4 | h6
    · rw [if_pos h4.2, rblip6_scan, rblip4_scan_ip4 h4]
    · rw [if_neg (by rw [h6.length]; decide)]
      exact (rblip6_scan_ip6 h6).2
  obtain ⟨bs, ht, hip⟩ := h
  rw [hscan ht, hscan hip]

/-- A line whose address has no colon. -/
theorem keptLine_plain {line a t : Bytes} {i : Instructions}
    (h : 58 ∉ a ∧ stripped line = a ++ 58 :: (verb i ++ t)) (ht : OpsText i.ops t)
    (hops : ∀ op ∈ i.ops, OpOk op) (ha : KeptAddress a) : KeptLine line := by
  refine ⟨a, i, ⟨t, ht, h.2, ?_⟩, hops, ha⟩
  intro p q hpq
  refine absurd ?_ h.1
  rw [hpq]
  simp

/-- The same, without instructions and without a dash. -/
theorem keptLine_bare {line a : Bytes} {d : Bool}
    (h : 58 ∉ a ∧ stripped line = a ++ 58 :: (verb ⟨d, []⟩ ++ [])) (ha : 45 ∉ a) :
    KeptLine line :=
  keptLine_plain h .nil (fun _ hop => absurd hop List.not_mem_nil) (Or.inl (Or.inr (Or.inr ha)))

theorem rules_of_records (h : List.Forall₂ IsRecord db rs) :
    rs = db.map fun d => ⟨d.key, found d.data⟩ := by
  induction h with
  | nil => rfl
  | @cons d x db rs hx hrest ih =>
      rw [List.map_cons, ← ih, hx.1, hx.2]

/-- Two prefixes, a host suffix and the empty address stand for the connection. -/
def severalLines : List Bytes :=
  [asc "# nets", asc "bob@10.1.7.9:allow", asc "=mail.x.org:allow",
    asc "10.1.2.8-9:allow,RELAY=\"y\",!A", asc "10.:allow", asc "10.1.:deny,A=\"1\"",
    asc "=.x.org:allow", asc ":deny"]

def several : Bytes := severalLines.flatMap (· ++ [10])

def severalRecords : List Record :=
  [⟨asc "bob@10.1.7.9", []⟩, ⟨asc "=mail.x.org", []⟩,
    ⟨asc "10.1.2.8", asc "+RELAY=y" ++ [0] ++ asc "-A" ++ [0]⟩,
    ⟨asc "10.1.2.9", asc "+RELAY=y" ++ [0] ++ asc "-A" ++ [0]⟩, ⟨asc "10.", []⟩,
    ⟨asc "10.1.", [68, 0] ++ asc "+A=1" ++ [0]⟩, ⟨asc "=.x.org", []⟩, ⟨[], [68, 0]⟩]

def severalRules : List Rule := severalRecords.map fun d => ⟨d.key, found d.data⟩

/-- A connection from 10.1.7.8. -/
def caller : Remote := ⟨asc "10.1.7.8", some (asc "a.x.org"), some (asc "bob")⟩

theorem ip4_caller : IpText caller.ip [10, 1, 7, 8] := by
  refine Or.inl ⟨?_, rfl⟩
  have h10 : Octet (asc "10") 10 := ⟨by decide, by decide, List.all_eq_true.mp rfl, rfl⟩
  have h1 : Octet (asc "1") 1 := ⟨by decide, by decide, List.all_eq_true.mp rfl, rfl⟩
  have h7 : Octet (asc "7") 7 := ⟨by decide, by decide, List.all_eq_true.mp rfl, rfl⟩
  have h8 : Octet (asc "8") 8 := ⟨by decide, by decide, List.all_eq_true.mp rfl, rfl⟩
  exact .cons h10 (.cons h1 (.cons h7 (.one h8)))

theorem compile_several : compile scanners [] several = .ok severalRecords := by
  rw [several, severalLines, severalRecords]
  repeat rw [asc_ofList]
  decide +kernel

theorem several_kept : ∀ line ∈ lines 10 several, ¬ Comment line → KeptLine line := by
  have hnl : ∀ l ∈ severalLines, (10 : Byte) ∉ l := by decide
  rw [several, lines_flatMap hnl, List.forall_mem_map]
  simp only [severalLines, List.forall_mem_cons]
  refine ⟨fun h => absurd (Or.inl rfl) h, fun _ => ?_, fun _ => ?_, fun _ => ?_, fun _ => ?_,
    fun _ => ?_, fun _ => ?_, fun _ => ?_, fun line hl => absurd hl List.not_mem_nil⟩
  · exact @keptLine_bare _ (asc "bob@10.1.7.9") false (by decide) (by decide)
  · exact @keptLine_bare _ (asc "=mail.x.org") false (by decide) (by decide)
  · have hset : OpText (.set (asc "RELAY") (asc "y")) (asc ",RELAY=\"y\"") :=
      @OpText.set (asc "RELAY") (asc "y") 34 (by decide) (by decide)
    have hunset : OpText (.unset (asc "A")) (asc ",!A") :=
      @OpText.unset (asc "A") (by decide) (by decide)
    have hrange : IsRange (asc "10.1.2.8-9") (asc "10.1.2.") (asc "8") (asc "9") [] :=
      ⟨by decide, by decide, by decide, List.all_eq_true.mp rfl, List.all_eq_true.mp rfl, Or.inl rfl⟩
    exact @keptLine_plain _ (asc "10.1.2.8-9") (asc ",RELAY=\"y\",!A")
      ⟨false, [.set (asc "RELAY") (asc "y"), .unset (asc "A")]⟩ (by decide)
      (.cons hset (.cons hunset .nil)) (by decide)
      (Or.inr ⟨_, _, _, _, hrange, by decide, by decide, by decide⟩)
  · exact @keptLine_bare _ (asc "10.") false (by decide) (by decide)
  · have hset : OpText (.set (asc "A") (asc "1")) (asc ",A=\"1\"") :=
      @OpText.set (asc "A") (asc "1") 34 (by decide) (by decide)
    exact @keptLine_plain _ (asc "10.1.") (asc ",A=\"1\"") ⟨true, [.set (asc "A") (asc "1")]⟩
      (by decide) (.cons hset .nil) (by decide)
      (Or.inl (Or.inr (Or.inr (by decide))))
  · exact @keptLine_bare _ (asc "=.x.org") false (by decide) (by decide)
  · exact @keptLine_bare _ [] true (by decide) (by decide)

/-- None of the rules stands for the connection before the longer prefix. -/
theorem several_first {k : Level} (hk : k.before (.net 16)) :
    ∀ x ∈ severalRules, ¬ Denotes caller k x.address := by
  intro x hx hd
  have hslash : ∀ x ∈ severalRules, 47 ∉ x.address := by decide
  cases k with
  | infoIp =>
      obtain ⟨i, n, hi, ha, hsame⟩ := hd
      obtain rfl := Option.some.inj hi
      have hno : ∀ x ∈ severalRules, x.address.take 4 = asc "bob" ++ [64] →
          (rblip6_scan scanners (x.address.drop 4)).2 ≠ (rblip6_scan scanners caller.ip).2 := by
        decide
      refine hno x hx ?_ ?_
      · rw [ha]
        rfl
      · rw [ha]
        exact hsame.scan
  | infoHost =>
      obtain ⟨i, h, hi, hh, ha⟩ := hd
      obtain rfl := Option.some.inj hi
      obtain rfl := Option.some.inj hh
      have hno : ∀ x ∈ severalRules, x.address ≠ asc "bob@=a.x.org" := by decide
      exact hno x hx ha
  | ip =>
      have hno : ∀ x ∈ severalRules,
          (rblip6_scan scanners x.address).2 ≠ (rblip6_scan scanners caller.ip).2 := by
        decide
      exact hno x hx (SameIp.scan hd)
  | host =>
      obtain ⟨h, hh, ha⟩ := hd
      obtain rfl := Option.some.inj hh
      have hno : ∀ x ∈ severalRules, x.address ≠ asc "=a.x.org" := by decide
      exact hno x hx ha
  | net n =>
      have hn : 16 < n := by
        rcases hk with hk | ⟨-, hk⟩
        · exact absurd hk (Nat.lt_irrefl 4)
        · exact hk
      rcases hd with ⟨hpre, -, hbits⟩ | ⟨t, mask, net, bs, heq, -⟩
      · have hshort : ∀ x ∈ severalRules, x.address <+: caller.ip →
            prefixBits caller.ip x.address ≤ 16 := by decide
        have hle := hshort x hx hpre
        omega
      · refine hslash x hx ?_
        rw [heq]
        simp
  | suffix n =>
      rcases hk with hk | ⟨hk, -⟩
      · exact absurd hk (by simp [Level.place])
      · exact absurd hk (by simp [Level.place])
  | equals =>
      rcases hk with hk | ⟨hk, -⟩
      · exact absurd hk (by simp [Level.place])
      · exact absurd hk (by simp [Level.place])
  | empty =>
      rcases hk with hk | ⟨hk, -⟩
      · exact absurd hk (by simp [Level.place])
      · exact absurd hk (by simp [Level.place])

theorem several_selected : SelectedAt severalRules caller (.net 16)
    ⟨asc "10.1.", ⟨true, [.set (asc "A") (asc "1")]⟩⟩ := by
  refine ⟨⟨severalRules.take 5, severalRules.drop 6, by rfl, ?_⟩, Or.inl ⟨by decide, by decide, by decide⟩,
    fun k hk => several_first hk⟩
  intro x hx hd
  rcases hd with ⟨hpre, -, hbits⟩ | ⟨t, mask, net, bs, heq, -⟩
  · have hno : ∀ x ∈ severalRules.take 5, x.address <+: caller.ip →
        prefixBits caller.ip x.address ≠ 16 := by decide
    exact hno x hx hpre hbits
  · have hslash : ∀ x ∈ severalRules.take 5, 47 ∉ x.address := by decide
    refine hslash x hx ?_
    rw [heq]
    simp

theorem several_asLookedFor : AsLookedFor scanners [] several caller := by
  have hrules : ∀ rs, Reads scanners several rs → rs = severalRules := by
    intro rs hreads
    obtain ⟨rs', hreads', hrec⟩ := compile_ok compile_several fun line hl =>
      several_kept line (mem_ruleLines.mp hl).1 (mem_ruleLines.mp hl).2
    exact (reads_unique hreads hreads').trans (rules_of_records hrec)
  refine ⟨several_kept, ?_, ?_⟩
  · intro rs l rule hreads hsel
    obtain rfl := hrules rs hreads
    obtain rfl := several_selected.level hsel
    obtain rfl := several_selected.unique hsel
    exact ⟨by decide, by decide, by decide, by decide⟩
  · intro rs hreads hno
    obtain rfl := hrules rs hreads
    exact absurd several_selected.2.1 (hno _ _ (mem_of_selectedAt several_selected))

theorem compiled_means_iff_several : Means scanners [] several caller severalRecords ∧
    Finds scanners [] several caller severalRecords :=
  ⟨(compiled_means_iff compile_several ⟨_, ip4_caller⟩).1 several_asLookedFor,
    ((compiled_means_iff compile_several ⟨_, ip4_caller⟩).2 (by
      intro i hi
      obtain rfl := Option.some.inj hi
      decide)).mpr several_asLookedFor⟩

end IndimailMta.Tcprules
