import IndimailMta.Smtpd.Commands

/-!
# The addresses of MAIL and RCPT

Every lookup in a list puts the address it looks up into lower case, where it stands. What MAIL
stores and what RCPT adds is therefore the address of the command, rewritten and in lower case,
with one exception: a good recipient that `$CHECKRECIPIENT` does not look at keeps the suffix of
`relayclient` as it is.
-/

namespace IndimailMta.Smtpd

open IndimailMta

/-! ## Lower case -/

theorem lower_lower (ch : Byte) : lower (lower ch) = lower ch := by
  unfold lower
  by_cases h : (65 ≤ ch && ch ≤ 90) = true
  · rw [if_pos h]
    simp only [Bool.and_eq_true, decide_eq_true_eq, UInt8.le_iff_toNat_le] at h
    refine if_neg ?_
    simp only [Bool.and_eq_true, decide_eq_true_eq, UInt8.le_iff_toNat_le, UInt8.toNat_add]
    have h65 : (65 : Byte).toNat = 65 := rfl
    have h90 : (90 : Byte).toNat = 90 := rfl
    have h32 : (32 : Byte).toNat = 32 := rfl
    omega
  · rw [if_neg h, if_neg h]

theorem map_lower_lower (s : Bytes) : (s.map lower).map lower = s.map lower := by
  rw [List.map_map]
  exact List.map_congr_left fun ch _ => lower_lower ch

theorem lower_eq_zero (ch : Byte) : lower ch = 0 ↔ ch = 0 := by
  unfold lower
  split
  · rename_i h
    simp only [Bool.and_eq_true, decide_eq_true_eq, UInt8.le_iff_toNat_le] at h
    rw [← UInt8.toNat_inj, ← UInt8.toNat_inj, UInt8.toNat_add]
    have h65 : (65 : Byte).toNat = 65 := rfl
    have h90 : (90 : Byte).toNat = 90 := rfl
    have h32 : (32 : Byte).toNat = 32 := rfl
    have h0 : (0 : Byte).toNat = 0 := rfl
    omega
  · exact Iff.rfl

theorem cstr_map_lower (s : Bytes) : cstr (s.map lower) = (cstr s).map lower := by
  rw [cstr, cstr, List.takeWhile_map]
  congr 2
  funext ch
  simp [lower_eq_zero]

/-! ## Lookups -/

/-- A lookup changes the case of the address and nothing else. -/
theorem address_match_ok {list : Bytes → Match} {addr a : Bytes} {hit : Option Refusal}
    (h : address_match list addr hit = .ok a) :
    a = addr.map lower ∧ (list a = .found ∨ list a = .absent) := by
  unfold address_match at h
  dsimp only at h
  cases hl : list (addr.map lower) with
  | found =>
      rw [hl] at h
      cases hit with
      | some r => cases h
      | none =>
          obtain rfl := Except.ok.inj h
          exact ⟨rfl, .inl hl⟩
  | absent =>
      rw [hl] at h
      obtain rfl := Except.ok.inj h
      exact ⟨rfl, .inr hl⟩
  | memory =>
      rw [hl] at h
      cases h
  | error =>
      rw [hl] at h
      cases h

/-! ## The sender -/

theorem mail_sender_ok {site : Site} {b : Bool} {addr a : Bytes} (h : mail_sender site b addr = .ok a) :
    a = addr.map lower := by
  obtain ⟨_, -, h⟩ := except_bind_ok.mp h
  obtain ⟨a₁, h₁, h⟩ := except_bind_ok.mp h
  obtain ⟨a₂, h₂, h⟩ := except_bind_ok.mp h
  obtain ⟨_, -, h⟩ := except_bind_ok.mp h
  obtain ⟨_, -, h⟩ := except_bind_ok.mp h
  obtain ⟨rfl, -⟩ := address_match_ok h₁
  obtain ⟨rfl, -⟩ := address_match_ok h₂
  split at h
  · rw [(address_match_ok h).1]
    simp only [map_lower_lower]
  · rw [← Except.ok.inj h, map_lower_lower]

theorem mail_address_ok {cfg : Config} {site : Site} {b : Bool} {arg a : Bytes}
    (h : mail_address cfg site b arg = .ok a) :
    ∃ addr, addrparse site arg = some addr ∧ a = unwrapBatv site addr := by
  obtain ⟨_, -, h⟩ := except_bind_ok.mp h
  obtain ⟨_, -, h⟩ := except_bind_ok.mp h
  cases hp : addrparse site arg with
  | none =>
      rw [hp] at h
      cases h
  | some addr =>
      rw [hp] at h
      exact ⟨addr, rfl, (Except.ok.inj h).symm⟩

theorem senderOf_lower (site : Site) (arg : Bytes) :
    ((senderOf site arg).getD []).map lower = (senderOf site arg).getD [] := by
  cases hp : addrparse site arg with
  | none => rw [senderOf, hp]; rfl
  | some addr => rw [senderOf, hp, Option.map_some, Option.getD_some, cstr_map_lower, map_lower_lower]

/-- What is stored is in lower case. -/
theorem Stores.lowered {cfg : Config} {site : Site} {s : Session} {arg addr : Bytes}
    (h : Stores cfg site s arg addr) : (cstr addr).map lower = cstr addr := by
  obtain ⟨a, -, -, hs⟩ := h.checks
  rw [mail_sender_ok hs, cstr_map_lower, map_lower_lower]

/-- What is stored is the sender the command names. -/
theorem Stores.senderOf {cfg : Config} {site : Site} {s : Session} {arg addr : Bytes}
    (h : Stores cfg site s arg addr) : senderOf site arg = some (cstr addr) := by
  obtain ⟨a, ha, -, hs⟩ := h.checks
  obtain ⟨b, hb, rfl⟩ := mail_address_ok ha
  rw [Smtpd.senderOf, hb, mail_sender_ok hs]
  rfl

/-! ## RCPT and its own address -/

/-- `srsreverse` fails, and the command goes on with the address as it is. -/
def SrsStray (site : Site) (addr : Bytes) : Prop :=
  do_srs site addr ∧ (site.srsreverse addr = .failed ∨ site.srsreverse addr = .notConfigured)

/-- The library that knows the virtual users is missing when the mailbox is looked for, and the command
goes on. -/
structure SqlStray (cfg : Config) (site : Site) (addr : Bytes) : Prop where
  virtual : cfg.hasvirtual
  demanded : site.CHECKRECIPIENT = some (some 1) ∨ site.CHECKRECIPIENT = some (some 2)
  remote : isLocal cfg addr = false
  library : site.check_user_sql addr = .library

/-- rcpthosts is asked about a recipient. -/
def Asked (site : Site) (chkdomok : Bool) : Prop := ¬ chkdomok ∧ ¬ site.AUTH_ALL

/-- `$CHECKRECIPIENT` looks at a recipient: rcpthosts has its domain, or the certificate of the client
stands in for it. -/
def Looked (cfg : Config) (site : Site) (chkdomok : Bool) (base : Bytes) : Prop :=
  Asked site chkdomok ∧ (site.rcpthosts base = 1 ∨
    site.rcpthosts base = 0 ∧ cfg.ssl ∧ site.tlsclients = .listed)

/-- A RCPT whose own address is answered with an error, and that goes on. -/
def Stray (cfg : Config) (site : Site) (chkdomok : Bool) (suffix arg : Bytes) : Prop :=
  ∃ addr, addrparse site arg = some addr ∧
    (SrsStray site (recipientUnsigned site addr) ∨
      site.gdrcpt (recipientBase site addr) ≠ .found ∧
        Looked cfg site chkdomok (recipientBase site addr) ∧
        SqlStray cfg site ((recipientBase site addr ++ suffix).map lower))

section Address

variable {cfg : Config} {site : Site}

theorem rcpt_batv_ok {s : Session} {addr a : Bytes}
    (h : rcpt_batv site s addr = .ok a) :
    a = if site.batvok then (rcpt_signature site addr).address addr else addr := by
  unfold rcpt_batv at h
  cases hb : site.batvok with
  | false => simpa [hb, eq_comm] using h
  | true =>
      simp only [hb, not_true_eq_false, if_false, if_true] at h ⊢
      split at h
      · exact (Except.ok.inj h).symm
      · split at h
        · exact (Except.ok.inj h).symm
        · split at h
          · cases h
          · exact (Except.ok.inj h).symm
        · cases h
        · cases h

theorem rcpt_lists_ok {mailfrom addr : Bytes} {p : Bytes × Int}
    (h : rcpt_lists site mailfrom addr = .ok p) :
    p = (addr.map lower, if site.gdrcpt (addr.map lower) = .found then 4 else 0) := by
  obtain ⟨_, -, h⟩ := except_bind_ok.mp h
  obtain ⟨a, ha, h⟩ := except_bind_ok.mp h
  obtain ⟨rfl, -⟩ := address_match_ok ha
  obtain ⟨_, -, h⟩ := except_bind_ok.mp h
  obtain ⟨_, -, h⟩ := except_bind_ok.mp h
  exact (Except.ok.inj h).symm

theorem rcpt_last_ok {s : Session} {isgoodrcpt : Int} {addr a : Bytes}
    (h : rcpt_last site s isgoodrcpt addr = .ok a) :
    a = if isgoodrcpt ≠ 4 then addr.map lower else addr := by
  obtain ⟨_, -, h⟩ := except_bind_ok.mp h
  obtain ⟨a', ha, h⟩ := except_bind_ok.mp h
  obtain ⟨_, -, h⟩ := except_bind_ok.mp h
  obtain ⟨_, -, h⟩ := except_bind_ok.mp h
  obtain ⟨_, -, h⟩ := except_bind_ok.mp h
  obtain ⟨_, -, h⟩ := except_bind_ok.mp h
  obtain rfl := Except.ok.inj h
  split at ha
  · rename_i hne
    rw [if_pos hne, (address_match_ok ha).1]
  · rename_i heq
    rw [if_neg heq, ← Except.ok.inj ha]

/-- What RCPT has found out when it comes to `$CHECKRECIPIENT`: `allowed_rcpthosts`, `isgoodrcpt` and
the address of `r`, with the suffix of `u`, and rcpthosts asked as `w` says. -/
structure Before (cfg : Config) (site : Site) (addr : Bytes) (u w : Session)
    (r : Int × Int × Bytes) : Prop where
  unasked : ¬ Asked site w.chkdomok → r.1 = 0
  asked : Asked site w.chkdomok → r.1 = site.rcpthosts (recipientBase site addr) ∨
    site.rcpthosts (recipientBase site addr) = 0 ∧ (cfg.ssl ∧ site.tlsclients = .listed) ∧
      u.relayclient = some []
  good : r.2.1 = if site.gdrcpt (recipientBase site addr) = .found then 4 else 0
  address : r.2.2 = recipientBase site addr ++ u.relayclient.getD []

theorem Before.looked {addr : Bytes} {u w : Session} {r : Int × Int × Bytes}
    (h : Before cfg site addr u w r) (h1 : r.1 = 1) :
    Looked cfg site w.chkdomok (recipientBase site addr) ∧
      (site.rcpthosts (recipientBase site addr) = 1 ∨ u.relayclient = some []) := by
  have hasked : Asked site w.chkdomok := by
    by_contra hna
    rw [h.unasked hna] at h1
    cases h1
  rcases h.asked hasked with hr | ⟨h0, hcert, hs⟩
  · exact ⟨⟨hasked, .inl (hr ▸ h1)⟩, .inl (hr ▸ h1)⟩
  · exact ⟨⟨hasked, .inr ⟨h0, hcert⟩⟩, .inr hs⟩

/-- The address that is added: `p` is what is left of it and of `isgoodrcpt` behind `$CHECKRECIPIENT`. -/
theorem Before.given {addr a : Bytes} {u w s : Session} {r : Int × Int × Bytes} {p : Bytes × Int}
    (h : Before cfg site addr u w r)
    (hnone : r.1 ≠ 1 ∨ site.CHECKRECIPIENT = none → p = (r.2.2, r.2.1))
    (hsome : r.1 = 1 → site.CHECKRECIPIENT ≠ none → p.1 = r.2.2.map lower)
    (ha : rcpt_last site s p.2 p.1 = .ok a) :
    a = recipientGiven site w.chkdomok (recipientBase site addr) (u.relayclient.getD []) := by
  obtain rfl := rcpt_last_ok ha
  unfold recipientGiven
  by_cases hc : r.1 = 1 ∧ site.CHECKRECIPIENT ≠ none
  · -- it is in lower case already
    have hlow : (if p.2 ≠ 4 then p.1.map lower else p.1) = r.2.2.map lower := by
      split <;> simp only [hsome hc.1 hc.2, map_lower_lower]
    rw [hlow, h.address]
    split
    · rfl
    · rename_i hn
      obtain ⟨⟨hasked, -⟩, h1 | hsuffix⟩ := h.looked hc.1
      · exact absurd (.inr ⟨hasked, h1, hc.2⟩) hn
      · rw [hsuffix, Option.getD_some, List.append_nil, recipientBase, map_lower_lower]
  · have hp := hnone (by
      by_cases h1 : r.1 = 1
      · exact .inr (not_not.mp fun hne => hc ⟨h1, hne⟩)
      · exact .inl h1)
    have h4 : r.2.1 ≠ 4 ↔ site.gdrcpt (recipientBase site addr) ≠ .found := by
      rw [h.good]
      split <;> simp_all
    have hn : ¬ ((¬ w.chkdomok ∧ ¬ site.AUTH_ALL) ∧ site.rcpthosts (recipientBase site addr) = 1 ∧
        site.CHECKRECIPIENT ≠ none) := by
      rintro ⟨hasked, h1, hne⟩
      rcases h.asked hasked with hr | ⟨h0, -⟩
      · exact hc ⟨hr.trans h1, hne⟩
      · rw [h1] at h0
        cases h0
    simp only [hp, h4, h.address, hn, or_false]

end Address

end IndimailMta.Smtpd
