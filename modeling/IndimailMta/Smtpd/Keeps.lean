import IndimailMta.Smtpd.Addresses

/-!
# What the parts of MAIL and RCPT keep

Between the point where MAIL stores its sender and its answer, and in RCPT up to
where the recipient is added, a command only looks, refuses, and grants
permission. `Stable` lists these effects; an invariant that allows them goes
through every part, and the theorems say so part by part.
-/

namespace IndimailMta.Smtpd

open IndimailMta Exits

/-- `I` allows that a command refuses and goes on. -/
def AllowsStray (I : Session → Prop) : Prop :=
  ∀ s (r : Refusal), I s → I { s with out := s.out ++ [.reply r.toReply] }

/-! ## Refusals and checks -/

theorem of_demand {c : Bool} {r : Refusal} {a : Unit} (h : demand c r = .ok a) : c = true := by
  unfold demand at h
  split at h
  · assumption
  · cases h

section Checks

variable {I : Session → Prop} {E : Stop → Session → Prop} {α : Type}

/-- A refusal in `I` ends in `E`. -/
def Refuses (I : Session → Prop) (E : Stop → Session → Prop) : Prop :=
  ∀ e s (r : Refusal), I s → E e { s with out := s.out ++ [.reply r.toReply] }

variable (hE : Refuses I E)

include hE

theorem triple_refuse {Q : α → Session → Prop} (r : Refusal) : Triple I (refuse r) Q E :=
  triple_bind (triple_update fun s hs => hE .returned s r hs) fun _ =>
    triple_exit fun _ h => h

theorem triple_die {Q : α → Session → Prop} (r : Refusal) : Triple I (die r) Q E :=
  triple_bind (triple_update fun s hs => hE .died s r hs) fun _ =>
    triple_exit fun _ h => h

/-- A check that lets the command go on has changed nothing. -/
theorem triple_check {P : Session → Prop} (hP : ∀ s, P s → I s) (c : Check α) :
    Triple P (check c) (fun a s => P s ∧ c = .ok a) E := by
  cases c with
  | ok a => exact triple_pure fun s hs => ⟨hs, rfl⟩
  | error d => cases d with
    | refused r => exact triple_weaken (triple_refuse hE r) hP fun _ _ h => h
    | died r => exact triple_weaken (triple_die hE r) hP fun _ _ h => h

theorem keeps_check (c : Check α) : Keeps I E (check c) :=
  triple_weaken (triple_check hE (fun _ h => h) c) (fun _ h => h) fun _ _ h => h.1

end Checks

/-! ## The parts of MAIL and RCPT -/

/-- `I` allows what MAIL and RCPT do to the session when they look at the permission to relay, and
refusals end in `E`; `may` are the addresses that may be asked about with `RELAY_QUERY`. -/
structure Stable (cfg : Config) (site : Site) (may : Bytes → Prop) (I : Session → Prop)
    (E : Stop → Session → Prop) : Prop where
  refused : Refuses I E
  verified : ∀ s, I s → I { s with ssl_verified := true }
  authenticated : ∀ s, I s → s.authenticated ≠ 0 → s.relayclient ≠ none
  confirmed : ∀ s a b, may a → I s → s.relayclient = none → I { s with
    out := s.out ++ [.relayQuery a b]
    authenticated := b
    relayclient := if b = 0 then none else some [] }
  certified : ∀ s, cfg.ssl → site.tlsclients = .listed → I s → s.relayclient = none →
    I { s with authenticated := 1, relayclient := some [] }

/-- What CHECKSENDER does besides. -/
structure StableSender (cfg : Config) (site : Site) (may : Bytes → Prop) (I : Session → Prop)
    (E : Stop → Session → Prop) : Prop extends Stable cfg site may I E where
  answered : ∀ s (r : Refusal), s.authd → I s → I { s with out := s.out ++ [.reply r.toReply] }
  chksndr : ∀ s, I s → I { s with chksndrok := false }

/-- What MAIL does besides. -/
structure StableMail (cfg : Config) (site : Site) (may : Bytes → Prop) (I : Session → Prop)
    (E : Stop → Session → Prop) : Prop extends StableSender cfg site may I E where
  chkdom : ∀ s, I s → I { s with chkdomok := false }
  listed : ∀ s, cfg.relaymailfrom ((cstr s.mailfrom).map lower) = .found → I s → s.relayclient = none →
    I { s with relayclient := some [] }

/-- What `$CHECKRECIPIENT` does besides. -/
structure StableRcpt (cfg : Config) (site : Site) (may : Bytes → Prop) (I : Session → Prop)
    (E : Stop → Session → Prop) : Prop extends Stable cfg site may I E where
  chkrcpt : ∀ s, I s → I { s with chkrcptok := false }
  errcount : ∀ s n, I s → I { s with rcpt_errcount := n }

/-! ## Permission to relay -/

section Parts

variable {cfg : Config} {site : Site} {may : Bytes → Prop} {I : Session → Prop}
  {E : Stop → Session → Prop} (hI : Stable cfg site may I E)

include hI

/-- Whether the client has authenticated stays, and so does the variable of authdomains. -/
theorem Stable.flags (φ : Bool → Bool → Prop) :
    Stable cfg site may (fun s => I s ∧ φ s.authd s.chkdomok) E where
  refused e s r h := hI.refused e s r h.1
  verified s h := ⟨hI.verified s h.1, h.2⟩
  authenticated s h := hI.authenticated s h.1
  confirmed s a b hm h hn := ⟨hI.confirmed s a b hm h.1 hn, h.2⟩
  certified s hs hl h hn := ⟨hI.certified s hs hl h.1 hn, h.2⟩

/-- Permission that was given stays, and a session that has it asks for nothing more. -/
theorem Stable.granted (φ : Prop) {p : Option Bytes → Prop} (hp : ¬ p none) :
    Stable cfg site (fun a => φ ∨ may a) (fun s => I s ∧ (φ → p s.relayclient)) E where
  refused e s r h := hI.refused e s r h.1
  verified s h := ⟨hI.verified s h.1, h.2⟩
  authenticated s h := hI.authenticated s h.1
  confirmed s a b hm h hn := by
    have hφ : ¬ φ := fun hφ => hp (hn ▸ h.2 hφ)
    exact ⟨hI.confirmed s a b (hm.resolve_left hφ) h.1 hn, fun h' => absurd h' hφ⟩
  certified s hs hl h hn := ⟨hI.certified s hs hl h.1 hn, fun hφ => absurd (hn ▸ h.2 hφ) hp⟩

/-- A certificate that is listed gives the client an empty `relayclient`. -/
theorem keeps_tls_verify :
    Triple I (tls_verify cfg site) (fun r s => I s ∧
      (r ≠ 0 → (cfg.ssl ∧ site.tlsclients = .listed) ∧ s.relayclient = some [])) E := by
  refine triple_bind triple_get fun s₀ => triple_ite (fun hc => ?_) fun _ =>
    triple_pure fun s h => ⟨h.1, fun h0 => absurd rfl h0⟩
  refine triple_bind (Q := fun _ s => I s ∧ s.relayclient = none)
    (triple_update fun s h => ⟨hI.verified s h.1, h.2 ▸ hc.2.1⟩) fun _ => ?_
  split
  · rename_i hl
    exact triple_bind (Q := fun _ s => I s ∧ s.relayclient = some [])
      (triple_update fun s h => ⟨hI.certified s hc.1 hl h.1 h.2, rfl⟩)
      fun _ => triple_pure fun s h => ⟨h.1, fun _ => ⟨⟨hc.1, hl⟩, h.2⟩⟩
  · exact triple_pure fun s h => ⟨h.1, fun h0 => absurd rfl h0⟩
  · exact triple_weaken (triple_die hI.refused _) (fun _ h => h.1) fun _ _ h => h
  · exact triple_weaken (triple_die hI.refused _) (fun _ h => h.1) fun _ _ h => h

/-- What `addrallowed` returns for a domain: what rcpthosts says, or what the certificate of the client
gives. -/
structure Allowed (cfg : Config) (site : Site) (rcpt : Bytes) (r : Int) (s : Session) : Prop where
  listed : site.rcpthosts rcpt ≠ 0 → r = site.rcpthosts rcpt
  certified : site.rcpthosts rcpt = 0 → r ≠ 0 →
    (cfg.ssl ∧ site.tlsclients = .listed) ∧ s.relayclient = some []

theorem keeps_addrallowed (rcpt : Bytes) :
    Triple I (addrallowed cfg site rcpt) (fun r s => I s ∧ Allowed cfg site rcpt r s) E := by
  refine triple_bind (keeps_when fun _ => triple_die hI.refused _) fun _ => triple_ite (fun h0 =>
    ?_) ?_
  · exact triple_weaken (keeps_tls_verify hI) (fun _ h => h) fun r s h =>
      ⟨h.1, fun hne => absurd h0 hne, fun _ => h.2⟩
  · exact fun hne => triple_pure fun s h => ⟨h, fun _ => rfl, fun h0 => absurd h0 hne⟩

theorem keeps_pop_bef_smtp {mfrom : Bytes} (hmay : may mfrom) :
    Triple (fun s => I s ∧ s.relayclient = none) (pop_bef_smtp cfg site mfrom) (fun _ => I) E := by
  refine triple_bind (Q := fun _ s => I s ∧ s.relayclient = none)
    (triple_when (fun _ => ?_) fun _ _ h => h) fun _ => ?_
  · exact triple_weaken (triple_refuse hI.refused _) (fun _ h => h.1) fun _ _ h => h
  split
  · rename_i answer _
    refine triple_bind (Q := fun _ s => ∃ s₀, I s₀ ∧ s₀.relayclient = none ∧
      s = { s₀ with out := s₀.out ++ [.relayQuery mfrom answer] })
      (triple_update fun s h => ⟨s, h.1, h.2, rfl⟩) fun _ => triple_update ?_
    rintro _ ⟨s, h, hn, rfl⟩
    have := hI.confirmed s mfrom answer hmay h hn
    simpa only [hn] using this
  · exact triple_weaken (triple_refuse hI.refused _) (fun _ h => h.1) fun _ _ h => h

/-- A recipient goes through the relay decision with the suffix of `relayclient`, and only
if it is allowed, or the client may relay. -/
theorem triple_rcpt_relay (hmay : ∀ s, I s → may (cstr s.mailfrom)) (allowed : Int)
    (addr : Bytes) (φ : Session → Prop) :
    Triple (fun s => I s ∧ φ s) (rcpt_relay cfg site allowed addr)
      (fun a s => (I s ∧ (allowed = 0 → s.relayclient ≠ none)) ∧
        ∃ u, (I u ∧ φ u) ∧ a = addr ++ u.relayclient.getD []) E := by
  refine triple_bind triple_get fun s₀ => ?_
  cases hr : s₀.relayclient with
  | some suffix =>
      refine triple_pure ?_
      rintro s ⟨h, rfl⟩
      exact ⟨⟨h.1, fun _ => by simp [hr]⟩, s₀, h, by simp [hr]⟩
  | none =>
      refine triple_bind
        (Q := fun _ s => (I s ∧ (allowed = 0 → s.relayclient ≠ none)) ∧ I s₀ ∧ φ s₀)
        (triple_when (fun h0 => ?_)
          fun s hne h => ⟨⟨h.1.1, fun h0 => absurd h0 hne⟩, h.2 ▸ h.1⟩)
        fun _ => triple_pure fun s h => ⟨h.1, s₀, h.2, by simp [hr]⟩
      rintro s ⟨h, rfl⟩
      refine (?_ : Triple (fun t => I t ∧ t.relayclient = none) _ _ E) s₀ ⟨h.1, hr⟩
      refine triple_bind (Q := fun _ => I) (triple_when
        (fun _ => keeps_pop_bef_smtp hI (hmay s₀ h.1)) fun _ _ ht => ht.1) fun _ => ?_
      refine triple_bind triple_get fun s₁ => triple_when (fun _ => ?_) fun t hne ht => ?_
      · exact triple_weaken (triple_refuse hI.refused _) (fun _ ht => ht.1) fun _ _ ht => ht
      · obtain ⟨ht, rfl⟩ := ht
        have ha : s₁.authenticated = 1 := not_not.mp (not_or.mp hne).2
        exact ⟨⟨ht, fun _ => hI.authenticated s₁ ht (by simp [ha])⟩, h⟩

theorem keeps_rcpt_srs {addr : Bytes} (hstray : SrsStray site addr → AllowsStray I) :
    Triple I (rcpt_srs site addr) (fun a s => I s ∧ a = srsAddress site addr) E := by
  have hsay : ∀ r : Refusal, SrsStray site addr →
      Triple I (do say r.toReply; pure addr) (fun b s => I s ∧ b = addr) E := fun r hs =>
    triple_bind (Q := fun _ => I) (triple_update fun s h => hstray hs s r h)
      fun _ => triple_pure fun s h => ⟨h, rfl⟩
  unfold rcpt_srs srsAddress
  split
  · rename_i hdo
    cases hf : site.srsreverse addr with
    | decoded a => exact triple_pure fun s h => ⟨h, rfl⟩
    | failed => exact hsay _ ⟨hdo, .inl hf⟩
    | notConfigured => exact hsay _ ⟨hdo, .inr hf⟩
    | control => exact triple_die hI.refused _
    | memory => exact triple_die hI.refused _
  · exact triple_pure fun s h => ⟨h, rfl⟩

theorem keeps_mailbox_state {addr : Bytes}
    (hstray : isLocal cfg addr = false → site.check_user_sql addr = .library → AllowsStray I) :
    Keeps I E (mailbox_state cfg site addr) := by
  unfold mailbox_state
  split
  · exact triple_bind (keeps_check hI.refused _) fun _ => triple_pure fun _ h => h
  · rename_i hremote
    split
    · exact triple_pure fun _ h => h
    · rename_i hl
      exact triple_bind (Q := fun _ => I)
        (triple_update fun s h => hstray (eq_false_of_ne_true hremote) hl s _ h)
        fun _ => triple_pure fun _ h => h
    · exact triple_die hI.refused _

theorem keeps_recipient_state {isgoodrcpt : Int} {addr : Bytes}
    (hstray : isgoodrcpt = 1 ∨ isgoodrcpt = 2 → isLocal cfg addr = false →
      site.check_user_sql addr = .library → AllowsStray I) :
    Keeps I E (recipient_state cfg site isgoodrcpt addr) := by
  refine triple_ite (fun h1 => keeps_mailbox_state hI (hstray (.inl h1))) fun _ => ?_
  refine triple_ite (fun _ => triple_pure fun _ h => h) fun _ => ?_
  refine triple_bind (keeps_check hI.refused _) fun listed => ?_
  refine triple_ite (fun _ => triple_pure fun _ h => h) fun _ => ?_
  exact triple_ite (fun h2 => keeps_mailbox_state hI (hstray (.inr h2))) fun _ => triple_pure fun _ h => h

/-- RCPT up to `$CHECKRECIPIENT`. -/
theorem triple_rcpt_before (hmay : ∀ s, I s → may (cstr s.mailfrom)) {arg : Bytes}
    (hstray : ∀ addr, addrparse site arg = some addr → SrsStray site (recipientUnsigned site addr) →
      AllowsStray I) :
    Triple I (rcpt_before cfg site arg) (fun r s => ∃ addr u w, addrparse site arg = some addr ∧
      (I u ∧ I w ∧ ∃ v, I v ∧ v.seenmail) ∧ Before cfg site addr u w r ∧
      (I s ∧ (site.rcpthosts (recipientBase site addr) = 0 → s.relayclient ≠ none))) E := by
  refine triple_bind (keeps_check hI.refused _) fun _ => ?_
  refine triple_bind (Q := fun s₀ s => I s ∧ I s₀) (triple_read fun s h => ⟨h, h⟩) fun v => ?_
  refine triple_fact fun hv => ?_
  refine triple_bind (triple_check hI.refused (fun _ h => h) _) fun _ => triple_fact fun hseen => ?_
  have hseen := of_demand hseen
  cases hp : addrparse site arg with
  | none => exact triple_refuse hI.refused _
  | some addr =>
  have hallowed : ∀ rcpt, Keeps I E (addrallowed cfg site rcpt) := fun rcpt =>
    triple_weaken (keeps_addrallowed hI rcpt) (fun _ h => h) fun _ _ h => h.1
  refine triple_bind (keeps_when fun _ => triple_bind (hallowed _) fun _ =>
    keeps_when fun _ => triple_refuse hI.refused _) fun _ => ?_
  refine triple_bind (triple_read (Q := fun _ => I) fun _ h => h) fun _ => ?_
  refine triple_bind (triple_check hI.refused (fun _ h => h) _) fun addr₁ => ?_
  refine triple_fact fun hbatv => ?_
  have hunsigned : cstr addr₁ = recipientUnsigned site addr := by
    rw [recipientUnsigned, rcpt_batv_ok hbatv]
  rw [hunsigned]
  refine triple_bind (keeps_rcpt_srs hI (hstray addr hp)) fun addr₂ => triple_fact fun hsrs => ?_
  refine triple_bind (triple_check hI.refused (fun _ h => h) _) fun p => triple_fact fun hlists => ?_
  have hbase : (cstr addr₂).map lower = recipientBase site addr := by
    rw [hsrs, recipientBase]
  rw [rcpt_lists_ok hlists, hbase]
  generalize hb : recipientBase site addr = base
  refine triple_bind (Q := fun w s => I s ∧ I w) (triple_read fun _ h => ⟨h, h⟩) fun w => ?_
  refine triple_fact fun hw => ?_
  -- what rcpthosts says, and what a certificate gives
  refine triple_bind (Q := fun allowed s => I s ∧ (¬ Asked site w.chkdomok → allowed = 0) ∧
      (Asked site w.chkdomok → Allowed cfg site base allowed s)) (triple_ite (fun hasked => ?_)
    fun hasked => triple_pure fun s h => ⟨h, fun _ => rfl, fun h' => absurd h' hasked⟩) fun allowed => ?_
  · exact triple_weaken (keeps_addrallowed hI base) (fun _ h => h) fun r s h =>
      ⟨h.1, fun hna => absurd hasked hna, fun _ => h.2⟩
  refine triple_bind (Q := fun a s =>
      (I s ∧ (site.rcpthosts base = 0 → s.relayclient ≠ none)) ∧ ∃ u, (I u ∧
        (¬ Asked site w.chkdomok → allowed = 0) ∧
        (Asked site w.chkdomok → Allowed cfg site base allowed u)) ∧ a = base ++ u.relayclient.getD [])
    ?_ fun addr₃ => ?_
  · by_cases h0 : allowed = 0
    · exact triple_weaken (triple_rcpt_relay hI hmay allowed base _) (fun _ h => h) fun a s h =>
        ⟨⟨h.1.1, fun _ => h.1.2 h0⟩, h.2⟩
    · have hgranted := hI.granted (p := (· ≠ none)) (site.rcpthosts base = 0) fun h => h rfl
      refine triple_weaken (triple_rcpt_relay hgranted (fun s h => .inr (hmay s h.1)) allowed base
        fun u => (¬ Asked site w.chkdomok → allowed = 0) ∧
          (Asked site w.chkdomok → Allowed cfg site base allowed u)) (fun s h => ?_)
        fun a s h => ⟨h.1.1, h.2.imp fun t ht => ⟨⟨ht.1.1.1, ht.1.2⟩, ht.2⟩⟩
      refine ⟨⟨h.1, fun hz => ?_⟩, h.2⟩
      have hasked : Asked site w.chkdomok := not_not.mp fun hna => h0 (h.2.1 hna)
      rw [((h.2.2 hasked).certified hz h0).2]
      exact Option.some_ne_none _
  · refine triple_pure fun s h => ?_
    obtain ⟨hs, u, ⟨hu, hna, ha⟩, rfl⟩ := h
    refine ⟨addr, u, w, rfl, ⟨hu, hw, v, hv, hseen⟩, ⟨hna, fun hasked => ?_, by rw [hb], by rw [hb]⟩, hb ▸ hs⟩
    rw [hb]
    by_cases hz : site.rcpthosts base = 0
    · by_cases h0 : allowed = 0
      · exact .inl (h0.trans hz.symm)
      · exact .inr ⟨hz, (ha hasked).certified hz h0⟩
    · exact .inl ((ha hasked).listed hz)

end Parts

/-! ## MAIL -/

section Sender

variable {cfg : Config} {site : Site} {may : Bytes → Prop} {I : Session → Prop}
  {E : Stop → Session → Prop} (hS : StableSender cfg site may I E)

include hS

theorem StableSender.flags (φ : Bool → Bool → Prop) :
    StableSender cfg site may (fun s => I s ∧ φ s.authd s.chkdomok) E where
  toStable := hS.toStable.flags φ
  answered s r ha h := ⟨hS.answered s r ha h.1, h.2⟩
  chksndr s h := ⟨hS.chksndr s h.1, h.2⟩

theorem StableSender.granted (φ : Prop) {p : Option Bytes → Prop} (hp : ¬ p none) :
    StableSender cfg site (fun a => φ ∨ may a) (fun s => I s ∧ (φ → p s.relayclient)) E where
  toStable := hS.toStable.granted φ hp
  answered s r ha h := ⟨hS.answered s r ha h.1, h.2⟩
  chksndr s h := ⟨hS.chksndr s h.1, h.2⟩

theorem StableSender.answers {s : Session} (rs : List Refusal) (ha : s.authd)
    (h : I s) : I { s with out := s.out ++ rs.map fun r => .reply r.toReply } := by
  induction rs generalizing s with
  | nil => simpa using h
  | cons r rs ih =>
      have hrest := ih (s := { s with out := s.out ++ [.reply r.toReply] }) ha (hS.answered s r ha h)
      simpa [List.append_assoc] using hrest

theorem keeps_check_masquerade : Keeps I E (check_masquerade cfg site) := by
  refine triple_bind triple_get fun s₀ => triple_when (fun hc => ?_) fun s _ h => h.1
  have hA := hS.flags fun authd _ => authd = true
  refine triple_weaken (?_ : Keeps (fun s => I s ∧ s.authd = true) E _)
    (fun s h => ⟨h.1, h.2 ▸ hc.1⟩) fun _ _ h => h.1
  refine triple_bind (triple_ite (Q := fun _ s => I s ∧ s.authd = true) (fun _ => ?_)
    fun _ => triple_pure fun _ h => h) fun _ => ?_
  · exact triple_weaken (keeps_addrallowed hA.toStable _) (fun _ h => h) fun _ _ h => h.1
  refine triple_bind (triple_read (Q := fun _ s => I s ∧ s.authd = true) fun _ h => h) fun s₁ => ?_
  refine triple_bind (keeps_when fun _ => triple_refuse hA.refused _) fun _ => ?_
  refine triple_bind (Q := fun _ s => I s ∧ s.authd = true)
    (triple_update fun s h => ⟨hS.answers _ h.2 h.1, h.2⟩) fun _ => ?_
  split
  · exact triple_refuse hA.refused _
  · exact triple_pure fun _ h => h

theorem keeps_sender_demands {permitted : Bool} {t_addr : Bytes} (hmay : permitted = false → may t_addr) :
    Triple (fun s => I s ∧ (permitted = false → s.relayclient = none))
      (sender_demands cfg site permitted t_addr) (fun _ => I) E := by
  refine triple_bind (triple_weaken (triple_check hS.refused (fun _ h => h.1) _) (fun _ h => h)
    fun _ _ h => h.1) fun _ => ?_
  refine triple_bind (Q := fun _ => I) (triple_when (fun hn => ?_) fun _ _ h => h.1) fun _ =>
    keeps_check_masquerade hS
  have hn := eq_false_of_ne_true hn
  refine triple_bind (Q := fun _ => I) (triple_when (fun _ => ?_) fun _ _ h => h.1) fun _ => ?_
  · exact triple_weaken (keeps_pop_bef_smtp hS.toStable (hmay hn)) (fun s h => ⟨h.1, h.2 hn⟩)
      fun _ _ h => h
  · exact triple_bind (triple_read (Q := fun _ => I) fun _ h => h) fun _ =>
      keeps_when fun _ => triple_refuse hS.refused _

theorem keeps_check_sender {t_addr : Bytes}
    (hmay : ∀ s, I s → s.relayclient = none → s.authd = false → may (t_addr.map lower)) :
    Keeps I E (check_sender cfg site t_addr) := by
  refine triple_bind (triple_read (Q := fun _ => I) fun _ h => h) fun _ => ?_
  refine triple_bind (triple_check hS.refused (fun _ h => h) _) fun a => triple_fact fun ha => ?_
  obtain ⟨rfl, -⟩ := address_match_ok ha
  refine triple_bind (keeps_when fun _ => triple_update hS.chksndr) fun _ => ?_
  refine triple_bind triple_get fun s₀ => triple_when (fun _ => ?_) fun _ _ h => h.1
  rintro s ⟨h, rfl⟩
  have hnone : decide (s₀.relayclient ≠ none ∨ s₀.authd = true) = false →
      s₀.relayclient = none ∧ s₀.authd = false := by
    intro hp
    simpa using of_decide_eq_false hp
  exact keeps_sender_demands hS (fun hp => hmay s₀ h (hnone hp).1 (hnone hp).2) s₀
    ⟨h, fun hp => (hnone hp).1⟩

theorem keeps_mail_checksender {addr : Bytes} (hmay : may ((cstr addr).map lower)) (in_rcpt1 : Int) :
    Keeps I E (mail_checksender cfg site in_rcpt1 addr) := by
  refine triple_bind triple_get fun s₀ => ?_
  -- the name of the client is looked at only if it may relay already, or has authenticated
  have hA := (hS.flags fun authd _ => authd = s₀.authd).granted (p := (· ≠ none)) (s₀.authd = false) fun h => h rfl
  have hweak : ∀ {m : Smtp Unit}, Keeps I E m →
      Triple (fun s => I s ∧ s₀ = s) m (fun _ => I) E :=
    fun hm => triple_weaken hm (fun _ h => h.1) fun _ _ h => h
  by_cases hremote : s₀.authenticated ≠ 0 ∨ s₀.authd
  · rw [if_pos hremote]
    have hstart : ∀ s, I s ∧ s₀ = s → (I s ∧ s.authd = s₀.authd) ∧ (s₀.authd = false → s.relayclient ≠ none) := by
      rintro s ⟨h, rfl⟩
      refine ⟨⟨h, rfl⟩, fun hf => hS.authenticated s₀ h (hremote.resolve_right ?_)⟩
      rw [hf]
      decide
    refine triple_weaken (?_ : Keeps _ E _) hstart fun _ s h => h.1.1
    refine triple_bind (Q := fun _ s => (I s ∧ s.authd = s₀.authd) ∧ (s₀.authd = false → s.relayclient ≠ none))
      (triple_weaken (keeps_addrallowed hA.toStable _) (fun _ h => h) fun _ _ h => h.1) fun in_rcpt2 => ?_
    refine triple_bind (keeps_when fun _ => triple_refuse hA.refused _) fun _ => keeps_when fun _ => ?_
    refine triple_ite (fun _ => keeps_check_sender hA fun _ _ _ _ => .inr hmay) fun _ => ?_
    refine triple_ite (fun _ => keeps_check_sender hA fun s h hn ha => ?_) fun _ => triple_pure fun _ h => h
    exact absurd hn (h.2 (h.1.2 ▸ ha))
  · rw [if_neg hremote]
    refine hweak ?_
    refine triple_bind (Q := fun r s => I s ∧ r = -1) (triple_pure fun _ h => ⟨h, rfl⟩) fun in_rcpt2 =>
      triple_fact fun h2 => ?_
    refine triple_bind (keeps_when fun _ => triple_refuse hS.refused _) fun _ => keeps_when fun _ => ?_
    refine triple_ite (fun _ => keeps_check_sender hS fun _ _ _ _ => hmay) fun _ => ?_
    rw [h2]
    exact triple_ite (fun h => absurd h (by decide)) fun _ => triple_pure fun _ h => h

theorem keeps_mail_checked {addr : Bytes} (hmay : may ((cstr addr).map lower)) (in_rcpt1 : Int) :
    Keeps I E (mail_checked cfg site in_rcpt1 addr) := by
  refine triple_bind (keeps_mail_checksender hS hmay in_rcpt1) fun _ => ?_
  refine triple_bind (triple_read (Q := fun _ => I) fun _ h => h) fun _ => ?_
  exact keeps_check hS.refused _

end Sender

section Mail

variable {cfg : Config} {site : Site} {may : Bytes → Prop} {I : Session → Prop}
  {E : Stop → Session → Prop} (hM : StableMail cfg site may I E)

include hM

theorem keeps_relaymailfrom : Keeps I E (relaymailfrom cfg) := by
  refine triple_bind triple_get fun s₀ => triple_when (fun hn => ?_) fun s _ h => h.1
  refine triple_bind (triple_check hM.refused (fun s h => h.1) _) fun a => triple_fact fun ha => ?_
  obtain ⟨rfl, -⟩ := address_match_ok ha
  refine triple_when (fun hf => triple_update ?_) fun s _ h => h.1
  rintro s ⟨h, rfl⟩
  exact hM.listed s₀ hf h hn

theorem keeps_mail_known (addr : Bytes) : Keeps I E (mail_known cfg site addr) := by
  refine triple_bind (keeps_relaymailfrom hM) fun _ => ?_
  refine triple_bind (Q := fun _ => I)
    (triple_weaken (keeps_addrallowed hM.toStable _) (fun _ h => h) fun _ _ h => h.1) fun in_rcpt1 => ?_
  exact triple_bind (keeps_when fun _ => triple_refuse hM.refused _) fun _ => triple_pure fun _ h => h

theorem keeps_mail_authdomains :
    Keeps I E (mail_authdomains cfg) := by
  refine triple_bind (triple_read (Q := fun _ => I) fun _ h => h) fun _ => keeps_when fun _ => ?_
  refine triple_bind (keeps_check hM.refused _) fun _ => ?_
  exact keeps_when fun _ => triple_update hM.chkdom

theorem keeps_mail_after {addr : Bytes}
    (hmay : may ((cstr addr).map lower)) : Keeps I E (mail_after cfg site addr) := by
  refine triple_bind (keeps_mail_known hM addr) fun in_rcpt1 => ?_
  refine triple_bind (keeps_mail_checked hM.toStableSender hmay in_rcpt1) fun _ => ?_
  exact triple_bind (keeps_mail_authdomains hM) fun _ => keeps_check hM.refused _

omit hM in
/-- MAIL up to where it stores its sender. -/
theorem triple_mail_before {J : Session → Prop} (hJ : Refuses J E)
    (hbounce : ∀ s b, J s → J { s with isbounce := b })
    (hsize : ∀ s b, J s → J { s with flagsize := b }) (arg : Bytes) :
    Triple J (mail_before cfg site arg)
      (fun addr s => J s ∧ ∃ s₀, J s₀ ∧ Stores cfg site s₀ arg addr) E := by
  refine triple_bind (Q := fun s₀ s => J s ∧ J s₀) (triple_read fun s h => ⟨h, h⟩) fun s₀ => ?_
  refine triple_fact fun h₀ => ?_
  refine triple_bind (triple_check hJ (fun _ h => h) _) fun a => triple_fact fun haddr => ?_
  refine triple_bind (keeps_when fun _ => triple_update fun s h => hbounce s _ h) fun _ => ?_
  refine triple_bind (triple_check hJ (fun _ h => h) _) fun _ => triple_fact fun hhost => ?_
  refine triple_bind (Q := fun _ => J) (triple_update fun s h => hsize s _ h) fun _ => ?_
  refine triple_weaken (triple_check hJ (fun _ h => h) _) (fun _ h => h) fun addr s h => ?_
  exact ⟨h.1, s₀, h₀, ⟨a, haddr, hhost, h.2⟩⟩

/-- MAIL: `J` holds up to where the sender is stored, and `I` from there. -/
theorem triple_smtp_mail {J : Session → Prop}
    {Q : Unit → Session → Prop} {arg : Bytes} (hJ : Refuses J E)
    (hbounce : ∀ s b, J s → J { s with isbounce := b })
    (hsize : ∀ s b, J s → J { s with flagsize := b })
    (hstore : ∀ s₀ s addr, J s₀ → Stores cfg site s₀ arg addr → J s →
      I (s.store site addr) ∧ may ((cstr addr).map lower))
    (hok : ∀ addr s, senderOf site arg = some addr → I s → Q () { s with
      seenmail := true
      out := s.out ++ [.reply ⟨250, asc "ok"⟩] }) :
    Triple J (smtp_mail cfg site arg) Q E := by
  refine triple_bind (triple_mail_before hJ hbounce hsize arg) fun addr => ?_
  rintro s ⟨h, s₀, h₀, hst⟩
  obtain ⟨hs, hmay⟩ := hstore s₀ s addr h₀ hst h
  refine (?_ : Triple (fun t => t = s) _ Q E) s rfl
  refine triple_bind (Q := fun _ => I) (triple_update ?_) fun _ => ?_
  · rintro t rfl
    exact hs
  refine triple_bind (keeps_mail_after hM hmay) fun _ => ?_
  refine triple_bind (Q := fun _ t => ∃ u, I u ∧ t = { u with seenmail := true })
    (triple_update fun u hu => ⟨u, hu, rfl⟩) fun _ => triple_update ?_
  rintro _ ⟨u, hu, rfl⟩
  exact hok (cstr addr) u hst.senderOf hu

end Mail

/-! ## RCPT -/

section Rcpt

variable {cfg : Config} {site : Site} {may : Bytes → Prop} {I : Session → Prop}
  {E : Stop → Session → Prop} (hR : StableRcpt cfg site may I E)

include hR

theorem StableRcpt.flags (φ : Bool → Bool → Prop) :
    StableRcpt cfg site may (fun s => I s ∧ φ s.authd s.chkdomok) E where
  toStable := hR.toStable.flags φ
  chkrcpt s h := ⟨hR.chkrcpt s h.1, h.2⟩
  errcount s n h := ⟨hR.errcount s n h.1, h.2⟩

theorem StableRcpt.granted (φ : Prop) {p : Option Bytes → Prop} (hp : ¬ p none) :
    StableRcpt cfg site (fun a => φ ∨ may a) (fun s => I s ∧ (φ → p s.relayclient)) E where
  toStable := hR.toStable.granted φ hp
  chkrcpt s h := ⟨hR.chkrcpt s h.1, h.2⟩
  errcount s n h := ⟨hR.errcount s n h.1, h.2⟩

theorem keeps_recipient_applies {tmp : Option Int} {isgoodrcpt : Int} {addr : Bytes}
    (htmp : site.CHECKRECIPIENT = some tmp)
    (hstray : isgoodrcpt ≠ 4 → SqlStray cfg site addr → AllowsStray I) :
    Keeps I E (recipient_applies cfg site tmp isgoodrcpt addr) := by
  refine triple_bind (triple_read (Q := fun _ => I) fun _ h => h) fun s₀ => ?_
  refine triple_bind (keeps_recipient_state hR.toStable fun hn hremote hlib => ?_) fun result => ?_
  · have h4 : isgoodrcpt ≠ 4 := fun h4 => by simp [h4] at hn
    rw [if_neg h4] at hn
    have hv : cfg.hasvirtual := by
      by_contra hv
      simp [hv] at hn
    refine hstray h4 ⟨hv, ?_, hremote, hlib⟩
    rw [if_pos hv] at hn
    rw [htmp]
    cases tmp with
    | none => simp at hn
    | some n => simpa using hn
  refine triple_bind (Q := fun _ => I) (triple_update fun s h => hR.errcount s _ h) fun _ => ?_
  split
  · exact triple_refuse hR.refused _
  · exact triple_pure fun _ h => h

/-- `$CHECKRECIPIENT` puts the address into lower case; without it nothing is changed. -/
theorem keeps_check_recipient {isgoodrcpt : Int} {addr : Bytes}
    (hstray : isgoodrcpt ≠ 4 → SqlStray cfg site (addr.map lower) → AllowsStray I) :
    Triple I (check_recipient cfg site isgoodrcpt addr) (fun p s => I s ∧
      (site.CHECKRECIPIENT = none → p = (addr, isgoodrcpt)) ∧
      (site.CHECKRECIPIENT ≠ none → p.1 = addr.map lower)) E := by
  unfold check_recipient
  split
  · rename_i hnone
    exact triple_pure fun _ h => ⟨h, fun _ => rfl, fun hne => absurd hnone hne⟩
  rename_i tmp htmp
  have hsome : ∀ {p : Bytes × Int}, p.1 = addr.map lower →
      (site.CHECKRECIPIENT = none → p = (addr, isgoodrcpt)) ∧
      (site.CHECKRECIPIENT ≠ none → p.1 = addr.map lower) := by
    intro p hp
    refine ⟨fun hnone => ?_, fun _ => hp⟩
    rw [htmp] at hnone
    cases hnone
  refine triple_bind (triple_read (Q := fun _ => I) fun _ h => h) fun _ => ?_
  refine triple_bind (triple_check hR.refused (fun _ h => h) _) fun a => triple_fact fun ha => ?_
  obtain ⟨rfl, -⟩ := address_match_ok ha
  refine triple_bind (keeps_when fun _ => triple_update hR.chkrcpt) fun _ => ?_
  refine triple_bind (triple_read (Q := fun _ => I) fun _ h => h) fun s₀ => ?_
  refine triple_ite (fun _ => triple_pure fun _ h => ⟨h, hsome rfl⟩) fun _ => ?_
  exact triple_bind (keeps_recipient_applies hR htmp hstray) fun _ => triple_pure fun _ h => ⟨h, hsome rfl⟩

/-- RCPT up to the answer 250: the recipient it adds, and on what condition. -/
theorem triple_smtp_rcpt (hmay : ∀ s, I s → may (cstr s.mailfrom)) {Q : Unit → Session → Prop}
    {arg : Bytes}
    (hstray : ∀ u w, I u → I w → Stray cfg site w.chkdomok (u.relayclient.getD []) arg → AllowsStray I)
    (hok : ∀ addr u w t, addrparse site arg = some addr → I u → I w → I t → (∃ v, I v ∧ v.seenmail) →
      (site.rcpthosts (recipientBase site addr) = 0 → t.relayclient ≠ none) →
      Q () (t.accept (recipientGiven site w.chkdomok (recipientBase site addr) (u.relayclient.getD [])))) :
    Triple I (smtp_rcpt cfg site arg) Q E := by
  have hsrs : ∀ addr, addrparse site arg = some addr → SrsStray site (recipientUnsigned site addr) →
      AllowsStray I := fun addr hp hs s r h => hstray s s h h ⟨addr, hp, .inl hs⟩ s r h
  refine triple_bind (triple_rcpt_before hR.toStable hmay hsrs) fun r => ?_
  rintro s ⟨addr, u, w, hp, ⟨hu, hw, hseen⟩, hr, hs⟩
  have hgranted := hR.granted (p := (· ≠ none)) (site.rcpthosts (recipientBase site addr) = 0)
    fun h => h rfl
  refine (?_ : Triple (fun t => I t ∧
    (site.rcpthosts (recipientBase site addr) = 0 → t.relayclient ≠ none)) _ Q E) s hs
  refine triple_bind (Q := fun p t => (I t ∧
      (site.rcpthosts (recipientBase site addr) = 0 → t.relayclient ≠ none)) ∧
      (r.1 ≠ 1 ∨ site.CHECKRECIPIENT = none → p = (r.2.2, r.2.1)) ∧
      (r.1 = 1 → site.CHECKRECIPIENT ≠ none → p.1 = r.2.2.map lower))
    (triple_ite (fun h1 => ?_) fun h1 => triple_pure fun t h =>
      ⟨h, fun _ => rfl, fun h1' => absurd h1' h1⟩) fun p => triple_fact fun hp' => ?_
  · refine triple_weaken (keeps_check_recipient hgranted fun h4 hsql => ?_) (fun _ h => h)
      fun p t h => ⟨h.1, fun hn => h.2.1 (hn.resolve_left (not_not.mpr h1)), fun _ => h.2.2⟩
    have hgood : site.gdrcpt (recipientBase site addr) ≠ .found := fun hg => h4 (by rw [hr.good, if_pos hg])
    rw [hr.address] at hsql
    have hallows := hstray u w hu hw ⟨addr, hp, .inr ⟨hgood, (hr.looked h1).1, hsql⟩⟩
    exact fun t r ht => ⟨hallows t r ht.1, ht.2⟩
  refine triple_bind (triple_read (Q := fun _ t => I t ∧
    (site.rcpthosts (recipientBase site addr) = 0 → t.relayclient ≠ none)) fun _ h => h) fun s₄ => ?_
  refine triple_bind (triple_check hgranted.refused (fun _ h => h) _) fun a => triple_fact fun ha => ?_
  refine triple_update fun t ht => ?_
  rw [hr.given hp'.1 hp'.2 ha]
  exact hok addr u w t hp hu hw ht.1 hseen ht.2

end Rcpt

/-! ## One command -/

theorem carryOut_run {m : Smtp Unit} {s s' : Session} (hs : s.carryOut m = some s') :
    ∃ r t b, m { s with out := [] } = (r, t) ∧ s' = { t with exited := b } := by
  unfold Session.carryOut at hs
  split at hs
  · cases hs
  split at hs
  · rename_i t ht
    exact ⟨_, t, true, ht, (Option.some.inj hs).symm⟩
  · rename_i r t _ ht
    exact ⟨r, t, t.exited, ht, (Option.some.inj hs).symm⟩

theorem step_run {cfg : Config} {l : Line} {s s' : Session} (hs : s.step cfg l = some s') :
    ∃ r t b, handler cfg l.site l.command { s with out := [] } = (r, t) ∧
      s' = { t with exited := b } :=
  carryOut_run hs

/-- The state after a command meets what its handler ends with, however it ends. -/
theorem carryOut_of_triple {m : Smtp Unit} {s s' : Session} {I R : Session → Prop}
    (h : Triple I m (fun _ => R) fun _ => R) (hI : I { s with out := [] })
    (hs : s.carryOut m = some s') : ∃ t b, R t ∧ s' = { t with exited := b } := by
  obtain ⟨r, t, b, ht, rfl⟩ := carryOut_run hs
  refine ⟨t, b, ?_, rfl⟩
  cases r with
  | ok _ => exact h.ok hI ht
  | error _ => exact h.exited hI ht

theorem step_of_triple {cfg : Config} {l : Line} {s s' : Session} {I R : Session → Prop}
    (h : Triple I (handler cfg l.site l.command) (fun _ => R) fun _ => R)
    (hI : I { s with out := [] }) (hs : s.step cfg l = some s') :
    ∃ t b, R t ∧ s' = { t with exited := b } :=
  carryOut_of_triple h hI hs

end IndimailMta.Smtpd
