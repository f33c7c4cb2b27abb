import IndimailMta.Smtpd.Transaction

/-!
# Permission to relay

`relayclient` and `authenticated` are given to the session for the sender of one
transaction, by relaymailfrom or by `pop_bef_smtp`, and are never taken back. A
session in which every MAIL that arrives with such a permission names a sender
with a right of its own relays only for senders with a right.
-/

namespace IndimailMta.Smtpd

open IndimailMta Exits Run

/-- The sender is listed in relaymailfrom, or was confirmed by a relay query. -/
def Entitled (cfg : Config) (confirmed : List Bytes) (sender : Bytes) : Prop :=
  cfg.relaymailfrom sender = .found ∨ sender ∈ confirmed

instance (cfg : Config) (confirmed : List Bytes) (sender : Bytes) :
    Decidable (Entitled cfg confirmed sender) :=
  inferInstanceAs (Decidable (_ ∨ _))

theorem Entitled.append {cfg : Config} {confirmed : List Bytes} {sender : Bytes}
    (h : Entitled cfg confirmed sender) (more : List Bytes) :
    Entitled cfg (confirmed ++ more) sender :=
  h.imp_right fun hm => List.mem_append_left _ hm

/-- Every reply so far refuses. -/
def NoneAccepted (out : List Event) : Prop := ∀ r, .reply r ∈ out → 400 ≤ r.code

theorem NoneAccepted.append {out : List Event} (h : NoneAccepted out) {e : Event}
    (he : ∀ r, e = .reply r → 400 ≤ r.code) : NoneAccepted (out ++ [e]) := by
  intro r hr
  rcases List.mem_append.mp hr with hr | hr
  · exact h r hr
  · exact he r (by simpa [eq_comm] using hr)

theorem confirmedIn_append_reply (out : List Event) (r : Reply) :
    confirmedIn (out ++ [.reply r]) = confirmedIn out := by
  simp [confirmedIn, List.filterMap_append, confirmationOf]

/-- In a command with the sender `m`: where `guard` holds, a permission is one that `m` is
entitled to. -/
structure Lends (cfg : Config) (confirmed : List Bytes) (m : Bytes) (seenmail : Bool)
    (guard : Prop) (s : Session) : Prop where
  mailfrom : cstr s.mailfrom = m
  seenmail : s.seenmail = seenmail
  authd : s.authd = false
  authenticated : s.authenticated ≠ 0 → s.relayclient ≠ none
  lent : guard → s.relayclient ≠ none → Entitled cfg (confirmed ++ confirmedIn s.out) m
  replies : NoneAccepted s.out

variable {cfg : Config} {site : Site} {confirmed : List Bytes} {m : Bytes} {b : Bool}
  {guard : Prop}

theorem Lends.reply {s : Session} (h : Lends cfg confirmed m b guard s) (r : Refusal) :
    Lends cfg confirmed m b guard { s with out := s.out ++ [.reply r.toReply] } where
  mailfrom := h.mailfrom
  seenmail := h.seenmail
  authd := h.authd
  authenticated := h.authenticated
  lent hg hr := by simpa [confirmedIn_append_reply] using h.lent hg hr
  replies := h.replies.append fun r' hr => by
    cases hr
    exact r.refuses

theorem stable_lends (hcert : ¬ (cfg.ssl ∧ site.tlsclients = .listed))
    {E : Stop → Session → Prop} (hE : Refuses (Lends cfg confirmed m b guard) E) :
    Stable cfg site (fun a => a = m) (Lends cfg confirmed m b guard) E where
  refused := hE
  verified _ h := ⟨h.mailfrom, h.seenmail, h.authd, h.authenticated, h.lent, h.replies⟩
  authenticated _ h := h.authenticated
  confirmed s a answer ha h hn := by
    subst ha
    refine ⟨h.mailfrom, h.seenmail, h.authd, fun h0 => by simp_all, fun _ hr => .inr ?_,
      h.replies.append fun r hr => by cases hr⟩
    have h0 : answer ≠ 0 := fun h0 => hr (by simp [h0])
    simp [confirmedIn, List.filterMap_append, confirmationOf, h0]
  certified _ hs hl := absurd ⟨hs, hl⟩ hcert

/-- The sender that MAIL has stored is in lower case, and so it is the one relaymailfrom is asked about. -/
theorem stableMail_lends (hcert : ¬ (cfg.ssl ∧ site.tlsclients = .listed)) (hm : m.map lower = m)
    {E : Stop → Session → Prop} (hE : Refuses (Lends cfg confirmed m b guard) E) :
    StableMail cfg site (fun a => a = m) (Lends cfg confirmed m b guard) E where
  toStable := stable_lends hcert hE
  answered _ r _ h := h.reply r
  chksndr _ h := ⟨h.mailfrom, h.seenmail, h.authd, h.authenticated, h.lent, h.replies⟩
  chkdom _ h := ⟨h.mailfrom, h.seenmail, h.authd, h.authenticated, h.lent, h.replies⟩
  listed s hf h _ := by
    rw [h.mailfrom, hm] at hf
    exact ⟨h.mailfrom, h.seenmail, h.authd, fun _ => by simp, fun _ _ => .inl hf, h.replies⟩

theorem stableRcpt_lends (hcert : ¬ (cfg.ssl ∧ site.tlsclients = .listed))
    {E : Stop → Session → Prop} (hE : Refuses (Lends cfg confirmed m b guard) E) :
    StableRcpt cfg site (fun a => a = m) (Lends cfg confirmed m b guard) E where
  toStable := stable_lends hcert hE
  chkrcpt _ h := ⟨h.mailfrom, h.seenmail, h.authd, h.authenticated, h.lent, h.replies⟩
  errcount _ _ h := ⟨h.mailfrom, h.seenmail, h.authd, h.authenticated, h.lent, h.replies⟩

/-! ## One command -/

/-- What holds between two commands, for a client that was given nothing by `setup`. -/
structure Lent (cfg : Config) (p : Session × View) : Prop where
  authd : p.1.authd = false
  authenticated : p.1.authenticated ≠ 0 → p.1.relayclient ≠ none
  lent : p.1.seenmail → p.1.relayclient ≠ none →
    Entitled cfg p.2.confirmed (cstr p.1.mailfrom)

/-- The same at the end of a command, whose confirmations are still in `out`. -/
def Ends (cfg : Config) (confirmed : List Bytes) (t : Session) : Prop :=
  t.authd = false ∧
  (t.authenticated ≠ 0 → t.relayclient ≠ none) ∧
  (t.seenmail → t.relayclient ≠ none →
    Entitled cfg (confirmed ++ confirmedIn t.out) (cstr t.mailfrom))

theorem Lends.ends {s : Session} (h : Lends cfg confirmed m b guard s) (hg : b = true → guard) :
    Ends cfg confirmed s :=
  ⟨h.authd, h.authenticated, fun hm hr => h.mailfrom ▸ h.lent (hg (h.seenmail ▸ hm)) hr⟩

theorem Lent.start {s : Session} {v : View} (h : Lent cfg (s, v)) :
    Lends cfg v.confirmed (cstr s.mailfrom) s.seenmail (s.seenmail = true)
      { s with out := [] } where
  mailfrom := rfl
  seenmail := rfl
  authd := h.authd
  authenticated := h.authenticated
  lent hm hr := by simpa [confirmedIn] using h.lent hm hr
  replies := fun r hr => by simp at hr

/-- A MAIL that stores its sender while a permission is standing names a sender with a right
of its own, and no certificate gives permission to the client. -/
def OwnRight (cfg : Config) (p : Session × View) (l : Line) : Prop :=
  ¬ (cfg.ssl ∧ l.site.tlsclients = .listed) ∧
  match l.command with
  | .mail arg => ∀ addr, Stores cfg l.site p.1 arg addr → p.1.relayclient ≠ none →
      Entitled cfg p.2.confirmed (cstr addr)
  | _ => True

theorem triple_mail_lends (hcert : ¬ (cfg.ssl ∧ site.tlsclients = .listed)) {s : Session}
    {v : View} (h : Lent cfg (s, v)) {arg : Bytes}
    (hright : ∀ addr, Stores cfg site s arg addr → s.relayclient ≠ none →
      Entitled cfg v.confirmed (cstr addr)) :
    Triple (fun t => t = { s with out := [] }) (smtp_mail cfg site arg)
      (fun _ => Ends cfg v.confirmed) fun _ => Ends cfg v.confirmed := by
  let J : Session → Prop := fun t => t.relayclient = s.relayclient ∧ t.seenhelo = s.seenhelo ∧
    Lends cfg v.confirmed (cstr s.mailfrom) s.seenmail (s.seenmail = true) t
  have hJ : ∀ t u : Session, J t → u.relayclient = t.relayclient → u.seenhelo = t.seenhelo →
      Lends cfg v.confirmed (cstr s.mailfrom) s.seenmail (s.seenmail = true) u → J u :=
    fun t u h hr hh hl => ⟨hr.trans h.1, hh.trans h.2.1, hl⟩
  have hlower : (((senderOf site arg).getD []).map lower) = (senderOf site arg).getD [] :=
    senderOf_lower site arg
  have hI := @stableMail_lends cfg site v.confirmed
    ((senderOf site arg).getD []) s.seenmail True hcert hlower
    (E := fun _ => Ends cfg v.confirmed) fun _ t r ht => (ht.reply r).ends fun _ => trivial
  refine triple_weaken (triple_smtp_mail hI (J := J) (fun _ t r ht => (ht.2.2.reply r).ends id)
    (fun t b ht => hJ t _ ht rfl rfl ?_) (fun t b ht => hJ t _ ht rfl rfl ?_)
    (fun t₀ t addr ht₀ hst ht => ?_) fun _ t _ ht => ?_) ?_ fun _ _ ht => ht
  · exact ⟨ht.2.2.mailfrom, ht.2.2.seenmail, ht.2.2.authd, ht.2.2.authenticated, ht.2.2.lent,
      ht.2.2.replies⟩
  · exact ⟨ht.2.2.mailfrom, ht.2.2.seenmail, ht.2.2.authd, ht.2.2.authenticated, ht.2.2.lent,
      ht.2.2.replies⟩
  · rw [hst.senderOf, Option.getD_some, hst.lowered]
    refine ⟨⟨cstr_append_nul (nul_notMem_cstr _), ht.2.2.seenmail, ht.2.2.authd, ht.2.2.authenticated,
      fun _ hr => ?_, ht.2.2.replies⟩, rfl⟩
    have hs : Stores cfg site s arg addr := by
      have hchecks := hst.checks
      rw [ht₀.2.1, ht₀.2.2.authd, ← h.authd] at hchecks
      exact ⟨hchecks⟩
    exact (hright _ hs (ht.1 ▸ hr)).append _
  · refine ⟨ht.authd, ht.authenticated, fun _ hr => ?_⟩
    rw [confirmedIn_append_reply, ht.mailfrom]
    exact ht.lent trivial hr
  · rintro t rfl
    exact ⟨rfl, rfl, h.start⟩

/-- A recipient whose domain is not allowed is answered 250 only for a sender with a right. -/
def RelayedFor (cfg : Config) (confirmed : List Bytes) (site : Site) (arg : Bytes)
    (t : Session) : Prop :=
  ∀ r, .reply r ∈ t.out → r.code = 250 → ∀ addr, addrparse site arg = some addr →
    site.rcpthosts (recipientBase site addr) = 0 →
    Entitled cfg (confirmed ++ confirmedIn t.out) (cstr t.mailfrom)

theorem triple_rcpt_lends (hcert : ¬ (cfg.ssl ∧ site.tlsclients = .listed)) (arg : Bytes) :
    Triple (Lends cfg confirmed m b (b = true)) (smtp_rcpt cfg site arg)
      (fun _ t => Ends cfg confirmed t ∧ RelayedFor cfg confirmed site arg t)
      (fun _ t => Ends cfg confirmed t ∧ RelayedFor cfg confirmed site arg t) := by
  have hrefuses : Refuses (Lends cfg confirmed m b (b = true))
      fun _ t => Ends cfg confirmed t ∧ RelayedFor cfg confirmed site arg t := by
    intro _ s r h
    refine ⟨(h.reply r).ends id, fun r' hr h250 => ?_⟩
    have := (h.reply r).replies r' hr
    omega
  refine triple_smtp_rcpt (stableRcpt_lends hcert hrefuses) (fun s h => h.mailfrom)
    (fun _ _ _ _ _ s r h => h.reply r) ?_
  rintro addr u w t hp _ _ h ⟨v, hv, hseen⟩ hr
  have hb : b = true := hv.seenmail ▸ hseen
  refine ⟨⟨h.authd, h.authenticated, fun _ hr' => ?_⟩, fun _ _ _ addr' hp' h0 => ?_⟩
  · rw [Session.accept, confirmedIn_append_reply]
    exact h.mailfrom ▸ h.lent hb hr'
  · obtain rfl : addr = addr' := by simpa [hp] using hp'
    rw [Session.accept, confirmedIn_append_reply]
    exact h.mailfrom ▸ h.lent hb (hr h0)

/-! ## Sessions -/

section Step

variable {s s' : Session} {v : View} {l : Line}

theorem Lent.mail {arg : Bytes} (h : Lent cfg (s, v)) (hl : l.command = .mail arg)
    (hc : OwnRight cfg (s, v) l) (hs : s.step cfg l = some s') : Ends cfg v.confirmed s' := by
  have hrun := triple_mail_lends hc.1 h (by simpa [OwnRight, hl] using hc.2)
  rw [show smtp_mail cfg l.site arg = handler cfg l.site l.command by rw [hl]; rfl] at hrun
  obtain ⟨t, b, ht, rfl⟩ := step_of_triple hrun rfl hs
  exact ht

theorem Lent.rcpt {arg : Bytes} (h : Lent cfg (s, v)) (hl : l.command = .rcpt arg)
    (hc : OwnRight cfg (s, v) l) (hs : s.step cfg l = some s') :
    Ends cfg v.confirmed s' ∧ RelayedFor cfg v.confirmed l.site arg s' := by
  have hrun := @triple_rcpt_lends cfg l.site v.confirmed (cstr s.mailfrom) s.seenmail
    hc.1 arg
  rw [show smtp_rcpt cfg l.site arg = handler cfg l.site l.command by rw [hl]; rfl] at hrun
  obtain ⟨t, b, ht, rfl⟩ := step_of_triple hrun h.start hs
  exact ht

theorem Lent.carried (h : Lent cfg (s, v)) (hl : l.command.carries)
    (hs : s.step cfg l = some s') : Ends cfg v.confirmed s' := by
  have hc := step_carried hl hs
  refine ⟨hc.authd.trans h.authd, fun ha => ?_, fun hm hr => ?_⟩
  · rw [hc.relayclient]
    exact h.authenticated (hc.authenticated ▸ ha)
  · obtain ⟨hm, hf, -⟩ := hc.seenmail hm
    rw [hf, hc.confirmed, List.append_nil]
    exact h.lent hm (hc.relayclient ▸ hr)

theorem Lent.step {p p' : Session × View} {relayclient : Option Bytes} (h : Lent cfg p)
    (hc : OwnRight cfg p l) (hs : (seenSession cfg relayclient).step p l = some p') :
    Lent cfg p' := by
  obtain ⟨s, v⟩ := p
  obtain ⟨s', v'⟩ := p'
  obtain ⟨hs, hv⟩ := Machine.recorded_step.mp hs
  change v' = v.see s l s' at hv
  subst hv
  have hend : Ends cfg v.confirmed s' := by
    cases hl : l.command with
    | mail arg => exact h.mail hl hc hs
    | rcpt arg => exact (h.rcpt hl hc hs).1
    | _ => exact h.carried (by simp [hl, Command.carries]) hs
  exact ⟨hend.1, hend.2.1, hend.2.2⟩

end Step

/-- **No relaying by leftover permission.** In a session in which a MAIL that stores its
sender while a permission is standing names a sender with a right of its own, a recipient
whose domain is not allowed is answered 250 only if `setup` let the client relay, or if the
sender of the transaction is listed in relaymailfrom or was confirmed itself. -/
theorem relayed_only_entitled {relayclient : Option Bytes} {s₀ s s' : Session} {v v' : View}
    {ls : List Line} {l : Line} {arg : Bytes} (h₀ : Fresh relayclient s₀)
    (he : (seenSession cfg relayclient).exec (s₀, {}) ls = some (s, v))
    (hc : (seenSession cfg relayclient).Meets
      (fun p l => relayclient = none → OwnRight cfg p l) (s₀, {}) (ls ++ [l]))
    (hs : (seenSession cfg relayclient).step (s, v) l = some (s', v'))
    (hl : l.command = .rcpt arg) {r : Reply} (hr : .reply r ∈ s'.out) (h250 : r.code = 250)
    {addr : Bytes} (haddr : addrparse l.site arg = some addr)
    (hnot : l.site.rcpthosts (recipientBase l.site addr) = 0) :
    relayclient ≠ none ∨ Entitled cfg v'.confirmed (cstr s'.mailfrom) := by
  by_cases hrelay : relayclient = none
  · obtain ⟨hls, hlast⟩ := Machine.meets_append.mp hc
    have hstart : Lent cfg (s₀, ({} : View)) :=
      ⟨h₀.authd, fun ha => absurd h₀.authenticated ha, fun hm => by simp [h₀.seenmail] at hm⟩
    have h : Lent cfg (s, v) := Machine.exec_invariant
      (fun _ _ _ h hc hs => h.step (hc hrelay) hs) hstart hls he
    obtain ⟨hstep, hv⟩ := Machine.recorded_step.mp hs
    have hright := (h.rcpt hl ((hlast _ he).1 hrelay) hstep).2 r hr h250 addr haddr hnot
    change v' = v.see s l s' at hv
    subst hv
    exact .inr hright
  · exact .inl hrelay

/-- `f@b` and `g@b` are listed in relaymailfrom. -/
def friendsListed : Config where
  relaymailfrom a := if a = asc "f@b" ∨ a = asc "g@b" then .found else .absent

/-- No domain is allowed by rcpthosts. -/
def closed : Site where
  rcpthosts _ := 0

/-- The first friend opens a transaction. -/
def friendFirst : List Line := [⟨.ehlo (asc "h"), {}⟩, ⟨.mail (asc "FROM:<f@b>"), closed⟩]

def remoteRecipient : Line := ⟨.rcpt (asc "TO:<c@d>"), closed⟩

/-- The transaction of the first friend is carried through, and the second one opens another. -/
def friendSecond : List Line :=
  friendFirst ++ [remoteRecipient, ⟨.data [], closed⟩, ⟨.mail (asc "FROM:<G@b>"), closed⟩]

theorem ownRight_of_listed {p : Session × View} {l : Line} {arg x : Bytes}
    (hcert : ¬ (cfg.ssl ∧ l.site.tlsclients = .listed)) (hl : l.command = .mail arg)
    (hx : senderOf l.site arg = some x) (hf : cfg.relaymailfrom x = .found) : OwnRight cfg p l := by
  refine ⟨hcert, ?_⟩
  rw [hl]
  intro addr hst _
  obtain rfl := Option.some.inj (hx.symm.trans hst.senderOf)
  exact .inl hf

/-- The second friend relays in its own right. -/
theorem relayed_only_entitled_friend :
    ∃ p p', (seenSession friendsListed none).exec ({}, {}) friendSecond = some p ∧
      (seenSession friendsListed none).step p remoteRecipient = some p' ∧
      .reply ⟨250, asc "ok"⟩ ∈ p'.1.out ∧ p'.2.sender = some (asc "g@b") ∧
      ((none : Option Bytes) ≠ none ∨ Entitled friendsListed p'.2.confirmed (cstr p'.1.mailfrom)) := by
  have hrun : ((seenSession friendsListed none).exec ({}, {}) friendSecond).any (fun p =>
      ((seenSession friendsListed none).step p remoteRecipient).any fun p' =>
        decide (.reply ⟨250, asc "ok"⟩ ∈ p'.1.out ∧ p'.2.sender = some (asc "g@b"))) = true := by
    decide +kernel
  obtain ⟨p, he, hp⟩ := (Option.any_eq_true _ _).mp hrun
  obtain ⟨p', hs, hm⟩ := (Option.any_eq_true _ _).mp hp
  obtain ⟨hm, hsender⟩ := of_decide_eq_true hm
  have hcert : ∀ site : Site, ¬ (friendsListed.ssl ∧ site.tlsclients = .listed) := fun _ h => by
    cases h.1
  have hf : senderOf closed (asc "FROM:<f@b>") = some (asc "f@b") := by decide +kernel
  have hg : senderOf closed (asc "FROM:<G@b>") = some (asc "g@b") := by decide +kernel
  refine ⟨p, p', he, hs, hm, hsender, @relayed_only_entitled friendsListed none {} p.1 p'.1 p.2 p'.2
    friendSecond remoteRecipient (asc "TO:<c@d>") ⟨rfl, rfl, rfl, rfl, rfl⟩ he ?_ hs rfl _ hm rfl
    (asc "c@d") (by decide +kernel) rfl⟩
  refine ⟨fun _ => ⟨hcert _, trivial⟩, fun _ _ => ⟨fun _ => ownRight_of_listed (hcert _) rfl hf (by decide),
    fun _ _ => ⟨fun _ => ⟨hcert _, trivial⟩, fun _ _ => ⟨fun _ => ⟨hcert _, trivial⟩, fun _ _ => ?_⟩⟩⟩⟩
  exact ⟨fun _ => ownRight_of_listed (hcert _) rfl hg (by decide),
    fun _ _ => ⟨fun _ => ⟨hcert _, trivial⟩, fun _ _ => trivial⟩⟩

/-- Then a stranger, `x@y`, opens one of its own: it relays with what the friend was given. -/
theorem leftover_permission_relays :
    Fresh none {} ∧ ∃ p, (seenSession friendsListed none).exec ({}, {})
        (friendFirst ++ [⟨.mail (asc "FROM:<x@y>"), closed⟩, remoteRecipient]) = some p ∧
      .reply ⟨250, asc "ok"⟩ ∈ p.1.out ∧ p.2.sender = some (asc "x@y") ∧
      closed.rcpthosts (recipientBase closed (asc "c@d")) = 0 ∧
      ¬ Entitled friendsListed p.2.confirmed (asc "x@y") := by
  have hrun : ((seenSession friendsListed none).exec ({}, {})
      (friendFirst ++ [⟨.mail (asc "FROM:<x@y>"), closed⟩, remoteRecipient])).any (fun p =>
        decide (.reply ⟨250, asc "ok"⟩ ∈ p.1.out ∧ p.2.sender = some (asc "x@y") ∧
          closed.rcpthosts (recipientBase closed (asc "c@d")) = 0 ∧
          ¬ Entitled friendsListed p.2.confirmed (asc "x@y"))) = true := by
    decide +kernel
  obtain ⟨p, he, hm⟩ := (Option.any_eq_true _ _).mp hrun
  exact ⟨⟨rfl, rfl, rfl, rfl, rfl⟩, p, he, of_decide_eq_true hm⟩

end IndimailMta.Smtpd
