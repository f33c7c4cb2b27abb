import IndimailMta.Smtpd.Transaction

/-!
# The envelope of a queued message

`seenmail` is not cleared when a MAIL command arrives, and `mailfrom` is stored
before the last checks. In a session in which every MAIL that arrives while a
transaction is open passes its checks, and no RCPT answers an error and goes on,
DATA hands on the sender and the recipients that were answered 250.
-/

namespace IndimailMta.Smtpd

open IndimailMta Exits Run

/-! ## MAIL and RCPT -/

theorem Held.store {site : Site} {s₀ s : Session} (h : Held s₀ s) (addr : Bytes) :
    Held (s₀.store site addr) (s.store site addr) :=
  ⟨h.seenmail, rfl, rfl, h.suffix, h.authd, h.authenticated, h.quiet⟩

/-- MAIL refuses and leaves `seenmail` as it was. -/
structure MailRefused (s₀ t : Session) : Prop where
  seenmail : t.seenmail = s₀.seenmail
  authd : t.authd = false
  authenticated : t.authenticated ≠ 0 → t.relayclient ≠ none
  refused : Refused t.out

/-- MAIL is answered 250 and opens a transaction of the sender it names. -/
structure MailAccepted (site : Site) (arg : Bytes) (t : Session) : Prop where
  authd : t.authd = false
  authenticated : t.authenticated ≠ 0 → t.relayclient ≠ none
  answer : answered250 t.out = true
  quiet : ∀ f r, .envelope f r ∉ t.out
  sender : ∃ x, senderOf site arg = some x ∧ (0 : Byte) ∉ x ∧ t.mailfrom = x ++ [0]
  rcptto : t.rcptto = []

variable {cfg : Config}

theorem triple_mail_envelope (site : Site) (arg : Bytes) (s₀ : Session) :
    Triple (Held s₀) (smtp_mail cfg site arg) (fun _ => MailAccepted site arg)
      fun _ => MailRefused s₀ := by
  have hE : ∀ {u : Session}, u.seenmail = s₀.seenmail →
      Refuses (Held u) fun _ => MailRefused s₀ := fun hu _ s r h =>
    ⟨h.seenmail.trans hu, h.authd, h.authenticated, h.quiet.refused r⟩
  have hb : ∀ s b, Held s₀ s → Held s₀ { s with isbounce := b } := fun _ _ h =>
    ⟨h.seenmail, h.mailfrom, h.rcptto, h.suffix, h.authd, h.authenticated, h.quiet⟩
  have hz : ∀ s b, Held s₀ s → Held s₀ { s with flagsize := b } := fun _ _ h =>
    ⟨h.seenmail, h.mailfrom, h.rcptto, h.suffix, h.authd, h.authenticated, h.quiet⟩
  -- the sender is the one the command names, whatever its checks have asked
  let given : Session := s₀.store site ((senderOf site arg).getD [])
  have hstored : ∀ {s : Session} {addr : Bytes}, senderOf site arg = some (cstr addr) →
      s.store site addr = s.store site ((senderOf site arg).getD []) := by
    intro s addr hx
    rw [hx, Option.getD_some, Session.store, Session.store, cstr_eq (nul_notMem_cstr _)]
  refine triple_smtp_mail (I := Held given) (stableMail_held cfg site (hE rfl))
    (hE rfl) hb hz (fun s s' a _ hs h => ?_) fun a s hx h => ?_
  · rw [hstored hs.senderOf]
    exact ⟨h.store _, trivial⟩
  · have hf : s.mailfrom = cstr a ++ [0] := by
      rw [h.mailfrom]
      simp only [given, hx, Option.getD_some, Session.store]
    have ha : cstr a = a := by
      obtain ⟨b, -, rfl⟩ := Option.map_eq_some_iff.mp hx
      exact cstr_eq (nul_notMem_cstr _)
    refine ⟨h.authd, h.authenticated, answered250_append_reply h.quiet _, fun f r hm => ?_,
      ⟨a, hx, ha ▸ nul_notMem_cstr a, ha ▸ hf⟩, h.rcptto⟩
    rcases List.mem_append.mp hm with hm | hm
    · exact h.quiet.notMem f r hm
    · simp at hm

/-- RCPT refuses and leaves the transaction alone. -/
structure RcptRefused (s₀ t : Session) : Prop where
  seenmail : t.seenmail = s₀.seenmail
  mailfrom : t.mailfrom = s₀.mailfrom
  rcptto : t.rcptto = s₀.rcptto
  authd : t.authd = false
  authenticated : t.authenticated ≠ 0 → t.relayclient ≠ none
  refused : Refused t.out

/-- RCPT is answered 250 and adds the recipient it names. -/
structure RcptAccepted (site : Site) (arg : Bytes) (s₀ t : Session) : Prop where
  seenmail : t.seenmail = s₀.seenmail
  mailfrom : t.mailfrom = s₀.mailfrom
  rcptto : ∃ x, recipientOf site s₀ arg = some x ∧ t.rcptto = s₀.rcptto ++ recipientRecord x
  authd : t.authd = false
  authenticated : t.authenticated ≠ 0 → t.relayclient ≠ none
  answer : answered250 t.out = true
  quiet : ∀ f r, .envelope f r ∉ t.out

theorem triple_rcpt_envelope {site : Site} {arg : Bytes} {s₀ : Session}
    (hstray : ¬ Stray cfg site s₀.chkdomok (s₀.relayclient.getD []) arg) :
    Triple (fun s => Held s₀ s ∧ s.chkdomok = s₀.chkdomok) (smtp_rcpt cfg site arg)
      (fun _ => RcptAccepted site arg s₀) fun _ => RcptRefused s₀ := by
  have hE : Refuses (Held s₀) fun _ => RcptRefused s₀ := fun _ _ r h =>
    ⟨h.seenmail, h.mailfrom, h.rcptto, h.authd, h.authenticated, h.quiet.refused r⟩
  have hI := (stableRcpt_held cfg site hE).flags fun _ chkdomok => chkdomok = s₀.chkdomok
  refine triple_smtp_rcpt hI (fun _ _ => trivial) (fun u w hu hw hs => ?_) ?_
  · rw [hw.2, hu.1.suffix] at hs
    exact absurd hs hstray
  intro addr u w t hp hu hw h _ _
  refine ⟨h.1.seenmail, h.1.mailfrom, ⟨cstr (recipientGiven site s₀.chkdomok (recipientBase site addr)
    (s₀.relayclient.getD [])), ?_, ?_⟩, h.1.authd, h.1.authenticated, answered250_append_reply h.1.quiet _, ?_⟩
  · rw [recipientOf, hp]
    rfl
  · rw [Session.accept, h.1.rcptto, hu.1.suffix, hw.2]
  · intro f r hm
    rcases List.mem_append.mp hm with hm | hm
    · exact h.1.quiet.notMem f r hm
    · simp at hm

/-! ## The envelope and what the client sees -/

/-- MAIL passes all its checks, before its sender is stored and after. -/
def MailPasses (cfg : Config) (site : Site) (s : Session) (arg : Bytes) : Prop :=
  ∃ addr t u, mail_before cfg site arg s = (.ok addr, t) ∧
    mail_after cfg site addr (t.store site addr) = (.ok (), u)

theorem smtp_mail_of_passes {site : Site} {s : Session} {arg : Bytes}
    (h : MailPasses cfg site s arg) : ∃ t, smtp_mail cfg site arg s = (.ok (), t) := by
  obtain ⟨addr, t, u, hb, hu⟩ := h
  exact ⟨_, (run_bind_ok hb).trans ((run_bind_ok (m := update _) rfl).trans
    ((run_bind_ok hu).trans rfl))⟩

/-- No MAIL is refused while a transaction is open, and no RCPT answers an error to its address without
returning. -/
def Undisturbed (cfg : Config) (p : Session × View) (l : Line) : Prop :=
  match l.command with
  | .mail arg => p.1.seenmail → MailPasses cfg l.site { p.1 with out := [] } arg
  | .rcpt arg => ¬ Stray cfg l.site p.1.chkdomok (p.1.relayclient.getD []) arg
  | _ => True

/-- The open transaction is the one that is seen, and so is an envelope just handed on. -/
structure Agrees (p : Session × View) : Prop where
  authd : p.1.authd = false
  authenticated : p.1.authenticated ≠ 0 → p.1.relayclient ≠ none
  sender : p.1.seenmail → ∃ x, p.2.sender = some x ∧ (0 : Byte) ∉ x ∧ p.1.mailfrom = x ++ [0]
  rcpts : p.1.seenmail → p.1.rcptto = p.2.rcpts.flatMap recipientRecord
  envelope : ∀ f r, .envelope f r ∈ p.1.out →
    p.2.sender = some f ∧ r = p.2.rcpts.flatMap recipientRecord

theorem Agrees.held {s : Session} {v : View} (h : Agrees (s, v)) :
    Held { s with out := [] } { s with out := [] } :=
  ⟨rfl, rfl, rfl, rfl, h.authd, h.authenticated, by simp [Quiet]⟩

variable {s s' : Session} {v : View} {l : Line}

theorem Agrees.carried (h : Agrees (s, v)) (hl : l.command.carries)
    (hs : s.step cfg l = some s') : Agrees (s', v.see s l s') := by
  have hc := step_carried hl hs
  have hv : (v.see s l s').sender = v.sender ∧ (v.see s l s').rcpts = v.rcpts := by
    cases hl' : l.command <;> simp_all [View.see, Command.carries]
  refine ⟨hc.authd.trans h.authd, fun ha => ?_, fun hm => ?_, fun hm => ?_, fun f r he => ?_⟩
  · rw [hc.relayclient]
    exact h.authenticated (hc.authenticated ▸ ha)
  · obtain ⟨hm, hf, -⟩ := hc.seenmail hm
    rw [hv.1, hf]
    exact h.sender hm
  · obtain ⟨hm, -, hr⟩ := hc.seenmail hm
    rw [hv.2, hr]
    exact h.rcpts hm
  · obtain ⟨hm, rfl, rfl⟩ := hc.envelope f r he
    obtain ⟨x, hx, hn, hf⟩ := h.sender hm
    rw [hv.1, hv.2, hf, cstr_append_nul hn]
    exact ⟨hx, h.rcpts hm⟩

theorem Agrees.mail {arg : Bytes} (h : Agrees (s, v)) (hl : l.command = .mail arg)
    (hpass : s.seenmail → MailPasses cfg l.site { s with out := [] } arg)
    (hs : s.step cfg l = some s') : Agrees (s', v.see s l s') := by
  obtain ⟨r, t, b, ht, rfl⟩ := step_run hs
  rw [hl] at ht
  have hrun := @triple_mail_envelope cfg l.site arg _ _ h.held
  rw [show smtp_mail cfg l.site arg { s with out := [] } = (r, t) from ht] at hrun
  cases r with
  | ok _ =>
      obtain ⟨x, hx, hn, hf⟩ := hrun.sender
      have ha : answered250 t.out = true := hrun.answer
      refine ⟨hrun.authd, hrun.authenticated, fun _ => ⟨x, ?_, hn, hf⟩, fun _ => ?_,
        fun f r he => absurd he (hrun.quiet f r)⟩
      · simp [View.see, hl, ha, hx]
      · simpa [View.see, hl] using hrun.rcptto
  | error e =>
      have hm : t.seenmail = s.seenmail := hrun.seenmail
      have hclosed : t.seenmail = true → False := fun hm' => by
        -- with a transaction open this MAIL passes its checks, so that it is not refused
        obtain ⟨u, hu⟩ := smtp_mail_of_passes (hpass (hm ▸ hm'))
        cases hu.symm.trans ht
      exact ⟨hrun.authd, hrun.authenticated, fun hm => (hclosed hm).elim,
        fun hm => (hclosed hm).elim, fun f r he => absurd he (hrun.refused.2 f r)⟩

theorem Agrees.rcpt {arg : Bytes} (h : Agrees (s, v)) (hl : l.command = .rcpt arg)
    (hstray : ¬ Stray cfg l.site s.chkdomok (s.relayclient.getD []) arg) (hs : s.step cfg l = some s') :
    Agrees (s', v.see s l s') := by
  obtain ⟨r, t, b, ht, rfl⟩ := step_run hs
  rw [hl] at ht
  have hrun := @triple_rcpt_envelope cfg l.site arg { s with out := [] } hstray _ ⟨h.held, rfl⟩
  rw [show smtp_rcpt cfg l.site arg { s with out := [] } = (r, t) from ht] at hrun
  cases r with
  | ok _ =>
      obtain ⟨x, hx, hr⟩ := hrun.rcptto
      have ha : answered250 t.out = true := hrun.answer
      refine ⟨hrun.authd, hrun.authenticated, fun hm => ?_, fun hm => ?_,
        fun f r he => absurd he (hrun.quiet f r)⟩
      · obtain ⟨y, hy, hn, hf⟩ := h.sender (hrun.seenmail ▸ hm)
        exact ⟨y, by simpa [View.see, hl] using hy, hn, hrun.mailfrom.trans hf⟩
      · have hx' : recipientOf l.site s arg = some x := hx
        have hr' : s.rcptto = v.rcpts.flatMap recipientRecord := h.rcpts (hrun.seenmail ▸ hm)
        simp [View.see, hl, ha, hx', hr, hr']
  | error _ =>
      have ha : answered250 t.out = false := hrun.refused.1
      refine ⟨hrun.authd, hrun.authenticated, fun hm => ?_, fun hm => ?_,
        fun f r he => absurd he (hrun.refused.2 f r)⟩
      · obtain ⟨y, hy, hn, hf⟩ := h.sender (hrun.seenmail ▸ hm)
        exact ⟨y, by simpa [View.see, hl] using hy, hn, hrun.mailfrom.trans hf⟩
      · have hr' : s.rcptto = v.rcpts.flatMap recipientRecord := h.rcpts (hrun.seenmail ▸ hm)
        simpa [View.see, hl, ha, hr'] using hrun.rcptto

theorem Agrees.step {p p' : Session × View} {relayclient : Option Bytes} (h : Agrees p)
    (hc : Undisturbed cfg p l) (hs : (seenSession cfg relayclient).step p l = some p') :
    Agrees p' := by
  obtain ⟨s, v⟩ := p
  obtain ⟨s', v'⟩ := p'
  obtain ⟨hs, hv⟩ := Machine.recorded_step.mp hs
  change v' = v.see s l s' at hv
  subst hv
  cases hl : l.command with
  | mail arg => exact h.mail hl (by simpa [Undisturbed, hl] using hc) hs
  | rcpt arg => exact h.rcpt hl (by simpa [Undisturbed, hl] using hc) hs
  | _ => exact h.carried (by simp [hl, Command.carries]) hs

/-- One address of the domain `fw` is an SRS address; any other one is not decoded. -/
def forwards : Site where
  srs_domain := asc "fw"
  srsreverse a := if a = asc "srs0=x@fw" then .decoded (asc "C@d") else .failed

end IndimailMta.Smtpd
