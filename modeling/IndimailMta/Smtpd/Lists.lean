import IndimailMta.Smtpd.Transaction

/-!
# The lists of senders and recipients that are checked

`chksenderdomains`, `authdomains` and `chkrcptdomains` say to which addresses CHECKSENDER, the
demand for authentication and CHECKRECIPIENT apply. The variable that says whether a list was
loaded is also the result of the last lookup in it, and is cleared by the first address that is
listed (or, for authdomains, that is not); the lookups after that are made without the list. And
the permission that relaymailfrom or a relay query has given for one sender is still there when
CHECKSENDER looks at the next one.

The session of `listed` is the one in which the three checks know of nothing but the lists, what
`setup` and AUTH have allowed, and the address. As long as no command needs what an earlier one has
changed, the client sees the same replies in both.
-/

namespace IndimailMta.Smtpd.Lists

open IndimailMta Exits Run

/-! ## The checks by the lists -/

/-- A check applies to the addresses of its list, and without a list to every address. -/
def applies (c : Control) (addr : Bytes) : Bool := !c.loaded || c.lookup c.loaded addr == .found

/-- Who needs no confirmation: a client that `setup` or AUTH lets relay, and a sender in
relaymailfrom. -/
def entitled (cfg : Config) (relays : Bool) (sender : Bytes) : Bool :=
  relays || cfg.relaymailfrom sender == .found

section Listed

variable (cfg : Config) (site : Site)

/-- `check_sender`, by chksenderdomains. -/
def check_sender_listed (entitled : Bool) (t_addr : Bytes) : Smtp Unit := do
  let t_addr ← check (address_match (cfg.chksenderdomains.lookup cfg.chksenderdomains.loaded) t_addr none)
  when (cfg.chksenderdomains.lookup cfg.chksenderdomains.loaded t_addr = .found)
    (update fun s => { s with chksndrok := false })
  let s ← read
  when (applies cfg.chksenderdomains t_addr) (sender_demands cfg site (entitled ∨ s.authd) t_addr)

/-- CHECKSENDER asks about a sender in rcpthosts, or about the name of a client that has authenticated. -/
def mail_checksender_listed (relays : Bool) (addr : Bytes) : Smtp Unit := do
  let s ← read
  let in_rcpt2 ← (if s.authd then do
      let _ ← addrallowed cfg site site.remoteinfo
      pure (site.rcpthosts site.remoteinfo)
    else pure (-1))
  mail_asks cfg site (check_sender_listed cfg site (entitled cfg relays (cstr addr)))
    (site.rcpthosts (cstr addr)) in_rcpt2 addr

def mail_authdomains_listed : Smtp Unit :=
  when (cfg.authdomains.loaded) do
    let s ← read
    let mailfrom ← check (address_match (cfg.authdomains.lookup true) (cstr s.mailfrom) none)
    update fun s => { s with chkdomok := cfg.authdomains.lookup true mailfrom = .found }

def mail_checked_listed (relays : Bool) (addr : Bytes) : Smtp Unit := do
  mail_checksender_listed cfg site relays addr
  let s ← read
  check (spf_checks site s.relayclient)

def mail_after_listed (relays : Bool) (addr : Bytes) : Smtp Unit := do
  let _ ← mail_known cfg site addr
  mail_checked_listed cfg site relays addr
  mail_authdomains_listed cfg
  check (mail_last cfg site)

def smtp_mail_listed (relays : Bool) (arg : Bytes) : Smtp Unit := do
  let addr ← mail_before cfg site arg
  update fun s => s.store site addr
  mail_after_listed cfg site relays addr
  update fun s => { s with seenmail := true }
  say ⟨250, asc "ok"⟩

/-- `$CHECKRECIPIENT`, by chkrcptdomains. -/
def check_recipient_listed (isgoodrcpt : Int) (addr : Bytes) : Smtp (Bytes × Int) :=
  match site.CHECKRECIPIENT with
  | none => pure (addr, isgoodrcpt)
  | some tmp => do
      let addr ← check (address_match (cfg.chkrcptdomains.lookup cfg.chkrcptdomains.loaded) addr none)
      when (cfg.chkrcptdomains.lookup cfg.chkrcptdomains.loaded addr = .found)
        (update fun s => { s with chkrcptok := false })
      if ¬ applies cfg.chkrcptdomains addr then pure (addr, isgoodrcpt) else
        let isgoodrcpt ← recipient_applies cfg site tmp isgoodrcpt addr
        pure (addr, isgoodrcpt)

/-- The recipient is in rcpthosts, which is asked unless authdomains has the sender. -/
def recipientLooked (chkdomok : Bool) (arg : Bytes) : Bool :=
  !chkdomok && !site.AUTH_ALL &&
    (addrparse site arg).any fun addr => site.rcpthosts (recipientBase site addr) == 1

def smtp_rcpt_listed (arg : Bytes) : Smtp Unit := do
  let s ← read
  let (_, isgoodrcpt, addr) ← rcpt_before cfg site arg
  let (addr, isgoodrcpt) ←
    (if recipientLooked site s.chkdomok arg then check_recipient_listed cfg site isgoodrcpt addr
    else pure (addr, isgoodrcpt))
  rcpt_after site isgoodrcpt addr

def handler_listed (relays : Bool) : Command → Smtp Unit
  | .mail arg => smtp_mail_listed cfg site relays arg
  | .rcpt arg => smtp_rcpt_listed cfg site arg
  | c => handler cfg site c

end Listed

/-! ## The two sessions -/

/-- What the client sends: a command, or AUTH with what its method returns. -/
inductive Input where
  | line (l : Line)
  | auth (a : Auth)

/-- `setup` has loaded the lists. -/
structure Started (cfg : Config) (relayclient : Option Bytes) (s : Session) : Prop
    extends Fresh relayclient s where
  chksndrok : s.chksndrok = cfg.chksenderdomains.loaded
  chkdomok : s.chkdomok = cfg.authdomains.loaded
  chkrcptok : s.chkrcptok = cfg.chkrcptdomains.loaded

/-- AUTH has let the client relay. -/
def Auth.grants (s s' : Session) : Auth → Bool
  | .relays => !s.authd && s'.authd
  | _ => false

/-- A session of `handle`, and whether `setup` or AUTH lets the client relay. -/
def conversation (cfg : Config) (relayclient : Option Bytes)
    (handle : Bool → Site → Command → Smtp Unit) : Machine (Session × Bool) Input where
  init p := Started cfg relayclient p.1 ∧ p.2 = relayclient.isSome
  step p
    | .line l => (p.1.carryOut (handle p.2 l.site l.command)).map fun s => (s, p.2)
    | .auth a => (p.1.carryOut (smtp_auth cfg a)).map fun s => (s, p.2 || Auth.grants p.1 s a)

/-- The program. -/
def running (cfg : Config) (relayclient : Option Bytes) : Machine (Session × Bool) Input :=
  conversation cfg relayclient fun _ => handler cfg

/-- The session whose checks go by the lists. -/
def listed (cfg : Config) (relayclient : Option Bytes) : Machine (Session × Bool) Input :=
  conversation cfg relayclient fun relays site => handler_listed cfg site relays

/-! ## Which commands need what an earlier one has changed -/

/-- The list is not needed for the verdict: the database answers, or the file has the address. -/
def Unaffected (c : Control) (addr : Bytes) : Prop := c.cdbmatch addr ≠ .absent ∨ c.wildmat addr = .found

/-- The address CHECKSENDER asks about. -/
def senderAsked (site : Site) (authd : Bool) (addr : Bytes) : Option Bytes :=
  if ¬ site.CHECKSENDER then none
  else if site.rcpthosts (cstr addr) = 1 then some ((cstr addr).map lower)
  else if authd ∧ site.rcpthosts site.remoteinfo = 1 then some (site.remoteinfo.map lower)
  else none

/-- A MAIL with the sender `addr` needs nothing an earlier command has changed. -/
structure MailApart (cfg : Config) (site : Site) (relays : Bool) (s : Session) (addr : Bytes) : Prop where
  /-- `chksndrok` is cleared: the address asked about does not need it. -/
  chksndr : cfg.chksenderdomains.loaded → s.chksndrok = false →
    ∀ t ∈ senderAsked site s.authd addr, Unaffected cfg.chksenderdomains t
  /-- `chkdomok` is cleared: the sender is not listed. -/
  chkdom : cfg.authdomains.loaded → s.chkdomok = false → cfg.authdomains.lookup true (cstr addr) = .absent
  /-- A permission is left over: CHECKSENDER demands none. -/
  leftover : s.relayclient ≠ none → s.authd = false → entitled cfg relays (cstr addr) = false →
    ∀ t ∈ senderAsked site s.authd addr, applies cfg.chksenderdomains t = false
  /-- A confirmation is left over: `remoteinfo`, which is looked at for it, changes nothing. -/
  confirmed : s.authenticated ≠ 0 → s.authd = false → site.rcpthosts site.remoteinfo ≠ -1 ∧
    (site.CHECKSENDER → site.rcpthosts (cstr addr) ≠ 1 → site.rcpthosts site.remoteinfo ≠ 1)
  /-- The certificate of the client, which is looked at once, is not asked for. -/
  certificate : cfg.ssl → site.tlsclients = .listed →
    site.rcpthosts (cstr addr) ≠ 0 ∧ site.rcpthosts site.remoteinfo ≠ 0

/-- A RCPT to `addr` needs nothing an earlier command has changed. -/
structure RcptApart (cfg : Config) (site : Site) (s : Session) (addr : Bytes) : Prop where
  /-- `chkrcptok` is cleared: the address asked about does not need it. -/
  chkrcpt : cfg.chkrcptdomains.loaded → s.chkrcptok = false → site.CHECKRECIPIENT ≠ none →
    Asked site s.chkdomok → site.rcpthosts (recipientBase site addr) = 1 →
    Unaffected cfg.chkrcptdomains ((recipientBase site addr ++ s.relayclient.getD []).map lower)
  /-- The certificate does not stand in for rcpthosts. -/
  certificate : cfg.ssl → site.tlsclients = .listed → site.CHECKRECIPIENT ≠ none →
    site.rcpthosts (recipientBase site addr) ≠ 0

/-- The command needs nothing an earlier one has changed. -/
def Apart (cfg : Config) (p : Session × Bool) : Input → Prop
  | .line l =>
      match l.command with
      | .mail arg => ∀ addr, Stores cfg l.site p.1 arg addr → MailApart cfg l.site p.2 p.1 addr
      | .rcpt arg => ∀ addr, addrparse l.site arg = some addr → RcptApart cfg l.site p.1 addr
      | _ => True
  | .auth _ => True

/-! ## One lookup -/

section Lookup

variable {c : Control} {addr : Bytes}

/-- A cleared variable makes no difference for the lookup, or only that the address is taken for one
of the addresses that a missing list checks. -/
theorem lookup_cases {ok : Bool} (hok : ok = true → c.loaded = true)
    (hun : c.loaded = true → ok = false → Unaffected c addr) :
    (c.lookup ok addr = c.lookup c.loaded addr ∧ (c.lookup ok addr = .absent → ok = c.loaded)) ∨
      (ok = false ∧ c.lookup ok addr = .absent ∧ c.lookup c.loaded addr = .found) := by
  cases hl : c.loaded with
  | false =>
      have hf : ok = false := by
        by_contra h
        rw [hok (by simpa using h)] at hl
        cases hl
      exact .inl ⟨by rw [hf], fun _ => hf⟩
  | true =>
      cases hf : ok with
      | true => exact .inl ⟨rfl, fun _ => rfl⟩
      | false =>
          cases hc : c.cdbmatch addr with
          | absent =>
              have hw := (hun hl hf).resolve_left (not_not.mpr hc)
              exact .inr ⟨rfl, by simp [Control.lookup, hc], by simp [Control.lookup, hc, hw]⟩
          | found => exact .inl (by simp [Control.lookup, hc])
          | memory => exact .inl (by simp [Control.lookup, hc])
          | error => exact .inl (by simp [Control.lookup, hc])

theorem check_address_match {list : Bytes → Match} {s : Session}
    (h : list (addr.map lower) = .found ∨ list (addr.map lower) = .absent) :
    check (address_match list addr none) s = (.ok (addr.map lower), s) := by
  unfold address_match
  rcases h with h | h <;> simp only [h] <;> rfl

/-- Lookups with one result end a command in one way. -/
theorem check_address_congr {β : Type} {list list' : Bytes → Match} {f g : Bytes → Smtp β} {s : Session}
    (h : list (addr.map lower) = list' (addr.map lower))
    (hfg : list (addr.map lower) = .found ∨ list (addr.map lower) = .absent →
      f (addr.map lower) s = g (addr.map lower) s) :
    (check (address_match list addr none) >>= f) s = (check (address_match list' addr none) >>= g) s := by
  have hm : address_match list addr none = address_match list' addr none := by
    unfold address_match
    simp only [h]
  rw [← hm]
  refine run_bind_congr rfl fun a t ht => ?_
  cases ha : address_match list addr none with
  | error d =>
      rw [ha] at ht
      cases d <;> cases ht
  | ok b =>
      obtain ⟨rfl, hor⟩ := address_match_ok ha
      rw [ha] at ht
      cases ht
      exact hfg hor

/-- The lookup of chksenderdomains and of chkrcptdomains: `get` is its variable, and `k` goes on, knowing
whether the address is passed over. -/
theorem ask_eq {β : Type} {get : Session → Bool} {clear : Session → Session}
    (hget : ∀ s, get (clear s) = false) (hclear : ∀ s, get s = false → clear s = s) {s : Session}
    (hok : get s = true → c.loaded = true)
    (hun : c.loaded = true → get s = false → Unaffected c (addr.map lower))
    {k k' : Bytes → Bool → Session → Smtp β}
    (hk : ∀ t, t = s ∨ t = clear s → k (addr.map lower) (!applies c (addr.map lower)) t t =
      k' (addr.map lower) (!applies c (addr.map lower)) t t) :
    (check (address_match (c.lookup (get s)) addr none) >>= fun a =>
      when (c.lookup (get s) a = .found) (update clear) >>= fun _ =>
        read >>= fun t => k a (get t) t) s =
    (check (address_match (c.lookup c.loaded) addr none) >>= fun a =>
      when (c.lookup c.loaded a = .found) (update clear) >>= fun _ =>
        read >>= fun t => k' a (!applies c a) t) s := by
  rcases lookup_cases hok hun with ⟨heq, habs⟩ | ⟨hf, habs, hfound⟩
  · refine check_address_congr heq fun hor => ?_
    rcases hor with hfound | habsent
    · rw [← heq, when, if_pos hfound]
      have happ : applies c (addr.map lower) = true := by simp [applies, ← heq, hfound]
      have hrun := hk (clear s) (.inr rfl)
      rw [happ] at hrun ⊢
      change k _ (get (clear s)) (clear s) (clear s) = k' _ (!true) (clear s) (clear s)
      rw [hget]
      exact hrun
    · rw [← heq, when, if_neg (by rw [habsent]; decide)]
      have happ : (!applies c (addr.map lower)) = get s := by
        rw [applies, ← heq, habsent, habs habsent]
        cases c.loaded <;> rfl
      have hrun := hk s (.inl rfl)
      rw [happ] at hrun ⊢
      exact hrun
  · have happ : applies c (addr.map lower) = true := by simp [applies, hfound]
    rw [run_bind_ok (check_address_match (.inr habs)), run_bind_ok (check_address_match (.inl hfound)),
      when, if_neg (by rw [habs]; decide), when, if_pos hfound]
    have hrun := hk s (.inl rfl)
    rw [happ] at hrun ⊢
    change k _ (get s) s s = k' _ (!true) (clear s) (clear s)
    rw [hf, hclear s hf]
    exact hrun

end Lookup

/-! ## What every command keeps -/

/-- A confirmation is a permission, what `setup` or AUTH allow is one, and a variable is set only if its
list was loaded. -/
structure Inv (cfg : Config) (relays : Bool) (s : Session) : Prop where
  authenticated : s.authenticated ≠ 0 → s.relayclient ≠ none
  relays : relays = true → s.relayclient ≠ none
  chksndr : s.chksndrok = true → cfg.chksenderdomains.loaded = true
  chkdom : s.chkdomok = true → cfg.authdomains.loaded = true
  chkrcpt : s.chkrcptok = true → cfg.chkrcptdomains.loaded = true

section Keeping

variable {cfg : Config} {site : Site} {relays : Bool}

theorem stable_inv : Stable cfg site (fun _ => True) (Inv cfg relays) fun _ => Inv cfg relays where
  refused _ _ _ h := ⟨h.authenticated, h.relays, h.chksndr, h.chkdom, h.chkrcpt⟩
  verified _ h := ⟨h.authenticated, h.relays, h.chksndr, h.chkdom, h.chkrcpt⟩
  authenticated _ h := h.authenticated
  confirmed s a b _ h hn := by
    refine ⟨fun hb => by simp_all, fun hr => absurd hn (h.relays hr), h.chksndr, h.chkdom, h.chkrcpt⟩
  certified _ _ _ h _ := ⟨fun _ => by simp, fun _ => by simp, h.chksndr, h.chkdom, h.chkrcpt⟩

theorem stableMail_inv : StableMail cfg site (fun _ => True) (Inv cfg relays) fun _ => Inv cfg relays where
  toStable := stable_inv
  answered _ _ _ h := ⟨h.authenticated, h.relays, h.chksndr, h.chkdom, h.chkrcpt⟩
  chksndr _ h := ⟨h.authenticated, h.relays, nofun, h.chkdom, h.chkrcpt⟩
  chkdom _ h := ⟨h.authenticated, h.relays, h.chksndr, nofun, h.chkrcpt⟩
  listed _ _ h _ := ⟨fun _ => by simp, fun _ => by simp, h.chksndr, h.chkdom, h.chkrcpt⟩

theorem stableRcpt_inv : StableRcpt cfg site (fun _ => True) (Inv cfg relays) fun _ => Inv cfg relays where
  toStable := stable_inv
  chkrcpt _ h := ⟨h.authenticated, h.relays, h.chksndr, h.chkdom, nofun⟩
  errcount _ _ h := ⟨h.authenticated, h.relays, h.chksndr, h.chkdom, h.chkrcpt⟩

theorem Inv.step {l : Line} {s s' : Session} (h : Inv cfg relays s) (hs : s.step cfg l = some s') :
    Inv cfg relays s' := by
  have hcarried : l.command.carries → Inv cfg relays s' := by
    intro hl
    have hc := step_carried hl hs
    obtain ⟨hsndr, hdom, hrcpt⟩ := hc.checks
    refine ⟨?_, ?_, ?_, ?_, ?_⟩
    · rw [hc.authenticated, hc.relayclient]
      exact h.authenticated
    · rw [hc.relayclient]
      exact h.relays
    · rw [hsndr]
      exact h.chksndr
    · rw [hdom]
      exact h.chkdom
    · rw [hrcpt]
      exact h.chkrcpt
  -- What the handler keeps the step keeps: around it only the replies and `exited` are written.
  have hrun : Keeps (Inv cfg relays) (fun _ => Inv cfg relays) (handler cfg l.site l.command) →
      Inv cfg relays s' := by
    intro hk
    obtain ⟨t, b, ht, rfl⟩ := step_of_triple hk
      ⟨h.authenticated, h.relays, h.chksndr, h.chkdom, h.chkrcpt⟩ hs
    exact ⟨ht.authenticated, ht.relays, ht.chksndr, ht.chkdom, ht.chkrcpt⟩
  have hsay : ∀ t r, Inv cfg relays t → Inv cfg relays { t with out := r } :=
    fun _ _ h => ⟨h.authenticated, h.relays, h.chksndr, h.chkdom, h.chkrcpt⟩
  cases hl : l.command with
  | mail arg =>
      refine hrun ?_
      rw [hl]
      refine triple_smtp_mail stableMail_inv (J := Inv cfg relays) (fun _ t r ht => hsay t _ ht)
        (fun _ _ ht => ?_) (fun _ _ ht => ?_) (fun _ _ _ _ _ ht => ⟨?_, trivial⟩) fun _ _ _ ht => ?_ <;>
      exact ⟨ht.authenticated, ht.relays, ht.chksndr, ht.chkdom, ht.chkrcpt⟩
  | rcpt arg =>
      refine hrun ?_
      rw [hl]
      refine triple_smtp_rcpt stableRcpt_inv (fun _ _ => trivial)
        (fun _ _ _ _ _ t r ht => hsay t _ ht) fun _ _ _ _ _ _ _ ht _ _ => ?_
      exact ⟨ht.authenticated, ht.relays, ht.chksndr, ht.chkdom, ht.chkrcpt⟩
  | _ => exact hcarried (by simp [hl, Command.carries])

/-- What AUTH does. -/
structure Authenticates (a : Auth) (s t : Session) : Prop where
  relayclient : t.relayclient = s.relayclient ∧ Auth.grants s t a = false ∨ t.relayclient = some []
  authenticated : t.authenticated = s.authenticated
  checks : t.chksndrok = s.chksndrok ∧ t.chkdomok = s.chkdomok ∧ t.chkrcptok = s.chkrcptok

theorem triple_smtp_auth (a : Auth) (s : Session) :
    Triple (fun t => ∃ out, t = { s with out := out }) (smtp_auth cfg a) (fun _ => Authenticates a s)
      fun _ => Authenticates a s := by
  have hrefuses : Refuses (fun t => ∃ out, t = { s with out := out }) fun _ => Authenticates a s := by
    rintro _ t r ⟨out, rfl⟩
    refine ⟨.inl ⟨rfl, ?_⟩, rfl, rfl, rfl, rfl⟩
    cases a <;> simp [Auth.grants]
  refine triple_bind (keeps_check hrefuses _) fun _ => triple_bind (keeps_check hrefuses _) fun _ => ?_
  refine triple_bind triple_get fun s₀ => ?_
  refine triple_weaken (?_ : Triple (fun t => ∃ out, t = { s with out := out }) _ _ _) (fun _ h => h.1)
    fun _ _ h => h
  refine triple_bind (keeps_check hrefuses _) fun _ => triple_bind (keeps_check hrefuses _) fun _ => ?_
  cases a with
  | relays =>
      refine triple_bind (Q := fun _ t => ∃ out, t = { s with
        authd := true
        relayclient := some []
        out := out }) (triple_update ?_) fun _ => triple_update ?_
      · rintro t ⟨out, rfl⟩
        exact ⟨out, rfl⟩
      · rintro t ⟨out, rfl⟩
        exact ⟨.inr rfl, rfl, rfl, rfl, rfl⟩
  | authenticates =>
      refine triple_bind (Q := fun _ t => ∃ out, t = { s with authd := true, out := out })
        (triple_update ?_) fun _ => triple_update ?_
      · rintro t ⟨out, rfl⟩
        exact ⟨out, rfl⟩
      · rintro t ⟨out, rfl⟩
        exact ⟨.inl ⟨rfl, rfl⟩, rfl, rfl, rfl, rfl⟩
  | fails r => exact triple_bind (Q := fun _ _ => False) (triple_refuse hrefuses r) fun _ _ h => h.elim

theorem Inv.auth {a : Auth} {s s' : Session} (h : Inv cfg relays s)
    (hs : s.carryOut (smtp_auth cfg a) = some s') : Inv cfg (relays || Auth.grants s s' a) s' := by
  obtain ⟨t, b, ht, rfl⟩ := carryOut_of_triple (triple_smtp_auth a s) ⟨[], rfl⟩ hs
  obtain ⟨hsndr, hdom, hrcpt⟩ := ht.checks
  have hnone : ¬ some ([] : Bytes) = none := Option.some_ne_none _
  have hgrants : Auth.grants s { t with exited := b } a = Auth.grants s t a := by cases a <;> rfl
  refine ⟨fun ha => ?_, fun hr => ?_, hsndr ▸ h.chksndr, hdom ▸ h.chkdom, hrcpt ▸ h.chkrcpt⟩
  · rcases ht.relayclient with ⟨heq, -⟩ | heq
    · have := h.authenticated (ht.authenticated ▸ ha)
      rwa [← heq] at this
    · exact fun hn => hnone (heq.symm.trans hn)
  · rcases ht.relayclient with ⟨heq, hno⟩ | heq
    · rw [hgrants, hno, Bool.or_false] at hr
      have := h.relays hr
      rwa [← heq] at this
    · exact fun hn => hnone (heq.symm.trans hn)

end Keeping

/-! ## MAIL -/

section Mail

variable {cfg : Config} {site : Site} {relays : Bool} {s u : Session} {addr : Bytes}

theorem check_sender_eq {permitted : Bool} {t_addr : Bytes}
    (hok : s.chksndrok = true → cfg.chksenderdomains.loaded = true)
    (hun : cfg.chksenderdomains.loaded = true → s.chksndrok = false →
      Unaffected cfg.chksenderdomains (t_addr.map lower))
    (hperm : applies cfg.chksenderdomains (t_addr.map lower) = true →
      decide (s.relayclient ≠ none ∨ s.authd = true) = decide (permitted = true ∨ s.authd = true)) :
    check_sender cfg site t_addr s = check_sender_listed cfg site permitted t_addr s := by
  have hask := @ask_eq cfg.chksenderdomains t_addr Unit (fun t => t.chksndrok)
    (fun t => { t with chksndrok := false }) (fun _ => rfl) (fun t ht => by rw [← ht]) s hok hun
    (fun a passed t => when (¬ passed) (sender_demands cfg site (t.relayclient ≠ none ∨ t.authd) a))
    (fun a passed t => when (¬ passed) (sender_demands cfg site (permitted ∨ t.authd) a)) ?_
  · refine hask.trans (run_bind_congr rfl fun a _ _ => run_bind_congr rfl fun _ _ _ =>
      run_bind_congr rfl fun t _ _ => ?_)
    cases applies cfg.chksenderdomains a <;> rfl
  · intro t ht
    cases happ : applies cfg.chksenderdomains (t_addr.map lower) with
    | false => rfl
    | true =>
        have hsame : decide (t.relayclient ≠ none ∨ t.authd = true) =
            decide (permitted = true ∨ t.authd = true) := by
          rcases ht with rfl | rfl <;> exact hperm happ
        simp only [hsame]

/-- A client that has permission is not asked for a certificate. -/
theorem addrallowed_granted {rcpt : Bytes} (hr : s.relayclient ≠ none) (h : site.rcpthosts rcpt ≠ -1) :
    addrallowed cfg site rcpt s = (.ok (site.rcpthosts rcpt), s) := by
  unfold addrallowed
  rw [when, if_neg h]
  change (if site.rcpthosts rcpt = 0 then tls_verify cfg site else pure (site.rcpthosts rcpt)) s = _
  split
  · rename_i h0
    rw [h0]
    change (if cfg.ssl ∧ s.relayclient = none ∧ ¬ s.ssl_verified then _ else pure 0 : Smtp Int) s = _
    rw [if_neg fun hc => hr hc.2.1]
    rfl
  · rfl

/-- Without a certificate `addrallowed` says what rcpthosts says. -/
theorem triple_addrallowed {P : Session → Prop} (hP : ∀ t, P t → P { t with ssl_verified := true })
    {rcpt : Bytes} (hcert : cfg.ssl → site.tlsclients = .listed → site.rcpthosts rcpt ≠ 0) :
    Triple P (addrallowed cfg site rcpt) (fun r t => P t ∧ r = site.rcpthosts rcpt) fun _ _ => True := by
  have hdie : ∀ {β : Type} {Q : β → Session → Prop} (r : Refusal),
      Triple (fun _ => True) (die r) Q fun _ _ => True := fun r =>
    triple_die (fun _ _ _ _ => trivial) r
  refine triple_bind (Q := fun _ => P) (triple_when (fun _ => ?_) fun _ _ h => h) fun _ => ?_
  · exact triple_weaken (hdie _) (fun _ _ => trivial) fun _ _ h => h
  refine triple_ite (fun h0 => ?_) fun _ => triple_pure fun t h => ⟨h, rfl⟩
  refine triple_bind (triple_read (Q := fun _ => P) fun _ h => h) fun t₀ => triple_ite (fun hc => ?_)
    fun _ => triple_pure fun t h => ⟨h, h0.symm⟩
  refine triple_bind (Q := fun _ => P) (triple_update hP) fun _ => ?_
  split
  · rename_i hl
    exact absurd h0 (hcert hc.1 hl)
  · exact triple_pure fun t h => ⟨h, h0.symm⟩
  · exact triple_weaken (hdie _) (fun _ _ => trivial) fun _ _ h => h
  · exact triple_weaken (hdie _) (fun _ _ => trivial) fun _ _ h => h

/-- MAIL after it has stored its sender `m`: `s` is where it began, and `found` what relaymailfrom
says. -/
structure Knows (s : Session) (found : Prop) (m : Bytes) (u : Session) : Prop where
  mailfrom : cstr u.mailfrom = m
  authd : u.authd = s.authd
  authenticated : u.authenticated = s.authenticated
  chksndrok : u.chksndrok = s.chksndrok
  chkdomok : u.chkdomok = s.chkdomok
  relayclient : u.relayclient ≠ none ↔ s.relayclient ≠ none ∨ found

theorem Knows.verified {found : Prop} {m : Bytes} (h : Knows s found m u) :
    Knows s found m { u with ssl_verified := true } :=
  ⟨h.mailfrom, h.authd, h.authenticated, h.chksndrok, h.chkdomok, h.relayclient⟩

theorem triple_mail_known (hlow : (cstr addr).map lower = cstr addr)
    (hcert : cfg.ssl → site.tlsclients = .listed → site.rcpthosts (cstr addr) ≠ 0) :
    Triple (Knows s False (cstr addr)) (mail_known cfg site addr) (fun in_rcpt1 u =>
      Knows s (cfg.relaymailfrom (cstr addr) = .found) (cstr addr) u ∧ in_rcpt1 = site.rcpthosts (cstr addr))
      fun _ _ => True := by
  have hE : Refuses (fun _ => True) fun _ _ => True := fun _ _ _ _ => trivial
  refine triple_bind (Q := fun _ => Knows s (cfg.relaymailfrom (cstr addr) = .found) (cstr addr)) ?_
    fun _ => ?_
  · -- relaymailfrom is asked only by a client without permission
    refine triple_bind triple_get fun t₀ => triple_when (fun hn => ?_) fun t hne h => ?_
    · refine triple_bind (triple_check hE (fun _ _ => trivial) _) fun a => triple_fact fun ha => ?_
      obtain ⟨rfl, -⟩ := address_match_ok ha
      rintro t ⟨h, rfl⟩
      rw [h.mailfrom, hlow]
      have hs : ¬ t₀.relayclient ≠ none := not_not.mpr hn
      have hs' : ¬ s.relayclient ≠ none := fun hs' => hs (h.relayclient.mpr (.inl hs'))
      by_cases hf : cfg.relaymailfrom (cstr addr) = .found
      · rw [when, if_pos hf]
        exact ⟨h.mailfrom, h.authd, h.authenticated, h.chksndrok, h.chkdomok,
          ⟨fun _ => .inr hf, fun _ => Option.some_ne_none _⟩⟩
      · rw [when, if_neg hf]
        exact ⟨h.mailfrom, h.authd, h.authenticated, h.chksndrok, h.chkdomok,
          ⟨fun h' => absurd h' hs, fun h' => absurd h' (not_or.mpr ⟨hs', hf⟩)⟩⟩
    · obtain ⟨h, rfl⟩ := h
      have hs := (h.relayclient.mp hne).resolve_right not_false
      exact ⟨h.mailfrom, h.authd, h.authenticated, h.chksndrok, h.chkdomok,
        ⟨fun _ => .inl hs, fun _ => hne⟩⟩
  · refine triple_bind (triple_addrallowed (fun _ h => h.verified) hcert) fun in_rcpt1 => ?_
    refine triple_fact fun hin => ?_
    refine triple_bind (triple_when (fun _ => ?_) fun _ _ h => h) fun _ => triple_pure fun t h => ⟨h, hin⟩
    exact triple_weaken (triple_refuse hE _) (fun _ _ => trivial) fun _ _ h => h

/-- The permission CHECKSENDER asks for is that of `setup`, AUTH and relaymailfrom. -/
theorem permitted_eq (hinv : Inv cfg relays s) (hap : MailApart cfg site relays s addr)
    (hu : Knows s (cfg.relaymailfrom (cstr addr) = .found) (cstr addr) u) {t : Bytes}
    (ht : t ∈ senderAsked site s.authd addr) (happ : applies cfg.chksenderdomains t = true) :
    decide (u.relayclient ≠ none ∨ u.authd = true) =
      decide (entitled cfg relays (cstr addr) = true ∨ u.authd = true) := by
  refine decide_eq_decide.mpr ?_
  rw [hu.relayclient, hu.authd]
  cases ha : s.authd with
  | true => simp
  | false =>
      simp only [Bool.false_eq_true, or_false]
      constructor
      · rintro (hs | hf)
        · by_contra he
          have hno := hap.leftover hs ha (eq_false_of_ne_true he) t ht
          rw [happ] at hno
          cases hno
        · simp [entitled, hf]
      · intro he
        rcases Bool.or_eq_true_iff.mp he with hr | hf
        · exact .inl (hinv.relays hr)
        · exact .inr (beq_iff_eq.mp hf)

/-- CHECKSENDER does alike with two checks that agree about the address it asks about. -/
theorem mail_asks_congr {f g : Bytes → Smtp Unit} {in_rcpt1 in_rcpt2 in_rcpt2' : Int} {P : Session → Prop}
    (hu : P u) (h1 : site.CHECKSENDER → in_rcpt1 = 1 → ∀ v, P v → f (cstr addr) v = g (cstr addr) v)
    (h2 : site.CHECKSENDER → in_rcpt1 ≠ 1 → (in_rcpt2 = 1 ↔ in_rcpt2' = 1) ∧
      (in_rcpt2 = 1 → ∀ v, P v → f site.remoteinfo v = g site.remoteinfo v)) :
    mail_asks cfg site f in_rcpt1 in_rcpt2 addr u = mail_asks cfg site g in_rcpt1 in_rcpt2' addr u := by
  have hlib : Triple P (when (cfg.hasvirtual ∧ ¬ site.library) (refuse err_library)) (fun _ => P)
      fun _ _ => True :=
    triple_when (fun _ => triple_weaken (triple_refuse (I := fun _ => True)
      (fun _ _ _ _ => trivial) _) (fun _ _ => trivial) fun _ _ h => h) fun _ _ h => h
  refine hlib.bind_congr hu rfl fun _ v hv => ?_
  by_cases hc : site.CHECKSENDER
  · rw [when, when, if_pos hc, if_pos hc]
    by_cases hr : in_rcpt1 = 1
    · rw [if_pos hr, if_pos hr]
      exact h1 hc hr v hv
    · rw [if_neg hr, if_neg hr]
      obtain ⟨hiff, hname⟩ := h2 hc hr
      by_cases hr2 : in_rcpt2 = 1
      · rw [if_pos hr2, if_pos (hiff.mp hr2)]
        exact hname hr2 v hv
      · rw [if_neg hr2, if_neg fun h => hr2 (hiff.mpr h)]
  · rw [when, when, if_neg hc, if_neg hc]

/-- The name of a client that has authenticated. -/
theorem remoteinfo_eq {P : Session → Prop} (hP : ∀ t, P t → P { t with ssl_verified := true })
    (hcert : cfg.ssl → site.tlsclients = .listed → site.rcpthosts site.remoteinfo ≠ 0) (hu : P u) :
    addrallowed cfg site site.remoteinfo u = (do
      let _ ← addrallowed cfg site site.remoteinfo
      pure (site.rcpthosts site.remoteinfo) : Smtp Int) u := by
  have hrun := triple_addrallowed hP hcert u hu
  cases hm : addrallowed cfg site site.remoteinfo u with
  | mk r t =>
      rw [hm] at hrun
      cases r with
      | ok a =>
          rw [run_bind_ok hm, hrun.2]
          rfl
      | error e => rw [run_bind_exit hm]

theorem mail_checksender_eq (hinv : Inv cfg relays s) (hap : MailApart cfg site relays s addr)
    (hu : Knows s (cfg.relaymailfrom (cstr addr) = .found) (cstr addr) u) :
    mail_checksender cfg site (site.rcpthosts (cstr addr)) addr u =
      mail_checksender_listed cfg site relays addr u := by
  have hcheck : ∀ {t_addr}, t_addr.map lower ∈ senderAsked site s.authd addr →
      ∀ v, Knows s (cfg.relaymailfrom (cstr addr) = .found) (cstr addr) v → check_sender cfg site t_addr v =
        check_sender_listed cfg site (entitled cfg relays (cstr addr)) t_addr v := by
    intro t_addr ht v hv
    refine check_sender_eq (fun h => hinv.chksndr (hv.chksndrok ▸ h)) (fun hl h => ?_)
      fun happ => permitted_eq hinv hap hv ht happ
    exact hap.chksndr hl (hv.chksndrok ▸ h) _ ht
  have hsender : site.CHECKSENDER → site.rcpthosts (cstr addr) = 1 →
      ∀ v, Knows s (cfg.relaymailfrom (cstr addr) = .found) (cstr addr) v → check_sender cfg site (cstr addr) v =
        check_sender_listed cfg site (entitled cfg relays (cstr addr)) (cstr addr) v := fun hc h1 =>
    hcheck (by simp [senderAsked, hc, h1])
  unfold mail_checksender mail_checksender_listed
  rw [run_bind_ok (m := read) rfl, run_bind_ok (m := read) rfl]
  cases ha : s.authd with
  | true =>
      have hau : u.authd = true := hu.authd.trans ha
      rw [if_pos (.inr hau), if_pos hau]
      have hcert := fun hs hl => (hap.certificate hs hl).2
      refine (triple_addrallowed (fun _ h => h.verified) hcert).bind_congr hu
        (remoteinfo_eq (fun _ h => h.verified) hcert hu) fun r v hv => ?_
      refine mail_asks_congr hv.1 hsender fun hc h1 => ⟨Iff.rfl, fun hr => hcheck ?_⟩
      have hr' : site.rcpthosts site.remoteinfo = 1 := hv.2 ▸ hr
      simp [senderAsked, hc, h1, ha, hr']
  | false =>
      have hau : u.authd ≠ true := by
        rw [hu.authd, ha]
        decide
      rw [if_neg hau]
      by_cases hconf : u.authenticated ≠ 0
      · -- `remoteinfo` is looked at for a confirmation of an earlier sender
        have hs : s.authenticated ≠ 0 := hu.authenticated ▸ hconf
        have hr : u.relayclient ≠ none := hu.relayclient.mpr (.inl (hinv.authenticated hs))
        obtain ⟨hctl, hone⟩ := hap.confirmed hs ha
        rw [if_pos (.inl hconf), run_bind_ok (addrallowed_granted hr hctl)]
        exact mail_asks_congr hu hsender fun hc h1 =>
          ⟨iff_of_false (hone hc h1) (by decide), fun h => absurd h (hone hc h1)⟩
      · rw [if_neg (not_or.mpr ⟨hconf, hau⟩)]
        exact mail_asks_congr hu hsender fun _ _ => ⟨Iff.rfl, fun h => absurd h (by decide)⟩

/-- A variable that is cleared does not matter for a sender that is not listed. -/
theorem mail_authdomains_eq {m : Bytes} (hm : cstr u.mailfrom = m) (hlow : m.map lower = m)
    (hok : u.chkdomok = true → cfg.authdomains.loaded = true)
    (hun : cfg.authdomains.loaded = true → u.chkdomok = false → cfg.authdomains.lookup true m = .absent) :
    mail_authdomains cfg u = mail_authdomains_listed cfg u := by
  unfold mail_authdomains mail_authdomains_listed
  rw [run_bind_ok (m := read) rfl]
  cases hf : u.chkdomok with
  | true =>
      rw [when, if_pos rfl, when, if_pos (hok hf), run_bind_ok (m := read) rfl]
      refine check_address_congr rfl fun hor => ?_
      rw [hm, hlow] at hor ⊢
      rcases hor with hfound | habsent
      · rw [when, if_neg (by rw [hfound]; decide)]
        change (_, u) = (_, { u with chkdomok := decide (cfg.authdomains.lookup true m = .found) })
        have hsame : decide (Match.found = .found) = u.chkdomok := hf.symm
        rw [hfound, hsame]
      · rw [when, if_pos habsent]
        change (_, { u with chkdomok := false }) =
          (_, { u with chkdomok := decide (cfg.authdomains.lookup true m = .found) })
        rw [habsent]
        rfl
  | false =>
      rw [when, if_neg (by decide)]
      by_cases hl : cfg.authdomains.loaded = true
      · have habsent := hun hl hf
        rw [when, if_pos hl, run_bind_ok (m := read) rfl,
          run_bind_ok (check_address_match (.inr (by rw [hm, hlow]; exact habsent))), hm, hlow]
        change (_, u) = (_, { u with chkdomok := decide (cfg.authdomains.lookup true m = .found) })
        have hsame : decide (Match.absent = .found) = u.chkdomok := hf.symm
        rw [habsent, hsame]
      · rw [when, if_neg hl]

theorem mail_after_eq (hinv : Inv cfg relays s) (hap : MailApart cfg site relays s addr)
    (hlow : (cstr addr).map lower = cstr addr) (hu : Knows s False (cstr addr) u) :
    mail_after cfg site addr u = mail_after_listed cfg site relays addr u := by
  have hcert := fun hs hl => (hap.certificate hs hl).1
  refine (triple_mail_known hlow hcert).bind_congr hu rfl fun in_rcpt1 v ⟨hv, hin⟩ => ?_
  -- CHECKSENDER and SPF leave the sender and `chkdomok` as they are
  let I : Session → Prop := fun t => cstr t.mailfrom = cstr addr ∧ t.chkdomok = s.chkdomok ∧
    (t.authenticated ≠ 0 → t.relayclient ≠ none)
  have hI : StableSender cfg site (fun _ => True) I fun _ _ => True :=
    { refused := fun _ _ _ _ => trivial
      verified := fun _ h => h
      authenticated := fun _ h => h.2.2
      confirmed := fun t a b _ h _ => ⟨h.1, h.2.1, fun hb => by simp_all⟩
      certified := fun t _ _ h _ => ⟨h.1, h.2.1, fun _ => by simp⟩
      answered := fun _ _ _ h => h
      chksndr := fun _ h => h }
  have hstart : I v := by
    refine ⟨hv.mailfrom, hv.chkdomok, fun ha => hv.relayclient.mpr (.inl (hinv.authenticated ?_))⟩
    rwa [← hv.authenticated]
  rw [hin]
  have hchecked : mail_checked cfg site (site.rcpthosts (cstr addr)) addr v =
      mail_checked_listed cfg site relays addr v :=
    run_bind_congr (mail_checksender_eq hinv hap hv) fun _ _ _ => rfl
  refine (keeps_mail_checked hI trivial _).bind_congr hstart hchecked fun _ t ⟨hf, hd, _⟩ => ?_
  exact run_bind_congr (mail_authdomains_eq hf hlow (fun h => hinv.chkdom (hd ▸ h))
    fun hl h => hap.chkdom hl (hd ▸ h)) fun _ _ _ => rfl

/-- What MAIL does before it stores its sender. -/
structure Opens (s u : Session) : Prop where
  seenhelo : u.seenhelo = s.seenhelo
  authd : u.authd = s.authd
  authenticated : u.authenticated = s.authenticated
  chksndrok : u.chksndrok = s.chksndrok
  chkdomok : u.chkdomok = s.chkdomok
  relayclient : u.relayclient = s.relayclient

theorem smtp_mail_eq {arg : Bytes} (hinv : Inv cfg relays s)
    (hap : ∀ addr, Stores cfg site s arg addr → MailApart cfg site relays s addr) :
    smtp_mail cfg site arg s = smtp_mail_listed cfg site relays arg s := by
  have hbefore := @triple_mail_before cfg site (fun _ _ => True) (Opens s) (fun _ _ _ _ => trivial)
    (fun _ _ h => ⟨h.seenhelo, h.authd, h.authenticated, h.chksndrok, h.chkdomok, h.relayclient⟩)
    (fun _ _ h => ⟨h.seenhelo, h.authd, h.authenticated, h.chksndrok, h.chkdomok, h.relayclient⟩) arg
  refine hbefore.bind_congr ⟨rfl, rfl, rfl, rfl, rfl, rfl⟩ rfl fun addr t ⟨ht, s₀, hs₀, hst⟩ => ?_
  have hst' : Stores cfg site s arg addr := by
    have hchecks := hst.checks
    rw [hs₀.seenhelo, hs₀.authd] at hchecks
    exact ⟨hchecks⟩
  rw [run_bind_ok (m := update _) rfl, run_bind_ok (m := update _) rfl]
  refine run_bind_congr (mail_after_eq hinv (hap addr hst') hst.lowered ?_) fun _ _ _ => rfl
  exact ⟨cstr_append_nul (nul_notMem_cstr _), ht.authd, ht.authenticated, ht.chksndrok, ht.chkdomok, by
    simp [Session.store, ht.relayclient]⟩

end Mail

/-! ## RCPT -/

section Rcpt

variable {cfg : Config} {site : Site} {relays : Bool} {s u : Session} {addr : Bytes}

theorem check_recipient_eq {isgoodrcpt : Int} (hok : u.chkrcptok = true → cfg.chkrcptdomains.loaded = true)
    (hun : cfg.chkrcptdomains.loaded = true → u.chkrcptok = false → site.CHECKRECIPIENT ≠ none →
      Unaffected cfg.chkrcptdomains (addr.map lower)) :
    check_recipient cfg site isgoodrcpt addr u = check_recipient_listed cfg site isgoodrcpt addr u := by
  unfold check_recipient check_recipient_listed
  cases htmp : site.CHECKRECIPIENT with
  | none => rfl
  | some tmp =>
      let k : Bytes → Bool → Session → Smtp (Bytes × Int) := fun a passed _ =>
        if passed then pure (a, isgoodrcpt) else do
          let isgoodrcpt ← recipient_applies cfg site tmp isgoodrcpt a
          pure (a, isgoodrcpt)
      have hask := @ask_eq cfg.chkrcptdomains addr (Bytes × Int) (fun t => t.chkrcptok)
        (fun t => { t with chkrcptok := false }) (fun _ => rfl) (fun t ht => by rw [← ht]) u hok
        (fun hl hf => hun hl hf (by rw [htmp]; exact Option.some_ne_none _)) k k fun _ _ => rfl
      refine hask.trans (run_bind_congr rfl fun a _ _ => run_bind_congr rfl fun _ t _ => ?_)
      rw [run_bind_ok (m := read) rfl]
      simp only [k]
      cases applies cfg.chkrcptdomains a <;> rfl

/-- What RCPT leaves alone before `$CHECKRECIPIENT`. -/
structure Holds (s u : Session) : Prop where
  chkdomok : u.chkdomok = s.chkdomok
  chkrcptok : u.chkrcptok = s.chkrcptok
  suffix : u.relayclient.getD [] = s.relayclient.getD []
  authenticated : u.authenticated ≠ 0 → u.relayclient ≠ none

theorem stable_holds : Stable cfg site (fun _ => True) (Holds s) fun _ _ => True where
  refused _ _ _ _ := trivial
  verified _ h := ⟨h.chkdomok, h.chkrcptok, h.suffix, h.authenticated⟩
  authenticated _ h := h.authenticated
  confirmed t a b _ h hn := by
    refine ⟨h.chkdomok, h.chkrcptok, ?_, fun hb => by simp_all⟩
    rw [← h.suffix, hn]
    cases hb : decide (b = 0) <;> simp_all
  certified t _ _ h hn := ⟨h.chkdomok, h.chkrcptok, by rw [← h.suffix, hn]; rfl, fun _ => by simp⟩

theorem smtp_rcpt_eq {arg : Bytes} (hinv : Inv cfg relays s)
    (hap : ∀ addr, addrparse site arg = some addr → RcptApart cfg site s addr) :
    smtp_rcpt cfg site arg s = smtp_rcpt_listed cfg site arg s := by
  have hstray : AllowsStray (Holds s) :=
    fun t _ h => ⟨h.chkdomok, h.chkrcptok, h.suffix, h.authenticated⟩
  have hbefore := @triple_rcpt_before cfg site _ _ _ stable_holds (fun _ _ => trivial) arg
    fun _ _ _ => hstray
  refine hbefore.bind_congr ⟨rfl, rfl, rfl, hinv.authenticated⟩ rfl fun r v hv => ?_
  obtain ⟨addr, u, w, hp, ⟨hu, hw, -⟩, hr, hv, -⟩ := hv
  refine run_bind_congr ?_ fun _ _ _ => rfl
  have hlooked : recipientLooked site s.chkdomok arg = true ↔
      Asked site s.chkdomok ∧ site.rcpthosts (recipientBase site addr) = 1 := by
    simp [recipientLooked, Asked, hp]
  by_cases hne : site.CHECKRECIPIENT = none
  · -- nothing is asked
    have hnone : check_recipient cfg site r.2.1 r.2.2 = pure (r.2.2, r.2.1) := by
      unfold check_recipient
      rw [hne]
    have hnone' : check_recipient_listed cfg site r.2.1 r.2.2 = pure (r.2.2, r.2.1) := by
      unfold check_recipient_listed
      rw [hne]
    rw [hnone, hnone', ite_self, ite_self]
  have hallowed : r.1 = 1 ↔ recipientLooked site s.chkdomok arg = true := by
    rw [hlooked, ← hw.chkdomok]
    constructor
    · intro h1
      obtain ⟨hasked, hl | ⟨h0, hs, hc⟩⟩ := (hr.looked h1).1
      · exact ⟨hasked, hl⟩
      · exact absurd h0 ((hap addr hp).certificate hs hc hne)
    · rintro ⟨hasked, h1⟩
      rcases hr.asked hasked with hr | ⟨h0, -⟩
      · exact hr.trans h1
      · rw [h1] at h0
        cases h0
  by_cases h1 : r.1 = 1
  · rw [if_pos h1, if_pos (hallowed.mp h1)]
    refine check_recipient_eq (fun h => hinv.chkrcpt (hv.chkrcptok ▸ h)) fun hl hf _ => ?_
    obtain ⟨hasked, hbase⟩ := hlooked.mp (hallowed.mp h1)
    rw [hr.address, hu.suffix]
    exact (hap addr hp).chkrcpt hl (hv.chkrcptok ▸ hf) hne hasked hbase
  · rw [if_neg h1, if_neg fun h => h1 (hallowed.mpr h)]

end Rcpt

/-! ## Sessions -/

section Sessions

variable {cfg : Config} {relayclient : Option Bytes}

theorem carryOut_congr {s : Session} {m m' : Smtp Unit} (h : m { s with out := [] } = m' { s with out := [] }) :
    s.carryOut m = s.carryOut m' := by
  unfold Session.carryOut
  rw [h]

theorem handler_eq {site : Site} {relays : Bool} {s : Session} {c : Command} (hinv : Inv cfg relays s)
    (hap : Apart cfg (s, relays) (.line ⟨c, site⟩)) :
    s.carryOut (handler cfg site c) = s.carryOut (handler_listed cfg site relays c) := by
  have hinv' : Inv cfg relays { s with out := [] } :=
    ⟨hinv.authenticated, hinv.relays, hinv.chksndr, hinv.chkdom, hinv.chkrcpt⟩
  cases c with
  | mail arg =>
      refine carryOut_congr (smtp_mail_eq hinv' fun addr hst => ?_)
      have h : MailApart cfg site relays s addr := hap addr ⟨hst.checks⟩
      exact ⟨h.chksndr, h.chkdom, h.leftover, h.confirmed, h.certificate⟩
  | rcpt arg =>
      refine carryOut_congr (smtp_rcpt_eq hinv' fun addr hp => ?_)
      have h : RcptApart cfg site s addr := hap addr hp
      exact ⟨h.chkrcpt, h.certificate⟩
  | _ => rfl

theorem step_eq {p : Session × Bool} {i : Input} (hinv : Inv cfg p.2 p.1) (hap : Apart cfg p i) :
    (running cfg relayclient).step p i = (listed cfg relayclient).step p i := by
  cases i with
  | line l => exact congrArg (Option.map fun s => (s, p.2)) (handler_eq hinv hap)
  | auth a => rfl

/-- All three checks are made. -/
def checking : Site where
  CHECKSENDER := true
  CHECKRECIPIENT := some (some 0)
  account addr := if addr = asc "n@h" then .userNotFound else .active
  recipients_ext addr := .ok (addr = asc "c@d" ∨ addr = asc "e@d")

def mail (arg : String) : Input := .line ⟨.mail (asc arg), checking⟩

def rcpt (arg : String) : Input := .line ⟨.rcpt (asc arg), checking⟩

def hello : Input := .line ⟨.ehlo (asc "h"), checking⟩

end Sessions

end IndimailMta.Smtpd.Lists
