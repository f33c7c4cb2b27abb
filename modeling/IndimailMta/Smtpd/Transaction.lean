import IndimailMta.Smtpd.Keeps

/-!
# Transactions

What the client can see of its session: the sender of the last MAIL, if it was
answered 250, and the recipients answered 250 since. In a session in which no MAIL
is refused while a transaction is open, and no RCPT is answered with an error and
accepted all the same, the envelope that DATA hands to qmail-queue is the one the
client sees.
-/

namespace IndimailMta.Smtpd

open IndimailMta Exits Run

/-! ## What the client sees -/

def replyOf : Event → Option Reply
  | .reply r => some r
  | _ => none

/-- The answer of a command is its first reply. -/
def answered250 (out : List Event) : Bool :=
  match (out.filterMap replyOf).head? with
  | some r => r.code == 250
  | none => false

def confirmationOf : Event → Option Bytes
  | .relayQuery mfrom answer => if answer = 0 then none else some mfrom
  | _ => none

/-- The addresses a relay query has confirmed. -/
def confirmedIn (out : List Event) : List Bytes := out.filterMap confirmationOf

/-- What can be seen of a session from outside. -/
structure View where
  sender : Option Bytes := none
  rcpts : List Bytes := []
  confirmed : List Bytes := []

def View.see (v : View) (s : Session) (l : Line) (s' : Session) : View where
  sender := match l.command with
    | .mail arg => if answered250 s'.out then senderOf l.site arg else none
    | _ => v.sender
  rcpts := match l.command with
    | .mail _ => []
    | .rcpt arg =>
        if answered250 s'.out then v.rcpts ++ (recipientOf l.site s arg).toList else v.rcpts
    | _ => v.rcpts
  confirmed := v.confirmed ++ confirmedIn s'.out

/-- A session, and what is seen of it. -/
def seenSession (cfg : Config) (relayclient : Option Bytes) : Machine (Session × View) Line :=
  (session cfg relayclient).recorded View.see {}

/-! ## Quiet parts -/

/-- Nothing is said and nothing handed on. -/
def Quiet (out : List Event) : Prop := ∀ e ∈ out, ∃ a b, e = .relayQuery a b

/-- Nothing is handed on, and what is said first refuses. -/
def Refused (out : List Event) : Prop :=
  answered250 out = false ∧ ∀ f t, Event.envelope f t ∉ out

theorem Quiet.filterMap_replyOf {out : List Event} (h : Quiet out) :
    out.filterMap replyOf = [] := by
  rw [List.filterMap_eq_nil_iff]
  intro e he
  obtain ⟨a, b, rfl⟩ := h e he
  rfl

theorem answered250_append_reply {out : List Event} (h : Quiet out) (r : Reply) :
    answered250 (out ++ [.reply r]) = (r.code == 250) := by
  simp [answered250, List.filterMap_append, h.filterMap_replyOf, replyOf]

theorem Quiet.notMem {out : List Event} (h : Quiet out) (f t : Bytes) :
    Event.envelope f t ∉ out := by
  intro he
  obtain ⟨a, b, hab⟩ := h _ he
  cases hab

theorem Quiet.refused {out : List Event} (h : Quiet out) (r : Refusal) :
    Refused (out ++ [.reply r.toReply]) := by
  refine ⟨?_, ?_⟩
  · rw [answered250_append_reply h, beq_eq_false_iff_ne]
    have := r.refuses
    omega
  · intro f t hm
    rcases List.mem_append.mp hm with hm | hm
    · exact h.notMem f t hm
    · simp at hm

theorem Quiet.append {out : List Event} (h : Quiet out) (a : Bytes) (b : Byte) :
    Quiet (out ++ [.relayQuery a b]) := by
  intro e he
  rcases List.mem_append.mp he with he | he
  · exact h e he
  · exact ⟨a, b, by simpa using he⟩

/-- The transaction is the one of `s₀`, and the command has said nothing yet. -/
structure Held (s₀ s : Session) : Prop where
  seenmail : s.seenmail = s₀.seenmail
  mailfrom : s.mailfrom = s₀.mailfrom
  rcptto : s.rcptto = s₀.rcptto
  suffix : s.relayclient.getD [] = s₀.relayclient.getD []
  authd : s.authd = false
  authenticated : s.authenticated ≠ 0 → s.relayclient ≠ none
  quiet : Quiet s.out

theorem stable_held (cfg : Config) (site : Site) {s₀ : Session} {E : Stop → Session → Prop}
    (hE : Refuses (Held s₀) E) :
    Stable cfg site (fun _ => True) (Held s₀) E where
  refused := hE
  verified _ h := ⟨h.seenmail, h.mailfrom, h.rcptto, h.suffix, h.authd, h.authenticated, h.quiet⟩
  authenticated _ h := h.authenticated
  confirmed s a b _ h hn := by
    refine ⟨h.seenmail, h.mailfrom, h.rcptto, ?_, h.authd, fun hb => by simp_all, h.quiet.append a b⟩
    rw [← h.suffix, hn]
    cases hb : decide (b = 0) <;> simp_all
  certified s _ _ h hn := ⟨h.seenmail, h.mailfrom, h.rcptto, by rw [← h.suffix, hn]; rfl, h.authd,
    fun _ => by simp, h.quiet⟩

theorem stableMail_held (cfg : Config) (site : Site) {s₀ : Session} {E : Stop → Session → Prop}
    (hE : Refuses (Held s₀) E) :
    StableMail cfg site (fun _ => True) (Held s₀) E where
  toStable := stable_held cfg site hE
  answered _ _ ha h := by
    rw [h.authd] at ha
    cases ha
  chksndr _ h := ⟨h.seenmail, h.mailfrom, h.rcptto, h.suffix, h.authd, h.authenticated, h.quiet⟩
  chkdom _ h := ⟨h.seenmail, h.mailfrom, h.rcptto, h.suffix, h.authd, h.authenticated, h.quiet⟩
  listed s _ h hn := ⟨h.seenmail, h.mailfrom, h.rcptto, by rw [← h.suffix, hn]; rfl, h.authd,
    fun _ => by simp, h.quiet⟩

theorem stableRcpt_held (cfg : Config) (site : Site) {s₀ : Session} {E : Stop → Session → Prop}
    (hE : Refuses (Held s₀) E) :
    StableRcpt cfg site (fun _ => True) (Held s₀) E where
  toStable := stable_held cfg site hE
  chkrcpt _ h := ⟨h.seenmail, h.mailfrom, h.rcptto, h.suffix, h.authd, h.authenticated, h.quiet⟩
  errcount _ _ h := ⟨h.seenmail, h.mailfrom, h.rcptto, h.suffix, h.authd, h.authenticated, h.quiet⟩

/-! ## HELO, EHLO, RSET and DATA -/

/-- What these commands do to a transaction: they keep it or close it, and an envelope is
that of the open transaction. -/
structure Carried (s t : Session) : Prop where
  relayclient : t.relayclient = s.relayclient
  authenticated : t.authenticated = s.authenticated
  authd : t.authd = s.authd
  checks : t.chksndrok = s.chksndrok ∧ t.chkdomok = s.chkdomok ∧ t.chkrcptok = s.chkrcptok
  seenmail : t.seenmail → s.seenmail ∧ t.mailfrom = s.mailfrom ∧ t.rcptto = s.rcptto
  confirmed : confirmedIn t.out = []
  envelope : ∀ f r, .envelope f r ∈ t.out →
    s.seenmail ∧ f = cstr s.mailfrom ∧ r = s.rcptto

section Carried

variable {s : Session}

theorem carried_start (s : Session) : Carried s { s with out := [] } :=
  ⟨rfl, rfl, rfl, ⟨rfl, rfl, rfl⟩, fun h => ⟨h, rfl, rfl⟩, rfl, fun _ _ h => by simp at h⟩

theorem Carried.say {t : Session} (h : Carried s t) (r : Reply) :
    Carried s { t with out := t.out ++ [.reply r] } where
  relayclient := h.relayclient
  authenticated := h.authenticated
  authd := h.authd
  checks := h.checks
  seenmail := h.seenmail
  confirmed := by
    have := h.confirmed
    simp_all [confirmedIn, List.filterMap_append, confirmationOf]
  envelope f r' hm := h.envelope f r' (by simpa using hm)

theorem Carried.close {t : Session} (h : Carried s t) :
    Carried s { t with seenmail := false } :=
  ⟨h.relayclient, h.authenticated, h.authd, h.checks, fun h => by simp at h, h.confirmed, h.envelope⟩

theorem refuses_carried : Refuses (Carried s) fun _ => Carried s :=
  fun _ _ r h => h.say r.toReply

theorem keeps_say (r : Reply) : Keeps (Carried s) (fun _ => Carried s) (say r) :=
  triple_update fun _ h => h.say r

variable (cfg : Config) (site : Site) (arg : Bytes)

theorem keeps_dohelo : Keeps (Carried s) (fun _ => Carried s) (dohelo cfg site arg) := by
  refine triple_bind (Q := fun _ => Carried s) (triple_update fun _ h =>
    ⟨h.relayclient, h.authenticated, h.authd, h.checks, h.seenmail, h.confirmed, h.envelope⟩) fun _ => ?_
  refine triple_bind (triple_read (Q := fun _ => Carried s) fun _ h => h) fun _ => ?_
  refine triple_bind (keeps_when fun _ => triple_die refuses_carried _) fun _ => ?_
  refine triple_bind (keeps_when fun _ => keeps_say _) fun _ => ?_
  refine triple_bind (keeps_check refuses_carried _) fun _ => ?_
  refine triple_bind (keeps_check refuses_carried _) fun _ => triple_update fun _ h => ?_
  exact ⟨h.relayclient, h.authenticated, h.authd, h.checks, h.seenmail, h.confirmed, h.envelope⟩

theorem keeps_smtp_helo : Keeps (Carried s) (fun _ => Carried s) (smtp_helo cfg site arg) := by
  refine triple_bind (Q := fun _ => Carried s) (triple_update fun _ h => h.close) fun _ => ?_
  refine triple_bind (keeps_check refuses_carried _) fun _ => ?_
  exact triple_bind (keeps_say _) fun _ => keeps_dohelo cfg site _

theorem keeps_smtp_rset : Keeps (Carried s) (fun _ => Carried s) (smtp_rset arg) := by
  refine triple_bind (keeps_when fun _ => triple_refuse refuses_carried _) fun _ => ?_
  refine triple_bind (Q := fun _ => Carried s) (triple_update fun _ h => ?_) fun _ => keeps_say _
  exact ⟨h.relayclient, h.authenticated, h.authd, h.checks, fun h => by simp at h, h.confirmed, h.envelope⟩

theorem keeps_smtp_data : Keeps (Carried s) (fun _ => Carried s) (smtp_data site arg) := by
  have hcheck : ∀ {α : Type} (c : Check α), Keeps (Carried s) (fun _ => Carried s) (check c) :=
    fun c => keeps_check refuses_carried c
  refine triple_bind (keeps_when fun _ => triple_refuse refuses_carried _) fun _ => ?_
  refine triple_bind (Q := fun s₀ t => Carried s t ∧ Carried s s₀)
    (triple_read fun _ h => ⟨h, h⟩) fun s₀ => triple_fact fun h₀ => ?_
  refine triple_bind (triple_check refuses_carried (fun _ h => h) _) fun _ =>
    triple_fact fun hseen => ?_
  have hseen := h₀.seenmail (of_demand hseen)
  refine triple_bind (hcheck _) fun _ => ?_
  have hgrey : Keeps (Carried s) (fun _ => Carried s) (data_greylist site) := by
    refine triple_bind (triple_read (Q := fun _ => Carried s) fun _ h => h) fun _ => ?_
    refine keeps_when fun _ => ?_
    split
    · exact triple_pure fun _ h => h
    · exact triple_refuse refuses_carried _
    · exact triple_die refuses_carried _
    · exact triple_exit fun _ h => h
  refine triple_bind hgrey fun _ => ?_
  refine triple_bind (Q := fun _ => Carried s) (triple_update fun _ h => h.close) fun _ => ?_
  refine triple_bind (keeps_when fun _ => triple_refuse refuses_carried _) fun _ => ?_
  refine triple_bind (hcheck _) fun _ => triple_bind (hcheck _) fun _ => ?_
  refine triple_bind (keeps_say _) fun _ => triple_bind (hcheck _) fun _ => ?_
  refine triple_bind (Q := fun _ => Carried s) (triple_update fun t h => ?_) fun _ => ?_
  · refine ⟨h.relayclient, h.authenticated, h.authd, h.checks, h.seenmail, ?_, ?_⟩
    · have := h.confirmed
      simp_all [confirmedIn, List.filterMap_append, confirmationOf]
    · intro f r hm
      rcases List.mem_append.mp hm with hm | hm
      · exact h.envelope f r hm
      · obtain ⟨rfl, rfl⟩ : f = cstr s₀.mailfrom ∧ r = s₀.rcptto := by simpa using hm
        rw [hseen.2.1, hseen.2.2]
        exact ⟨hseen.1, rfl, rfl⟩
  · split
    · exact keeps_say _
    · exact triple_refuse refuses_carried _

end Carried

/-- A command that is neither MAIL nor RCPT. -/
def Command.carries : Command → Prop
  | .mail _ => False
  | .rcpt _ => False
  | _ => True

theorem step_carried {cfg : Config} {s s' : Session} {l : Line} (hl : l.command.carries)
    (hs : s.step cfg l = some s') : Carried s s' := by
  have h : Keeps (Carried s) (fun _ => Carried s) (handler cfg l.site l.command) := by
    cases hc : l.command with
    | helo arg => exact keeps_smtp_helo cfg l.site arg
    | ehlo arg => exact keeps_smtp_helo cfg l.site arg
    | rset arg => exact keeps_smtp_rset arg
    | data arg => exact keeps_smtp_data l.site arg
    | mail arg => simp [hc, Command.carries] at hl
    | rcpt arg => simp [hc, Command.carries] at hl
  obtain ⟨t, b, ht, rfl⟩ := step_of_triple h (carried_start s) hs
  exact ⟨ht.relayclient, ht.authenticated, ht.authd, ht.checks, ht.seenmail, ht.confirmed, ht.envelope⟩

end IndimailMta.Smtpd
