import IndimailMta.Smtpd.Session
import IndimailMta.Lib.Run

/-!
# The commands of qmail-smtpd

HELO, EHLO, MAIL, RCPT, RSET and DATA, each up to its answer, and AUTH, which alone
sets `authd`. A handler is cut where it changes the session: the checks in between are
`Check`s of their own.
-/

namespace IndimailMta.Smtpd

open IndimailMta Exits

variable (cfg : Config) (site : Site)

/-! ## HELO and EHLO -/

/-- `case_diffs` is nonzero. -/
def case_diffs (s t : Bytes) : Bool := s.map lower != t.map lower

/-- `helohost` after the look at badhelo. -/
def helo_badhelo (arg : Bytes) : Check Bytes :=
  if site.dohelocheck then address_match site.badhelo (64 :: arg) (some err_badhelo) else .ok (64 :: arg)

/-- What the answer of `dnscheck` makes of a command. -/
def dns (hard : Refusal) : Dns → Check Unit
  | .hard => .error (.refused hard)
  | .soft => .error (.refused err_smf)
  | .memory => .error (.died die_nomem)
  | .ok => .ok ()

def helo_dns (helohost : Bytes) : Check Unit :=
  if case_diffs cfg.remotehost helohost.tail ∧ site.dohelocheck ∧ ¬ site.nodnscheck then
    dns err_hmf_helo (site.dnscheck helohost)
  else .ok ()

def dohelo (arg : Bytes) : Smtp Unit := do
  update fun s => { s with seenhelo := false }
  let s ← read
  when (s.relayclient = none ∧ site.ENFORCE_FQDN_HELO ∧ 46 ∉ arg) (die die_nohelofqdn)
  -- a greeting for the local host is answered twice
  when (site.dohelocheck ∧ site.localhelo arg) (say err_localhelo.toReply)
  let helohost ← check (helo_badhelo site arg)
  check (helo_dns cfg site helohost)
  update fun s => { s with seenhelo := true }

def smtp_helo (arg : Bytes) : Smtp Unit := do
  update fun s => { s with seenmail := false }
  check (setup_checks cfg)
  say ⟨250, site.greeting⟩
  dohelo cfg site (if arg = [] then cfg.remotehost else arg)

/-- The capabilities are the lines of its greeting. -/
def smtp_ehlo (arg : Bytes) : Smtp Unit := smtp_helo cfg site arg

/-! ## RSET -/

def smtp_rset (arg : Bytes) : Smtp Unit := do
  when (arg ≠ []) (refuse err_param)
  update fun s => { s with seenmail := false, rcptto := [], mailfrom := [] }
  say ⟨250, asc "flushed"⟩

/-! ## What gives permission to relay -/

/-- The name of the client and what `tls_nogateway` adds. -/
def nogateway (s : Session) : Bytes :=
  (if s.authd then asc ", auth <" ++ site.remoteinfo ++ asc ">" else []) ++
    if cfg.ssl ∧ s.relayclient = none then
      asc "; no valid cert for gateway"
        ++ (if site.ssl_verify_err = [] then [] else asc ": " ++ site.ssl_verify_err)
        ++ asc " "
    else []

/-- Nonzero if the certificate of the client lets it relay; asked once. -/
def tls_verify : Smtp Int := do
  let s ← read
  if cfg.ssl ∧ s.relayclient = none ∧ ¬ s.ssl_verified then
    update fun s => { s with ssl_verified := true }
    match site.tlsclients with
    | .listed =>
        update fun s => { s with authenticated := 1, relayclient := some [] }
        pure 1
    | .unlisted => pure 0
    | .control => die die_control
    | .handshake => die err_rehandshake
  else pure 0

def addrallowed (rcpt : Bytes) : Smtp Int := do
  when (site.rcpthosts rcpt = -1) (die die_control)
  if site.rcpthosts rcpt = 0 then tls_verify cfg site else pure (site.rcpthosts rcpt)

/-- On an error it returns 1 and its callers return. -/
def pop_bef_smtp (mfrom : Bytes) : Smtp Unit := do
  when (¬ cfg.hasvirtual ∨ ¬ site.library) (refuse err_library)
  match site.relay_query mfrom with
  | some answer =>
      emit (.relayQuery mfrom answer)
      update fun s => { s with
        authenticated := answer
        relayclient := if answer = 0 then s.relayclient else some [] }
  | none => refuse err_database

/-! ## MAIL -/

def unwrapBatv (addr : Bytes) : Bytes :=
  if site.batvok then (site.check_batv_sig addr).address addr else addr

/-- The checks before the sender is known, and the sender. -/
def mail_address (seenhelo : Bool) (arg : Bytes) : Check Bytes := do
  setup_checks cfg
  demand seenhelo err_wanthelo
  match addrparse site arg with
  | some addr => .ok (unwrapBatv site addr)
  | none => .error (.refused err_syntax)

def mail_host (addr : Bytes) : Check Unit := do
  rules site.from_envrules
  match site.hostaccess addr with
  | 0 => .error (.refused err_hostaccess)
  | -1 => .error (.died die_control)
  | -2 => .error (.died die_nomem)
  | _ => .ok ()

def mail_dns (addr : Bytes) : Check Unit :=
  if site.nodnscheck then .ok () else dns err_hmf (site.dnscheck addr)

def bouncemail : Check Unit :=
  match site.BOUNCEMAIL with
  | some reason => .error (.died (err_maps reason))
  | none => .ok ()

/-- The checks of the sender, up to where it is stored; the lists leave it in lower case. -/
def mail_sender (authd : Bool) (addr : Bytes) : Check Bytes := do
  demand (!site.REQUIREAUTH || authd) err_authrequired
  let addr ← address_match site.bhsndr addr none
  let addr ← address_match site.bmf addr (some err_bmf)
  mail_dns site addr
  bouncemail site
  if site.SPAMFILTER then address_match site.spsndr addr none else pure addr

/-- The virtual or local user behind a sender in chksenderdomains. -/
def sender_account (t_addr : Bytes) : Check Unit :=
  if isLocal cfg t_addr then do
    let found ← site.check_user_pwd t_addr
    demand found err_authfail
  else if cfg.hasvirtual then
    match site.account t_addr with
    | .active => .ok ()
    | .denied => .error (.refused err_authfail)
    | .userNotFound => .error (.refused err_authfail)
    | .database => .error (.refused err_database)
    | .library => .error (.refused err_library)
  else .error (.refused err_authfail)

/-- The sender of a client that has authenticated. An answer of MASQUERADE does not always end the
command. -/
def check_masquerade : Smtp Unit := do
  let s ← read
  when (s.authd ∧ site.MASQUERADE ≠ some []) do
    let allowed ← (if 64 ∈ cstr s.mailfrom then addrallowed cfg site (cstr s.mailfrom) else pure 1)
    let s ← read
    when (allowed = 0) (refuse (err_masquerade (nogateway cfg site s)))
    update fun s => { s with
      out := s.out ++ (site.masquerade (cstr s.mailfrom)).1.map fun r => .reply r.toReply }
    match (site.masquerade (cstr s.mailfrom)).2 with
    | some r => refuse r
    | none => pure ()

/-- What `check_sender` demands of a sender it looks at, of a client that has permission already or not. -/
def sender_demands (permitted : Bool) (t_addr : Bytes) : Smtp Unit := do
  check (sender_account cfg site t_addr)
  when (¬ permitted) do
    when (¬ isLocal cfg t_addr) (pop_bef_smtp cfg site t_addr)
    let s ← read
    when (s.authenticated ≠ 1) (refuse err_authrequired)
  check_masquerade cfg site

/-- `check_sender` after it has chosen its address. -/
def check_sender (t_addr : Bytes) : Smtp Unit := do
  let s ← read
  let t_addr ← check (address_match (cfg.chksenderdomains.lookup s.chksndrok) t_addr none)
  when (cfg.chksenderdomains.lookup s.chksndrok t_addr = .found)
    (update fun s => { s with chksndrok := false })
  let s ← read
  when (¬ s.chksndrok) (sender_demands cfg site (s.relayclient ≠ none ∨ s.authd) t_addr)

/-- The verdict on the result of `spfcheck`: the cases fall through to the next one. -/
def spf_checks (relayclient : Option Bytes) : Check Unit :=
  if site.spfbehavior = 0 ∨ relayclient ≠ none then .ok () else
  match site.spfcheck with
  | .ok => .ok ()
  | .memory => .error (.died die_nomem)
  | .error => demand (site.spfbehavior < 2) err_spflookup
  | .none => demand (site.spfbehavior < 6) (err_spfbarf site.spfbarfmsg)
  | .unknown => demand (site.spfbehavior < 6) (err_spfbarf site.spfbarfmsg)
  | .neutral => demand (site.spfbehavior < 5) (err_spfbarf site.spfbarfmsg)
  | .softfail => demand (site.spfbehavior < 4) (err_spfbarf site.spfbarfmsg)
  | .fail => demand (site.spfbehavior < 3) (err_spfbarf site.spfbarfmsg)

/-- The sender is stored and the recipients of the last transaction are dropped. -/
def Session.store (s : Session) (addr : Bytes) : Session :=
  { s with
    rcptto := []
    mailfrom := cstr addr ++ [0]
    max_rcpt_errcount := site.MAX_RCPT_ERRCOUNT
    rcptcount := 0
    rcpt_errcount := 0 }

/-- The sender it looks up is in lower case already. -/
def relaymailfrom : Smtp Unit := do
  let s ← read
  when (s.relayclient = none) do
    let mailfrom ← check (address_match cfg.relaymailfrom (cstr s.mailfrom) none)
    when (cfg.relaymailfrom mailfrom = .found) (update fun s => { s with relayclient := some [] })

/-- `in_rcpt1` and CUGMAIL. -/
def mail_allowed (addr : Bytes) : Smtp Int := do
  let in_rcpt1 ← addrallowed cfg site (cstr addr)
  when (site.CUGMAIL ∧ in_rcpt1 = 0) (refuse err_cug)
  pure in_rcpt1

/-- CHECKSENDER: the sender is checked, or else the name of the client. -/
def mail_asks (check_sender : Bytes → Smtp Unit) (in_rcpt1 in_rcpt2 : Int) (addr : Bytes) : Smtp Unit := do
  when (cfg.hasvirtual ∧ ¬ site.library) (refuse err_library)
  when (site.CHECKSENDER) do
    if in_rcpt1 = 1 then check_sender (cstr addr)
    else if in_rcpt2 = 1 then check_sender site.remoteinfo
    else pure ()

/-- `in_rcpt2` and CHECKSENDER. -/
def mail_checksender (in_rcpt1 : Int) (addr : Bytes) : Smtp Unit := do
  let s ← read
  let in_rcpt2 ← (if s.authenticated ≠ 0 ∨ s.authd then addrallowed cfg site site.remoteinfo else pure (-1))
  mail_asks cfg site (check_sender cfg site) in_rcpt1 in_rcpt2 addr

def mail_authdomains : Smtp Unit := do
  let s ← read
  when (s.chkdomok) do
    let mailfrom ← check (address_match (cfg.authdomains.lookup s.chkdomok) (cstr s.mailfrom) none)
    when (cfg.authdomains.lookup s.chkdomok mailfrom = .absent)
      (update fun s => { s with chkdomok := false })

/-- The last checks of MAIL. -/
def mail_last : Check Unit := do
  plugins site.mail_func
  demand (!site.FORCE_TLS || cfg.ssl) err_starttls

/-- MAIL up to where it stores its sender. -/
def mail_before (arg : Bytes) : Smtp Bytes := do
  let s ← read
  let addr ← check (mail_address cfg site s.seenhelo arg)
  when (site.batvok) (update fun s => { s with
    isbounce := addr = [] ∨ case_starts addr (asc "mailer-daemon@") })
  check (mail_host site addr)
  update fun s => { s with flagsize := site.mailfrom_parms arg }
  check (mail_sender site s.authd addr)

/-- The sender a MAIL command names. -/
def senderOf (arg : Bytes) : Option Bytes :=
  (addrparse site arg).map fun addr => cstr ((unwrapBatv site addr).map lower)

/-- MAIL passes the checks that come before its sender `addr` is stored. -/
structure Stores (s : Session) (arg addr : Bytes) : Prop where
  checks : ∃ a, mail_address cfg site s.seenhelo arg = .ok a ∧ mail_host site a = .ok () ∧
    mail_sender site s.authd a = .ok addr

/-- MAIL from where the sender is stored, up to CHECKSENDER. -/
def mail_known (addr : Bytes) : Smtp Int := do
  relaymailfrom cfg
  mail_allowed cfg site addr

/-- CHECKSENDER and SPF. -/
def mail_checked (in_rcpt1 : Int) (addr : Bytes) : Smtp Unit := do
  mail_checksender cfg site in_rcpt1 addr
  let s ← read
  check (spf_checks site s.relayclient)

/-- MAIL from where the sender is stored. -/
def mail_after (addr : Bytes) : Smtp Unit := do
  let in_rcpt1 ← mail_known cfg site addr
  mail_checked cfg site in_rcpt1 addr
  mail_authdomains cfg
  check (mail_last cfg site)

def smtp_mail (arg : Bytes) : Smtp Unit := do
  let addr ← mail_before cfg site arg
  update fun s => s.store site addr
  mail_after cfg site addr
  update fun s => { s with seenmail := true }
  say ⟨250, asc "ok"⟩

/-! ## RCPT -/

/-- `nosignremote.len` is zero, or the text is not listed. -/
def notListed (list : Option (Bytes → Bool)) (domain : Bytes) : Bool :=
  match list with
  | none => true
  | some f => !f domain

/-- `ws`: an address without a domain is not looked at. -/
def rcpt_signature (addr : Bytes) : Batv :=
  if byteRchr addr 64 < addr.length then site.check_batv_sig addr else .ok addr

/-- The signature of a recipient is stripped; a bounce without a good one is refused.
The sender's domain is looked up where the sender has its `@`, the recipient's where it
had its own before the signature was stripped. -/
def rcpt_batv (s : Session) (addr : Bytes) : Check Bytes :=
  if ¬ site.batvok then .ok addr else
  let mailfrom := s.mailfrom.take (s.mailfrom.length - 1)
  let skip_batv := byteRchr mailfrom 64 < mailfrom.length &&
    notListed site.nosignremote (addr.drop (byteRchr mailfrom 64 + 1))
  let at_ := byteRchr addr 64
  let ws := rcpt_signature site addr
  let addr := ws.address addr
  if skip_batv ∨ ¬ notListed site.nosignlocals (addr.drop (at_ + 1)) then .ok addr else
  match ws with
  | .ok _ => .ok addr
  | .nosignature =>
      if s.relayclient = none ∧ s.isbounce then .error (.refused batv_nosignature) else .ok addr
  | .badformat => .error (.refused batv_badformat)
  | .stale => .error (.refused batv_stale)

/-- An address that `srsreverse` is asked about. -/
def do_srs (addr : Bytes) : Bool :=
  site.srs_domain ≠ [] &&
    (case_starts addr (asc "srs0=") || case_starts addr (asc "srs1=")) &&
    byteRchr addr 64 + 2 < addr.length &&
    addr.drop (byteRchr addr 64 + 1) == site.srs_domain

/-- The address that a successful decoding gives. -/
def srsAddress (addr : Bytes) : Bytes :=
  if do_srs site addr then
    match site.srsreverse addr with
    | .decoded a => a
    | _ => addr
  else addr

/-- A failed decoding is answered, and the command goes on with the address as it is. -/
def rcpt_srs (addr : Bytes) : Smtp Bytes :=
  if do_srs site addr then
    match site.srsreverse addr with
    | .decoded a => pure a
    | .failed => do
        say err_srsdecode.toReply
        pure addr
    | .notConfigured => do
        say err_srsunable.toReply
        pure addr
    | .control => die die_control
    | .memory => die die_nomem
  else pure addr

/-- The result of `mail_acl`. -/
def access_list (r : Int) : Check Unit :=
  if r = 1 then .error (.refused err_acl)
  else demand (r = 0) err_addressmatch

/-- The lists of good and bad recipients, which leave the address in lower case; `isgoodrcpt` is 4 for a
good one. -/
def rcpt_lists (mailfrom addr : Bytes) : Check (Bytes × Int) := do
  demand (!addrrelay addr) err_relay
  let addr ← address_match site.gdrcpt addr none
  let _ ← (if site.gdrcpt addr ≠ .found then address_match site.rcp addr (some err_rcp) else .ok addr)
  access_list (site.mail_acl mailfrom addr)
  pure (addr, if site.gdrcpt addr = .found then 4 else 0)

/-- The relay decision; the address gets the suffix of `relayclient`. -/
def rcpt_relay (allowed_rcpthosts : Int) (addr : Bytes) : Smtp Bytes := do
  let s ← read
  match s.relayclient with
  | some suffix => pure (addr ++ suffix)
  | none =>
      when (allowed_rcpthosts = 0) do
        when (cfg.hasvirtual ∧ site.CHECKRELAY) (pop_bef_smtp cfg site (cstr s.mailfrom))
        let s ← read
        when (¬ cfg.hasvirtual ∨ s.authenticated ≠ 1) (refuse (err_nogateway (nogateway cfg site s)))
      pure addr

/-- The state of a recipient's mailbox: 0 is fine, -1 is an error already answered. -/
def mailbox_state (addr : Bytes) : Smtp Int :=
  if isLocal cfg addr then do
    let found ← check (site.check_user_pwd addr)
    pure (if found then 0 else 1)
  else
    match site.check_user_sql addr with
    | .status n => pure n
    | .library => do
        say err_library.toReply
        pure (-1)
    | .database => die err_database

def mailbox_fault : Int → Option Bytes
  | 1 => some (asc "is absent on this domain (#5.1.1)")
  | 2 => some (asc "is inactive on this domain (#5.2.1)")
  | 3 => some (asc "is overquota on this domain (#5.2.2)")
  | _ => none

/-- The check of the mailbox that `isgoodrcpt` asks for. -/
def recipient_state (isgoodrcpt : Int) (addr : Bytes) : Smtp Int := do
  if isgoodrcpt = 1 then mailbox_state cfg site addr
  else if isgoodrcpt = 4 then pure 0
  else
    let listed ← check (site.recipients_ext addr)
    if listed then pure 0
    else if isgoodrcpt = 2 then mailbox_state cfg site addr
    else pure 1

/-- What `$CHECKRECIPIENT`, with the value `tmp`, demands of a recipient; the value of `isgoodrcpt` after it. -/
def recipient_applies (tmp : Option Int) (isgoodrcpt : Int) (addr : Bytes) : Smtp Int := do
  let s ← read
  let isgoodrcpt := if isgoodrcpt = 4 then 4 else if cfg.hasvirtual then tmp.getD 3 else 3
  let result ← recipient_state cfg site isgoodrcpt addr
  update fun s => { s with
    rcpt_errcount := if 0 < result then s.rcpt_errcount + 1 else s.rcpt_errcount }
  match mailbox_fault result with
  | some state => refuse (err_mailbox (cstr s.mailfrom) addr state)
  | none => pure isgoodrcpt

/-- `$CHECKRECIPIENT`, for a local recipient in chkrcptdomains. -/
def check_recipient (isgoodrcpt : Int) (addr : Bytes) : Smtp (Bytes × Int) :=
  match site.CHECKRECIPIENT with
  | none => pure (addr, isgoodrcpt)
  | some tmp => do
      let s ← read
      let addr ← check (address_match (cfg.chkrcptdomains.lookup s.chkrcptok) addr none)
      when (cfg.chkrcptdomains.lookup s.chkrcptok addr = .found)
        (update fun s => { s with chkrcptok := false })
      let s ← read
      if s.chkrcptok then pure (addr, isgoodrcpt) else
        let isgoodrcpt ← recipient_applies cfg site tmp isgoodrcpt addr
        pure (addr, isgoodrcpt)

/-- The last checks of RCPT, and the address. -/
def rcpt_last (s : Session) (isgoodrcpt : Int) (addr : Bytes) : Check Bytes := do
  demand (s.max_rcpt_errcount = -1 ∨ s.rcpt_errcount < s.max_rcpt_errcount) err_rcpt_errcount
  let addr ← (if isgoodrcpt ≠ 4 then address_match site.bhrcpt addr none else .ok addr)
  plugins site.rcpt_func
  demand (site.maxrcptcount = 0 ∨ s.rcptcount + 1 ≤ site.maxrcptcount) err_mrc
  demand (s.mailfrom.length ≠ 1 ∨ s.rcptcount + 1 ≤ 1) err_badbounce
  rules site.domainqueue
  pure addr

/-- One recipient in the envelope. -/
def recipientRecord (addr : Bytes) : Bytes := 84 :: addr ++ [0]

/-- The recipient is added and answered. -/
def Session.accept (s : Session) (addr : Bytes) : Session :=
  { s with
    rcptcount := s.rcptcount + 1
    rcptto := s.rcptto ++ recipientRecord (cstr addr)
    out := s.out ++ [.reply ⟨250, asc "ok"⟩] }

/-- RCPT up to `$CHECKRECIPIENT`: `allowed_rcpthosts`, `isgoodrcpt` and the address. -/
def rcpt_before (arg : Bytes) : Smtp (Int × Int × Bytes) := do
  check (setup_checks cfg)
  let s ← read
  check (demand s.seenmail err_wantmail)
  match addrparse site arg with
  | none => refuse err_syntax
  | some addr =>
      when (site.CUGMAIL) do
        let allowed ← addrallowed cfg site (cstr addr)
        when (allowed = 0) (refuse err_cug)
      let s ← read
      let addr ← check (rcpt_batv site s addr)
      let addr ← rcpt_srs site (cstr addr)
      let (addr, isgoodrcpt) ← check (rcpt_lists site (cstr s.mailfrom) (cstr addr))
      let s ← read
      let allowed_rcpthosts ←
        (if ¬ s.chkdomok ∧ ¬ site.AUTH_ALL then addrallowed cfg site addr else pure 0)
      let addr ← rcpt_relay cfg site allowed_rcpthosts addr
      pure (allowed_rcpthosts, isgoodrcpt, addr)

/-- RCPT from `$CHECKRECIPIENT` on. -/
def rcpt_after (isgoodrcpt : Int) (addr : Bytes) : Smtp Unit := do
  let s ← read
  let addr ← check (rcpt_last site s isgoodrcpt addr)
  update fun s => s.accept addr

def smtp_rcpt (arg : Bytes) : Smtp Unit := do
  let (allowed_rcpthosts, isgoodrcpt, addr) ← rcpt_before cfg site arg
  let (addr, isgoodrcpt) ←
    (if allowed_rcpthosts = 1 then check_recipient cfg site isgoodrcpt addr
    else pure (addr, isgoodrcpt))
  rcpt_after site isgoodrcpt addr

/-- The address of a recipient without its signature. -/
def recipientUnsigned (addr : Bytes) : Bytes :=
  cstr (if site.batvok then (rcpt_signature site addr).address addr else addr)

/-- The address a recipient is looked up with: without its signature, decoded, and in lower case. -/
def recipientBase (addr : Bytes) : Bytes := (cstr (srsAddress site (recipientUnsigned site addr))).map lower

/-- The address that is added: with the suffix of `relayclient`, which the lists put into lower case too,
unless the recipient is a good one and `$CHECKRECIPIENT` does not look at it. -/
def recipientGiven (chkdomok : Bool) (base suffix : Bytes) : Bytes :=
  if site.gdrcpt base ≠ .found ∨
      ((¬ chkdomok ∧ ¬ site.AUTH_ALL) ∧ site.rcpthosts base = 1 ∧ site.CHECKRECIPIENT ≠ none) then
    (base ++ suffix).map lower
  else base ++ suffix

/-- The recipient a RCPT command names, as it is rewritten. -/
def recipientOf (s : Session) (arg : Bytes) : Option Bytes :=
  (addrparse site arg).map fun addr =>
    cstr (recipientGiven site s.chkdomok (recipientBase site addr) (s.relayclient.getD []))

/-! ## DATA -/

def data_greylist : Smtp Unit := do
  let s ← read
  when (site.greyip ∧ s.relayclient = none) do
    match site.greylist (cstr s.mailfrom) s.rcptto with
    | 1 => pure ()
    | 0 => refuse err_grey
    | -2 => die die_nomem
    | _ => exit .returned

/-- The rules of `auth.envrules`, for a client that may relay or has authenticated. -/
def auth_rules (relayclient : Option Bytes) (authd : Bool) : Check Unit :=
  if relayclient = none ∧ authd = false then .ok () else rules site.auth_envrules

/-- The body is read by `blast`; the plugins see it if it was read to its end. -/
def smtp_data (arg : Bytes) : Smtp Unit := do
  when (arg ≠ []) (refuse err_param)
  let s ← read
  check (demand s.seenmail err_wantmail)
  check (demand (s.rcptto ≠ [] ∧ s.rcptcount ≠ 0) err_wantrcpt)
  data_greylist site
  update fun s => { s with seenmail := false }
  when (s.flagsize) (refuse err_size)
  check (auth_rules site s.relayclient s.authd)
  check (demand site.qmail_open err_qqt)
  say ⟨354, asc "go ahead"⟩
  check (if site.blast then .ok () else plugins site.data_func)
  emit (.envelope (cstr s.mailfrom) s.rcptto)
  match site.qmail_close with
  | none => say ⟨250, asc "ok " ++ site.accepted⟩
  | some r => refuse r

/-! ## AUTH -/

def smtp_auth (auth : Auth) : Smtp Unit := do
  check (setup_checks cfg)
  check (demand cfg.childargs err_noauth)
  let s ← read
  check (demand (!s.authd) err_authd)
  check (demand (!s.seenmail) err_transaction)
  match auth with
  | .relays => update fun s => { s with authd := true, relayclient := some [] }
  | .authenticates => update fun s => { s with authd := true }
  | .fails r => refuse r
  say ⟨235, asc "ok, go ahead (#2.0.0)"⟩

/-! ## The session as a machine -/

inductive Command where
  | helo (arg : Bytes)
  | ehlo (arg : Bytes)
  | mail (arg : Bytes)
  | rcpt (arg : Bytes)
  | rset (arg : Bytes)
  | data (arg : Bytes)

def handler : Command → Smtp Unit
  | .helo arg => smtp_helo cfg site arg
  | .ehlo arg => smtp_ehlo cfg site arg
  | .mail arg => smtp_mail cfg site arg
  | .rcpt arg => smtp_rcpt cfg site arg
  | .rset arg => smtp_rset arg
  | .data arg => smtp_data site arg

/-- One command, carried out with the answers it finds. -/
structure Line where
  command : Command
  site : Site := {}

/-- `out` has what this handler does; a session whose process has exited goes on no more. -/
def Session.carryOut (s : Session) (m : Smtp Unit) : Option Session :=
  if s.exited then none else
  match m { s with out := [] } with
  | (.error .died, t) => some { t with exited := true }
  | (_, t) => some t

/-- A step of a client that does not use AUTH. -/
def Session.step (s : Session) (l : Line) : Option Session := s.carryOut (handler cfg l.site l.command)

/-- What is left by `setup`: the client has sent nothing yet, and `relayclient` is what
RELAYCLIENT, relayclients and relaydomains say about the connection. -/
structure Fresh (relayclient : Option Bytes) (s : Session) : Prop where
  relayclient : s.relayclient = relayclient
  authenticated : s.authenticated = 0
  authd : s.authd = false
  seenmail : s.seenmail = false
  out : s.out = []

/-- A session whose client was given `relayclient` by `setup`. -/
def session (relayclient : Option Bytes) : Run.Machine Session Line where
  init := Fresh relayclient
  step := Session.step cfg

end IndimailMta.Smtpd
