import IndimailMta.Base
import IndimailMta.Lib.Exits

/-!
# An SMTP session of qmail-smtpd

The variables that live as long as the connection, what the control files, the
environment and the helpers answer while a command is carried out (`Site`), and
what a command says to the client, asks and hands on (`Event`).
-/

namespace IndimailMta.Smtpd

open IndimailMta Exits

/-! ## Replies -/

structure Reply where
  code : Nat
  text : Bytes
  deriving DecidableEq

/-- A reply that refuses. -/
structure Refusal extends Reply where
  refuses : 400 ≤ code

def refusal (code : Nat) (text : Bytes) (h : 400 ≤ code := by decide) : Refusal :=
  ⟨⟨code, text⟩, h⟩

def err_syntax := refusal 555 (asc "syntax error in address (#5.1.3)")
def err_wantmail := refusal 503 (asc "MAIL first (#5.5.1)")
def err_wantrcpt := refusal 503 (asc "RCPT first (#5.5.1)")
def err_param := refusal 501 (asc "invalid parameter syntax (#5.3.2)")
def err_wanthelo := refusal 503 (asc "Polite people say hello first (#5.5.4)")
def err_hostaccess := refusal 553 (asc "sorry, your host has been denied (#5.7.1)")
def err_authrequired := refusal 530 (asc "authentication required (#5.7.1)")
def err_authfail := refusal 553 (asc "authorization failure (#5.7.1)")
def err_bmf := refusal 553 (asc "sorry, your envelope sender has been denied (#5.7.1)")
def err_hmf := refusal 553 (asc "Bad sender's system address (#5.1.8)")
def err_hmf_helo := refusal 553 (asc "sorry, helo domain must exist (#5.1.8)")
def err_smf := refusal 451 (asc "Sorry, there is a DNS temporary failure (#4.4.3)")
def err_addressmatch := refusal 451 (asc "Sorry, there is a local system failure (#4.3.0)")
def err_cug := refusal 553 (asc "sorry, this MTA is a closed user group system (#5.7.1)")
def err_database := refusal 451 (asc "Sorry, I got a temporary database error (#4.3.2)")
def err_library := refusal 451 <|
  asc "Sorry, there is a problem loading indimail virtual domain library (#4.3.0)"
def err_spflookup := refusal 451 (asc "SPF lookup failure (#4.3.0)")
def err_starttls := refusal 530 (asc "must issue STARTTLS first (#5.7.0)")
def err_relay := refusal 550 (asc "we don't relay (#5.7.1)")
def err_spfbarf (spfbarfmsg : Bytes) := refusal 550 spfbarfmsg
def err_rcp := refusal 553 (asc "sorry, your envelope recipient has been denied (#5.7.1)")
def err_acl := refusal 553 (asc "sorry, sites access list denies transaction (#5.7.1)")
def err_srsdecode := refusal 451 (asc "failed to decode srs address (#4.3.0)")
def err_srsunable := refusal 451 (asc "unable to decode SRS address (#4.3.5)")
def err_rcpt_errcount := refusal 421 (asc "too many invalid addresses, goodbye (#4.7.1)")
def err_mrc := refusal 557 (asc "sorry, too many recipients (#5.7.1)")
def err_badbounce := refusal 553 <|
  asc "sorry, bounce messages should have a single envelope recipient (#5.7.1)"
def err_grey := refusal 450 (asc "try again later (#4.3.0)")
def err_size := refusal 552 (asc "sorry, that message size exceeds my databytes limit (#5.3.4)")
def err_qqt := refusal 451 (asc "Sorry, I got a temporary queue failure (#4.3.0)")
def err_badhelo := refusal 553 (asc "sorry, your HELO/EHLO greeting is in my badhelo list (#5.7.1)")
def err_localhelo := refusal 451 (asc "invalid HELO greeting for local (#4.3.0)")
def die_nohelofqdn := refusal 451 (asc "unable to accept non-FQDN HELO (#4.3.0)")
def err_rehandshake := refusal 454 (asc "rehandshake failed (#4.3.0)")
def die_nomem := refusal 451 (asc "Sorry, I ran out of memory (#4.3.0)")
def die_control := refusal 451 (asc "Sorry, I'm unable to read controls (#4.3.0)")
def batv_nosignature := refusal 553 (asc "Not our message (#5.7.1)")
def batv_badformat := refusal 553 (asc "message format wrong (#5.7.1)")
def batv_stale := refusal 553 (asc "message expired (#5.7.1)")

def err_authd := refusal 503 (asc "you're already authenticated (#5.5.0)")
def err_noauth := refusal 503 (asc "auth not available (#5.3.3)")
def err_transaction := refusal 503 (asc "no auth during mail transaction (#5.5.0)")

/-- `err_maps`: the reason is `$BOUNCEMAIL`. -/
def err_maps (reason : Bytes) : Refusal := refusal 553 (reason ++ asc " (#5.7.1)")

def err_mailbox (mailfrom rcpt state : Bytes) : Refusal :=
  refusal 550 (asc "sorry, " ++ mailfrom ++ asc " mailbox <" ++ rcpt ++ asc "> " ++ state)

/-- `err_nogateway(…, 0)`; `more` is the name of the client and what `tls_nogateway` adds. -/
def err_nogateway (more : Bytes) : Refusal :=
  refusal 553 <|
    asc "sorry, that domain isn't allowed to be relayed thru this MTA without authentication"
      ++ more ++ asc " #5.7.1"

/-- `err_nogateway(…, 2)`. -/
def err_masquerade (more : Bytes) : Refusal :=
  refusal 553 (asc "sorry, this MTA does not accept masquerading/forging" ++ more ++ asc " #5.7.1")

/-! ## What a command does to the outside -/

inductive Event where
  /-- A reply to the client. -/
  | reply (r : Reply)
  /-- `inquery(RELAY_QUERY, mfrom, remoteip)` and the `char` it points to. -/
  | relayQuery (mfrom : Bytes) (answer : Byte)
  /-- `qmail_from(mailfrom)` and `qmail_put(rcptto)`. -/
  | envelope (mailfrom rcptto : Bytes)
  deriving DecidableEq

/-- Why a check does not let a command go on: it returns, or the process exits. -/
inductive Denial where
  | refused (r : Refusal)
  | died (r : Refusal)

/-- A check; it changes nothing. -/
abbrev Check := Except Denial

/-! ## What a command finds outside -/

/-- ASCII lower case. -/
def lower (ch : Byte) : Byte := if 65 ≤ ch && ch ≤ 90 then ch + 32 else ch

/-- The result of `address_match`. -/
inductive Match where
  | found
  | absent
  | memory
  | error
  deriving DecidableEq

/-- A list as `setup` finds it, and what `address_match` looks at: the database first, and then
the control file. -/
structure Control where
  loaded : Bool := false
  cdbmatch : Bytes → Match := fun _ => .absent
  wildmat : Bytes → Match := fun _ => .absent

/-- `address_match(fn, addr, ok ? &list : 0, …)`. -/
def Control.lookup (c : Control) (ok : Bool) (addr : Bytes) : Match :=
  match c.cdbmatch addr with
  | .absent => if ok then c.wildmat addr else .absent
  | m => m

/-- The result of `envrules` and of `domainqueue`, as far as it stops a command. -/
inductive Rules where
  | done
  | memory
  | file

/-- What the method of AUTH returns: 0, 3, or an error that is answered. -/
inductive Auth where
  | relays
  | authenticates
  | fails (r : Refusal)

inductive Dns where
  | ok
  | hard
  | soft
  | memory

inductive Spf where
  | ok
  | none
  | unknown
  | neutral
  | softfail
  | fail
  | error
  | memory
  deriving DecidableEq

/-- The result of `check_batv_sig`, with the address it leaves. -/
inductive Batv where
  | ok (addr : Bytes)
  | nosignature
  | badformat
  | stale

def Batv.address (addr : Bytes) : Batv → Bytes
  | .ok a => a
  | _ => addr

/-- The result of `srsreverse`. -/
inductive Srs where
  | decoded (addr : Bytes)
  | failed
  | notConfigured
  | control
  | memory

/-- How `inquery(PWD_QUERY, …)` finds a virtual user. -/
inductive Account where
  | active
  | denied
  | userNotFound
  | database
  | library

/-- The result of `check_user_sql`. -/
inductive UserSql where
  | status (n : Int)
  | library
  | database

/-- What `tls_verify` finds out about the client. -/
inductive Cert where
  | unlisted
  | listed
  | control
  | handshake

/-- What does not change while the connection lasts. -/
structure Config where
  setup_state : Nat := 0
  remoteip : Bytes := []
  remotehost : Bytes := []
  TCPPARANOID : Bytes := []
  REQPTR : Bytes := []
  hasvirtual : Bool := false
  /-- The host name and the program that checks passwords are on the command line. -/
  childargs : Bool := true
  ssl : Bool := false
  /-- Who is listed in relaymailfrom. -/
  relaymailfrom : Bytes → Match := fun _ => .absent
  maplocals : Bytes → Bool := fun _ => false
  chksenderdomains : Control := {}
  authdomains : Control := {}
  chkrcptdomains : Control := {}

/-- What the control files, the environment and the helpers say while one command
is carried out; environment variables keep their names. -/
structure Site where
  -- HELO and EHLO
  greeting : Bytes := []
  ENFORCE_FQDN_HELO : Bool := false
  dohelocheck : Bool := false
  localhelo : Bytes → Bool := fun _ => false
  badhelo : Bytes → Match := fun _ => .absent
  -- addresses
  liphost : Option Bytes := none
  ipme : Bytes → Bool := fun _ => false
  rcpthosts : Bytes → Int := fun _ => 1
  tlsclients : Cert := .unlisted
  nodnscheck : Bool := false
  dnscheck : Bytes → Dns := fun _ => .ok
  batvok : Bool := false
  check_batv_sig : Bytes → Batv := fun _ => .nosignature
  library : Bool := true
  relay_query : Bytes → Option Byte := fun _ => some 0
  CUGMAIL : Bool := false
  check_user_pwd : Bytes → Check Bool := fun _ => .ok true
  -- MAIL
  from_envrules : Rules := .done
  hostaccess : Bytes → Int := fun _ => 1
  mailfrom_parms : Bytes → Bool := fun _ => false
  remoteinfo : Bytes := []
  REQUIREAUTH : Bool := false
  bhsndr : Bytes → Match := fun _ => .absent
  bmf : Bytes → Match := fun _ => .absent
  BOUNCEMAIL : Option Bytes := none
  SPAMFILTER : Bool := false
  spsndr : Bytes → Match := fun _ => .absent
  MAX_RCPT_ERRCOUNT : Int := -1
  CHECKSENDER : Bool := false
  MASQUERADE : Option Bytes := none
  /-- What MASQUERADE makes of a sender: the answers it gives, and the one it ends the command with. -/
  masquerade : Bytes → List Refusal × Option Refusal := fun _ => ([], none)
  account : Bytes → Account := fun _ => .active
  spfbehavior : Nat := 0
  spfcheck : Spf := .none
  spfbarfmsg : Bytes := []
  mail_func : List (Option Refusal) := []
  FORCE_TLS : Bool := false
  -- RCPT
  nosignremote : Option (Bytes → Bool) := none
  nosignlocals : Option (Bytes → Bool) := none
  srs_domain : Bytes := []
  srsreverse : Bytes → Srs := .decoded
  gdrcpt : Bytes → Match := fun _ => .absent
  rcp : Bytes → Match := fun _ => .absent
  mail_acl : Bytes → Bytes → Int := fun _ _ => 0
  AUTH_ALL : Bool := false
  CHECKRELAY : Bool := false
  ssl_verify_err : Bytes := []
  /-- `$CHECKRECIPIENT`, and the number `scan_int` reads from it. -/
  CHECKRECIPIENT : Option (Option Int) := none
  check_user_sql : Bytes → UserSql := fun _ => .status 0
  recipients_ext : Bytes → Check Bool := fun _ => .ok true
  bhrcpt : Bytes → Match := fun _ => .absent
  rcpt_func : List (Option Refusal) := []
  maxrcptcount : Nat := 0
  domainqueue : Rules := .done
  -- DATA
  greyip : Bool := false
  greylist : Bytes → Bytes → Int := fun _ _ => 1
  auth_envrules : Rules := .done
  qmail_open : Bool := true
  blast : Bool := false
  data_func : List (Option Refusal) := []
  /-- The answer to the client when `qmail_close` reports an error. -/
  qmail_close : Option Refusal := none
  accepted : Bytes := []

/-! ## The session -/

/-- The variables of the session. `mailfrom` and `rcptto` are the bytes of the
`stralloc`s; `out` is what the command being carried out has done so far. -/
structure Session where
  seenhelo : Bool := false
  seenmail : Bool := false
  relayclient : Option Bytes := none
  authenticated : Byte := 0
  authd : Bool := false
  ssl_verified : Bool := false
  chkdomok : Bool := false
  chksndrok : Bool := false
  chkrcptok : Bool := false
  isbounce : Bool := false
  flagsize : Bool := false
  mailfrom : Bytes := []
  rcptto : Bytes := []
  rcptcount : Nat := 0
  rcpt_errcount : Int := 0
  max_rcpt_errcount : Int := -1
  out : List Event := []
  exited : Bool := false

/-- How a command is left before its end. -/
inductive Stop where
  | returned
  | died
  deriving DecidableEq

abbrev Smtp := Prog Session Stop

def emit (e : Event) : Smtp Unit := update fun s => { s with out := s.out ++ [e] }

def say (r : Reply) : Smtp Unit := emit (.reply r)

variable {α : Type}

def refuse (r : Refusal) : Smtp α := do
  say r.toReply
  exit .returned

def die (r : Refusal) : Smtp α := do
  say r.toReply
  exit .died

/-! ## Checks -/

def check : Check α → Smtp α
  | .ok a => pure a
  | .error (.refused r) => refuse r
  | .error (.died r) => die r

/-- Refuse unless `c`. -/
def demand (c : Bool) (r : Refusal) : Check Unit := if c then .ok () else .error (.refused r)

def deny (code : Nat) (text : Bytes) (h : 400 ≤ code := by decide) : Check Unit :=
  .error (.refused (refusal code text h))

/-- `address_match` puts the address into lower case, where it stands, before it looks it up. A hit is
refused with `hit`, if it is refused at all. -/
def address_match (list : Bytes → Match) (addr : Bytes) (hit : Option Refusal) : Check Bytes :=
  let addr := addr.map lower
  match list addr with
  | .found => match hit with
    | some r => .error (.refused r)
    | none => .ok addr
  | .absent => .ok addr
  | .memory => .error (.died die_nomem)
  | .error => .error (.refused err_addressmatch)

def rules : Rules → Check Unit
  | .done => .ok ()
  | .memory => .error (.died die_nomem)
  | .file => .error (.died die_control)

/-- The first plugin that objects. -/
def plugins (fs : List (Option Refusal)) : Check Unit :=
  match fs.reduceOption with
  | [] => .ok ()
  | r :: _ => .error (.refused r)

/-- `setup_state`, as MAIL, RCPT, HELO and EHLO look at it. -/
def setup_checks (cfg : Config) : Check Unit :=
  match cfg.setup_state with
  | 0 => .ok ()
  | 1 => deny 503 (asc "bad sequence of commands (#5.3.2)")
  | 2 => deny 553 (asc "No mail accepted from an open relay (" ++ cfg.remoteip
      ++ asc "); check your server configs (#5.7.1)")
  | 3 => deny 553 (asc "sorry, your IP address (" ++ cfg.remoteip
      ++ asc ") PTR (reverse DNS) record points to wrong hostname"
      ++ (if cfg.TCPPARANOID = [] then [] else asc " [" ++ cfg.TCPPARANOID ++ asc "]")
      ++ asc " (#5.7.1)")
  | 4 => deny 553 (if cfg.REQPTR = [] then
        asc " Sorry, no PTR (reverse DNS) record for (" ++ cfg.remoteip ++ asc ") (#5.7.1)"
      else cfg.REQPTR ++ asc ": from " ++ cfg.remoteip ++ asc ": (#5.7.1)")
  | 5 => deny 553 (asc "sorry, your host (" ++ cfg.remotehost ++ asc ") has been denied (#5.7.1)")
  | 6 => deny 421 (asc "sorry, your IP (" ++ cfg.remoteip
      ++ asc ") is temporarily denied (#4.7.1)")
  | _ => .ok ()

/-! ## Addresses -/

/-- The copy loop of `addrparse`: up to the terminator, without the quotes. -/
def unquote (terminator : Byte) : Bool → Bool → Bytes → Bytes
  | _, _, [] => []
  | true, flagquoted, ch :: arg => ch :: unquote terminator false flagquoted arg
  | false, flagquoted, ch :: arg =>
      if !flagquoted && ch == terminator then []
      else if ch == 92 then unquote terminator true flagquoted arg
      else if ch == 34 then unquote terminator false (!flagquoted) arg
      else ch :: unquote terminator false flagquoted arg

/-- The address without its source route. -/
def stripRoute (arg : Bytes) : Bytes :=
  if arg.head? = some 64 then (arg.dropWhile (· ≠ 58)).tail else arg

/-- `localiphost` in place of a bracketed address that is one of ours. -/
def localiphost (site : Site) (addr : Bytes) : Bytes :=
  match site.liphost with
  | none => addr
  | some liphost =>
      if byteRchr addr 64 < addr.length ∧ site.ipme (addr.drop (byteRchr addr 64 + 1)) then
        addr.take (byteRchr addr 64 + 1) ++ liphost
      else addr

def addrparse (site : Site) (arg : Bytes) : Option Bytes :=
  let parsed (terminator : Byte) (arg : Bytes) : Option Bytes :=
    let addr := localiphost site (unquote terminator false false (stripRoute arg))
    if 900 < addr.length + 1 then none else some addr
  match (cstr arg).dropWhile (· ≠ 60) with
  | _ :: rest => parsed 62 rest
  | [] => match ((cstr arg).dropWhile (· ≠ 58)).tail with
    | [] => none
    | ch :: rest => parsed 32 ((ch :: rest).dropWhile (· = 32))

/-- The reject of relay probes. -/
def addrrelay (addr : Bytes) : Bool :=
  if byteRchr addr 64 < addr.length then
    (addr.take (byteRchr addr 64)).any fun ch => ch == 64 || ch == 37 || ch == 33
  else addr.any fun ch => ch == 64 || ch == 37 || ch == 33

/-- `case_starts(s, t)`, `t` in lower case. -/
def case_starts (s t : Bytes) : Bool := (s.take t.length).map lower == t

/-- The part after the last `@`, if there is one. -/
def domainOf (addr : Bytes) : Option Bytes :=
  if byteRchr addr 64 < addr.length then some (addr.drop (byteRchr addr 64 + 1)) else none

def isLocal (cfg : Config) (addr : Bytes) : Bool :=
  match domainOf addr with
  | some domain => cfg.maplocals domain
  | none => true

end IndimailMta.Smtpd
