import IndimailMta.Queue.System

/-!
# qmail-queue

`main` of qmail-queue up to its exit: the body is copied from descriptor 0 to
`mess/id`, the envelope from descriptor 1 to `intd/id`, and `intd/id` is linked to
`todo/id`. What the controls and the environment ask for (removed and logged
headers, the virus scanner, an extra queue, the quarantine, the archive) comes in
through `Env`, by its result where it is not about files.
-/

namespace IndimailMta.Queue

open IndimailMta Exits

/-- The longest address is one byte shorter. -/
def ADDR : Nat := 1003

/-! ## What qmail-queue reads -/

/-- A line of the body, and what the header controls say about it. -/
structure Line where
  bytes : Bytes
  exclude : Bool := false
  inEnvelope : Bool := false
  loghead : Bool := false

/-- The body on descriptor 0: as it is read, or line by line if there are header controls. -/
inductive Body where
  | copy (chunks : List Bytes)
  | lines (ls : List Line)

/-- How the virus scanner ends; a found virus can set the quarantine address. -/
inductive Qhpsi where
  | skipped
  | crashed
  | virus (rejectvirus : Nat) (virusforward : Option Bytes)
  | clean
  | other

/-- The environment and the controls of one run, and its two inputs. -/
structure Env where
  mode : Mode := {}
  fastqueue : Bool := false
  nm : Numerals
  uid : Nat := 0
  mypid : Nat := 0
  received : Bytes := []
  origin : Option Bytes := none
  body : Body := .copy []
  envelope : Bytes := []
  logfd : Bool := false
  qhpsi : Option Qhpsi := none
  extraqueue : List Bytes := []
  quarantine : Bytes := []
  /-- The rules of the archive: the recipients they add for the addresses read. -/
  archive : Option (Bytes → Bytes) := none
  qqeh : Bytes := []
  use_fsync : Bool := false

/-- The variables of `main` that are set before the envelope is read. -/
structure Vars where
  envheaders : Bytes := []
  qqehextra : Bytes := []
  quarantine : Bytes := []
  flagquarantine : Bool := false
  flagblackhole : Bool := false

variable (env : Env)

/-- Bytes for `mess/id`. -/
def putMess (b : Bytes) : QQ Unit := do
  orDie env.mode QQ_WRITE_ERR true
  update fun w => { w with mess := w.mess ++ b }

/-- Bytes for `intd/id`. -/
def putIntd (b : Bytes) : QQ Unit := do
  orDie env.mode QQ_WRITE_ERR true
  update fun w => { w with intd := w.intd ++ b }

/-! ## The message file -/

/-- The control files. -/
def readControls : QQ Unit := do
  orDie env.mode QQ_CONFIG_ERR false
  orDie env.mode QQ_CONFIG_ERR false
  orDie env.mode QQ_CONFIG_ERR false
  orDie env.mode QQ_CONFIG_ERR false
  orDie env.mode QQ_CONFIG_ERR false
  orDie env.mode QQ_CONFIG_ERR false

/-- Up to the first file: controls, queue directory, Received line. -/
def setup : QQ Unit := do
  when (env.fastqueue = false) (readControls env)
  orDie env.mode QQ_OUT_OF_MEMORY false
  orDie env.mode QQ_CHDIR false
  orDie env.mode QQ_OUT_OF_MEMORY false

/-- The loop of `pidopen`, from sequence number `seq`. -/
def pidopenFrom : Nat → Nat → QQ Nat
  | 0, _ => die env.mode QQ_PID_FILE false
  | tries + 1, seq => do
      if ← call env.mode (.openExcl (.pid seq)) then pure seq else pidopenFrom tries (seq + 1)

/-- `pidopen`: the sequence number of the file that was opened. -/
def pidopen : QQ Nat := do
  orDie env.mode QQ_OUT_OF_MEMORY false
  pidopenFrom env 9 1

/-- Create `mess/id`. -/
def makeMess : QQ Unit := do
  let seq ← pidopen env
  orDie env.mode QQ_MESS_FILE false
  orDie env.mode QQ_OUT_OF_MEMORY false
  orDie env.mode QQ_OUT_OF_MEMORY false
  orDie env.mode QQ_OUT_OF_MEMORY false
  let linked ← call env.mode (.link (.pid seq) .mess)
  when (linked = false) (do
    let _ ← call env.mode (.unlink (.pid seq))
    die env.mode QQ_LINK_MESS_PID false)
  let unlinked ← call env.mode (.unlink (.pid seq))
  when (unlinked = false) (do
    let _ ← call env.mode (.unlink .mess)
    die env.mode QQ_REMOVE_PID_ERR false)
  update fun w => { w with flagmademess := true }

/-! ## The body -/

/-- `substdio_copy`. -/
def copyBody : List Bytes → QQ Unit
  | [] => orDie env.mode QQ_READ_ERR true
  | chunk :: chunks => do
      orDie env.mode QQ_READ_ERR true
      putMess env chunk
      copyBody chunks

/-- The line loop; it returns what ENVHEADERS selects. -/
def copyLines : List Line → Bytes → QQ Bytes
  | [], envheaders => do
      orDie env.mode QQ_READ_ERR true
      pure envheaders
  | l :: ls, envheaders => do
      orDie env.mode QQ_READ_ERR true
      when l.inEnvelope (orDie env.mode QQ_OUT_OF_MEMORY true)
      when (l.exclude = false) (putMess env l.bytes)
      when (env.logfd && l.loghead) (orDie env.mode QQ_WRITE_ERR true)
      copyLines ls (if l.inEnvelope then envheaders ++ l.bytes else envheaders)

/-- The X-Originating-IP line. -/
def putOrigin : QQ Unit :=
  match env.origin with
  | some origin => do
      orDie env.mode QQ_OUT_OF_MEMORY false
      putMess env origin
  | none => pure ()

/-- The body, in either way. -/
def putBody : QQ Bytes :=
  match env.body with
  | .copy chunks => do
      copyBody env chunks
      pure []
  | .lines ls => copyLines env ls []

/-- Write `mess/id`. -/
def writeMess : QQ Bytes := do
  putMess env env.received
  putOrigin env
  let envheaders ← putBody env
  orDie env.mode QQ_WRITE_ERR true
  when env.logfd (orDie env.mode QQ_WRITE_ERR true)
  pure envheaders

/-- VIRUSFORWARD. -/
def forwardVirus (virusforward : Option Bytes) (v : Vars) : QQ Vars :=
  match virusforward with
  | some x => do
      orDie env.mode QQ_OUT_OF_MEMORY true
      pure { v with quarantine := x }
  | none => pure v

/-- `qhpsiprog` behind the exit of the scanner. -/
def qhpsiResult (v : Vars) : Qhpsi → QQ Vars
  | .virus rejectvirus virusforward => do
      orDie env.mode QQ_OUT_OF_MEMORY true
      let v ← forwardVirus env virusforward { v with qqehextra := asc "X-QHPSI: Virus found\n" }
      if rejectvirus = 0 then pure v
      else if rejectvirus = 2 then pure { v with flagblackhole := true }
      else die env.mode QQ_VIRUS_IN_MSG true
  | .clean => do
      orDie env.mode QQ_OUT_OF_MEMORY true
      pure { v with qqehextra := asc "X-QHPSI: clean\n" }
  | .crashed => die env.mode QQ_CRASHED true
  | _ => die env.mode QQ_QHPSI_TEMP_ERR true

/-- `qhpsiprog`, in the parent; a message of the wrong size is skipped. -/
def qhpsiprog (q : Qhpsi) (v : Vars) : QQ Vars := do
  orDie env.mode QQ_MESS_FILE true
  match q with
  | .skipped => pure v
  | q => do
      orDie env.mode QQ_FORK_ERR true
      orDie env.mode QQ_WAITPID_SURPRISE true
      qhpsiResult env v q

/-- QHPSI, if it is set. -/
def scan (v : Vars) : QQ Vars :=
  match env.qhpsi with
  | some q => qhpsiprog env q v
  | none => pure v

/-- The quarantine takes precedence over throwing the message away. -/
def Vars.decide (v : Vars) : Vars :=
  let quarantined := !v.quarantine.isEmpty
  { v with flagquarantine := quarantined, flagblackhole := v.flagblackhole && !quarantined }

/-- The virus scanner and the quarantine. -/
def inspect (envheaders : Bytes) : QQ Vars :=
  if env.fastqueue then pure { envheaders := envheaders }
  else do
    let v ← scan env { envheaders := envheaders, quarantine := env.quarantine }
    pure v.decide

/-! ## The envelope -/

/-- Create `intd/id` and write what comes before the sender. -/
def makeIntd : QQ Unit := do
  let opened ← call env.mode (.openExcl .intd)
  when (opened = false) (die env.mode QQ_INTD_FILE true)
  update fun w => { w with flagmadeintd := true }
  putIntd env (asc "u" ++ env.nm.fmtUlong env.uid ++ [0] ++ asc "p" ++
    env.nm.fmtUlong env.mypid ++ [0])

/-- The sender behind its `F`, `len` bytes of which were read: the rest of the envelope, and
the text read for the archive. -/
def getSender : Nat → Bytes → Bytes → QQ (Bytes × Bytes)
  | _, _, [] => die env.mode QQ_READ_ERR true
  | len, line, ch :: rest => do
      orDie env.mode QQ_READ_ERR true
      putIntd env [ch]
      if ch = 0 then pure (rest, line ++ [ch])
      else if len + 1 < ADDR then getSender (len + 1) (line ++ [ch]) rest
      else die env.mode QQ_ENVELOPE_TOO_LONG true

/-- A byte of a recipient goes to `intd/id`, or to the header of a quarantined message. -/
def putRecipient (v : Vars) (ch : Byte) : QQ Unit :=
  if v.flagquarantine then when (ch ≠ 0) (orDie env.mode QQ_OUT_OF_MEMORY true)
  else putIntd env [ch]

/-- The header of a quarantined message lists the recipients. -/
def Vars.list (v : Vars) (b : Bytes) : Vars :=
  if v.flagquarantine then { v with qqehextra := v.qqehextra ++ b } else v

/-- The recipients: `none` before a record, `some len` in an address of which `len` bytes were
read. It returns the variables and the text for the archive. -/
def getRecipients : Option Nat → Vars → Bytes → Bytes → QQ (Vars × Bytes)
  | _, _, _, [] => die env.mode QQ_READ_ERR true
  | none, v, line, ch :: rest => do
      orDie env.mode QQ_READ_ERR true
      if ch = 0 then pure (v, line)
      else if ¬ env.fastqueue ∧ ch = 81 then pure (v, line)
      else if ch ≠ 84 then die env.mode QQ_ENVELOPE_FMT_ERR true
      else do
        putRecipient env v ch
        getRecipients (some 0) (v.list (asc ",")) (line ++ [ch]) rest
  | some len, v, line, ch :: rest => do
      orDie env.mode QQ_READ_ERR true
      putRecipient env v ch
      if ch = 0 then getRecipients none v (line ++ [ch]) rest
      else if len + 1 < ADDR then getRecipients (some (len + 1)) (v.list [ch]) (line ++ [ch]) rest
      else die env.mode QQ_ENVELOPE_TOO_LONG true

/-- The envelope of a message that is thrown away is read to its first NUL. -/
def drain : Bytes → QQ Unit
  | [] => die env.mode QQ_READ_ERR true
  | ch :: rest => do
      orDie env.mode QQ_READ_ERR true
      if ch = 0 then pure () else drain rest

/-- Recipients of the extra queue. -/
def putExtraqueue : List Bytes → QQ Unit
  | [] => pure ()
  | r :: rs => do
      putIntd env (asc "T" ++ r ++ [0])
      putExtraqueue rs

/-- The quarantine as the recipient. -/
def putQuarantine (v : Vars) : QQ Vars :=
  if v.flagquarantine then do
    putIntd env (asc "T" ++ v.quarantine ++ [0])
    orDie env.mode QQ_OUT_OF_MEMORY true
    pure (v.list (asc "X-Quarantine-ID: " ++ v.quarantine))
  else pure v

/-- A message that is thrown away. -/
def blackhole (input : Bytes) : QQ Unit := do
  drain env input
  cleanup env.mode
  exit 0

/-- The recipients the archive adds. -/
def putArchive (line : Bytes) : QQ Unit :=
  match env.archive with
  | some rules => do
      orDie env.mode QQ_OUT_OF_MEMORY true
      putIntd env (rules line)
  | none => pure ()

/-- QQEH. -/
def Env.extraHeaders : Bytes :=
  if env.fastqueue ∨ env.qqeh = [] then []
  else if env.qqeh.getLast? = some 10 then env.qqeh
  else env.qqeh ++ asc "\n"

/-- The `e` and `h` records behind the recipients. -/
def putHeaders (v : Vars) : QQ Unit := do
  let extra := v.qqehextra ++ env.extraHeaders
  when (extra ≠ []) (putIntd env (asc "e" ++ extra ++ [0]))
  when (v.envheaders ≠ []) (putIntd env (asc "h" ++ v.envheaders ++ [0]))

/-- The envelope behind its first byte. -/
def writeEnvelope (v : Vars) (input : Bytes) : QQ Unit := do
  let sender ← getSender env 0 [70] input
  putExtraqueue env env.extraqueue
  let v ← putQuarantine env v
  when v.flagblackhole (blackhole env sender.1)
  let recipients ← getRecipients env none v sender.2 sender.1
  putArchive env recipients.2
  when recipients.1.flagquarantine (orDie env.mode QQ_OUT_OF_MEMORY true)
  putHeaders env (recipients.1.list (asc "\n"))
  orDie env.mode QQ_WRITE_ERR true

/-- Read the envelope, and write `intd/id`. -/
def writeIntd (v : Vars) : QQ Unit := do
  orDie env.mode QQ_READ_ERR true
  match env.envelope with
  | [] => die env.mode QQ_READ_ERR true
  | ch :: input =>
      if ch ≠ 70 then die env.mode QQ_ENVELOPE_FMT_ERR true
      else do
        putIntd env [ch]
        writeEnvelope env v input

/-! ## The commit -/

/-- The two files are synced, if the environment says so. -/
def syncFiles : QQ Unit := do
  orDie env.mode QQ_FSYNC_ERR true
  orDie env.mode QQ_FSYNC_ERR true

/-- Everything `main` does before it links `intd/id` to `todo/id`. -/
def prepare : QQ Unit := do
  setup env
  makeMess env
  let envheaders ← writeMess env
  let v ← inspect env envheaders
  makeIntd env
  writeIntd env v
  when env.use_fsync (syncFiles env)

/-- Wake todo-proc, and leave. No failure of `triggerpull` or `mq_todo` matters, but a signal
can come before `_exit`. -/
def leave : QQ Unit := do
  let _ ← attempt env.mode
  exit 0

/-- Link `todo/id`. -/
def commit : QQ Unit := do
  let linked ← call env.mode (.link .intd .todo)
  when (linked = false) (die env.mode QQ_LINK_TODO_INTD true)
  leave env

/-- `main`. -/
def main : QQ Unit := do
  prepare env
  commit env

end IndimailMta.Queue
