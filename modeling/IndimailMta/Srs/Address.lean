import Mathlib.Data.List.DropRight
import IndimailMta.Srs.Sha1

/-!
# Rewritten senders

`srs2.c` rewrites the sender of a mail that is forwarded, so that a bounce comes back to the forwarder,
and rewrites it back when one does. A result is `none` where the source leaves what C defines: where it
reads behind the end of a buffer, or a sum is too large for its type.
-/

namespace IndimailMta.Srs

open IndimailMta

inductive Code
  | notSrsAddress | notRewritten
  | noSecrets | separatorInvalid
  | noSenderAtSign | bufTooSmall
  | noSrs0Host | noSrs0User | noSrs0Hash | noSrs0Stamp | noSrs1Host | noSrs1User | noSrs1Hash
  | badTimestampChar | hashTooShort
  | timestampOutOfDate | hashInvalid
  deriving DecidableEq, Repr

/-- What a function returns, and what it leaves in its buffer. -/
abbrev Res (α : Type) := ExceptT Code Option α

def done {α : Type} (a : α) : Res α := (some (.ok a) : Option (Except Code α))

def fail {α : Type} (code : Code) : Res α := (some (.error code) : Option (Except Code α))

def undefined {α : Type} : Res α := (none : Option (Except Code α))

def separators : Bytes := asc "=-+"

/-- `srs_t`. -/
structure SrsT where
  secrets : List Bytes
  separator : Byte
  maxage : Int
  hashlength : Nat
  hashmin : Nat
  alwaysrewrite : Bool
  noforward : Bool
  noreverse : Bool
  separator_mem : separator ∈ separators
  maxage_lt : maxage < 2147483648

/-- `srs_init`. -/
def srsInit : SrsT :=
  { secrets := []
    separator := 61
    maxage := 21
    hashlength := 4
    hashmin := 4
    alwaysrewrite := false
    noforward := false
    noreverse := false
    separator_mem := by decide
    maxage_lt := by decide }

/-! ## Texts -/

def lower (ch : Byte) : Byte := if 65 ≤ ch ∧ ch ≤ 90 then ch + 32 else ch

def upper (ch : Byte) : Byte := if 97 ≤ ch ∧ ch ≤ 122 then ch - 32 else ch

/-- `strncasecmp (s, tag, strlen (tag)) == 0`. -/
def hasTag (tag s : Bytes) : Bool := (s.take tag.length).map lower = tag.map lower

/-- `strncasecmp (a, b, n) == 0`; a NUL is behind each of the texts. -/
def strncaseeq : Nat → Bytes → Bytes → Bool
  | 0, _, _ => true
  | n + 1, a, b =>
      if lower (a.headD 0) ≠ lower (b.headD 0) then false
      else if a.headD 0 = 0 then true
      else strncaseeq n a.tail b.tail

/-- `strchr (s, ch)`: what is in front of it, and what is behind it. -/
def cutAt (ch : Byte) (s : Bytes) : Option (Bytes × Bytes) :=
  if ch ∈ s then some (s.takeWhile (· ≠ ch), (s.dropWhile (· ≠ ch)).tail) else none

/-- `strchr (srs_separators, s[4]) != NULL`, which is so for the NUL behind a text too. -/
def separated (s : Bytes) : Bool := s.getD 4 0 ∈ 0 :: separators

/-! ## Times -/

def baseChars : Bytes := asc "ABCDEFGHIJKLMNOPQRSTUVWXYZ234567"

def srsTimestampCreate (now : Nat) : Bytes :=
  let now := now / 86400
  [baseChars.getD (now / 32 % 32) 0, baseChars.getD (now % 32) 0]

/-- A sum that is not too large for a `time_t`. -/
def time (t : Nat) : Res Nat := if t < 9223372036854775808 then done t else undefined

/-- The loop over the characters of a stamp. -/
def stampLoop (then' : Nat) : Bytes → Res Nat
  | [] => done then'
  | ch :: sp =>
      match baseChars.findIdx? (· = upper ch) with
      | none => fail .badTimestampChar
      | some off => do
          let then' ← time (then' * 32 + off)
          stampLoop then' sp

/-- The loop that brings the time up to that of the stamp. -/
def catchUp (then' : Nat) : Nat → Nat → Res Nat
  | 0, now => done now
  | turns + 1, now =>
      if now < then' then do
        let now ← time (now + 1024)
        catchUp then' turns now
      else done now

def srsTimestampCheck (c : SrsT) (now : Nat) (stamp : Bytes) : Res Unit := do
  let then' ← stampLoop 0 stamp
  let now ← catchUp then' then' (now / 86400 % 1024)
  if (9223372036854775808 : Int) ≤ then' + c.maxage then undefined
  else if (now : Int) ≤ then' + c.maxage then done ()
  else fail .timestampOutOfDate

/-! ## Hashes -/

def hashChars : Bytes := asc "ABCDEFGHIJKLMNOPQRSTUVWXYZabcdefghijklmnopqrstuvwxyz0123456789+/"

/-- The loop over the characters of a hash: `i` is that of the next one. -/
def encodeLoop : Nat → Nat → Bytes → Bytes
  | 0, _, _ => []
  | n + 1, i, hp =>
      let b := (hp.getD 0 0).toNat
      let b' := (hp.getD 1 0).toNat
      match i % 4 with
      | 0 => hashChars.getD (b / 4) 0 :: encodeLoop n (i + 1) hp
      | 1 => hashChars.getD (b % 4 * 16 + b' / 16) 0 :: encodeLoop n (i + 1) hp.tail
      | 2 => hashChars.getD (b % 16 * 4 + b' / 64) 0 :: encodeLoop n (i + 1) hp.tail
      | _ => hashChars.getD (b % 64) 0 :: encodeLoop n (i + 1) hp.tail

/-- `srs_hash_create_v`. The digest and the NUL behind it are enough for 28 characters. What the buffer of
the hash held makes no difference. -/
def srsHashCreateV (c : SrsT) (secret : Bytes) (args : List Bytes) : Res Bytes :=
  match srsHmac (zeros 64) secret (args.map (·.map lower)) with
  | none => undefined
  | some digest => if c.hashlength ≤ 28 then done (encodeLoop c.hashlength 0 (digest ++ [0])) else undefined

def srsHashCreate (c : SrsT) (args : List Bytes) : Res Bytes :=
  match c.secrets with
  | [] => fail .noSecrets
  | secret :: _ => srsHashCreateV c secret args

/-- The loop over the secrets. -/
def checkLoop (c : SrsT) (hash : Bytes) (len : Nat) (args : List Bytes) : List Bytes → Res Unit
  | [] => fail .hashInvalid
  | secret :: secrets => do
      let srshash ← srsHashCreateV c secret args
      if strncaseeq len hash srshash then done () else checkLoop c hash len args secrets

def srsHashCheck (c : SrsT) (hash : Bytes) (args : List Bytes) : Res Unit :=
  if hash.length < c.hashmin then fail .hashTooShort
  else if hash.length < c.hashlength then
    checkLoop c (hash ++ zeros (c.hashlength - hash.length)) c.hashlength args c.secrets
  else checkLoop c hash hash.length args c.secrets

/-! ## Rewriting -/

/-- `senduser + 5`; behind the user and its NUL is the host. -/
def behindTag (senduser sendhost : Bytes) : Bytes :=
  if senduser.length = 4 then sendhost else senduser.drop 5

def srsCompileShortcut (c : SrsT) (now buflen : Nat) (sendhost senduser aliashost : Bytes) : Res Bytes := do
  let (sendhost, senduser) ←
    if hasTag (asc "SRS0") senduser && separated senduser then
      let sendhost := behindTag senduser sendhost
      if sendhost = [] then fail .noSrs0Host
      else if 61 ∈ sendhost then done (sendhost, sendhost.dropWhile (· ≠ 61))
      else fail .noSrs0User
    else done (sendhost, senduser)
  let len := 4 + 1 + c.hashlength + 1 + 2 + 1 + sendhost.length + 1 + senduser.length + 1 +
    aliashost.length
  if buflen ≤ len then fail .bufTooSmall
  else
    let srsstamp := srsTimestampCreate now
    let srshash ← srsHashCreate c [srsstamp, sendhost, senduser]
    done (asc "SRS0" ++ c.separator :: srshash ++ 61 :: srsstamp ++ 61 :: sendhost ++ 61 :: senduser ++
      64 :: aliashost)

/-- The end of `srs_compile_guarded` for an address that is rewritten already. -/
def compileGuarded (c : SrsT) (buflen : Nat) (srshost srsuser aliashost : Bytes) : Res Bytes := do
  let srshash ← srsHashCreate c [srshost, srsuser]
  let len := 4 + 1 + c.hashlength + 1 + srshost.length + 1 + srsuser.length + 1 + aliashost.length
  if buflen ≤ len then fail .bufTooSmall
  else done (asc "SRS1" ++ c.separator :: srshash ++ 61 :: srshost ++ 61 :: srsuser ++ 64 :: aliashost)

def srsCompileGuarded (c : SrsT) (now buflen : Nat) (sendhost senduser aliashost : Bytes) : Res Bytes :=
  if hasTag (asc "SRS1") senduser && separated senduser then
    let srshash := behindTag senduser sendhost
    if srshash = [] then fail .noSrs1Hash
    else
      match cutAt 61 srshash with
      | none => fail .noSrs1Host
      | some (_, srshost) =>
          match cutAt 61 srshost with
          | none => fail .noSrs1User
          | some (srshost, srsuser) => compileGuarded c buflen srshost srsuser aliashost
  else if hasTag (asc "SRS0") senduser && separated senduser then
    compileGuarded c buflen sendhost (senduser.drop 4) aliashost
  else srsCompileShortcut c now buflen sendhost senduser aliashost

/-- What is behind the last `@`. -/
def aliasHost (alias' : Bytes) : Bytes := alias'.rtakeWhile (· ≠ 64)

def srsForward (c : SrsT) (now buflen : Nat) (sender alias' : Bytes) : Res Bytes :=
  if c.noforward then fail .notRewritten
  else
    match cutAt 64 sender with
    | none => fail .noSenderAtSign
    | some (senduser, sendhost) =>
        if !c.alwaysrewrite && sendhost.map lower = (aliasHost alias').map lower then
          if buflen ≤ sender.length then fail .bufTooSmall else done sender
        else srsCompileGuarded c now buflen sendhost senduser (aliasHost alias')

def srsForwardAlloc (c : SrsT) (now : Nat) (sender alias' : Bytes) : Res Bytes :=
  if c.noforward then fail .notRewritten
  else srsForward c now (sender.length + alias'.length + c.hashlength + 2 + 64) sender alias'

/-! ## Rewriting back -/

/-- `senduser + 5`, in a buffer that ends with the user. -/
def pastTag (senduser : Bytes) : Res Bytes :=
  if senduser.length = 4 then undefined else done (senduser.drop 5)

/-- The part in front of the separator, and what is behind it. -/
def part (code : Code) (s : Bytes) : Res (Bytes × Bytes) :=
  match cutAt 61 s with
  | none => fail code
  | some p => done p

def srsParseShortcut (c : SrsT) (now : Nat) (senduser : Bytes) : Res Bytes :=
  if hasTag (asc "SRS0") senduser then do
    let srshash ← pastTag senduser
    if srshash = [] then fail .noSrs0Hash
    else
      let (srshash, srsstamp) ← part .noSrs0Stamp srshash
      let (srsstamp, srshost) ← part .noSrs0Host srsstamp
      let (srshost, srsuser) ← part .noSrs0User srshost
      srsTimestampCheck c now srsstamp
      srsHashCheck c srshash [srsstamp, srshost, srsuser]
      done (srsuser ++ 64 :: srshost)
  else fail .notSrsAddress

def srsParseGuarded (c : SrsT) (now : Nat) (senduser : Bytes) : Res Bytes :=
  if hasTag (asc "SRS1") senduser then do
    let srshash ← pastTag senduser
    if srshash = [] then fail .noSrs1Hash
    else
      let (srshash, srshost) ← part .noSrs1Host srshash
      let (srshost, srsuser) ← part .noSrs1User srshost
      srsHashCheck c srshash [srshost, srsuser]
      done (asc "SRS0" ++ srsuser ++ 64 :: srshost)
  else srsParseShortcut c now senduser

/-- `SRS_IS_SRS_ADDRESS`. Of "SRS" it reads the byte behind the NUL. -/
def isSrsAddress (x : Bytes) : Res Bool :=
  if hasTag (asc "SRS") x then
    if x.getD 3 0 ∈ 0 :: asc "01" then
      if x.length = 3 then undefined else done (separated x)
    else done false
  else done false

def srsReverse (c : SrsT) (now buflen : Nat) (sender : Bytes) : Res Bytes := do
  let srs ← isSrsAddress sender
  if !srs then fail .notSrsAddress
  else if c.noreverse then fail .notRewritten
  else if buflen ≤ sender.length then fail .bufTooSmall
  else srsParseGuarded c now (sender.takeWhile (· ≠ 64))

def srsReverseAlloc (c : SrsT) (now : Nat) (sender : Bytes) : Res Bytes := do
  let srs ← isSrsAddress sender
  if !srs then fail .notSrsAddress
  else if c.noreverse then fail .notRewritten
  else srsReverse c now (sender.length + 1) sender

end IndimailMta.Srs
