import IndimailMta.Base
import IndimailMta.Lib.Exits
import IndimailMta.Lib.OutStream

/-!
# Delivery to a maildir

`maildir_deliver` writes a file in `tmp/` and links it to `new/`. What the system answers to a call is
not determined by the program: `answers` lists the answers to come, and every property is for every
list. `open`, `link` and `unlink` are the replacements that sync the directory of the name.
-/

namespace IndimailMta.Maildir

open IndimailMta Exits Output

/-! ## The system -/

inductive Answer where
  | ok
  | fails (errno : Nat)
  /-- SIGALRM comes first. -/
  | alarm
  deriving DecidableEq, Repr

/-- What a file holds, and whether that was synced. -/
structure File where
  content : Bytes
  synced : Bool
  deriving DecidableEq, Repr

/-- A system call on names that is done. -/
inductive Call where
  | openExcl (path : Bytes)
  | link (old new : Bytes)
  | unlink (path : Bytes)
  /-- `unlink` was called and not done. -/
  | noUnlink (path : Bytes)
  deriving DecidableEq, Repr

/-- How a process leaves `maildir_deliver`. -/
inductive Left where
  | returns (code : Nat)
  | dies (code : Nat)
  | crashes
  deriving DecidableEq, Repr

variable (S : OutStream Byte)

/-- The files by their names, the buffered output, the path of the file in `tmp/`, the one that is
open, and the calls that were done (newest first). -/
structure World where
  answers : List Answer
  errno : Nat
  files : Bytes → Option File
  out : S.State
  fntmptph : Option Bytes
  fd : Option Bytes
  trace : List Call

/-- The process when `maildir_deliver` is called. -/
def World.start (answers : List Answer) (files : Bytes → Option File) (out : S.State) : World S :=
  ⟨answers, 0, files, out, none, none, []⟩

/-- The arguments, the message in the parts it is read in, and what the process finds out about
itself. `hostname` is what the variable has from a call before. -/
structure Env where
  nm : Numerals
  fmtXlong : Nat → Bytes
  error_temp : Nat → Bool
  error_exist : Nat
  error_dquot : Nat
  eio : Nat
  rpline : Bytes
  dtline : Bytes
  qqeh : Option Bytes
  body : List Bytes
  hostname : Bytes
  host : Bytes
  pid : Nat
  now : Nat → Nat × Nat
  ino : Nat
  dev : Nat
  use_fsync : Bool
  use_fdatasync : Bool
  use_syncdir : Bool

abbrev Deliver (α : Type) : Type := Prog (World S) Left α

variable {S} (env : Env)

/-- The next answer. -/
def World.next (w : World S) : Answer × World S :=
  match w.answers with
  | [] => (.ok, w)
  | a :: rest => (a, { w with answers := rest })

/-- `SYS_UNLINK`, and a signal that comes then. -/
def World.unlinked (w : World S) (path : Bytes) : Bool × World S :=
  match w.next with
  | (.ok, v) =>
      if (w.files path).isSome then
        (true, { v with
          files := fun p => if p = path then none else w.files p, trace := .unlink path :: w.trace })
      else (false, { v with trace := .noUnlink path :: w.trace })
  | (_, v) => (false, { v with trace := .noUnlink path :: w.trace })

/-- `sigalrm`. -/
def sigalrm (w : World S) : Left × World S :=
  match w.fntmptph with
  | none => (.dies 3, w)
  | some path => (.dies 3, (w.unlinked path).2)

/-- A call that changes no file: whether it works. -/
def attempt : Deliver S Bool := fun w =>
  match w.next with
  | (.ok, v) => (.ok true, v)
  | (.fails e, v) => (.ok false, { v with errno := e })
  | (.alarm, v) => (.error (sigalrm v).1, (sigalrm v).2)

/-- `fdirsyncfn`. -/
def fdirsyncfn : Deliver S Bool := do
  if ← attempt then
    if ← attempt then
      let _ ← attempt
      pure true
    else
      let w ← read
      let _ ← attempt
      pure (w.errno ≠ env.eio)
  else pure false

/-- `open_excl`, through the replaced `open`. -/
def open_excl (path : Bytes) : Deliver S Bool := do
  if ← attempt then
    let w ← read
    if (w.files path).isSome then
      update fun w => { w with errno := env.error_exist }
      pure false
    else
      update fun w => { w with
        files := fun p => if p = path then some ⟨[], false⟩ else w.files p
        trace := .openExcl path :: w.trace }
      if env.use_syncdir then
        if ← fdirsyncfn env then pure true
        else
          let _ ← attempt
          pure false
      else pure true
  else pure false

/-- The replaced `link`. -/
def link (old new : Bytes) : Deliver S Bool := do
  if ← attempt then
    let w ← read
    match w.files old, w.files new with
    | some f, none => do
        update fun w => { w with
          files := fun p => if p = new then some f else w.files p
          trace := .link old new :: w.trace }
        if env.use_syncdir then fdirsyncfn env else pure true
    | _, _ => do
        update fun w => { w with errno := env.error_exist }
        pure false
  else pure false

/-- The replaced `unlink`; what it returns is not looked at. -/
def tryunlinktmp (path : Bytes) : Deliver S Unit := do
  let unlinked ← fun w =>
    match w.next with
    | (.alarm, v) => (.error (sigalrm v).1, (sigalrm v).2)
    | _ => (.ok (w.unlinked path).1, (w.unlinked path).2)
  if unlinked && env.use_syncdir then
    let _ ← fdirsyncfn env
    pure ()
  else pure ()

/-! ## The names -/

/-- The loop over the host name. -/
def escapeHost (host_a : Bytes) : Bytes :=
  host_a.flatMap fun b => if b = 47 then asc "057" else if b = 58 then asc "072" else [b]

def Env.fullHost : Bytes := env.hostname ++ escapeHost (cstr env.host)

def Env.tmpName (tmval : Nat × Nat) : Bytes :=
  asc "tmp/" ++ env.nm.fmtUlong tmval.1 ++ asc ".M" ++ env.nm.fmtUlong tmval.2 ++ asc "P" ++
    env.nm.fmtUlong env.pid ++ asc "." ++ env.fullHost

def Env.newName (tmval : Nat × Nat) (size : Nat) : Bytes :=
  asc "new/" ++ env.nm.fmtUlong tmval.1 ++ asc ".I" ++ env.fmtXlong env.ino ++ asc "V" ++
    env.fmtXlong env.dev ++ asc "M" ++ env.nm.fmtUlong tmval.2 ++ asc "P" ++
    env.nm.fmtUlong env.pid ++ asc "." ++ env.fullHost ++ asc ",S=" ++ env.nm.fmtUlong size

/-! ## The delivery -/

/-- Memory is got, or the process dies. -/
def orDie : Deliver S Unit := do
  if ← attempt then pure () else exit (.dies 111)

/-- The loop that opens a file in `tmp/`: the time in its name. -/
def openTmp : Nat → Nat → Deliver S (Nat × Nat)
  | 0, _ => exit (.returns 1)
  | tries + 1, loop => do
      let tmval := env.now loop
      orDie
      update fun w => { w with fntmptph := some (env.tmpName tmval) }
      if ← open_excl env (env.tmpName tmval) then
        update fun w => { w with fd := some (env.tmpName tmval) }
        pure tmval
      else
        let w ← read
        if w.errno = env.error_exist then openTmp tries (loop + 1)
        else if w.errno = env.error_dquot then exit (.returns 5)
        else exit (.returns 1)

/-- The label `fail`. -/
def fail {α : Type} (path : Bytes) : Deliver S α := do
  let w ← read
  tryunlinktmp env path
  exit (.returns (if w.errno = env.error_dquot then 5 else 1))

/-- A call without which the delivery fails. -/
def orFail (path : Bytes) : Deliver S Unit := do
  if ← attempt then pure () else fail env path

/-- An operation of the buffered output; what it sends is in the file. -/
def output (path : Bytes) (f : S.State → Bool × S.State) : Deliver S Bool := do
  let _ ← attempt
  let w ← read
  let r := f w.out
  update fun w => { w with
    out := r.2
    files := fun p => if p = path then some ⟨S.sent r.2, false⟩ else w.files p }
  pure r.1

def putOrFail (path b : Bytes) : Deliver S Unit := do
  if ← output path (fun s => S.put s b) then pure () else fail env path

/-- `substdio_copy`; a read that fails is 4. -/
def copy (path : Bytes) : List Bytes → Deliver S Unit
  | [] => do
      if ← attempt then pure ()
      else
        tryunlinktmp env path
        exit (.returns 4)
  | part :: parts => do
      if ← attempt then
        putOrFail env path part
        copy path parts
      else
        tryunlinktmp env path
        exit (.returns 4)

/-- The extra headers, if there are any. -/
def putQqeh (path : Bytes) : Deliver S Unit :=
  match env.qqeh with
  | some qqeh => putOrFail env path (cstr qqeh)
  | none => pure ()

/-- What is written, up to the flush. -/
def writeFile (path : Bytes) : Deliver S Unit := do
  update fun w => { w with out := S.fdbuf w.out }
  when (env.rpline ≠ []) (putOrFail env path env.rpline)
  when (env.dtline ≠ []) (putOrFail env path env.dtline)
  putQqeh env path
  copy env path env.body
  if ← output path S.flush then pure () else fail env path

/-- `fsync`, if it is asked for. -/
def syncFile (path : Bytes) : Deliver S Unit :=
  when (env.use_fsync || env.use_fdatasync) (do
    orFail env path
    update fun w => { w with
      files := fun p =>
        if p = path then (w.files p).map fun f => { f with synced := true } else w.files p })

/-- `alloc`, the result of which is not looked at. -/
def orCrash : Deliver S Unit := do
  if ← attempt then pure () else exit .crashes

/-- `st_size`. -/
def World.size (w : World S) (path : Bytes) : Nat :=
  match w.files path with
  | some f => f.content.length
  | none => 0

def maildir_deliver : Deliver S Unit := do
  if ← attempt then
    orDie
    let tmval ← openTmp env 3 0
    let path := env.tmpName tmval
    writeFile env path
    syncFile env path
    orFail env path
    orFail env path
    let w ← read
    orDie
    orCrash
    orDie
    if ← link env path (env.newName tmval (w.size path)) then
      tryunlinktmp env path
      exit (.returns 0)
    else fail env path
  else
    let w ← read
    exit (.returns (if env.error_temp w.errno then 1 else 2))

end IndimailMta.Maildir
