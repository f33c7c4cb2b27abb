import IndimailMta.Send.Deliver

/-!
# Passes

A pass goes once through the channel file of a message and starts a delivery for
every record still marked `T`. `pass_dochan` opens a pass for the first element
of `pqchan[c]` when it is due, and otherwise looks at one more record of the pass
that is open. A message with no channel file left is finished by `messdone`.
-/

namespace IndimailMta.Send

open IndimailMta Prioq
open Function (update update_of_ne)

/-! ## Retry times -/

/-- The loop of `squareroot`, for the bits `j - 1` to 0 of the root. -/
def squarerootLoop (x : Int) : Nat → Int → Int → Int
  | 0, y, _ => y
  | j + 1, y, yy =>
      let y21 := y * 2 ^ (j + 1) + 2 ^ (j + j)
      if y21 ≤ x - yy then squarerootLoop x j (y + 2 ^ j) (yy + y21)
      else squarerootLoop x j y yy

/-- `squareroot`. -/
def squareroot (x : Int) : Int := squarerootLoop x 16 0 0

/-- `chanskip`. -/
def chanskip : Channel → Int
  | .loc => 10
  | .rem => 20

/-- `nextretry`. -/
def nextretry (recent birth : Int) (c : Channel) : Int :=
  let n := (if birth > recent then 0 else squareroot (recent - birth)) + chanskip c
  birth + n * n

example : nextretry 400 0 .loc = 900 := by decide

/-! ## Reading -/

/-- The complete NUL-terminated records of a text, without their NUL; `acc` is what has
been read of the next one. -/
def recordsFrom (acc : Bytes) : Bytes → List Bytes
  | [] => []
  | b :: bs => if b = 0 then acc :: recordsFrom [] bs else recordsFrom (acc ++ [b]) bs

/-- The sender, `qqeh` and `envh` in `info/id`; of several records of a kind the last one
counts. -/
structure Info where
  sender : Bytes := []
  qqeh : Bytes := []
  envh : Bytes := []
  deriving DecidableEq, Repr

/-- One record of `info/id`. -/
def infoRecord (info : Info) (line : Bytes) : Info :=
  match line with
  | 70 :: rest => { info with sender := rest }
  | 101 :: rest => { info with qqeh := rest }
  | 104 :: rest => { info with envh := rest }
  | _ => info

/-- `getinfo`, when `info/id` can be read (`ok`). -/
def getinfo (ok : Bool) (id : Nat) (s : State) : Option Info :=
  match s.fs.info id with
  | some bytes => if ok then some ((recordsFrom [] bytes).foldl infoRecord {}) else none
  | none => none

/-- A text up to its first NUL, and what is behind it. -/
def splitNul : Bytes → Option (Bytes × Bytes)
  | [] => none
  | b :: bs => if b = 0 then some ([], bs) else (splitNul bs).map fun r => (b :: r.1, r.2)

/-- The bytes `getln` looks at on the descriptor of a pass: those in the buffer, then those it
reads, `ahead` of them or, if there is no NUL among these, all. -/
def lineWindow (ahead : Nat) (file : Bytes) (p : Pass) : Bytes :=
  let rest := file.drop (p.mpos + p.buf.length)
  if 0 ∈ p.buf ++ rest.take ahead then p.buf ++ rest.take ahead else p.buf ++ rest

/-- `getln` on the descriptor of a pass: the line, whether it is terminated, and the bytes
read but not used. -/
def getln (ahead : Nat) (file : Bytes) (p : Pass) : Bytes × Bool × Bytes :=
  let window := lineWindow ahead file p
  match splitNul window with
  | none => (window, false, [])
  | some (line, more) => (line ++ [0], true, more)

theorem splitNul_eq_some : ∀ {w line more : Bytes}, splitNul w = some (line, more) →
    w = line ++ 0 :: more ∧ 0 ∉ line
  | [], _, _, h => by simp [splitNul] at h
  | b :: bs, line, more, h => by
      rw [splitNul] at h
      split at h
      · rename_i hb
        simp only [Option.some.injEq, Prod.mk.injEq] at h
        obtain ⟨rfl, rfl⟩ := h
        exact ⟨by rw [hb]; rfl, by simp⟩
      · rename_i hb
        obtain ⟨⟨l, m⟩, hr, he⟩ := Option.map_eq_some_iff.mp h
        simp only [Prod.mk.injEq] at he
        obtain ⟨rfl, rfl⟩ := he
        obtain ⟨rfl, hl⟩ := splitNul_eq_some hr
        refine ⟨rfl, fun hmem => ?_⟩
        rcases List.mem_cons.mp hmem with h0 | h0
        · exact hb h0.symm
        · exact hl h0

theorem splitNul_eq_none : ∀ {w : Bytes}, splitNul w = none → 0 ∉ w
  | [], _ => by simp
  | b :: bs, h => by
      rw [splitNul] at h
      split at h
      · simp at h
      · rename_i hb
        have ih := splitNul_eq_none (Option.map_eq_none_iff.mp h)
        intro hmem
        rcases List.mem_cons.mp hmem with h0 | h0
        · exact hb h0.symm
        · exact ih h0

/-! ## Passes -/

/-- What `delivery_rate` says about a recipient. -/
inductive Rate where
  | throttled (t : Int)
  | ok (ratelimited : Bool)
  | failed
  deriving DecidableEq, Repr

/-- What the system answers to `pass_dochan`. -/
structure PassAnswers where
  openOk : Bool := true
  infoOk : Bool := true
  birth : Int := 0
  readOk : Bool := true
  ahead : Nat := 128
  rate : Rate := .ok false
  close : CloseAnswers := {}

/-- The `trouble` exit of `pass_dochan`. -/
def passTrouble (c : Channel) (pe : Elt) (s : State) : State :=
  s.pqchanInsert c { pe with dt := s.recent + SLEEP_SYSFAIL }

/-- The job of a new pass. -/
def passJob (o : PassAnswers) (c : Channel) (pe : Elt) (j : Nat) (info : Info) (s : State) :
    State :=
  let s := jobOpen pe.id c j s
  let life := if info.sender = [] then s.bouncelifetime else s.lifetime
  let s := s.setJob j { s.jo j with
    retry := nextretry s.recent o.birth c, flagdying := decide (s.recent > o.birth + life),
    sender := info.sender, qqeh := info.qqeh, envh := info.envh }
  { s with pass := update s.pass c (some { id := pe.id, j := j }) }

/-- Take the first element off `pqchan[c]`. -/
def pqchanDel (c : Channel) (s : State) : State :=
  { s with pqchan := update s.pqchan c (Prioq.del .min (s.pqchan c)) }

/-- `pass_dochan` with no pass open: open one if a job is free and a message is due. -/
def passOpen (o : PassAnswers) (c : Channel) (s : State) : State :=
  match jobAvail s, Prioq.get (s.pqchan c) with
  | some j, some pe =>
      if s.recent < pe.dt then s
      else
        let s := pqchanDel c s
        if ¬ (o.openOk ∧ (s.fs.chan c pe.id).linked) then passTrouble c pe s
        else
          match getinfo o.infoOk pe.id s with
          | none => passTrouble c pe s
          | some info => passJob o c pe j info s
  | _, _ => s

/-- Close a pass and its hold on the job. -/
def passEnd (o : PassAnswers) (c : Channel) (j : Nat) (s : State) : State :=
  let s := jobClose o.close j s
  { s with pass := update s.pass c none }

/-- The rate limit sends the message back to the queue in the middle of a pass. -/
def passThrottled (o : PassAnswers) (c : Channel) (j : Nat) (t : Int) (s : State) : State :=
  let s := { s with
    time_needed := if t ≠ 0 ∧ (t < s.time_needed ∨ s.time_needed = 0) then t + SLEEP_FUZZ else 0 }
  let s := s.setJob j { s.jo j with retry := s.recent + t }
  let s := passEnd o c j s
  { s with delayed_jobs := delayedJobCount s }

/-- The pass goes on behind a record. -/
def passAdvance (c : Channel) (p : Pass) (line buf : Bytes) (s : State) : State :=
  { s with pass := update s.pass c (some { p with mpos := p.mpos + line.length, buf := buf }) }

/-- A record `T`: one more recipient to do, and a delivery for it. -/
def passDeliver (cfg : Config) (o : PassAnswers) (p : Pass) (recip : Bytes) (s : State) : State :=
  let s := if o.rate = .ok true then { s with delayed_jobs := delayedJobCount s } else s
  let s := s.setJob p.j { s.jo p.j with numtodo := (s.jo p.j).numtodo + 1 }
  delStart cfg p.j p.mpos recip s

/-- `pass_dochan` with a pass open: the next record. -/
def passNext (cfg : Config) (o : PassAnswers) (c : Channel) (p : Pass) (s : State) : State :=
  if ¬ delAvail c s then s
  else if ¬ o.readOk then passEnd o c p.j s
  else
    match getln o.ahead (s.fs.chan c p.id).bytes p with
    | (_, false, _) => passEnd o c p.j (s.setJob p.j { s.jo p.j with flaghiteof := true })
    | (line, true, buf) =>
        if line.head? = some 84 then
          match o.rate with
          | .throttled t => passThrottled o c p.j t s
          | _ => passAdvance c p line buf (passDeliver cfg o p (cstr (line.drop 1)) s)
        else if line.head? = some 68 then passAdvance c p line buf s
        else passEnd o c p.j s

/-- `pass_dochan`. -/
def passDochan (cfg : Config) (o : PassAnswers) (c : Channel) (s : State) : State :=
  if s.flagexitsend then s
  else
    let s := if (s.pass c).isNone then passOpen o c s else s
    match s.pass c with
    | none => s
    | some p => passNext cfg o c p s

/-! ## The end of a message -/

/-- What the system answers to `messdone`; `clean` is qmail-clean's answer, `none` if the
connection is lost. -/
structure DoneAnswers where
  chanErr : Channel → Bool := fun _ => false
  todoErr : Bool := false
  infoErr : Bool := false
  injectOk : Bool := true
  unlinkOk : Bool := true
  clean : Option Bool := some true
  now : Int := 0

/-- The `fail` exit of `messdone`. -/
def messdoneFail (o : DoneAnswers) (id : Nat) (s : State) : State :=
  s.pqdoneInsert { id := id, dt := o.now + SLEEP_SYSFAIL }

/-- The checks `messdone` starts with: it goes on only if no channel file and no `todo/id`
is left and `info/id` is there. -/
def messdoneStops (o : DoneAnswers) (id : Nat) (s : State) : Option State :=
  if o.chanErr .loc then some (messdoneFail o id s)
  else if (s.fs.chan .loc id).linked then some s
  else if o.chanErr .rem then some (messdoneFail o id s)
  else if (s.fs.chan .rem id).linked then some s
  else if o.todoErr then some (messdoneFail o id s)
  else if s.fs.todo id then some s
  else if o.infoErr then some (messdoneFail o id s)
  else if (s.fs.info id).isNone then some s
  else none

/-- `injectbounce` by its result: the bounce is sent and its file is gone. -/
def injectbounce (id : Nat) (s : State) : State :=
  { s with fs := { s.fs with bounce := update s.fs.bounce id [] } }.log (.injectbounce id)

/-- Remove `info/id`. -/
def unlinkInfo (id : Nat) (s : State) : State :=
  { s with fs := { s.fs with info := update s.fs.info id none } }.log (.unlinkInfo id)

/-- qmail-clean's answer to the request to remove `mess/id`. -/
def cleanMess (clean : Option Bool) (id : Nat) (s : State) : State :=
  match clean with
  | none => { s with flagexitsend := true, flagtodoalive := false }
  | some true =>
      { s with fs := { s.fs with mess := update s.fs.mess id false } }.log (.cleanMess id)
  | some false => s

/-- `messdone`. -/
def messdone (o : DoneAnswers) (id : Nat) (s : State) : State :=
  match messdoneStops o id s with
  | some t => t
  | none =>
      if ¬ o.injectOk then messdoneFail o id s
      else if ¬ o.unlinkOk then messdoneFail o id (injectbounce id s)
      else cleanMess o.clean id (unlinkInfo id (injectbounce id s))

/-- Where `messdone` stops, at most the message was queued once more. -/
theorem messdoneStops_eq {o : DoneAnswers} {id : Nat} {s t : State}
    (h : messdoneStops o id s = some t) : t = s ∨ t = messdoneFail o id s := by
  unfold messdoneStops at h
  repeat' split at h
  all_goals first
    | exact .inl (Option.some.inj h).symm
    | exact .inr (Option.some.inj h).symm
    | cases h

/-- `pass_do` on `pqfail`. -/
def pqfailDo (o : StatAnswers) (s : State) : State :=
  match Prioq.get s.pqfail with
  | some pe =>
      if pe.dt ≤ s.recent then pqadd o pe.id false { s with pqfail := Prioq.del .min s.pqfail }
      else s
  | none => s

/-- `pass_do` on `pqdone`. -/
def pqdoneDo (o : DoneAnswers) (s : State) : State :=
  match Prioq.get s.pqdone with
  | some pe =>
      if pe.dt ≤ s.recent then messdone o pe.id { s with pqdone := Prioq.del .min s.pqdone }
      else s
  | none => s

end IndimailMta.Send
