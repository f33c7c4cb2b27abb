import IndimailMta.Todo.Rewrite
import IndimailMta.Lib.Lines
import IndimailMta.Lib.Run

/-!
# Preprocessing of messages

`todo_do` of `todo-proc.c` reads the envelope of a message from `todo`, writes its `info`, `local`
and `remote` files, has the envelope removed by `qmail-clean`, and writes one log line for each
recipient. Any of its steps may fail; the message is tried again later.

Sender and recipients for the log are in `mailfrom` and `mailto`, which are emptied when the lines
are written and at no other place. The files are begun anew by each call. `Sound` says which calls
leave no recipient behind.
-/

namespace IndimailMta.Todo.Process

open IndimailMta Todo Lines

/-! ## One call -/

structure Conf where
  nm : Ulongs
  c : Controls
  queuedesc : Bytes

/-- The files of a message that a call writes: `info`, and those of the two channels. -/
inductive File where
  | info
  | chan (c : Way)
  deriving DecidableEq, Repr

/-- The steps of a call that may fail, those for a record with its number. `scan` is the search for
a message, `cats` and `cat` append to `mailto`, `answer` is that of `qmail-clean`. -/
inductive Step where
  | scan
  | open_read
  | stat
  | unlink (f : File)
  | open_info
  | getln (k : Nat)
  | put (k : Nat)
  | copy (k : Nat)
  | copy_0 (k : Nat)
  | rewrite (k : Nat)
  | cats (k : Nat)
  | cat (k : Nat)
  | open_chan (c : Way)
  | bput (k : Nat)
  | flush (f : File)
  | fsync (f : File)
  | clean
  | answer
  deriving DecidableEq, Repr

/-- What a call meets: a message, its envelope and its size, the mode in the log, the step that
fails if one does, and what is then in the files that were begun. -/
structure Attempt where
  id : Nat
  todo : Bytes
  bytes : Nat
  mode : Bytes
  failing : Option Step
  part : File → Bytes

/-- The records of an envelope. -/
def Attempt.records (a : Attempt) : List Bytes := fields 0 a.todo

/-- What is kept from call to call, the files, and the lines logged for recipients. -/
structure St where
  mailfrom : Bytes
  mailto : Bytes
  files : Nat → File → Option Bytes
  log : List Bytes
  flagexittodo : Bool

/-- What changes while the envelope is read. A channel has no content before it is opened. -/
structure Vars where
  mailfrom : Bytes
  mailto : Bytes
  info : Bytes
  chan : Way → Option Bytes

variable (conf : Conf)

def St.store (s : St) (id : Nat) (f : File) (content : Option Bytes) : St :=
  { s with
    files := fun i g => if i = id ∧ g = f then content else s.files i g }

/-- The steps before the envelope is read. -/
def begin_ (a : Attempt) (s : St) : Except St St :=
  if s.flagexittodo ∨ a.failing = some .scan ∨ a.failing = some .open_read ∨
      a.failing = some .stat then .error s
  else if a.failing = some (.unlink (.chan .land)) then .error s
  else
    -- what a call before this one left of the message is removed, file by file
    let s := s.store a.id (.chan .land) none
    if a.failing = some (.unlink (.chan .sea)) then .error s
    else
      let s := s.store a.id (.chan .sea) none
      if a.failing = some (.unlink .info) then .error s
      else
        let s := s.store a.id .info none
        if a.failing = some .open_info then .error s
        else .ok (s.store a.id .info (some []))

def letter : Way → Byte
  | .land => 76
  | .sea => 82

/-- A channel is opened, if it is not open, and a text is put into it. -/
def Vars.put (v : Vars) (c : Way) (text : Bytes) : Vars :=
  { v with chan := fun d => if d = c then some ((v.chan d).getD [] ++ text) else v.chan d }

/-- A recipient whose way and `rwline` are known. -/
def recipient (failing : Option Step) (k : Nat) (line : Bytes) (v : Vars) (r : Way × Bytes) :
    Except Vars Vars :=
  if failing = some (.cats k) then .error v
  else if failing = some (.cat k) then .error { v with mailto := v.mailto ++ [letter r.1] }
  else
    let v := { v with mailto := v.mailto ++ letter r.1 :: (line ++ [0]) }
    if v.chan r.1 = none ∧ failing = some (.open_chan r.1) then .error v
    else if failing = some (.bput k) then .error (v.put r.1 [])
    else .ok (v.put r.1 r.2)

/-- One record. -/
def record (failing : Option Step) (k : Nat) (line : Bytes) (v : Vars) : Except Vars Vars :=
  match line.headD 0 with
  | 117 => .ok v
  | 112 => .ok v
  | 104 | 101 =>
      if failing = some (.put k) then .error v else .ok { v with info := v.info ++ (line ++ [0]) }
  | 70 =>
      if failing = some (.put k) then .error v
      else
        let v := { v with info := v.info ++ (line ++ [0]) }
        if failing = some (.copy k) then .error v
        else if failing = some (.copy_0 k) then .error { v with mailfrom := line ++ [0] }
        else .ok { v with mailfrom := line ++ [0, 0] }
  | 84 =>
      if failing = some (.rewrite k) then .error v
      else
        match rewrite conf.c line.length line.tail with
        | none => .error v
        | some r => recipient failing k line v r
  | _ => .error v

/-- The loop over the records, from the `k`-th on. -/
def records (failing : Option Step) : Nat → List Bytes → Vars → Except Vars Vars
  | k, [], v => if failing = some (.getln k) then .error v else .ok v
  | k, line :: rest, v =>
      if failing = some (.getln k) then .error v
      else (record conf failing k line v).bind (records failing (k + 1) rest)

/-- The steps on the files once the envelope is read. -/
def finishing (v : Vars) : List Step :=
  let files := .info :: ([.land, .sea].filter fun c => (v.chan c).isSome).map .chan
  files.map .flush ++ files.map .fsync

/-- The lines of `log_stat`; `ptr` is the rest of `mailto`. -/
def logLines (from_ to_end : Bytes) : Nat → Bytes → List Bytes
  | 0, _ => []
  | fuel + 1, ptr =>
      if ptr = [] then []
      else
        let entry := cstr ptr
        let to_ := entry.drop 2
        ((if entry.headD 0 = 76 then asc "local: " else asc "remote: ") ++ from_ ++ asc " " ++
          (if to_ = [] then asc "<>" else to_) ++ to_end) ::
          logLines from_ to_end fuel (ptr.drop (entry.length + 1))

/-- The end of a log line. -/
def lineEnd (a : Attempt) : Bytes :=
  asc " " ++ conf.nm.fmtUlong a.id ++ asc " " ++ conf.nm.fmtUlong a.bytes ++ asc " bytes " ++
    conf.queuedesc ++ a.mode

def log_stat (a : Attempt) (s : St) : St :=
  let from_ := if 3 < s.mailfrom.length then cstr (s.mailfrom.drop 1) else asc "<>"
  { s with
    log := s.log ++ logLines from_ (lineEnd conf a) s.mailto.length s.mailto
    mailfrom := []
    mailto := [] }

/-- The files as they are after the records, each with all of its content or with a part. -/
def St.written (s : St) (a : Attempt) (v : Vars) (whole : Bool) : St :=
  { s with
    mailfrom := v.mailfrom
    mailto := v.mailto
    files := fun i f =>
      if i = a.id then
        match f with
        | .info => some (if whole then v.info else a.part .info)
        | .chan c => (v.chan c).map fun content => if whole then content else a.part (.chan c)
      else s.files i f }

/-- `todo_do`, and whether the message was preprocessed. -/
def todo_do (a : Attempt) (s : St) : St × Bool :=
  match begin_ a s with
  | .error s => (s, false)
  | .ok s =>
      match records conf a.failing 0 a.records ⟨s.mailfrom, s.mailto, [], fun _ => none⟩ with
      | .error v => (s.written a v false, false)
      | .ok v =>
          if ∃ step ∈ finishing v, a.failing = some step then (s.written a v false, false)
          else
            let s := s.written a v true
            -- without `qmail-clean` the program leaves, and `mailto` with it
            if a.failing = some .clean then ({ s with flagexittodo := true }, false)
            else if a.failing = some .answer then (s, false)
            else (log_stat conf a s, true)

/-! ## What a message determines -/

def senders (rs : List Bytes) : List Bytes := rs.filter fun r => r.headD 0 = 70

def recipients (rs : List Bytes) : List Bytes := rs.filter fun r => r.headD 0 = 84

def infos (rs : List Bytes) : List Bytes :=
  rs.filter fun r => r.headD 0 = 104 ∨ r.headD 0 = 101 ∨ r.headD 0 = 70

/-- The lines for a channel. -/
def rwlines (way : Way) (rs : List Bytes) : List Bytes :=
  ((recipients rs).filter fun r => (rewritten conf.c r.tail).1 = way).map fun r =>
    (rewritten conf.c r.tail).2

def orEmpty (text : Bytes) : Bytes := if text = [] then asc "<>" else text

/-- The log lines of a message: one for each recipient. -/
def ownLog (a : Attempt) : List Bytes :=
  (recipients a.records).map fun r =>
    (match (rewritten conf.c r.tail).1 with
      | .land => asc "local: "
      | .sea => asc "remote: ") ++
      ((senders a.records).getLast?.elim (asc "<>") fun f => orEmpty f.tail) ++ asc " " ++
      orEmpty r.tail ++ lineEnd conf a

/-- Texts that are put into a channel. -/
def grow (old : Option Bytes) (texts : List Bytes) : Option Bytes :=
  if texts = [] then old else some (old.getD [] ++ texts.flatten)

/-- The files of a message. -/
def ownFile (a : Attempt) : File → Option Bytes
  | .info => some (nuls (infos a.records))
  | .chan way => grow none (rwlines conf way a.records)

/-! ## Runs -/

/-- A call, or what other programs do with the files before the next. -/
inductive Event where
  | call (a : Attempt)
  | others (files : Nat → File → Option Bytes)

def machine : Run.Machine St Event where
  init s := s.mailfrom = [] ∧ s.mailto = []
  step s
    | .call a => some (todo_do conf a s).1
    | .others files => some { s with files := files }

/-- If the message was preprocessed, its lines and its files are its own. -/
def Own (s : St) : Event → Prop
  | .call a => (todo_do conf a s).2 = true →
      (todo_do conf a s).1.log = s.log ++ ownLog conf a ∧
        ∀ f, (todo_do conf a s).1.files a.id f = ownFile conf a f
  | .others _ => True

def Known (r : Bytes) : Prop := r.headD 0 ∈ [117, 112, 104, 101, 70, 84]

/-- A step fails before a recipient is appended to `mailto`, or there is a record of no known type
in front of the first recipient. -/
def Early (failing : Option Step) : Nat → List Bytes → Prop
  | k, [] => failing = some (.getln k)
  | k, r :: rs =>
      failing = some (.getln k) ∨
        if r.headD 0 = 84 then failing = some (.rewrite k) ∨ failing = some (.cats k)
        else
          ¬ Known r ∨
            (r.headD 0 = 104 ∨ r.headD 0 = 101 ∨ r.headD 0 = 70) ∧ failing = some (.put k) ∨
            r.headD 0 = 70 ∧ (failing = some (.copy k) ∨ failing = some (.copy_0 k)) ∨
            Early failing (k + 1) rs

/-- The steps before the envelope is read. -/
def beginning : List Step :=
  [.scan, .open_read, .stat, .unlink (.chan .land), .unlink (.chan .sea), .unlink .info, .open_info]

/-- A call that leaves no recipient in `mailto` for a later one: it fails early, it has none, or it
does not fail but for the connection to `qmail-clean`, which ends all calls. -/
def Sound (a : Attempt) : Prop :=
  (∃ step ∈ beginning, a.failing = some step) ∨ Early a.failing 0 a.records ∨
    recipients a.records = [] ∨
      ((a.failing = none ∨ a.failing = some .clean) ∧ ∀ r ∈ a.records, Known r)

/-- The condition on a call: it leaves no recipient behind, and has a sender of its own unless none
is left from an earlier call. -/
def Cond (s : St) : Event → Prop
  | .call a => Sound a ∧ (senders a.records ≠ [] ∨ s.mailfrom = [])
  | .others _ => True

variable {conf} {failing : Option Step} {a : Attempt} {s : St} {v v' : Vars} {rs : List Bytes}

/-! ## The records -/

/-- Where the records leave off. -/
def outcome : Except Vars Vars → Vars
  | .error v => v
  | .ok v => v

theorem cases_known {r : Bytes} (h : Known r) :
    r.headD 0 = 117 ∨ r.headD 0 = 112 ∨ r.headD 0 = 104 ∨ r.headD 0 = 101 ∨ r.headD 0 = 70 ∨
      r.headD 0 = 84 := by
  simpa [Known] using h

theorem record_unknown {k : Nat} {r : Bytes} (h : ¬ Known r) :
    record conf failing k r v = .error v := by
  simp only [Known, List.mem_cons, List.not_mem_nil, or_false, not_or] at h
  rw [record]
  split <;> simp_all

theorem record_number {k : Nat} {r : Bytes} (h : r.headD 0 = 117 ∨ r.headD 0 = 112) :
    record conf failing k r v = .ok v := by
  rcases h with h | h
  · rw [record, h]
    rfl
  · rw [record, h]
    rfl

theorem record_info {k : Nat} {r : Bytes} (h : r.headD 0 = 104 ∨ r.headD 0 = 101) :
    record conf failing k r v =
      if failing = some (.put k) then .error v
      else .ok { v with info := v.info ++ (r ++ [0]) } := by
  rcases h with h | h
  · rw [record, h]
    rfl
  · rw [record, h]
    rfl

theorem record_from {k : Nat} {r : Bytes} (h : r.headD 0 = 70) :
    record conf failing k r v =
      if failing = some (.put k) then .error v
      else if failing = some (.copy k) then .error { v with info := v.info ++ (r ++ [0]) }
      else if failing = some (.copy_0 k) then
        .error { v with info := v.info ++ (r ++ [0]), mailfrom := r ++ [0] }
      else .ok { v with info := v.info ++ (r ++ [0]), mailfrom := r ++ [0, 0] } := by
  rw [record, h]
  rfl

theorem record_to {k : Nat} {r : Bytes} (h : r.headD 0 = 84) :
    record conf failing k r v =
      if failing = some (.rewrite k) then .error v
      else recipient failing k r v (rewritten conf.c r.tail) := by
  have hrw : rewrite conf.c r.length r.tail = some (rewritten conf.c r.tail) := by
    apply rewrite_eq
    cases r with
    | nil => cases h
    | cons b r => exact Nat.lt_succ_self _
  rw [record, h, hrw]
  rfl

/-- A record that is no recipient leaves `mailto` as it is. -/
theorem record_keeps {k : Nat} {r : Bytes} (h : r.headD 0 ≠ 84) :
    (outcome (record conf failing k r v)).mailto = v.mailto := by
  by_cases hk : Known r
  · rcases cases_known hk with hr | hr | hr | hr | hr | hr
    · rw [record_number (Or.inl hr)]
      rfl
    · rw [record_number (Or.inr hr)]
      rfl
    · rw [record_info (Or.inl hr)]
      split <;> rfl
    · rw [record_info (Or.inr hr)]
      split <;> rfl
    · rw [record_from hr]
      split
      · rfl
      · split
        · rfl
        · split <;> rfl
    · exact absurd hr h
  · rw [record_unknown hk]
    rfl

theorem records_keeps (k : Nat) (h : recipients rs = []) :
    (outcome (records conf failing k rs v)).mailto = v.mailto := by
  induction rs generalizing k v with
  | nil =>
      rw [records]
      split <;> rfl
  | cons r rs ih =>
      rw [recipients, List.filter_cons] at h
      have hr : r.headD 0 ≠ 84 := by
        intro hr
        rw [if_pos (by simpa using hr)] at h
        cases h
      rw [if_neg (by simpa using hr)] at h
      have hkeep := @record_keeps conf failing v k r hr
      rw [records]
      split
      · rfl
      · cases hrec : record conf failing k r v with
        | error v' =>
            rw [hrec] at hkeep
            exact hkeep
        | ok v' =>
            rw [hrec] at hkeep
            exact (ih (k + 1) h).trans hkeep

/-- A failure in front of the first recipient. -/
theorem records_early {k : Nat} (h : Early failing k rs) :
    ∃ v', records conf failing k rs v = .error v' ∧ v'.mailto = v.mailto := by
  induction rs generalizing k v with
  | nil => exact ⟨v, if_pos h, rfl⟩
  | cons r rs ih =>
      rw [records]
      by_cases hln : failing = some (.getln k)
      · exact ⟨v, if_pos hln, rfl⟩
      rw [if_neg hln]
      rw [Early, or_iff_right hln] at h
      split at h
      · rename_i hr
        rw [record_to hr]
        rcases h with rfl | rfl
        · rw [if_pos rfl]
          exact ⟨v, rfl, rfl⟩
        · rw [if_neg (by simp), recipient, if_pos rfl]
          exact ⟨v, rfl, rfl⟩
      · rename_i hr
        have hkeep := @record_keeps conf failing v k r hr
        cases hrec : record conf failing k r v with
        | error v' =>
            rw [hrec] at hkeep
            exact ⟨v', rfl, hkeep⟩
        | ok v₁ =>
            rw [hrec] at hkeep
            -- a step that fails at this record contradicts `hrec`
            rcases h with h | ⟨h | h | h, rfl⟩ | ⟨h, rfl | rfl⟩ | h
            · rw [record_unknown h] at hrec
              cases hrec
            · rw [record_info (Or.inl h), if_pos rfl] at hrec
              cases hrec
            · rw [record_info (Or.inr h), if_pos rfl] at hrec
              cases hrec
            · rw [record_from h, if_pos rfl] at hrec
              cases hrec
            · rw [record_from h, if_neg (by simp), if_pos rfl] at hrec
              cases hrec
            · rw [record_from h, if_neg (by simp), if_neg (by simp), if_pos rfl] at hrec
              cases hrec
            · obtain ⟨v', hv', hm⟩ := ih (v := v₁) h
              exact ⟨v', hv', hm.trans hkeep⟩

/-! ## Records that are read to the end -/

/-- What records do. -/
structure Became (conf : Conf) (v : Vars) (rs : List Bytes) (v' : Vars) : Prop where
  mailfrom : v'.mailfrom = (senders rs).getLast?.elim v.mailfrom fun f => f ++ [0, 0]
  mailto : v'.mailto = v.mailto ++
    nuls ((recipients rs).map fun r => letter (rewritten conf.c r.tail).1 :: r)
  info : v'.info = v.info ++ nuls (infos rs)
  chan : ∀ c, v'.chan c = grow (v.chan c) (rwlines conf c rs)

theorem grow_append (old : Option Bytes) (ts us : List Bytes) :
    grow (grow old ts) us = grow old (ts ++ us) := by
  rcases ts with _ | ⟨t, ts⟩
  · rfl
  rcases us with _ | ⟨u, us⟩
  · rw [List.append_nil]
    rfl
  · simp [grow]

theorem Became.append {v₁ v₂ v₃ : Vars} {us ws : List Bytes} (h₁ : Became conf v₁ us v₂)
    (h₂ : Became conf v₂ ws v₃) : Became conf v₁ (us ++ ws) v₃ where
  mailfrom := by
    rw [h₂.mailfrom, h₁.mailfrom, senders, senders, senders, List.filter_append,
      List.getLast?_append]
    cases (ws.filter fun r => r.headD 0 = 70).getLast? <;> rfl
  mailto := by
    rw [h₂.mailto, h₁.mailto, recipients, recipients, recipients, List.filter_append,
      List.map_append, nuls_append, List.append_assoc]
  info := by
    rw [h₂.info, h₁.info, infos, infos, infos, List.filter_append, nuls_append, List.append_assoc]
  chan := by
    intro c
    rw [h₂.chan, h₁.chan, grow_append, rwlines, rwlines, rwlines, recipients, recipients,
      recipients, List.filter_append, List.filter_append, List.map_append]

theorem record_ok {k : Nat} {r : Bytes} (h : record conf failing k r v = .ok v') :
    Became conf v [r] v' := by
  by_cases hk : Known r
  · -- one case for each type of record
    have hnumber (hr : r.headD 0 = 117 ∨ r.headD 0 = 112) : Became conf v [r] v' := by
      rw [record_number hr] at h
      obtain rfl := Except.ok.inj h
      have hsame : r.headD 0 ≠ 70 ∧ r.headD 0 ≠ 84 ∧ r.headD 0 ≠ 104 ∧ r.headD 0 ≠ 101 := by
        rcases hr with hr | hr <;> rw [hr] <;> decide
      exact ⟨by simp_all [senders], by simp_all [recipients], by simp_all [infos],
        by simp_all [rwlines, recipients, grow]⟩
    have hinfo (hr : r.headD 0 = 104 ∨ r.headD 0 = 101) : Became conf v [r] v' := by
      rw [record_info hr] at h
      split at h
      · cases h
      · obtain rfl := Except.ok.inj h
        have hsame : r.headD 0 ≠ 70 ∧ r.headD 0 ≠ 84 := by
          rcases hr with hr | hr <;> rw [hr] <;> decide
        exact ⟨by simp_all [senders], by simp_all [recipients], by simp_all [infos],
          by simp_all [rwlines, recipients, grow]⟩
    rcases cases_known hk with hr | hr | hr | hr | hr | hr
    · exact hnumber (Or.inl hr)
    · exact hnumber (Or.inr hr)
    · exact hinfo (Or.inl hr)
    · exact hinfo (Or.inr hr)
    · rw [record_from hr] at h
      split at h
      · cases h
      · split at h
        · cases h
        · split at h
          · cases h
          · obtain rfl := Except.ok.inj h
            exact ⟨by simp_all [senders], by simp_all [recipients], by simp_all [infos],
              by simp_all [rwlines, recipients, grow]⟩
    · rw [record_to hr, recipient] at h
      split at h
      · cases h
      · split at h
        · cases h
        · split at h
          · cases h
          · simp only at h
            split at h
            · cases h
            · split at h
              · cases h
              · -- a recipient: it is appended to `mailto` and to the file of its channel
                obtain rfl := Except.ok.inj h
                refine ⟨by simp_all [senders, Vars.put], by simp_all [recipients, Vars.put],
                  by simp_all [infos, Vars.put], ?_⟩
                intro c
                have hlines : rwlines conf c [r] =
                    if (rewritten conf.c r.tail).1 = c then [(rewritten conf.c r.tail).2]
                    else [] := by
                  rw [rwlines, recipients, List.filter_cons, if_pos (by simpa using hr)]
                  split <;> simp_all
                rw [hlines]
                by_cases hc : (rewritten conf.c r.tail).1 = c
                · simp [Vars.put, hc, grow]
                · simp [Vars.put, hc, grow, Ne.symm hc]
  · rw [record_unknown hk] at h
    cases h

/-- **What a call that reads all records has gathered.** -/
theorem records_ok {k : Nat} (h : records conf failing k rs v = .ok v') : Became conf v rs v' := by
  induction rs generalizing k v with
  | nil =>
      rw [records] at h
      split at h
      · cases h
      · obtain rfl := Except.ok.inj h
        exact ⟨rfl, (List.append_nil _).symm, (List.append_nil _).symm, fun _ => rfl⟩
  | cons r rs ih =>
      rw [records] at h
      split at h
      · cases h
      · cases hr : record conf failing k r v with
        | error v₁ =>
            rw [hr] at h
            cases h
        | ok v₁ =>
            rw [hr] at h
            exact (record_ok hr).append (ih h)

/-- Nothing fails: all records of known types are read. -/
theorem records_known {k : Nat} (hf : failing = none ∨ failing = some .clean)
    (h : ∀ r ∈ rs, Known r) : ∃ v', records conf failing k rs v = .ok v' := by
  have hno : ∀ step : Step, step ≠ .clean → failing ≠ some step := by
    rintro step hne rfl
    rcases hf with hf | hf
    · cases hf
    · exact hne (Option.some.inj hf)
  induction rs generalizing k v with
  | nil => exact ⟨v, if_neg (hno _ (by simp))⟩
  | cons r rs ih =>
      rw [List.forall_mem_cons] at h
      have hrec : ∃ v₁, record conf failing k r v = .ok v₁ := by
        rcases cases_known h.1 with hr | hr | hr | hr | hr | hr
        · exact ⟨_, record_number (Or.inl hr)⟩
        · exact ⟨_, record_number (Or.inr hr)⟩
        · rw [record_info (Or.inl hr), if_neg (hno _ (by simp))]
          exact ⟨_, rfl⟩
        · rw [record_info (Or.inr hr), if_neg (hno _ (by simp))]
          exact ⟨_, rfl⟩
        · rw [record_from hr, if_neg (hno _ (by simp)), if_neg (hno _ (by simp)),
            if_neg (hno _ (by simp))]
          exact ⟨_, rfl⟩
        · rw [record_to hr, if_neg (hno _ (by simp)), recipient, if_neg (hno _ (by simp)),
            if_neg (hno _ (by simp))]
          simp only
          rw [if_neg fun hc => hno _ (by simp) hc.2, if_neg (hno _ (by simp))]
          exact ⟨_, rfl⟩
      obtain ⟨v₁, hv₁⟩ := hrec
      rw [records, if_neg (hno _ (by simp)), hv₁]
      exact ih h.2

/-! ## The log -/

theorem logLines_nuls {from_ to_end : Bytes} {ts : List Bytes} (h0 : ∀ t ∈ ts, 0 ∉ t)
    {fuel : Nat} (hfuel : (nuls ts).length ≤ fuel) :
    logLines from_ to_end fuel (nuls ts) = ts.map fun t =>
      (if t.headD 0 = 76 then asc "local: " else asc "remote: ") ++ from_ ++ asc " " ++
        orEmpty (t.drop 2) ++ to_end := by
  induction ts generalizing fuel with
  | nil => cases fuel <;> rfl
  | cons t ts ih =>
      rw [List.forall_mem_cons] at h0
      rw [nuls_cons] at hfuel ⊢
      rw [List.length_append, List.length_cons] at hfuel
      obtain ⟨fuel, rfl⟩ := Nat.exists_eq_succ_of_ne_zero (by omega : fuel ≠ 0)
      have hdrop : (t ++ 0 :: nuls ts).drop (t.length + 1) = nuls ts := by
        rw [← List.drop_drop, List.drop_left]
        rfl
      rw [logLines, if_neg (by simp)]
      simp only
      rw [cstr_append _ h0.1, hdrop, ih h0.2 (by omega), List.map_cons]
      rfl

/-! ## One call -/

/-- What is done before the envelope is read changes only the files. -/
theorem begin_error {s' : St} (h : begin_ a s = .error s') :
    s'.mailto = s.mailto ∧ s'.flagexittodo = s.flagexittodo := by
  rw [begin_] at h
  simp only at h
  split at h
  · obtain rfl := Except.error.inj h
    exact ⟨rfl, rfl⟩
  split at h
  · obtain rfl := Except.error.inj h
    exact ⟨rfl, rfl⟩
  split at h
  · obtain rfl := Except.error.inj h
    exact ⟨rfl, rfl⟩
  split at h
  · obtain rfl := Except.error.inj h
    exact ⟨rfl, rfl⟩
  split at h
  · obtain rfl := Except.error.inj h
    exact ⟨rfl, rfl⟩
  · cases h

theorem begin_ok {s' : St} (h : begin_ a s = .ok s') :
    (s'.mailto = s.mailto ∧ s'.mailfrom = s.mailfrom ∧ s'.log = s.log) ∧
      s.flagexittodo = false ∧ s'.flagexittodo = false ∧
      ∀ step ∈ beginning, a.failing ≠ some step := by
  rw [begin_] at h
  simp only at h
  split at h
  · cases h
  rename_i h₁
  split at h
  · cases h
  rename_i h₂
  split at h
  · cases h
  rename_i h₃
  split at h
  · cases h
  rename_i h₄
  split at h
  · cases h
  rename_i h₅
  obtain rfl := Except.ok.inj h
  simp only [not_or, Bool.not_eq_true] at h₁
  refine ⟨⟨rfl, rfl, rfl⟩, h₁.1, h₁.1, ?_⟩
  intro step hstep
  simp only [beginning, List.mem_cons, List.not_mem_nil, or_false] at hstep
  rcases hstep with rfl | rfl | rfl | rfl | rfl | rfl | rfl
  · exact h₁.2.1
  · exact h₁.2.2.1
  · exact h₁.2.2.2
  · exact h₂
  · exact h₃
  · exact h₄
  · exact h₅

/-- A message that was preprocessed: its records were all read, and the lines written. -/
theorem todo_do_true (h : (todo_do conf a s).2 = true) : ∃ s₁ v,
    begin_ a s = .ok s₁ ∧
    records conf a.failing 0 a.records ⟨s₁.mailfrom, s₁.mailto, [], fun _ => none⟩ = .ok v ∧
    (todo_do conf a s).1 = log_stat conf a (s₁.written a v true) := by
  cases hb : begin_ a s with
  | error s₁ => simp [todo_do, hb] at h
  | ok s₁ =>
      cases hr : records conf a.failing 0 a.records
          ⟨s₁.mailfrom, s₁.mailto, [], fun _ => none⟩ with
      | error v => simp [todo_do, hb, hr] at h
      | ok v =>
          refine ⟨s₁, v, rfl, hr, ?_⟩
          rw [todo_do, hb] at h ⊢
          simp only [hr] at h ⊢
          split at h
          · cases h
          · rename_i hf
            rw [if_neg hf]
            split at h
            · cases h
            · rename_i hc
              rw [if_neg hc]
              split at h
              · cases h
              · rename_i ha
                rw [if_neg ha]

/-- **No recipient is left behind** by a sound call. -/
theorem todo_do_sound (hs : Sound a) (h : s.flagexittodo = true ∨ s.mailto = []) :
    (todo_do conf a s).1.flagexittodo = true ∨ (todo_do conf a s).1.mailto = [] := by
  cases hb : begin_ a s with
  | error s₁ =>
      obtain ⟨hm, hx⟩ := begin_error hb
      simp only [todo_do, hb, hm, hx]
      exact h
  | ok s₁ =>
      obtain ⟨⟨hm, -, -⟩, hx, -, hno⟩ := begin_ok hb
      have hempty : s₁.mailto = [] := by
        rw [hm]
        exact h.resolve_left (by rw [hx]; exact Bool.false_ne_true)
      rcases hs with ⟨step, hstep, hf⟩ | hs | hs | ⟨hs, hk⟩
      · exact absurd hf (hno step hstep)
      · -- it leaves off in front of the first recipient
        obtain ⟨v, hv, hvm⟩ := @records_early conf _
          ⟨s₁.mailfrom, s₁.mailto, [], fun _ => none⟩ _ _ hs
        right
        simp only [todo_do, hb, hv]
        exact hvm.trans hempty
      · -- there is no recipient, so wherever it leaves off
        have hkeep := @records_keeps conf a.failing
          ⟨s₁.mailfrom, s₁.mailto, [], fun _ => none⟩ _ 0 hs
        right
        cases hr : records conf a.failing 0 a.records
            ⟨s₁.mailfrom, s₁.mailto, [], fun _ => none⟩ with
        | error v =>
            rw [hr] at hkeep
            simp only [todo_do, hb, hr]
            exact hkeep.trans hempty
        | ok v =>
            rw [hr] at hkeep
            have hv : v.mailto = [] := hkeep.trans hempty
            simp only [todo_do, hb, hr]
            split
            · exact hv
            · split
              · exact hv
              · split
                · exact hv
                · rfl
      · -- all records are read: the end is `log_stat`, or the program leaves
        obtain ⟨v, hv⟩ := @records_known conf _
          ⟨s₁.mailfrom, s₁.mailto, [], fun _ => none⟩ _ 0 hs hk
        simp only [todo_do, hb, hv]
        have hfin : ¬ ∃ step ∈ finishing v, a.failing = some step := by
          rintro ⟨step, hstep, hf⟩
          rcases hs with hs | hs
          · rw [hs] at hf
            cases hf
          · obtain rfl := Option.some.inj (hs.symm.trans hf)
            simp [finishing] at hstep
        rw [if_neg hfin]
        rcases hs with hs | hs
        · rw [if_neg (by rw [hs]; simp), if_neg (by rw [hs]; simp)]
          exact Or.inr rfl
        · rw [if_pos hs]
          exact Or.inl rfl

/-- The sender as it is logged. -/
theorem from_text {f : Bytes} (hf : f.headD 0 = 70) (h0 : 0 ∉ f) :
    (if 3 < (f ++ [0, 0]).length then cstr ((f ++ [0, 0]).drop 1) else asc "<>") =
      orEmpty f.tail := by
  cases f with
  | nil => cases hf
  | cons b t =>
      have ht : 0 ∉ t := fun h => h0 (List.mem_cons_of_mem _ h)
      cases t with
      | nil => rfl
      | cons c t =>
          rw [if_pos (by simp), List.cons_append, List.drop_succ_cons, List.drop_zero,
            cstr_append [0] ht]
          rfl

/-- **A message that was preprocessed has its own lines and files**, when `mailto` was empty and
the sender is known from the envelope. -/
theorem todo_do_own (hm : s.mailto = []) (hsender : senders a.records ≠ [] ∨ s.mailfrom = []) :
    Own conf s (.call a) := by
  intro h
  obtain ⟨s₁, v, hb, hr, hresult⟩ := todo_do_true h
  obtain ⟨⟨hm₁, hf₁, hlog₁⟩, -⟩ := begin_ok hb
  have hv := records_ok hr
  have hmailto := hv.mailto
  simp only [hm₁, hm, List.nil_append] at hmailto
  rw [hresult]
  constructor
  · -- the lines
    have hfrom : (if 3 < v.mailfrom.length then cstr (v.mailfrom.drop 1) else asc "<>") =
        (senders a.records).getLast?.elim (asc "<>") fun f => orEmpty f.tail := by
      rw [hv.mailfrom]
      cases hlast : (senders a.records).getLast? with
      | none =>
          have hnone := List.getLast?_eq_none_iff.mp hlast
          rw [Option.elim_none, hf₁, hsender.resolve_left fun h => h hnone]
          rfl
      | some f =>
          have hmem := List.mem_of_getLast? hlast
          exact from_text (by simpa using (List.mem_filter.mp hmem).2)
            (notMem_of_mem_fields (List.mem_of_mem_filter hmem))
    have htext : ∀ t ∈ (recipients a.records).map fun r =>
        letter (rewritten conf.c r.tail).1 :: r, 0 ∉ t := by
      intro t ht
      obtain ⟨r, hmem, rfl⟩ := List.mem_map.mp ht
      have h0 : 0 ∉ r := notMem_of_mem_fields (List.mem_of_mem_filter hmem)
      rw [List.mem_cons, not_or]
      refine ⟨?_, h0⟩
      cases (rewritten conf.c r.tail).1 <;> decide
    show s₁.log ++ logLines
      (if 3 < v.mailfrom.length then cstr (v.mailfrom.drop 1) else asc "<>") (lineEnd conf a)
      v.mailto.length v.mailto = _
    rw [hfrom, hlog₁, hmailto, logLines_nuls htext (Nat.le_refl _), List.map_map, ownLog]
    congr 1
    apply List.map_congr_left
    intro r hmem
    simp only [Function.comp_apply, List.headD_cons]
    rw [show (letter (rewritten conf.c r.tail).1 :: r).drop 2 = r.tail from List.drop_one]
    cases (rewritten conf.c r.tail).1 <;> rfl
  · -- the files
    intro f
    cases f with
    | info =>
        show (if a.id = a.id then _ else _) = _
        rw [if_pos rfl, if_pos rfl, hv.info]
        rfl
    | chan c =>
        show (if a.id = a.id then _ else _) = _
        simp only [if_true]
        rw [hv.chan, Option.map_id']
        rfl

/-! ## Runs of calls -/

/-- **In a run of sound calls every message has its own lines and files**, whatever fails, and
whatever other programs do with the files between the calls. -/
theorem run_own {conf : Conf} {s : St} {es : List Event} (hinit : (machine conf).init s)
    (h : (machine conf).Meets Cond s es) : (machine conf).Meets (Own conf) s es := by
  -- the invariant: `mailto` is empty, or no call does anything any more
  have hstep : ∀ s e s', (s.flagexittodo = true ∨ s.mailto = []) → Cond s e →
      (machine conf).step s e = some s' → s'.flagexittodo = true ∨ s'.mailto = [] := by
    intro s e s' hi hc hs
    cases e with
    | call a =>
        obtain rfl := Option.some.inj hs
        exact todo_do_sound hc.1 hi
    | others files =>
        obtain rfl := Option.some.inj hs
        exact hi
  refine (Run.Machine.meets_congr hstep ?_ (Or.inr hinit.2) h).mpr (Run.Machine.meets_true es s)
  intro s e hi hc
  refine ⟨fun _ => trivial, fun _ => ?_⟩
  cases e with
  | call a =>
      rcases hi with hx | hm
      · intro htrue
        obtain ⟨s₁, -, hb, -⟩ := todo_do_true htrue
        exact absurd (begin_ok hb).2.1 (by rw [hx]; decide)
      · exact todo_do_own hm hc.2
  | others files => trivial

/-! ## Two messages -/

/-- One local domain. -/
def here : Conf where
  nm := ulongs
  c :=
    { hacks with
      percenthack := fun _ => false
      locals := fun d => d == asc "here" }
  queuedesc := asc "queue1"

/-- A message with one recipient. -/
def message (id : Nat) (from_ to_ : String) (failing : Option Step) : Attempt where
  id := id
  todo := asc "u7" ++ [0] ++ asc "p9" ++ [0] ++ asc from_ ++ [0] ++ asc to_ ++ [0]
  bytes := 20
  mode := asc " opendir mode" ++ [10]
  failing := failing
  part := fun _ => []

/-- A call that fails before the envelope is read, and another message. -/
theorem run_own_stat : (machine here).Meets (Own here) ⟨[], [], fun _ _ => none, [], false⟩
    [.call (message 1 "Fa@here" "Tb@here" (some .stat)),
      .call (message 2 "Fc@here" "Td" none)] := by
  have hempty : ∀ s', (machine here).step ⟨[], [], fun _ _ => none, [], false⟩
      (.call (message 1 "Fa@here" "Tb@here" (some .stat))) = some s' → s'.mailfrom = [] := by
    intro s' hs
    obtain rfl := Option.some.inj hs
    rfl
  refine run_own ⟨rfl, rfl⟩ ⟨⟨Or.inl ⟨.stat, by decide, rfl⟩, Or.inr rfl⟩, fun s' hs =>
    ⟨⟨Or.inr (Or.inr (Or.inr ⟨Or.inl rfl, ?_⟩)), Or.inr (hempty s' hs)⟩, fun _ _ => trivial⟩⟩
  show ∀ r ∈ (message 2 "Fc@here" "Td" none).records, r.headD 0 ∈ [117, 112, 104, 101, 70, 84]
  decide +kernel

/-- A call that fails when its files are brought to the disk: the recipient is in the log lines of
the next message. -/
theorem todo_do_left :
    (todo_do here (message 2 "Fc@here" "Td" none)
        (todo_do here (message 1 "Fa@here" "Tb@here" (some (.fsync .info)))
          ⟨[], [], fun _ _ => none, [], false⟩).1).2 = true ∧
    (todo_do here (message 2 "Fc@here" "Td" none)
        (todo_do here (message 1 "Fa@here" "Tb@here" (some (.fsync .info)))
          ⟨[], [], fun _ _ => none, [], false⟩).1).1.log =
      [asc "local: c@here b@here 2 20 bytes queue1 opendir mode" ++ [10],
        asc "local: c@here d 2 20 bytes queue1 opendir mode" ++ [10]] ∧
    (ownLog here (message 2 "Fc@here" "Td" none)).length = 1 := by
  refine ⟨by decide +kernel, by decide +kernel, ?_⟩
  rw [ownLog, List.length_map]
  decide +kernel

end IndimailMta.Todo.Process
