import IndimailMta.ControlList
import IndimailMta.Lib.Run

/-!
# The access list

`mail_acl` goes through the rules of `accesslist` twice: for the `rcpt:` rules, which say who may
write to a recipient, and for the `from:` rules, which say to whom a sender may write. The colon
between the two patterns of a rule is a NUL while the rule is looked at.

It stays one where a rule allows the mail, and where the recipient's pattern of a rule cannot be
matched in the first scan. The list has two rules more from then on, and the rest of the session is
judged by it. Everywhere else the list is as it was, and what is returned is what its rules say
(`decision`).
-/

namespace IndimailMta.Smtpd.MailAcl

open IndimailMta ControlList Scan Run

/-- `do_match`: 1 for a match, 0 for none, and errors, for which it leaves a text. -/
structure Matcher where
  do_match : Int → Bytes → Bytes → Int
  err_str : Int → Bytes → Bytes → Bytes

/-- A call: the envelope, and whether it is to explain itself. -/
structure Call where
  sender : Bytes
  recipient : Bytes
  verb : Bool
  deriving DecidableEq, Repr

/-- The caller gets a result, or `die_regex` ends the program. -/
inductive Ended where
  | returned (result : Int)
  | died (err_str : Bytes)
  deriving DecidableEq, Repr

/-- What a call leaves: the list, what it printed, and how it ended. -/
structure Left where
  acclist : Bytes
  out : Bytes
  ended : Ended
  deriving DecidableEq, Repr

/-! ## One rule -/

/-- The two patterns of a rule. -/
inductive Field where
  | sender
  | recipient
  deriving DecidableEq, Repr

def Field.pick (sender recipient : Bytes) : Field → Bytes
  | .sender => sender
  | .recipient => recipient

def Field.of (f : Field) (call : Call) : Bytes := f.pick call.sender call.recipient

def Field.matched : Field → Bytes
  | .sender => asc "\tmatched sender        ["
  | .recipient => asc "\tmatched recipient     ["

def Field.notMatched : Field → Bytes
  | .sender => asc "\tsender not matched    ["
  | .recipient => asc "\trecipient not matched [ "

/-- One of the two loops: the word its rules begin with, the pattern that selects a rule, the other
one, and whether the colon comes back when the first cannot be matched. -/
structure Side where
  key : Bytes
  first : Field
  second : Field
  keeps : Bool

def rcptSide : Side := ⟨asc "rcpt:", .recipient, .sender, false⟩

def fromSide : Side := ⟨asc "from:", .sender, .recipient, true⟩

/-- What the comparison with a pattern gives. -/
inductive Test where
  | hit
  | miss
  | error (err : Int)
  deriving DecidableEq, Repr

variable (m : Matcher) (qregex : Int)

/-- `str_diff`, and then `do_match`. -/
def test (text pattern : Bytes) : Test :=
  if text = pattern then .hit
  else
    let err := m.do_match qregex text pattern
    if err < 0 then .error err
    else if err = 1 then .hit
    else .miss

structure St where
  acclist : Bytes
  len : Nat
  count : Nat
  reject : Bool
  out : Bytes
  deriving DecidableEq, Repr

/-- The end on a pattern that cannot be matched. -/
def failed (call : Call) (err : Int) (text pattern : Bytes) : Ended :=
  if call.verb then .died (m.err_str qregex text pattern) else .returned err

/-- The body of a loop. The rule begins at `len`, and its patterns five bytes later. -/
def turn (side : Side) (call : Call) (st : St) : Option (Except Left St) := do
  let ptr ← textAt st.acclist st.len
  let len := st.len + (ptr.length + 1)
  let field ← textAt st.acclist (st.len + 5)
  match field.dropWhile (· ≠ 58) with
  | [] => some (.ok { st with len := len, count := st.count + 1 })
  | _ :: recipient =>
      let sender := field.takeWhile (· ≠ 58)
      let cptr := st.len + 5 + sender.length
      let cut := st.acclist.set cptr 0
      let restored := cut.set cptr 58
      let pattern := Field.pick sender recipient
      let next := fun reject out => some (.ok ⟨restored, len, st.count + 1, reject, out⟩)
      match test m qregex (side.first.of call) (pattern side.first) with
      | .error err =>
          some (.error
            (if side.keeps then
              ⟨restored, st.out, failed m qregex call err (side.first.of call) (pattern side.first)⟩
            -- a NUL where the colon belongs, and no `die_regex`
            else ⟨cut, st.out, .returned err⟩))
      | .miss => next st.reject st.out
      | .hit =>
          let named := (cut.drop st.len).take 5 = side.key
          let out := st.out ++
            if named ∧ call.verb then
              asc "rule no " ++ decimalText st.count ++ asc ": " ++ ptr ++ asc "\n"
                ++ side.first.matched ++ side.first.of call ++ asc "] with ["
                ++ pattern side.first ++ asc "]\n"
            else []
          if st.reject ∨ named then
            match test m qregex (side.second.of call) (pattern side.second) with
            | .error err =>
                some (.error ⟨restored, out,
                  failed m qregex call err (side.second.of call) (pattern side.second)⟩)
            -- explicit allow: the colon is not put back
            | .hit =>
                some (.error ⟨cut,
                  out ++
                    if call.verb then
                      side.second.matched ++ side.second.of call ++ asc "] with ["
                        ++ pattern side.second ++ asc "] --> access allowed\n"
                    else [],
                  .returned 0⟩)
            | .miss =>
                next true (out ++
                  if call.verb then
                    side.second.notMatched ++ side.second.of call ++ asc "] --> access denied\n"
                  else [])
          else next false out

def more (st : St) : Bool := st.len < st.acclist.length

def rules (side : Side) (call : Call) (acclist out : Bytes) : Option (Except Left St) :=
  loop more (turn m qregex side call) acclist.length ⟨acclist, 0, 1, false, out⟩

/-- The mails that no rule is asked about, and what is said of them. -/
def exempt (call : Call) : Option Bytes :=
  if call.sender = [] ∨ call.sender = asc "#@[]" then some (asc "access allowed for bounces\n")
  else if call.recipient.take 11 = asc "postmaster@" ∨ call.recipient = asc "postmaster" then
    some (asc "access allowed for postmaster\n")
  else if call.recipient.take 6 = asc "abuse@" ∨ call.recipient = asc "abuse" then
    some (asc "access allowed for this email\n")
  else none

def mail_acl (acclist : Bytes) (call : Call) : Option Left :=
  match exempt call with
  | some text => some ⟨acclist, if call.verb then text else [], .returned 0⟩
  | none =>
      match rules m qregex rcptSide call acclist [] with
      | none => none
      | some (.error left) => some left
      | some (.ok st) =>
          match rules m qregex fromSide call st.acclist st.out with
          | none => none
          | some (.error left) => some left
          | some (.ok st') =>
              some ⟨st'.acclist, st'.out, .returned (if st.reject ∨ st'.reject then 1 else 0)⟩

/-! ## What the rules say -/

/-- `type:sender:recipient` -/
structure Rule where
  type : Bytes
  sender : Bytes
  recipient : Bytes
  deriving DecidableEq, Repr

def Rule.read (line : Bytes) : Option Rule :=
  match (line.drop 5).dropWhile (· ≠ 58) with
  | [] => none
  | _ :: recipient => some ⟨line.take 5, (line.drop 5).takeWhile (· ≠ 58), recipient⟩

def Rule.pattern (rule : Rule) (f : Field) : Bytes := f.pick rule.sender rule.recipient

/-- A rule that decides. -/
inductive Verdict where
  | allows
  | firstFails (err : Int)
  | secondFails (err : Int)
  deriving DecidableEq, Repr

def Verdict.result : Verdict → Int
  | .allows => 0
  | .firstFails err => err
  | .secondFails err => err

/-- A line: whether the mail is rejected by what was read so far, or a verdict. -/
def judge (side : Side) (call : Call) (reject : Bool) (line : Bytes) : Except Verdict Bool :=
  match Rule.read line with
  | none => .ok reject
  | some rule =>
      match test m qregex (side.first.of call) (rule.pattern side.first) with
      | .error err => .error (.firstFails err)
      | .miss => .ok reject
      | .hit =>
          if reject ∨ rule.type = side.key then
            match test m qregex (side.second.of call) (rule.pattern side.second) with
            | .error err => .error (.secondFails err)
            | .hit => .error .allows
            | .miss => .ok true
          else .ok false

/-- What one scan of the rules says. -/
def ruling (side : Side) (call : Call) (lines : List Bytes) : Except Verdict Bool :=
  lines.foldlM (judge m qregex side call) false

/-- What the rules say of a mail. -/
def decision (lines : List Bytes) (call : Call) : Int :=
  if (exempt call).isSome then 0
  else
    match ruling m qregex rcptSide call lines, ruling m qregex fromSide call lines with
    | .error v, _ => v.result
    | .ok _, .error v => v.result
    | .ok r, .ok f => if r ∨ f then 1 else 0

/-! ## A turn does what the rule says -/

/-- Does the end of a scan put the colon back? -/
def Verdict.Restores (side : Side) : Verdict → Prop
  | .allows => False
  | .firstFails _ => side.keeps = true
  | .secondFails _ => True

/-- What a call leaves where a rule decides. -/
def Stops (lines : List Bytes) (side : Side) (left : Left) (v : Verdict) : Prop :=
  (left.acclist = nuls lines ↔ v.Restores side) ∧
    (left.ended = .returned v.result ∨ v.Restores side ∧ ∃ text, left.ended = .died text)

/-- Between two rules: the list is whole, and the loop is at the lines that are left. -/
structure Between (lines : List Bytes) (post : List Bytes) (st : St) (reject : Bool) : Prop where
  whole : st.acclist = nuls lines
  place : ∃ pre, lines = pre ++ post ∧ st.len = (nuls pre).length
  reject_eq : st.reject = reject

theorem failed_stops {lines : List Bytes} {side : Side} {call : Call} {err : Int}
    {text pattern out : Bytes} {v : Verdict} (hv : v.Restores side) (hr : v.result = err) :
    Stops lines side ⟨nuls lines, out, failed m qregex call err text pattern⟩ v := by
  refine ⟨iff_of_true rfl hv, ?_⟩
  unfold failed
  split
  · exact .inr ⟨hv, _, rfl⟩
  · exact .inl (by rw [hr])

theorem cut_stops {lines : List Bytes} {side : Side} {left : Left} {v : Verdict}
    (hcut : left.acclist ≠ nuls lines) (hv : ¬ v.Restores side)
    (hr : left.ended = .returned v.result) : Stops lines side left v :=
  ⟨iff_of_false hcut hv, .inl hr⟩

section
variable {side : Side} {call : Call} {pre post : List Bytes} {line : Bytes} {st : St}

theorem turn_agrees (h0 : (0 : Byte) ∉ line) (h5 : 5 ≤ line.length)
    (hlist : st.acclist = nuls (pre ++ line :: post)) (hlen : st.len = (nuls pre).length) :
    Agree (Between (pre ++ line :: post) post) (Stops (pre ++ line :: post) side)
      (turn m qregex side call st) (judge m qregex side call st.reject line) := by
  have hnext : st.len + (line.length + 1) = (nuls (pre ++ [line])).length := by
    rw [length_nuls_snoc, hlen]
    rfl
  have hsplit : pre ++ line :: post = (pre ++ [line]) ++ post := by simp
  have hptr : textAt st.acclist st.len = some line := by
    rw [hlist, hlen, textAt_line pre post h0]
  have hfield : textAt st.acclist (st.len + 5) = some (line.drop 5) := by
    rw [hlist, hlen, textAt_within pre post h0 h5]
  simp only [turn, judge, Rule.read, hptr, hfield, Option.bind_eq_bind, Option.bind_some]
  cases hcolon : (line.drop 5).dropWhile (· ≠ 58) with
  | nil => exact ⟨hlist, ⟨pre ++ [line], hsplit, hnext⟩, rfl⟩
  | cons c recipient =>
      obtain ⟨rfl, hdrop⟩ := split_at hcolon
      set sender := (line.drop 5).takeWhile (· ≠ 58) with hsender
      have hline : line = (line.take 5 ++ sender) ++ 58 :: recipient := by
        rw [List.append_assoc, ← hdrop, List.take_append_drop]
      have hcptr : st.len + 5 + sender.length = (nuls pre).length + (line.take 5 ++ sender).length := by
        rw [List.length_append, List.length_take, Nat.min_eq_left h5, hlen, Nat.add_assoc]
      have hbuf : nuls (pre ++ line :: post) =
          nuls (pre ++ ((line.take 5 ++ sender) ++ 58 :: recipient) :: post) := by
        rw [← hline]
      have hcut : st.acclist.set (st.len + 5 + sender.length) 0 =
          nuls (pre ++ ((line.take 5 ++ sender) ++ 0 :: recipient) :: post) := by
        rw [hlist, hcptr, hbuf, set_within]
      have hrestored : (st.acclist.set (st.len + 5 + sender.length) 0).set
          (st.len + 5 + sender.length) 58 = nuls (pre ++ line :: post) := by
        rw [hcut, hcptr, set_within, ← hline]
      have hne : st.acclist.set (st.len + 5 + sender.length) 0 ≠ nuls (pre ++ line :: post) := by
        rw [hcut, hbuf]
        simp [nuls_split]
      have hnamed : ((st.acclist.set (st.len + 5 + sender.length) 0).drop st.len).take 5 =
          line.take 5 := by
        rw [hcut, hlen]
        have := drop_nuls_split pre post (l := line.take 5 ++ sender ++ 0 :: recipient) (k := 0)
          (Nat.zero_le _)
        rw [Nat.add_zero] at this
        rw [this]
        simp [Nat.min_eq_left h5]
      have hbetween : ∀ reject out,
          Between (pre ++ line :: post) post
            ⟨nuls (pre ++ line :: post), st.len + (line.length + 1), st.count + 1, reject, out⟩
            reject :=
        fun reject out => ⟨rfl, ⟨pre ++ [line], hsplit, hnext⟩, rfl⟩
      simp only [hrestored, hnamed, Rule.pattern]
      cases test m qregex (side.first.of call) (side.first.pick sender recipient) with
      | error err =>
          refine Agree.error ?_
          by_cases hk : side.keeps = true
          · rw [if_pos hk]
            exact failed_stops m qregex hk rfl
          · rw [if_neg hk]
            exact cut_stops hne hk rfl
      | miss => exact hbetween st.reject st.out
      | hit =>
          by_cases hr : st.reject = true ∨ line.take 5 = side.key
          · simp only [if_pos hr]
            cases test m qregex (side.second.of call) (side.second.pick sender recipient) with
            | error err => exact Agree.error (failed_stops m qregex trivial rfl)
            | hit => exact Agree.error (cut_stops hne (fun h => h) rfl)
            | miss => exact hbetween true _
          · simp only [if_neg hr]
            exact hbetween false _

end

/-! ## The scans, and a call -/

/-- No rule is shorter than the word in front of its patterns: the place five bytes into a shorter
one lies in the next rule, or behind the list. -/
def Long (lines : List Bytes) : Prop := ∀ l ∈ lines, 5 ≤ l.length

variable {m qregex} {lines : List Bytes} {call : Call}

theorem rules_agree (h0 : Plain lines) (h5 : Long lines) (side : Side) (out : Bytes) :
    Agree (Between lines []) (Stops lines side) (rules m qregex side call (nuls lines) out)
      (ruling m qregex side call lines) := by
  refine loop_agrees (R := Between lines) ?_ ?_ ⟨rfl, ⟨[], rfl, rfl⟩, rfl⟩ (length_le_nuls lines)
  · rintro st reject ⟨hw, ⟨pre, rfl, hlen⟩, -⟩
    simp [more, hw, hlen]
  · rintro line post st reject ⟨hw, ⟨pre, hpre, hlen⟩, hr⟩
    have hmem : line ∈ lines := by simp [hpre]
    constructor
    · rw [more, hw, hlen, hpre, length_nuls_split, decide_eq_true_iff]
      omega
    · subst hpre
      rw [← hr]
      exact turn_agrees m qregex (h0 line hmem) (h5 line hmem) hw hlen

/-- The mails after which the list is as it was: no rule is asked, or neither scan ends at a rule
that leaves its colon out. -/
def Quiet (m : Matcher) (qregex : Int) (lines : List Bytes) (call : Call) : Prop :=
  (exempt call).isSome ∨
    (∀ v, ruling m qregex rcptSide call lines = .error v → v.Restores rcptSide) ∧
      ∀ r v, ruling m qregex rcptSide call lines = .ok r →
        ruling m qregex fromSide call lines = .error v → v.Restores fromSide

/-- A mail that no rule decides is quiet. -/
theorem quiet_of_ok {r f : Bool} (hr : ruling m qregex rcptSide call lines = .ok r)
    (hf : ruling m qregex fromSide call lines = .ok f) : Quiet m qregex lines call :=
  .inr ⟨fun v hv => by simp [hr] at hv, fun _ v _ hv => by simp [hf] at hv⟩

/-- A call does what the rules say: it leaves the list alone, and returns their decision. -/
def Decides (m : Matcher) (qregex : Int) (lines : List Bytes) (acclist : Bytes) (call : Call) :
    Prop :=
  ∃ left, mail_acl m qregex acclist call = some left ∧
    ∀ r, left.ended = .returned r → left.acclist = nuls lines ∧ r = decision m qregex lines call

theorem Stops.decides_iff {side : Side} {left : Left} {v : Verdict} (h : Stops lines side left v) :
    (∀ r, left.ended = .returned r → left.acclist = nuls lines ∧ r = v.result) ↔
      v.Restores side := by
  obtain ⟨hlist, hended⟩ := h
  constructor
  · intro hall
    rcases hended with hret | ⟨hv, -⟩
    · exact hlist.mp (hall _ hret).1
    · exact hv
  · intro hv r hr
    refine ⟨hlist.mpr hv, ?_⟩
    rcases hended with hret | ⟨-, text, hdied⟩
    · rw [hret] at hr
      exact (Ended.returned.inj hr).symm
    · rw [hdied] at hr
      cases hr

/-- **One call.** From the whole list, a call does what the rules say just when it is quiet. -/
theorem decides_iff_quiet (h0 : Plain lines) (h5 : Long lines) :
    Decides m qregex lines (nuls lines) call ↔ Quiet m qregex lines call := by
  unfold Decides Quiet
  cases he : exempt call with
  | some text => simp [mail_acl, he, decision]
  | none =>
      have hrcpt := @rules_agree m qregex lines call h0 h5 rcptSide []
      simp only [mail_acl, he, decision, Option.isSome_none, Bool.false_eq_true, if_false, false_or]
      cases hr : ruling m qregex rcptSide call lines with
      | error v =>
          rw [hr] at hrcpt
          obtain ⟨left, hleft, hstops⟩ := hrcpt.error_inv
          simp only [hleft, Option.some.injEq, exists_eq_left', hstops.decides_iff]
          simp
      | ok r =>
          rw [hr] at hrcpt
          obtain ⟨st, hst, hbetween⟩ := hrcpt.ok_inv
          have hfrom := @rules_agree m qregex lines call h0 h5 fromSide st.out
          rw [← hbetween.whole] at hfrom
          cases hf : ruling m qregex fromSide call lines with
          | error v =>
              rw [hf] at hfrom
              obtain ⟨left, hleft, hstops⟩ := hfrom.error_inv
              simp only [hst, hleft, Option.some.injEq, exists_eq_left', hstops.decides_iff]
              simp
          | ok f =>
              rw [hf] at hfrom
              obtain ⟨st', hst', hbetween'⟩ := hfrom.ok_inv
              simp [hst, hst', hbetween.reject_eq, hbetween'.reject_eq, hbetween'.whole]

/-! ## Sessions -/

/-- The list, over the calls of a session. A call that ends the program has no effect to give. -/
def session (m : Matcher) (qregex : Int) : Machine Bytes Call where
  init := fun _ => True
  step acclist call :=
    match mail_acl m qregex acclist call with
    | some ⟨acclist', _, .returned _⟩ => some acclist'
    | _ => none

theorem decides_step {acclist acclist' : Bytes} (h : Decides m qregex lines acclist call)
    (hs : (session m qregex).step acclist call = some acclist') : acclist' = nuls lines := by
  obtain ⟨⟨list, out, ended⟩, hleft, hall⟩ := h
  cases ended with
  | returned r =>
      simp only [session, hleft, Option.some.injEq] at hs
      exact hs ▸ (hall r rfl).1
  | died text => simp [session, hleft] at hs

/-- **The access list over a session.** Every call does what the rules say, and leaves the list as
it was, just when every call is quiet. -/
theorem session_decides_iff (h0 : Plain lines) (h5 : Long lines) (calls : List Call) :
    (session m qregex).Meets (Decides m qregex lines) (nuls lines) calls ↔
      (session m qregex).Meets (fun _ call => Quiet m qregex lines call) (nuls lines) calls :=
  Machine.meets_iff_of_keeps (I := fun acclist => acclist = nuls lines)
    (fun _ _ _ _ hd hs => decides_step hd hs) (fun _ _ hi => hi ▸ decides_iff_quiet h0 h5) rfl

/-- The rules of a list, with `do_match` finding no match: only one may write to `list@x`. -/
def onlyCeo : List Bytes := [asc "rcpt:ceo@x:list@x"]

theorem session_decides_onlyCeo :
    let m : Matcher := ⟨fun _ _ _ => 0, fun _ _ _ => []⟩
    let toList : Call := ⟨asc "eve@x", asc "list@x", false⟩
    let toJoe : Call := ⟨asc "eve@x", asc "joe@x", false⟩
    decision m 0 onlyCeo toList = 1 ∧ decision m 0 onlyCeo toJoe = 0 ∧
      (session m 0).Meets (Decides m 0 onlyCeo) (nuls onlyCeo) [toList, toJoe] := by
  intro m toList toJoe
  have hlist : Quiet m 0 onlyCeo toList := quiet_of_ok (r := true) (f := false) rfl rfl
  have hjoe : Quiet m 0 onlyCeo toJoe := quiet_of_ok (r := false) (f := false) rfl rfl
  refine ⟨by decide, by decide, ?_⟩
  exact (session_decides_iff (by unfold Plain; decide) (by unfold Long; decide) _).mpr
    ⟨hlist, fun _ _ => ⟨hjoe, fun _ _ => trivial⟩⟩

/-- The mail the rule is made for leaves it in two pieces, and then anyone may write. -/
theorem ceo_opens_list :
    let m : Matcher := ⟨fun _ _ _ => 0, fun _ _ _ => []⟩
    let ceo : Call := ⟨asc "ceo@x", asc "list@x", false⟩
    let eve : Call := ⟨asc "eve@x", asc "list@x", false⟩
    let cut := nuls [asc "rcpt:ceo@x", asc "list@x"]
    mail_acl m 0 (nuls onlyCeo) ceo = some ⟨cut, [], .returned 0⟩ ∧
      mail_acl m 0 cut eve = some ⟨cut, [], .returned 0⟩ ∧
      decision m 0 onlyCeo eve = 1 ∧
      ¬ (session m 0).Meets (Decides m 0 onlyCeo) (nuls onlyCeo) [ceo, eve] := by
  intro m ceo eve cut
  refine ⟨by decide, by decide, by decide, ?_⟩
  rintro ⟨⟨left, hleft, hall⟩, -⟩
  have hceo : mail_acl m 0 (nuls onlyCeo) ceo = some ⟨cut, [], .returned 0⟩ := by decide
  cases hleft.symm.trans hceo
  exact absurd (hall 0 rfl).1 (by decide)

end IndimailMta.Smtpd.MailAcl
