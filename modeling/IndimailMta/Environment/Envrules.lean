import IndimailMta.ControlList
import IndimailMta.Environment.ParseEnv

/-!
# Rules for the environment

`envrules` reads a file of lines `pattern:assignments`. The assignments of every line whose pattern
matches the address are made, one line after another, by `parse_env`, which works in the line
itself; what it does there does not reach the next line. A pattern is matched in the environment
that the lines before it left.
-/

namespace IndimailMta.Environment.Envrules

open IndimailMta ControlList Scan

/-- `do_match`, with the value of QREGEX, and the calls that fail for want of memory, both given
the calls that were made before: `do_match` looks at USE_FNMATCH each time, and a line can set it. -/
structure World where
  do_match : List Call → Int → Bytes → Bytes → Int
  use_regex : Int
  fails : List Call → Call → Bool

variable (w : World) (email : Bytes)

/-! ## The code -/

/-- The calls are made, to the first that fails: all that were made, and the result of
`parse_env`. -/
def perform : List Call → List Call → List Call × Int
  | done, [] => (done, 0)
  | done, c :: cs => if w.fails done c then (done, 1) else perform (done ++ [c]) cs

structure St where
  rules : Bytes
  len : Nat
  count : Int
  lcount : Nat
  done : List Call
  deriving DecidableEq, Repr

/-- The pattern matches; the null address matches the patterns that are for it. -/
def hit (done : List Call) (pattern : Bytes) : Bool :=
  (email = [] && (pattern = [] || pattern = asc "<>")) ||
    w.do_match done w.use_regex email pattern > 0

/-- The body of the loop. -/
def turn (st : St) : Option (Except (Int × List Call) St) := do
  let ptr ← textAt st.rules st.len
  let len := st.len + (ptr.length + 1)
  match ptr.dropWhile (· ≠ 58) with
  | [] => some (.ok { st with len := len })
  | _ :: _ =>
      let cptr := st.len + (ptr.takeWhile (· ≠ 58)).length
      let rules := st.rules.set cptr 0
      let pattern ← textAt rules st.len
      if hit w email st.done pattern then
        let text ← textAt rules (cptr + 1)
        let parsed ← parseEnv text
        let rules := rules.take (cptr + 1) ++ parsed.buf ++ rules.drop (cptr + 1 + parsed.buf.length)
        let (done, failed) := perform w st.done parsed.calls
        if failed ≠ 0 then some (.error (-1, done))
        else some (.ok ⟨rules, len, st.lcount + 1, st.lcount + 1, done⟩)
      else some (.ok { st with rules := rules, len := len, lcount := st.lcount + 1 })

def more (st : St) : Bool := st.len < st.rules.length

/-- `envrules`, on the lines of its file: the result, and the calls that were made. -/
def envrules (lines : List Bytes) : Option (Int × List Call) :=
  match loop more (turn w email) (nuls lines).length ⟨nuls lines, 0, 0, 0, []⟩ with
  | none => none
  | some (.error r) => some r
  | some (.ok st) => some (st.count, st.done)

/-! ## What the lines say -/

/-- `pattern:assignments` -/
structure Rule where
  pattern : Bytes
  text : Bytes
  deriving DecidableEq, Repr

def Rule.read (line : Bytes) : Option Rule :=
  match line.dropWhile (· ≠ 58) with
  | [] => none
  | _ :: text => some ⟨line.takeWhile (· ≠ 58), text⟩

/-- The calls of a text. -/
def callsOf (text : Bytes) : List Call := ((parseEnv text).map Environment.St.calls).getD []

/-- The assignments of the lines that match, in their order, behind the calls that were made. -/
def applied (done : List Call) : List Bytes → List Call
  | [] => []
  | line :: lines =>
      match Rule.read line with
      | none => applied done lines
      | some r =>
          if hit w email done r.pattern then
            callsOf r.text ++ applied (done ++ callsOf r.text) lines
          else applied done lines

variable {w email}

/-! ## One line -/

/-- In front of a line: what is behind the pointer is as it was read. -/
structure At (post : List Bytes) (st : St) : Prop where
  rest : st.rules.drop st.len = nuls post
  inside : st.len ≤ st.rules.length

theorem textAt_of_drop {buf l : Bytes} {i : Nat} (tail : Bytes) (h0 : (0 : Byte) ∉ l)
    (h : buf.drop i = l ++ 0 :: tail) : textAt buf i = some l := by
  rw [textAt, h, if_pos (by simp), cstr_append tail h0]

/-- A line has the place of a text of its length. -/
theorem at_next {front mid : Bytes} {post : List Bytes} {st : St}
    (hrules : st.rules = front ++ (mid ++ nuls post)) (hlen : st.len = front.length + mid.length) :
    At post st := by
  have hsplit : st.rules = (front ++ mid) ++ nuls post := by rw [hrules, List.append_assoc]
  have hplace : st.len = (front ++ mid).length := by rw [hlen, List.length_append]
  constructor
  · rw [hsplit, hplace, List.drop_left]
  · rw [hsplit, hplace]
    exact (List.prefix_append _ _).length_le

section Cut

variable {front pattern text rest : Bytes}

/-- The colon is overwritten: the pattern and the assignments are strings. -/
theorem set_colon :
    (front ++ (pattern ++ 58 :: (text ++ 0 :: rest))).set (front.length + pattern.length) 0 =
      front ++ ((pattern ++ 0 :: (text ++ [0])) ++ rest) := by
  rw [List.set_append_right _ _ (Nat.le_add_right _ _), Nat.add_sub_cancel_left,
    List.set_append_right _ _ (Nat.le_refl _), Nat.sub_self, List.set_cons_zero]
  simp

theorem textAt_pattern (h0 : (0 : Byte) ∉ pattern) :
    textAt (front ++ ((pattern ++ 0 :: (text ++ [0])) ++ rest)) front.length = some pattern := by
  refine textAt_of_drop (text ++ 0 :: rest) h0 ?_
  rw [List.drop_left]
  simp

/-- The buffer in front of the assignments, and from there on. -/
theorem split_text :
    front ++ ((pattern ++ 0 :: (text ++ [0])) ++ rest) =
      (front ++ (pattern ++ [0])) ++ ((text ++ [0]) ++ rest) := by
  simp

theorem length_front :
    front.length + pattern.length + 1 = (front ++ (pattern ++ [0])).length := by
  simp [Nat.add_assoc]

theorem textAt_text (h0 : (0 : Byte) ∉ text) :
    textAt (front ++ ((pattern ++ 0 :: (text ++ [0])) ++ rest)) (front.length + pattern.length + 1) =
      some text := by
  refine textAt_of_drop rest h0 ?_
  rw [split_text, length_front, List.drop_left, List.append_assoc, List.singleton_append]

/-- What `parse_env` leaves of the assignments stands in their place. -/
theorem put_text {buf : Bytes} (hbuf : buf.length = text.length + 1) :
    (front ++ ((pattern ++ 0 :: (text ++ [0])) ++ rest)).take (front.length + pattern.length + 1) ++
        buf ++ (front ++ ((pattern ++ 0 :: (text ++ [0])) ++ rest)).drop
          (front.length + pattern.length + 1 + buf.length) =
      front ++ ((pattern ++ 0 :: buf) ++ rest) := by
  have hlen : buf.length = (text ++ [0]).length := by rw [hbuf, List.length_append, List.length_singleton]
  rw [split_text, length_front, List.take_left, ← List.drop_drop, List.drop_left, hlen,
    List.drop_left]
  simp

end Cut

/-- A step of the reference: the rules' number, and the calls made. -/
def follow (w : World) (email : Bytes) (t : Int × Nat × List Call) (line : Bytes) :
    Except (Int × List Call) (Int × Nat × List Call) :=
  match Rule.read line with
  | none => .ok t
  | some r =>
      if hit w email t.2.2 r.pattern then
        let (done, failed) := perform w t.2.2 (callsOf r.text)
        if failed ≠ 0 then .error (-1, done) else .ok (t.2.1 + 1, t.2.1 + 1, done)
      else .ok (t.1, t.2.1 + 1, t.2.2)

/-- Between two lines of the loop, and of the reference. -/
def Between (post : List Bytes) (st : St) (t : Int × Nat × List Call) : Prop :=
  At post st ∧ (st.count, st.lcount, st.done) = t

theorem turn_agrees {line : Bytes} {post : List Bytes} {st : St} {t : Int × Nat × List Call}
    (h0 : (0 : Byte) ∉ line) (h : Between (line :: post) st t) :
    more st = true ∧ Agree (Between post) Eq (turn w email st) (follow w email t line) := by
  obtain ⟨⟨hrest, hin⟩, rfl⟩ := h
  rw [nuls_cons] at hrest
  obtain ⟨front, hfront, hbuf⟩ : ∃ front : Bytes, st.len = front.length ∧
      st.rules = front ++ (line ++ 0 :: nuls post) :=
    ⟨st.rules.take st.len, by rw [List.length_take, Nat.min_eq_left hin],
      by rw [← hrest, List.take_append_drop]⟩
  have hptr : textAt st.rules st.len = some line := textAt_of_drop _ h0 hrest
  refine ⟨?_, ?_⟩
  · rw [more, hbuf, decide_eq_true_iff, List.length_append, hfront]
    have hpos : 0 < (line ++ 0 :: nuls post).length := by
      rw [List.length_append, List.length_cons]
      omega
    exact Nat.lt_add_of_pos_right hpos
  · simp only [turn, follow, Rule.read, hptr, Option.bind_eq_bind, Option.bind_some]
    cases hd : line.dropWhile (· ≠ 58) with
    | nil =>
        -- no colon, and nothing is written
        refine ⟨@at_next front (line ++ [0]) post _ (by simp [hbuf]) ?_, rfl⟩
        simp [hfront]
    | cons c text =>
        obtain ⟨rfl, hline⟩ := split_at hd
        set pattern := line.takeWhile (· ≠ 58) with hpattern
        have h0p : (0 : Byte) ∉ pattern := fun hm => h0 (List.takeWhile_subset _ hm)
        have h0t : (0 : Byte) ∉ text := fun hm => h0 (by rw [hline]; simp [hm])
        have hlen : line.length + 1 = pattern.length + (text.length + 2) := by
          conv_lhs => rw [hline]
          simp
          omega
        have hbuf' : st.rules = front ++ (pattern ++ 58 :: (text ++ 0 :: nuls post)) := by
          rw [hbuf]
          conv_lhs => rw [hline]
          simp
        rw [hbuf', hfront, set_colon]
        simp only [textAt_pattern h0p, Option.bind_some]
        by_cases hhit : hit w email st.done pattern = true
        · obtain ⟨parsed, hparsed, -, hplen⟩ := parseEnv_eq h0t
          have hcalls : callsOf text = parsed.calls := by rw [callsOf, hparsed]; rfl
          rw [if_pos hhit, if_pos hhit]
          simp only [textAt_text h0t, hparsed, hcalls, Option.bind_some]
          cases hperform : perform w st.done parsed.calls with
          | mk done failed =>
              by_cases hfailed : failed ≠ 0
              · simp only [if_pos hfailed]
                exact Agree.error rfl
              · simp only [if_neg hfailed]
                rw [put_text hplen]
                refine ⟨at_next rfl ?_, rfl⟩
                simp [hlen, hplen]
        · rw [if_neg hhit, if_neg hhit]
          refine ⟨at_next rfl ?_, rfl⟩
          simp [hlen]

/-! ## All lines -/

theorem loop_follows {lines : List Bytes} (h0 : Plain lines) :
    Agree (Between []) Eq
      (loop more (turn w email) (nuls lines).length ⟨nuls lines, 0, 0, 0, []⟩)
      (lines.foldlM (follow w email) (0, 0, [])) := by
  have hnil : ∀ st t, Plain [] ∧ Between [] st t → more st = false := by
    rintro st t ⟨-, ⟨hrest, -⟩, -⟩
    have hlen := List.drop_eq_nil_iff.mp hrest
    simpa [more] using hlen
  have hcons : ∀ line post st t, Plain (line :: post) ∧ Between (line :: post) st t →
      more st = true ∧
        Agree (fun s t => Plain post ∧ Between post s t) Eq (turn w email st)
          (follow w email t line) := by
    rintro line post st t ⟨hp, hb⟩
    obtain ⟨h0, hpost⟩ := hp.of_cons
    obtain ⟨hmore, hturn⟩ := turn_agrees h0 hb
    exact ⟨hmore, hturn.mono fun s t h => ⟨hpost, h⟩⟩
  have hstart : Between lines ⟨nuls lines, 0, 0, 0, []⟩ (0, 0, []) :=
    ⟨⟨by simp, Nat.zero_le _⟩, rfl⟩
  have hloop := loop_agrees (R := fun post s t => Plain post ∧ Between post s t) (Q := Eq)
    hnil hcons ⟨h0, hstart⟩ (length_le_nuls lines)
  exact hloop.mono fun s t h => h.2

/-- If no call fails, all are made. -/
theorem perform_done {done calls : List Call} (h : (perform w done calls).2 = 0) :
    (perform w done calls).1 = done ++ calls := by
  induction calls generalizing done with
  | nil => exact (List.append_nil done).symm
  | cons c cs ih =>
      rw [perform] at h ⊢
      by_cases hc : w.fails done c = true
      · rw [if_pos hc] at h
        cases h
      · rw [if_neg hc] at h ⊢
        rw [ih h, List.append_assoc, List.singleton_append]

theorem perform_append (done calls more : List Call) :
    perform w done (calls ++ more) =
      if (perform w done calls).2 ≠ 0 then perform w done calls
      else perform w (perform w done calls).1 more := by
  induction calls generalizing done with
  | nil => simp [perform]
  | cons c cs ih =>
      rw [List.cons_append, perform, perform]
      by_cases hc : w.fails done c = true
      · simp [hc]
      · rw [if_neg hc, if_neg hc, ih]

/-- The fold makes the calls of the lines that match, to the first that fails. -/
theorem foldlM_follow (lines : List Bytes) (t : Int × Nat × List Call) (ht : 0 ≤ t.1) :
    let (done, failed) := perform w t.2.2 (applied w email t.2.2 lines)
    if failed ≠ 0 then lines.foldlM (follow w email) t = .error (-1, done)
    else ∃ count lcount, 0 ≤ count ∧
      lines.foldlM (follow w email) t = .ok (count, lcount, done) := by
  induction lines generalizing t with
  | nil => exact ⟨t.1, t.2.1, ht, rfl⟩
  | cons line lines ih =>
      rw [List.foldlM_cons]
      cases hr : Rule.read line with
      | none =>
          have happlied : applied w email t.2.2 (line :: lines) = applied w email t.2.2 lines := by
            rw [applied, hr]
          have hstep : follow w email t line = .ok t := by rw [follow, hr]
          rw [hstep, happlied]
          exact ih t ht
      | some r =>
          by_cases hhit : hit w email t.2.2 r.pattern = true
          · have happlied : applied w email t.2.2 (line :: lines) =
                callsOf r.text ++ applied w email (t.2.2 ++ callsOf r.text) lines := by
              simp [applied, hr, hhit]
            rw [happlied, perform_append]
            by_cases hfailed : (perform w t.2.2 (callsOf r.text)).2 ≠ 0
            · have hstep : follow w email t line =
                  .error (-1, (perform w t.2.2 (callsOf r.text)).1) := by
                simp [follow, hr, hhit, hfailed]
              rw [if_pos hfailed, hstep]
              simp only [if_pos hfailed]
              rfl
            · have hstep : follow w email t line =
                  .ok (t.2.1 + 1, t.2.1 + 1, (perform w t.2.2 (callsOf r.text)).1) := by
                simp [follow, hr, hhit, hfailed]
              rw [if_neg hfailed, hstep, ← perform_done (not_not.mp hfailed)]
              exact ih (t.2.1 + 1, t.2.1 + 1, _) (by change (0 : Int) ≤ t.2.1 + 1; omega)
          · have happlied : applied w email t.2.2 (line :: lines) =
                applied w email t.2.2 lines := by
              simp [applied, hr, hhit]
            have hstep : follow w email t line = .ok (t.1, t.2.1 + 1, t.2.2) := by
              simp [follow, hr, hhit]
            rw [hstep, happlied]
            exact ih (t.1, t.2.1 + 1, t.2.2) ht

/-- **The texts of the lines that match are applied, and no others**, to the first call that
fails. -/
theorem envrules_eq {lines : List Bytes} (h0 : Plain lines) :
    ∃ result, envrules w email lines =
        some (result, (perform w [] (applied w email [] lines)).1) ∧
      (result = -1 ↔ (perform w [] (applied w email [] lines)).2 ≠ 0) := by
  have hloop := @loop_follows w email lines h0
  have hfold := @foldlM_follow w email lines (0, 0, []) (Int.le_refl 0)
  unfold envrules
  by_cases hfailed : (perform w [] (applied w email [] lines)).2 ≠ 0
  · simp only [if_pos hfailed] at hfold
    rw [hfold] at hloop
    obtain ⟨r, hr, rfl⟩ := hloop.error_inv
    rw [hr]
    exact ⟨-1, rfl, iff_of_true rfl hfailed⟩
  · simp only [if_neg hfailed] at hfold
    obtain ⟨count, lcount, hcount, hok⟩ := hfold
    rw [hok] at hloop
    obtain ⟨st, hst, -, heq⟩ := hloop.ok_inv
    rw [hst]
    obtain ⟨hc, -, hd⟩ : st.count = count ∧ st.lcount = lcount ∧ st.done = _ := by
      simpa using heq
    refine ⟨st.count, by dsimp only; rw [hd], iff_of_false ?_ hfailed⟩
    omega

/-- **Rules for the environment.** The text of a list of assignments has their effects if and only
if it is readable: no value ends in `=`, none but the last in a comma or in `\`, and nothing is
unset that has no name. The lines that match are the ones that are applied. -/
theorem rules_applied_iff (w : World) (email : Bytes) {as : List Assignment} {lines : List Bytes}
    (hn : ∀ a ∈ as, a.Named) (h0 : Plain lines) :
    ((parseEnv (textOf as)).map Environment.St.calls = some (as.map Assignment.call) ↔
        Readable as) ∧
      ∃ result, envrules w email lines =
          some (result, (perform w [] (applied w email [] lines)).1) ∧
        (result = -1 ↔ (perform w [] (applied w email [] lines)).2 ≠ 0) :=
  ⟨calls_textOf_iff hn, envrules_eq h0⟩

/-- Capitals count until USE_FNMATCH is set. -/
def casefoldWorld : World where
  do_match done _ s p :=
    if .put (asc "USE_FNMATCH=1") ∈ done then if caseLower s = caseLower p then 1 else 0
    else if s = p then 1 else 0
  use_regex := 0
  fails := fun _ _ => false

/-- The same pattern does not match, and matches behind a line that sets USE_FNMATCH. -/
def casefoldLines : List Bytes := [asc "A@b:A=1", asc "a@b:USE_FNMATCH=1", asc "A@b:B=2,C="]

theorem rules_applied_example :
    ((parseEnv (textOf [⟨asc "A", asc "x,y"⟩, ⟨asc "B", []⟩])).map Environment.St.calls =
          some [.put (asc "A=x,y"), .unset (asc "B")] ↔
        Readable [⟨asc "A", asc "x,y"⟩, ⟨asc "B", []⟩]) ∧
      ∃ result, envrules casefoldWorld (asc "a@b") casefoldLines =
          some (result, (perform casefoldWorld []
            (applied casefoldWorld (asc "a@b") [] casefoldLines)).1) ∧
        (result = -1 ↔ (perform casefoldWorld []
          (applied casefoldWorld (asc "a@b") [] casefoldLines)).2 ≠ 0) :=
  rules_applied_iff casefoldWorld (asc "a@b") (by decide +kernel) (by unfold Plain; decide +kernel)

example : applied casefoldWorld (asc "a@b") [] casefoldLines =
    [.put (asc "USE_FNMATCH=1"), .put (asc "B=2"), .unset (asc "C")] := by
  decide +kernel

/-- The separator behind a value that ends in a comma is read as a part of the value. -/
theorem comma_hides_separator :
    ¬ ∀ as : List Assignment, (∀ a ∈ as, a.Named) →
      (parseEnv (textOf as)).map Environment.St.calls = some (as.map Assignment.call) := by
  intro h
  have hcalls := h [⟨asc "A", asc "x,"⟩, ⟨asc "B", asc "1"⟩] (by decide +kernel)
  revert hcalls
  decide +kernel

end IndimailMta.Environment.Envrules
