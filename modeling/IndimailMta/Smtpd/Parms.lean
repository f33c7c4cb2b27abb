import IndimailMta.Smtpd.Session

/-!
# Parameters of the MAIL command

`mailfrom_parms` goes through the argument of the command from its second byte on, cuts it at the
spaces, and looks whether a word begins with `SIZE=` or `AUTH=`. The word is in a buffer that the
next word is written over from the beginning, and it is looked at before it has a NUL: the `Z` that
`stralloc_catb` leaves behind what it appends, and behind that what an earlier word has left, are
looked at as well.

`Clear` says when this makes no difference: then `mailfrom_size` and `mailfrom_auth` are called
for the parameters behind the reverse-path and for nothing else, and `mailfrom_auth` stays inside
the value.
-/

namespace IndimailMta.Smtpd.Parms

open IndimailMta

/-! ## `mailfrom_auth` -/

/-- The loop of `mailfrom_auth`: `arg` is the rest of the value. No value where the loop goes on
behind the value. -/
def authLoop : Nat → Bytes → Int → Bytes → Option Bytes
  | 0, _, _, _ => none
  | fuel + 1, arg, len, user =>
      if len = 0 then some user
      else
        match arg with
        | [] => none
        | c :: rest =>
            if c = 43 then
              let hex := case_starts (c :: rest) (asc "+3d")
              let arg := if hex then rest.drop 1 else c :: rest
              let len := if hex then len - 2 else len
              let user := if hex then user ++ asc "=" else user
              let hex := case_starts arg (asc "+2b")
              let arg := if hex then arg.drop 2 else arg
              let len := if hex then len - 2 else len
              let user := if hex then user ++ asc "+" else user
              authLoop fuel (arg.drop 1) (len - 1) user
            else authLoop fuel rest (len - 1) (user ++ [c])

structure Conf where
  nm : Ulongs
  databytes : Nat
  authd : Bool
  smtputf8_enable : Bool

/-- A call, with its arguments. -/
inductive Call where
  | size (arg : Bytes)
  | auth (arg : Bytes) (len : Int)
  deriving DecidableEq, Repr

/-- The buffer `mfparms`, what the two functions set, and the calls made, each with how many bytes
of the argument were left. -/
structure St where
  buf : Bytes
  len : Nat := 0
  flagsize : Bool := false
  msg_size : Nat := 0
  smtputf8 : Bool := false
  user : Bytes := []
  remoteinfo : Option Bytes := none
  calls : List (Nat × Call) := []
  deriving DecidableEq, Repr

variable (conf : Conf)

def mailfrom_auth (arg : Bytes) (len : Int) (st : St) : Option St :=
  if conf.authd then some st
  else do
    let user ← if case_starts arg (asc "<>") then some (asc "unknown")
      else authLoop (arg.length + 1) arg len []
    return { st with user := user, remoteinfo := some (st.remoteinfo.getD user) }

/-! ## `mailfrom_size` -/

/-- Does `mailfrom_size` refuse the message? -/
def refused (arg : Bytes) : Bool :=
  0 < conf.databytes && conf.databytes < (conf.nm.scanUlong (arg ++ [0])).2

def mailfrom_size (arg : Bytes) (st : St) : Bool × St :=
  (refused conf arg, { st with msg_size := (conf.nm.scanUlong (arg ++ [0])).2 })

/-! ## `mailfrom_parms` -/

/-- A byte is put at a place of the buffer. -/
def put (buf : Bytes) (len : Nat) (b : Byte) : Bytes := buf.take len ++ b :: buf.drop (len + 1)

/-- `stralloc_catb` of one byte: it leaves a `Z` behind it. -/
def St.store (st : St) (b : Byte) : St :=
  { st with buf := put (put st.buf st.len b) (st.len + 1) 90, len := st.len + 1 }

/-- The end of a word, and whether `mailfrom_parms` returns. -/
def endWord (place : Nat) (st : St) : Option (St × Bool) :=
  if conf.smtputf8_enable && case_starts st.buf (asc "smtputf8") then
    some ({ st with smtputf8 := true, len := 0 }, false)
  else if case_starts st.buf (asc "size=") then
    let buf := put st.buf st.len 0
    let arg := cstr (buf.drop 5)
    let r := mailfrom_size conf arg
      { st with buf := buf, calls := st.calls ++ [(place, .size arg)] }
    if r.1 then some ({ r.2 with flagsize := true }, true)
    else some ({ r.2 with len := 0 }, false)
  else if case_starts st.buf (asc "auth=") then do
    let buf := put st.buf st.len 0
    let arg := cstr (buf.drop 5)
    -- of the word, also where the parameter in the buffer is an earlier one
    let len := (st.len : Int) - 5
    let st ← mailfrom_auth conf arg len
      { st with buf := buf, calls := st.calls ++ [(place, .auth arg len)] }
    return ({ st with len := 0 }, false)
  else some ({ st with len := 0 }, false)

/-- The loop, over the bytes of the argument from the second on, and its NUL. -/
def parmsLoop : St → Bytes → Option St
  | st, [] => some st
  | st, b :: rest =>
      if b = 32 ∨ b = 0 then do
        let r ← endWord conf rest.length st
        if r.2 then return r.1 else parmsLoop r.1 rest
      else parmsLoop (st.store b) rest

/-- The place of the first `>`. -/
def gate (arg : Bytes) : Bool :=
  4 < (arg.takeWhile (· ≠ 62)).length && (arg.takeWhile (· ≠ 62)).length < arg.length

def mailfrom_parms (arg : Bytes) (st : St) : Option St :=
  if gate arg then parmsLoop conf { st with len := 0 } (arg.tail ++ [0])
  else some { st with len := 0 }

/-! ## The parameters of a command -/

inductive Kind where
  | size
  | auth
  deriving DecidableEq, Repr

def kind (w : Bytes) : Option Kind :=
  if case_starts w (asc "size=") then some .size
  else if case_starts w (asc "auth=") then some .auth
  else none

/-- The call for a word. -/
def callOf (w : Bytes) : Option Call :=
  match kind w with
  | some .size => some (.size (w.drop 5))
  | some .auth => some (.auth (w.drop 5) ((w.length : Int) - 5))
  | none => none

/-- The length of words with their separators. -/
def behind : List Bytes → Nat
  | [] => 0
  | w :: ws => w.length + 1 + behind ws

/-- A text up to the `>` that closes the path, which is not escaped and not quoted, and what is
behind it. -/
def closing (flagesc flagquoted : Bool) : Bytes → Option (Bytes × Bytes)
  | [] => none
  | ch :: rest =>
      if !flagesc && !flagquoted && ch = 62 then some ([ch], rest)
      else
        let quoted := if !flagesc && ch = 34 then !flagquoted else flagquoted
        (closing (!flagesc && ch = 92) quoted rest).map fun p => (ch :: p.1, p.2)

/-- The source route of a path, with its colon. -/
def route (path : Bytes) : Bytes :=
  if path.head? = some 64 then path.take ((path.takeWhile (· ≠ 58)).length + 1) else []

/-- The argument up to the `>` that closes the reverse-path, and what is behind it; nothing, if
there is no such path. -/
def reversePath (arg : Bytes) : Bytes × Bytes :=
  let start := arg.take ((arg.takeWhile (· ≠ 60)).length + 1)
  let path := arg.drop ((arg.takeWhile (· ≠ 60)).length + 1)
  match closing false false (path.drop (route path).length) with
  | some (s, rest) => (start ++ route path ++ s, rest)
  | none => (arg, [])

/-- The words, each with the length of what is behind it. -/
def placed : List Bytes → List (Nat × Bytes)
  | [] => []
  | w :: ws => (behind ws, w) :: placed ws

def callAt (x : Nat × Bytes) : Option (Nat × Call) := (callOf x.2).map fun c => (x.1, c)

/-- The parameters: the words behind the reverse-path that begin with `SIZE=` or `AUTH=`. -/
def params (arg : Bytes) : List (Nat × Call) :=
  (placed ((reversePath arg).2.splitOn 32)).filterMap callAt

/-! ## The words that are looked at -/

/-- What `mailfrom_parms` takes for words. -/
def words (arg : Bytes) : List Bytes := arg.tail.splitOn 32

/-- A text lies over what was left in the buffer. -/
def lay (known w : Bytes) : Bytes := w ++ known.drop w.length

/-- What a word puts into the buffer. -/
def left (w : Bytes) : Bytes := if w = [] then [] else w ++ [90]

/-- The first bytes of a text may be those of a parameter, as far as they go. -/
def begins (b : Bytes) : Prop :=
  (b.take 5).map lower <+: asc "size=" ∨ (b.take 5).map lower <+: asc "auth="

instance (b : Bytes) : Decidable (begins b) := inferInstanceAs (Decidable (_ ∨ _))

/-- Does the word end it all? -/
def stops (w : Bytes) : Prop := kind w = some .size ∧ refused conf (w.drop 5) = true

instance (w : Bytes) : Decidable (stops conf w) := inferInstanceAs (Decidable (_ ∧ _))

/-- What is in the buffer behind a short word never looks like a parameter, and there is no
parameter behind a refused one. -/
def Told (known : Bytes) : List Bytes → Prop
  | [] => True
  | w :: ws =>
      (w.length < 5 → ¬ begins (lay known (left w))) ∧
        (stops conf w → ∀ x ∈ ws, kind x = none) ∧ (¬ stops conf w → Told (lay known (left w)) ws)

instance decideTold (known : Bytes) : (ws : List Bytes) → Decidable (Told conf known ws)
  | [] => .isTrue trivial
  | w :: ws =>
      haveI := decideTold (lay known (left w)) ws
      inferInstanceAs (Decidable (_ ∧ _ ∧ _))

/-- When `mailfrom_parms` does what is meant. -/
structure Clear (arg : Bytes) : Prop where
  gate : gate arg = true
  before : ∀ w ∈ (words arg).take ((reversePath arg).1.tail.splitOn 32).length, kind w = none
  attached : ∀ w ∈ ((reversePath arg).2.splitOn 32).head?, kind w = none
  told : Told conf [] (words arg)

variable {conf} {st : St} {arg buf w : Bytes}

/-! ## `mailfrom_auth` ends inside the value -/

theorem case_starts_iff {s t : Bytes} :
    case_starts s t = true ↔ (s.take t.length).map lower = t := by
  rw [case_starts, beq_iff_eq]

/-- What begins with three given letters has more than two bytes, and does not begin with a plus
after two. -/
theorem hex_cases {c : Byte} {rest : Bytes} {x y : Byte}
    (h : case_starts (c :: rest) [43, x, y] = true) (hy : y ≠ 43) :
    ∃ a b t, rest = a :: b :: t ∧ case_starts (b :: t) (asc "+2b") = false := by
  rw [case_starts_iff] at h
  rcases rest with _ | ⟨a, _ | ⟨b, t⟩⟩
  · simp at h
  · simp at h
  · refine ⟨a, b, t, rfl, ?_⟩
    simp only [List.length_cons, List.length_nil, List.take_succ_cons, List.map_cons,
      List.cons.injEq] at h
    rw [← Bool.not_eq_true, case_starts_iff]
    intro h2
    have hb : lower b = 43 := by
      have hh := congrArg List.head? h2
      simpa [asc] using hh
    exact hy (h.2.2.1.symm.trans hb)

/-- **The loop of `mailfrom_auth` ends inside the value**, when it has the length of the value. -/
theorem authLoop_isSome {fuel : Nat} {arg : Bytes} (user : Bytes) (h : arg.length < fuel) :
    (authLoop fuel arg arg.length user).isSome = true := by
  induction fuel generalizing arg user with
  | zero => exact absurd h (Nat.not_lt_zero _)
  | succ fuel ih =>
      cases arg with
      | nil => simp [authLoop]
      | cons c rest =>
          rw [List.length_cons] at h
          have hlen : ((c :: rest).length : Int) ≠ 0 := by
            rw [List.length_cons]
            omega
          rw [authLoop, if_neg hlen]
          simp only
          split
          · -- `+3d` leaves off at its last letter, where no `+2b` begins
            rename_i hc
            by_cases h3 : case_starts (c :: rest) (asc "+3d") = true
            · obtain ⟨a, b, t, rfl, hb⟩ := hex_cases h3 (by decide)
              simp only [List.length_cons] at h
              simp only [h3, if_true, List.drop_succ_cons, List.drop_zero, hb, if_false,
                Bool.false_eq_true, List.length_cons]
              have hnext := @ih t (user ++ asc "=") (by omega)
              rwa [show ((t.length + 1 + 1 + 1 : Nat) : Int) - 2 - 1 = t.length by omega]
            · simp only [h3, if_false, Bool.false_eq_true]
              by_cases h2 : case_starts (c :: rest) (asc "+2b") = true
              · obtain ⟨a, b, t, rfl, -⟩ := hex_cases h2 (by decide)
                simp only [List.length_cons] at h
                simp only [h2, if_true, List.drop_succ_cons, List.drop_zero, List.length_cons]
                have hnext := @ih t (user ++ asc "+") (by omega)
                rwa [show ((t.length + 1 + 1 + 1 : Nat) : Int) - 2 - 1 = t.length by omega]
              · simp only [h2, if_false, Bool.false_eq_true, List.drop_succ_cons, List.drop_zero,
                  List.length_cons]
                have hnext := @ih rest user (by omega)
                rwa [show ((rest.length + 1 : Nat) : Int) - 1 = rest.length by omega]
          · have hnext := @ih rest (user ++ [c]) (by omega)
            rw [List.length_cons]
            rwa [show ((rest.length + 1 : Nat) : Int) - 1 = rest.length by omega]

theorem mailfrom_auth_some (arg : Bytes) (st : St) :
    ∃ st', mailfrom_auth conf arg arg.length st = some st' ∧ st'.calls = st.calls ∧
      st'.buf = st.buf := by
  rw [mailfrom_auth]
  split
  · exact ⟨st, rfl, rfl, rfl⟩
  · split
    · exact ⟨_, rfl, rfl, rfl⟩
    · have h := @authLoop_isSome _ arg [] (Nat.lt_succ_self _)
      obtain ⟨user, huser⟩ := Option.isSome_iff_exists.mp h
      rw [huser]
      exact ⟨_, rfl, rfl, rfl⟩

theorem mailfrom_auth_calls {len : Int} {st' : St} (h : mailfrom_auth conf arg len st = some st') :
    st'.calls = st.calls := by
  rw [mailfrom_auth] at h
  split at h
  · obtain rfl := Option.some.inj h
    rfl
  · split at h
    · obtain rfl := Option.some.inj h
      rfl
    · obtain ⟨user, -, h⟩ := Option.bind_eq_some_iff.mp h
      obtain rfl := Option.some.inj h
      rfl

/-! ## The buffer -/

/-- A word is put into the buffer. -/
def St.storeAll (st : St) (w : Bytes) : St := w.foldl St.store st

/-- The loop, over words. -/
def wordsLoop (conf : Conf) : St → List Bytes → Option St
  | st, [] => some st
  | st, w :: ws => do
      let r ← endWord conf (behind ws) (st.storeAll w)
      if r.2 then return r.1 else wordsLoop conf r.1 ws

theorem exists_splitOn (s : Bytes) : ∃ g gs, s.splitOn 32 = g :: gs :=
  List.exists_cons_of_ne_nil (List.splitOnP_ne_nil (· == 32) s)

theorem splitOn_cons (b : Byte) (s : Bytes) : (b :: s).splitOn 32 =
    if b = 32 then [] :: s.splitOn 32 else (s.splitOn 32).modifyHead (b :: ·) := by
  rw [List.splitOn, List.splitOnP_cons_eq_if_modifyHead]
  simp only [beq_iff_eq]
  rfl

theorem behind_splitOn (s : Bytes) : behind (s.splitOn 32) = s.length + 1 := by
  induction s with
  | nil => rfl
  | cons b s ih =>
      rw [splitOn_cons]
      split
      · rw [behind, ih]
        simp [Nat.add_comm]
      · obtain ⟨g, gs, hg⟩ := exists_splitOn s
        rw [hg] at ih ⊢
        rw [behind] at ih
        rw [List.modifyHead_cons, behind, List.length_cons, List.length_cons]
        omega

theorem parmsLoop_eq {s : Bytes} (h : 0 ∉ s) (st : St) :
    parmsLoop conf st (s ++ [0]) = wordsLoop conf st (s.splitOn 32) := by
  induction s generalizing st with
  | nil =>
      rw [List.nil_append, parmsLoop, if_pos (Or.inr rfl)]
      rfl
  | cons b s ih =>
      rw [List.mem_cons, not_or] at h
      rw [List.cons_append, parmsLoop, splitOn_cons]
      by_cases hb : b = 32
      · have hlen : (s ++ [0]).length = behind (s.splitOn 32) := by
          rw [behind_splitOn, List.length_append, List.length_singleton]
        rw [if_pos (Or.inl hb), if_pos hb, wordsLoop, hlen]
        simp only [ih h.2]
        rfl
      · rw [if_neg (not_or.mpr ⟨hb, Ne.symm h.1⟩), if_neg hb, ih h.2]
        obtain ⟨g, gs, hg⟩ := exists_splitOn s
        rw [hg]
        rfl

theorem put_append (pre rest : Bytes) (b : Byte) :
    put (pre ++ rest) pre.length b = pre ++ b :: rest.drop 1 := by
  rw [put, List.take_left, ← List.drop_drop, List.drop_left]

/-- A byte in front of a word. -/
theorem left_cons (b : Byte) (w rest : Bytes) :
    b :: (left w ++ (90 :: rest.drop 2).drop (left w).length) =
      left (b :: w) ++ rest.drop (left (b :: w)).length := by
  rw [left, left, if_neg (List.cons_ne_nil b w)]
  by_cases hw : w = []
  · rw [if_pos hw, hw]
    rfl
  · have hdrop : (90 :: rest.drop 2).drop (w.length + 1) = rest.drop (w.length + 1 + 1) := by
      rw [List.drop_succ_cons, List.drop_drop, Nat.add_comm]
    rw [if_neg hw, List.length_append, List.length_append, List.length_cons]
    exact congrArg (b :: (w ++ [90]) ++ ·) hdrop

theorem storeAll_append (st : St) (w : Bytes) : ∀ (pre rest : Bytes),
    St.storeAll { st with buf := pre ++ rest, len := pre.length } w =
      { st with
        buf := pre ++ (left w ++ rest.drop (left w).length), len := pre.length + w.length } := by
  induction w with
  | nil =>
      intro pre rest
      simp [St.storeAll, left]
  | cons b w ih =>
      intro pre rest
      have hput : put (put (pre ++ rest) pre.length b) (pre.length + 1) 90 =
          (pre ++ [b]) ++ 90 :: rest.drop 2 := by
        have hlen : pre.length + 1 = (pre ++ [b]).length := by
          rw [List.length_append, List.length_singleton]
        rw [put_append, List.append_cons, hlen, put_append, List.drop_drop]
      have hstep : St.storeAll { st with buf := pre ++ rest, len := pre.length } (b :: w) =
          St.storeAll
            { st with buf := (pre ++ [b]) ++ 90 :: rest.drop 2, len := (pre ++ [b]).length } w := by
        rw [St.storeAll, List.foldl_cons, St.store, St.storeAll]
        simp only [hput, List.length_append, List.length_singleton]
      rw [hstep, ih (pre ++ [b]) (90 :: rest.drop 2), List.append_assoc, List.singleton_append,
        left_cons]
      simp [Nat.add_comm, Nat.add_left_comm]

/-- A word lies over what was left. -/
theorem storeAll_eq (hlen : st.len = 0) (w : Bytes) :
    st.storeAll w = { st with buf := lay st.buf (left w), len := w.length } := by
  have h := storeAll_append st w [] st.buf
  simp only [List.nil_append, List.length_nil, Nat.zero_add] at h
  rw [lay, ← h, ← hlen]

theorem left_getElem? {q : Nat} (h : q < w.length) : (left w)[q]? = w[q]? := by
  rw [left, if_neg (List.ne_nil_of_length_pos (Nat.zero_lt_of_lt h)), List.getElem?_append_left h]

theorem le_length_left (w : Bytes) : w.length ≤ (left w).length := by
  rw [left]
  split
  · rename_i hw
    exact Nat.le_of_eq (congrArg List.length hw)
  · rw [List.length_append]
    exact Nat.le_add_right _ _

theorem take_left (w : Bytes) : (left w).take w.length = w := by
  rw [left]
  split
  · rename_i hw
    rw [hw]
    rfl
  · exact List.take_left

/-- The first bytes of the buffer: those that are known, over those of `junk`. -/
def Agree (known junk buf : Bytes) : Prop := ∀ q < 5, buf[q]? = (lay junk known)[q]?

theorem lay_getElem? (known w : Bytes) (q : Nat) :
    (lay known w)[q]? = if q < w.length then w[q]? else known[q]? := by
  rw [lay]
  split
  · rename_i h
    exact List.getElem?_append_left h
  · rename_i h
    rw [List.getElem?_append_right (Nat.le_of_not_lt h), List.getElem?_drop]
    congr 1
    omega

theorem lay_lay (junk known w : Bytes) : lay junk (lay known w) = lay (lay junk known) w := by
  apply List.ext_getElem?
  intro q
  simp only [lay_getElem?]
  by_cases hw : q < w.length
  · have hq : q < (lay known w).length := by
      rw [lay, List.length_append]
      omega
    rw [if_pos hq, if_pos hw, if_pos hw]
  · rw [if_neg hw, if_neg hw]
    have hlen : q < (lay known w).length ↔ q < known.length := by
      rw [lay, List.length_append, List.length_drop]
      omega
    simp only [hlen]

theorem Agree.lay {known junk : Bytes} (h : Agree known junk buf) (w : Bytes) :
    Agree (lay known w) junk (lay buf w) := by
  intro q hq
  rw [lay_lay, lay_getElem?, lay_getElem?, h q hq]

/-! ## The kind of a word -/

theorem kind_eq_none : kind w = none ↔
    (w.take 5).map lower ≠ asc "size=" ∧ (w.take 5).map lower ≠ asc "auth=" := by
  have hs : case_starts w (asc "size=") = true ↔ (w.take 5).map lower = asc "size=" :=
    case_starts_iff
  have ha : case_starts w (asc "auth=") = true ↔ (w.take 5).map lower = asc "auth=" :=
    case_starts_iff
  rw [ne_eq, ne_eq, ← hs, ← ha, kind]
  constructor
  · intro h
    split at h
    · cases h
    · rename_i hnosize
      split at h
      · cases h
      · rename_i hnoauth
        exact ⟨hnosize, hnoauth⟩
  · rintro ⟨hs, ha⟩
    rw [if_neg hs, if_neg ha]

/-- The kind is told from the first five bytes. -/
theorem kind_congr {v w : Bytes} (h : ∀ q < 5, v[q]? = w[q]?) : kind v = kind w := by
  have htake : v.take 5 = w.take 5 := by
    apply List.ext_getElem?
    intro q
    rw [List.getElem?_take, List.getElem?_take]
    split
    · exact h q ‹_›
    · rfl
  have hsame : ∀ t : Bytes, t.length = 5 → case_starts v t = case_starts w t := by
    intro t ht
    rw [case_starts, case_starts, ht, htake]
  rw [kind, kind, hsame _ rfl, hsame _ rfl]

theorem length_of_kind (h : kind w ≠ none) : 5 ≤ w.length := by
  apply Nat.le_of_not_lt
  intro hlen
  apply h
  have hshort : ∀ t : Bytes, t.length = 5 → (w.take 5).map lower ≠ t := by
    intro t ht he
    have hl := congrArg List.length he
    rw [List.length_map, List.length_take, ht] at hl
    omega
  exact kind_eq_none.mpr ⟨hshort _ rfl, hshort _ rfl⟩

theorem kind_of_short (h : w.length < 5) : kind w = none := by
  by_contra hk
  exact absurd (length_of_kind hk) (Nat.not_le_of_lt h)

theorem kind_lay_long (hw : 5 ≤ w.length) (known : Bytes) : kind (lay known (left w)) = kind w := by
  apply kind_congr
  intro q hq
  have hqw : q < w.length := Nat.lt_of_lt_of_le hq hw
  rw [lay_getElem?, if_pos (Nat.lt_of_lt_of_le hqw (le_length_left w)), left_getElem? hqw]

theorem take_prefix_lay (known w : Bytes) : w.take 5 <+: (lay known w).take 5 := by
  rw [lay, List.take_append]
  exact List.prefix_append _ _

/-- What is like a parameter begins like one. -/
theorem begins_of_kind {junk known : Bytes} (h : kind (lay junk known) ≠ none) :
    begins known := by
  have hpre := (take_prefix_lay junk known).map lower
  by_cases hs : ((lay junk known).take 5).map lower = asc "size="
  · exact Or.inl (hs ▸ hpre)
  · by_cases ha : ((lay junk known).take 5).map lower = asc "auth="
    · exact Or.inr (ha ▸ hpre)
    · exact absurd (kind_eq_none.mpr ⟨hs, ha⟩) h

theorem lay_take_of_begins {known t : Bytes} (ht : t.map lower = t) (h5 : t.length = 5)
    (h : (known.take 5).map lower <+: t) : ((lay t known).take 5).map lower = t := by
  apply List.ext_getElem?
  intro q
  rw [List.getElem?_map, List.getElem?_take]
  by_cases hq : q < 5
  · rw [if_pos hq, lay_getElem?]
    split
    · rename_i hk
      have hlen : q < ((known.take 5).map lower).length := by
        rw [List.length_map, List.length_take]
        omega
      have hget := List.prefix_iff_getElem?.mp h q hlen
      rw [hget, List.getElem_map, List.getElem_take, List.getElem?_eq_getElem hk]
      rfl
    · rw [← List.getElem?_map, ht]
  · rw [if_neg hq, List.getElem?_eq_none (by omega)]
    rfl

/-- What begins like a parameter is like one over some bytes. -/
theorem kind_of_begins {known : Bytes} (h : begins known) :
    ∃ junk, kind (lay junk known) ≠ none := by
  rcases h with h | h
  · refine ⟨asc "size=", fun hn => ?_⟩
    exact (kind_eq_none.mp hn).1 (lay_take_of_begins (by decide) rfl h)
  · refine ⟨asc "auth=", fun hn => ?_⟩
    exact (kind_eq_none.mp hn).2 (lay_take_of_begins (by decide) rfl h)

theorem kind_buffer {known junk : Bytes} (h : Agree known junk buf) (w : Bytes) :
    kind (lay buf w) = kind (lay junk (lay known w)) :=
  kind_congr (h.lay w)

/-- A word that can be told is told by itself. -/
theorem kind_told {known junk : Bytes} (h : Agree known junk buf)
    (htold : w.length < 5 → ¬ begins (lay known (left w))) : kind (lay buf (left w)) = kind w := by
  rcases Nat.lt_or_ge w.length 5 with hw | hw
  · rw [kind_of_short hw, kind_buffer h]
    by_contra hk
    exact htold hw (begins_of_kind hk)
  · exact kind_lay_long hw buf

theorem callAt_of_none (h : kind w = none) {place : Nat} : callAt (place, w) = none := by
  rw [callAt, callOf, h]
  rfl

/-! ## The end of a word -/

/-- The word `SMTPUTF8` is no parameter of the two. -/
theorem kind_of_smtputf8 (h : case_starts buf (asc "smtputf8") = true) : kind buf = none := by
  rw [case_starts_iff] at h
  have h5 : (buf.take 5).map lower = asc "smtpu" := by
    have ht := congrArg (List.take 5) h
    rwa [← List.map_take, List.take_take] at ht
  have hno : ∀ t : Bytes, t.length = 5 → t ≠ asc "smtpu" → case_starts buf t = false := by
    intro t ht hne
    rw [← Bool.not_eq_true, case_starts_iff, ht, h5]
    exact Ne.symm hne
  rw [kind, hno _ rfl (by decide), hno _ rfl (by decide)]
  rfl

/-- The value of a parameter, once it has its NUL. -/
theorem take_lay_left (known w : Bytes) : (lay known (left w)).take w.length = w := by
  rw [lay, List.take_append_of_le_length (le_length_left w), take_left]

theorem cstr_put (h0 : 0 ∉ w) (h5 : 5 ≤ w.length) (known : Bytes) :
    cstr ((put (lay known (left w)) w.length 0).drop 5) = w.drop 5 := by
  rw [put, take_lay_left, List.drop_append_of_le_length h5]
  exact cstr_append _ fun h => h0 (List.mem_of_mem_drop h)

theorem agree_put {known junk : Bytes} (h5 : 5 ≤ w.length) (known' : Bytes) :
    Agree (lay known (left w)) junk (put (lay known' (left w)) w.length 0) := by
  intro q hq
  have hqw : q < w.length := Nat.lt_of_lt_of_le hq h5
  rw [lay_lay, lay_getElem?, if_pos (Nat.lt_of_lt_of_le hqw (le_length_left w)), left_getElem? hqw, put,
    take_lay_left, List.getElem?_append_left hqw]

/-- What the end of a word does: the call for the word is made, and a refusal ends it all. -/
structure Ended (conf : Conf) (place : Nat) (st : St) (known junk w : Bytes) (r : St × Bool) :
    Prop where
  calls : r.1.calls = st.calls ++ (callAt (place, w)).toList
  stop : r.2 = true ↔ stops conf w
  len : r.2 = false → r.1.len = 0
  agree : r.2 = false → Agree (lay known (left w)) junk r.1.buf

theorem endWord_ended {known junk : Bytes} (place : Nat) (hlen : st.len = 0)
    (h : Agree known junk st.buf) (h0 : 0 ∉ w) (hkind : kind (lay st.buf (left w)) = kind w) :
    ∃ r, endWord conf place (st.storeAll w) = some r ∧ Ended conf place st known junk w r := by
  have hagree := h.lay (left w)
  rw [storeAll_eq hlen, endWord]
  simp only
  have hstay (hns : kind w ≠ some .size) : (false = true) ↔ stops conf w :=
    ⟨fun hf => (Bool.false_ne_true hf).elim, fun hs => (hns hs.1).elim⟩
  by_cases hutf : (conf.smtputf8_enable && case_starts (lay st.buf (left w)) (asc "smtputf8")) = true
  · -- SMTPUTF8
    rw [if_pos hutf]
    have hnone : kind w = none := by
      rw [← hkind]
      exact kind_of_smtputf8 (Bool.and_eq_true_iff.mp hutf).2
    refine ⟨_, rfl, ?_, hstay (by rw [hnone]; decide), fun _ => rfl, fun _ => hagree⟩
    rw [callAt_of_none hnone]
    exact (List.append_nil _).symm
  rw [if_neg hutf]
  by_cases hsize : case_starts (lay st.buf (left w)) (asc "size=") = true
  · -- SIZE=
    have hk : kind w = some .size := by
      rw [← hkind, kind, if_pos hsize]
    have h5 : 5 ≤ w.length := length_of_kind (by rw [hk]; decide)
    have hcall : callAt (place, w) = some (place, .size (w.drop 5)) := by
      rw [callAt, callOf, hk]
      rfl
    rw [if_pos hsize, cstr_put h0 h5]
    simp only [mailfrom_size]
    by_cases hr : refused conf (w.drop 5) = true
    · refine ⟨_, if_pos hr, ?_, ⟨fun _ => ⟨hk, hr⟩, fun _ => rfl⟩, ?_, ?_⟩
      · rw [hcall]
        rfl
      · intro hs
        cases hs
      · intro hs
        cases hs
    · refine ⟨_, if_neg hr, ?_, ?_, fun _ => rfl, fun _ => agree_put h5 _⟩
      · rw [hcall]
        rfl
      · exact ⟨fun hs => (Bool.false_ne_true hs).elim, fun hs => (hr hs.2).elim⟩
  rw [if_neg hsize]
  by_cases hauth : case_starts (lay st.buf (left w)) (asc "auth=") = true
  · -- AUTH=
    have hk : kind w = some .auth := by
      rw [← hkind, kind, if_neg hsize, if_pos hauth]
    have h5 : 5 ≤ w.length := length_of_kind (by rw [hk]; decide)
    have hlen5 : (w.length : Int) - 5 = (w.drop 5).length := by
      rw [List.length_drop]
      omega
    have hcall : callAt (place, w) = some (place, .auth (w.drop 5) (w.drop 5).length) := by
      rw [callAt, callOf, hk, ← hlen5]
      rfl
    rw [if_pos hauth, cstr_put h0 h5, hlen5]
    obtain ⟨st', hst', hcalls, hbuf'⟩ := @mailfrom_auth_some conf (w.drop 5)
      { st with
        buf := put (lay st.buf (left w)) w.length 0, len := w.length,
        calls := st.calls ++ [(place, .auth (w.drop 5) (w.drop 5).length)] }
    rw [hst']
    refine ⟨_, rfl, ?_, hstay (by rw [hk]; decide), fun _ => rfl, ?_⟩
    · rw [hcall]
      exact hcalls
    · intro _
      simp only [hbuf']
      exact agree_put h5 _
  · -- another word
    rw [if_neg hauth]
    have hnone : kind w = none := by
      rw [← hkind, kind, if_neg hsize, if_neg hauth]
    refine ⟨_, rfl, ?_, hstay (by rw [hnone]; decide), fun _ => rfl, fun _ => hagree⟩
    rw [callAt_of_none hnone]
    exact (List.append_nil _).symm

/-- Whatever is in the buffer, at most one call is made for a word, and one if the buffer is like
a parameter. -/
theorem endWord_made {place : Nat} {r : St × Bool} (hlen : st.len = 0)
    (h : endWord conf place (st.storeAll w) = some r) :
    ∃ c : Option Call, r.1.calls = st.calls ++ (c.map fun c => (place, c)).toList ∧
      (kind (lay st.buf (left w)) ≠ none → c ≠ none) ∧ (r.2 = false → r.1.len = 0) := by
  rw [storeAll_eq hlen, endWord] at h
  simp only at h
  by_cases hutf : (conf.smtputf8_enable && case_starts (lay st.buf (left w)) (asc "smtputf8")) = true
  · rw [if_pos hutf] at h
    obtain rfl := Option.some.inj h
    refine ⟨none, (List.append_nil _).symm, fun hk => ?_, fun _ => rfl⟩
    exact absurd (kind_of_smtputf8 (Bool.and_eq_true_iff.mp hutf).2) hk
  rw [if_neg hutf] at h
  by_cases hsize : case_starts (lay st.buf (left w)) (asc "size=") = true
  · rw [if_pos hsize] at h
    refine ⟨some (.size (cstr ((put (lay st.buf (left w)) w.length 0).drop 5))), ?_,
      fun _ => Option.some_ne_none _, ?_⟩
    · split at h
      · obtain rfl := Option.some.inj h
        rfl
      · obtain rfl := Option.some.inj h
        rfl
    · intro hr
      split at h
      · obtain rfl := Option.some.inj h
        cases hr
      · obtain rfl := Option.some.inj h
        rfl
  rw [if_neg hsize] at h
  by_cases hauth : case_starts (lay st.buf (left w)) (asc "auth=") = true
  · rw [if_pos hauth] at h
    obtain ⟨st', hst', h⟩ := Option.bind_eq_some_iff.mp h
    obtain rfl := Option.some.inj h
    refine ⟨some (.auth (cstr ((put (lay st.buf (left w)) w.length 0).drop 5)) (w.length - 5)), ?_,
      fun _ => Option.some_ne_none _, fun _ => rfl⟩
    exact mailfrom_auth_calls hst'
  · rw [if_neg hauth] at h
    obtain rfl := Option.some.inj h
    refine ⟨none, (List.append_nil _).symm, fun hk => ?_, fun _ => rfl⟩
    rw [kind, if_neg hsize, if_neg hauth] at hk
    exact absurd rfl hk

/-! ## All the words -/

theorem wordsLoop_cons {place : Nat} {ws : List Bytes} {r : St × Bool} (hp : behind ws = place)
    (h : endWord conf place (st.storeAll w) = some r) :
    wordsLoop conf st (w :: ws) = if r.2 = true then some r.1 else wordsLoop conf r.1 ws := by
  rw [wordsLoop, hp, h]
  rfl

theorem calls_none {ws : List Bytes} :
    (placed ws).filterMap callAt = [] ↔ ∀ w ∈ ws, kind w = none := by
  have hcall : ∀ w, callOf w = none ↔ kind w = none := by
    intro w
    rw [callOf]
    cases kind w with
    | none => simp
    | some k => cases k <;> simp
  induction ws with
  | nil => simp [placed]
  | cons w ws ih =>
      rw [placed, List.filterMap_cons, callAt, List.forall_mem_cons, ← hcall]
      cases callOf w with
      | none => simpa using ih
      | some c => simp

theorem calls_cons (w : Bytes) (ws : List Bytes) :
    (placed (w :: ws)).filterMap callAt =
      (callAt (behind ws, w)).toList ++ (placed ws).filterMap callAt := by
  rw [placed, List.filterMap_cons]
  cases callAt (behind ws, w) with
  | none => rfl
  | some c => rfl

theorem calls_append {us : List Bytes} (h : ∀ u ∈ us, kind u = none) (ws : List Bytes) :
    (placed (us ++ ws)).filterMap callAt = (placed ws).filterMap callAt := by
  induction us with
  | nil => rfl
  | cons u us ih =>
      rw [List.forall_mem_cons] at h
      rw [List.cons_append, calls_cons, ih h.2, callAt_of_none h.1]
      rfl

theorem place_lt (ws : List Bytes) : ∀ x ∈ (placed ws).filterMap callAt, x.1 < behind ws := by
  induction ws with
  | nil =>
      intro x hx
      cases hx
  | cons w ws ih =>
      intro x hx
      rw [calls_cons, List.mem_append] at hx
      rw [behind]
      rcases hx with hx | hx
      · rw [Option.mem_toList, callAt, Option.map_eq_some_iff] at hx
        obtain ⟨c, -, rfl⟩ := hx
        show behind ws < _
        omega
      · have hlt := ih x hx
        omega

/-- **The words are told**: then the calls are those for the words. -/
theorem wordsLoop_told {ws : List Bytes} {known junk : Bytes} (hlen : st.len = 0)
    (h : Agree known junk st.buf) (h0 : ∀ w ∈ ws, 0 ∉ w) (htold : Told conf known ws) :
    ∃ st', wordsLoop conf st ws = some st' ∧
      st'.calls = st.calls ++ (placed ws).filterMap callAt := by
  induction ws generalizing st known with
  | nil => exact ⟨st, rfl, (List.append_nil _).symm⟩
  | cons w ws ih =>
      rw [List.forall_mem_cons] at h0
      obtain ⟨htw, hstop, hgo⟩ := htold
      obtain ⟨r, hr, hend⟩ := @endWord_ended conf _ _ _ _ (behind ws) hlen h h0.1
        (kind_told h htw)
      rw [wordsLoop_cons rfl hr, calls_cons]
      by_cases hs : stops conf w
      · rw [if_pos (hend.stop.mpr hs)]
        refine ⟨_, rfl, ?_⟩
        rw [hend.calls, calls_none.mpr (hstop hs), List.append_nil]
      · have hf : r.2 = false := Bool.eq_false_iff.mpr fun ht => hs (hend.stop.mp ht)
        rw [if_neg (by rw [hf]; exact Bool.false_ne_true)]
        obtain ⟨st', hst', hcalls⟩ := ih (hend.len hf) (hend.agree hf) h0.2 (hgo hs)
        refine ⟨st', hst', ?_⟩
        rw [hcalls, hend.calls, List.append_assoc]

/-- The calls for words are made at their places. -/
theorem wordsLoop_places {ws : List Bytes} {st' : St} (hlen : st.len = 0)
    (h : wordsLoop conf st ws = some st') :
    ∃ made, st'.calls = st.calls ++ made ∧ ∀ x ∈ made, x.1 < behind ws := by
  induction ws generalizing st with
  | nil =>
      obtain rfl := Option.some.inj h
      exact ⟨[], (List.append_nil _).symm, by simp⟩
  | cons w ws ih =>
      obtain ⟨r, hr, -⟩ := Option.bind_eq_some_iff.mp h
      rw [wordsLoop_cons rfl hr] at h
      obtain ⟨c, hcalls, -, hlen'⟩ := endWord_made hlen hr
      have hfirst : ∀ x ∈ (c.map fun c => (behind ws, c)).toList, x.1 < behind (w :: ws) := by
        intro x hx
        rw [Option.mem_toList, Option.map_eq_some_iff] at hx
        obtain ⟨c, -, rfl⟩ := hx
        rw [behind]
        omega
      split at h
      · obtain rfl := Option.some.inj h
        exact ⟨_, hcalls, hfirst⟩
      · rename_i hf
        obtain ⟨made, hmade, hlt⟩ := ih (hlen' (Bool.eq_false_iff.mpr hf)) h
        refine ⟨(c.map fun c => (behind ws, c)).toList ++ made, ?_, ?_⟩
        · rw [hmade, hcalls, List.append_assoc]
        · intro x hx
          rcases List.mem_append.mp hx with hx | hx
          · exact hfirst x hx
          · have hx := hlt x hx
            rw [behind]
            omega

/-! ## What the calls say of the words -/

/-- Over whatever bytes, the words lead to the calls that are wanted. -/
def Meets (conf : Conf) (known : Bytes) (ws : List Bytes) (want : List (Nat × Call)) : Prop :=
  ∀ junk, ∃ st, st.len = 0 ∧ Agree known junk st.buf ∧
    ∃ st', wordsLoop conf st ws = some st' ∧ st'.calls = st.calls ++ want

variable {known : Bytes} {ws : List Bytes} {want : List (Nat × Call)}

/-- The first of the wanted calls is the one for the first word, if it is at its place. -/
theorem Meets.first (h : Meets conf known (w :: ws) want) (h0 : 0 ∉ w) (junk : Bytes) :
    ∃ (c : Option Call) (made : List (Nat × Call)),
      want = (c.map fun c => (behind ws, c)).toList ++ made ∧
      (∀ x ∈ made, x.1 < behind ws) ∧ (kind (lay junk (lay known (left w))) ≠ none → c ≠ none) ∧
      (5 ≤ w.length → c = callOf w) := by
  obtain ⟨st, hlen, hagree, st', hrun, hwant⟩ := h junk
  obtain ⟨r, hr, -⟩ := Option.bind_eq_some_iff.mp hrun
  obtain ⟨c, hcalls, hkind, hlen'⟩ := endWord_made hlen hr
  obtain ⟨made, hmade, hlt⟩ : ∃ made, st'.calls = r.1.calls ++ made ∧
      ∀ x ∈ made, x.1 < behind ws := by
    rw [wordsLoop_cons rfl hr] at hrun
    split at hrun
    · obtain rfl := Option.some.inj hrun
      exact ⟨[], (List.append_nil _).symm, by simp⟩
    · rename_i hf
      exact wordsLoop_places (hlen' (Bool.eq_false_iff.mpr hf)) hrun
  refine ⟨c, made, ?_, hlt, ?_, ?_⟩
  · rw [hwant, hcalls, List.append_assoc] at hmade
    exact List.append_cancel_left hmade
  · rwa [← kind_buffer hagree]
  · -- a word of five bytes hides what was left
    intro h5
    obtain ⟨r', hr', hend⟩ := @endWord_ended conf _ _ _ _ (behind ws) hlen hagree h0
      (kind_lay_long h5 st.buf)
    obtain rfl := Option.some.inj (hr.symm.trans hr')
    have heq := List.append_cancel_left (hcalls.symm.trans hend.calls)
    rw [callAt] at heq
    cases c with
    | none =>
        cases hc : callOf w with
        | none => rfl
        | some c => simp [hc] at heq
    | some c =>
        cases hc : callOf w with
        | none => simp [hc] at heq
        | some d => simpa [hc] using heq

/-- No call is wanted for a word: it is none, and nothing behind it makes it one. -/
theorem Meets.none (h : Meets conf known (w :: ws) want) (h0 : 0 ∉ w)
    (hlt : ∀ x ∈ want, x.1 < behind ws) :
    kind w = none ∧ (w.length < 5 → ¬ begins (lay known (left w))) := by
  have hno : ∀ junk, kind (lay junk (lay known (left w))) = Option.none := by
    intro junk
    obtain ⟨c, made, rfl, -, hc, -⟩ := h.first h0 junk
    by_contra hk
    obtain ⟨c, rfl⟩ := Option.ne_none_iff_exists'.mp (hc hk)
    exact absurd (hlt (behind ws, c) (by simp)) (Nat.lt_irrefl _)
  constructor
  · by_contra hk
    apply hk
    have h5 := length_of_kind hk
    rw [← hno [], lay_lay, kind_lay_long h5]
  · -- over the right bytes it would be taken for a parameter
    intro _ hb
    obtain ⟨junk, hk⟩ := kind_of_begins hb
    exact hk (hno junk)

/-- The word is told, and the others meet what is wanted of them. -/
theorem Meets.rest (h : Meets conf known (w :: ws) ((callAt (behind ws, w)).toList ++ want))
    (h0 : 0 ∉ w) (htold : w.length < 5 → ¬ begins (lay known (left w))) :
    (stops conf w → want = []) ∧ (¬ stops conf w → Meets conf (lay known (left w)) ws want) := by
  constructor
  · intro hs
    obtain ⟨st, hlen, hagree, st', hrun, hwant⟩ := h []
    obtain ⟨r, hr, hend⟩ := @endWord_ended conf _ _ _ _ (behind ws) hlen hagree h0
      (kind_told hagree htold)
    rw [wordsLoop_cons rfl hr, if_pos (hend.stop.mpr hs)] at hrun
    obtain rfl := Option.some.inj hrun
    rw [hend.calls, ← List.append_assoc] at hwant
    exact List.append_right_eq_self.mp hwant.symm
  · intro hs junk
    obtain ⟨st, hlen, hagree, st', hrun, hwant⟩ := h junk
    obtain ⟨r, hr, hend⟩ := @endWord_ended conf _ _ _ _ (behind ws) hlen hagree h0
      (kind_told hagree htold)
    have hf : r.2 = false := Bool.eq_false_iff.mpr fun ht => hs (hend.stop.mp ht)
    rw [wordsLoop_cons rfl hr, if_neg (by rw [hf]; exact Bool.false_ne_true)] at hrun
    refine ⟨r.1, hend.len hf, hend.agree hf, st', hrun, ?_⟩
    rw [hwant, hend.calls, List.append_assoc]

/-- **Words that lead to their own calls are told.** -/
theorem Meets.told (h : Meets conf known ws ((placed ws).filterMap callAt))
    (h0 : ∀ w ∈ ws, 0 ∉ w) : Told conf known ws := by
  induction ws generalizing known with
  | nil => trivial
  | cons w ws ih =>
      rw [List.forall_mem_cons] at h0
      rw [calls_cons] at h
      have htold : w.length < 5 → ¬ begins (lay known (left w)) := by
        intro hw
        rw [callAt_of_none (kind_of_short hw)] at h
        exact (h.none h0.1 (place_lt ws)).2 hw
      obtain ⟨hstop, hgo⟩ := h.rest h0.1 htold
      exact ⟨htold, fun hs => calls_none.mp (hstop hs), fun hs => ih (hgo hs) h0.2⟩

/-- Words in front of all that is wanted are none. -/
theorem Meets.before {us : List Bytes} (h : Meets conf known (us ++ ws) want)
    (h0 : ∀ w ∈ us, 0 ∉ w) (hlt : ∀ x ∈ want, x.1 < behind ws) :
    (∀ u ∈ us, kind u = Option.none) ∧ ∃ known', Meets conf known' ws want := by
  induction us generalizing known with
  | nil => exact ⟨by simp, known, h⟩
  | cons u us ih =>
      rw [List.forall_mem_cons] at h0 ⊢
      have hbehind : behind ws ≤ behind (us ++ ws) := by
        clear ih h h0
        induction us with
        | nil => exact Nat.le_refl _
        | cons u us ih =>
            rw [List.cons_append, behind]
            omega
      obtain ⟨hnone, htold⟩ := h.none h0.1 fun x hx => Nat.lt_of_lt_of_le (hlt x hx) hbehind
      have hrest : Meets conf known (u :: (us ++ ws))
          ((callAt (behind (us ++ ws), u)).toList ++ want) := by
        rw [callAt_of_none hnone]
        exact h
      have hstay : ¬ stops conf u := by
        intro hs
        rw [stops, hnone] at hs
        cases hs.1
      obtain ⟨hus, known', hmeets⟩ := ih ((hrest.rest h0.1 htold).2 hstay) h0.2
      exact ⟨⟨hnone, hus⟩, known', hmeets⟩

theorem length_of_callOf {v : Bytes} (h : callOf v = callOf w) (hw : kind w ≠ none) :
    v.length ≤ w.length := by
  have hv : kind v = kind w ∧ v.drop 5 = w.drop 5 := by
    rw [callOf, callOf] at h
    cases hkv : kind v with
    | none =>
        cases hkw : kind w with
        | none => exact absurd hkw hw
        | some k => cases k <;> simp [hkv, hkw] at h
    | some j =>
        cases hkw : kind w with
        | none => exact absurd hkw hw
        | some k => cases j <;> cases k <;> simp_all
  have hlen := congrArg List.length hv.2
  have h5 := length_of_kind hw
  have h5v := length_of_kind (hv.1 ▸ hw)
  rw [List.length_drop, List.length_drop] at hlen
  omega

/-- A word behind a text makes no call of its own. -/
theorem Meets.attached {l g : Bytes} {gs : List Bytes}
    (h : Meets conf known ((l ++ g) :: gs) ((placed (g :: gs)).filterMap callAt))
    (h0 : 0 ∉ l ++ g) (hl : kind g ≠ Option.none → l ≠ []) :
    kind (l ++ g) = Option.none ∧ kind g = Option.none := by
  have hg : kind g = Option.none := by
    -- a call for `g` would be made for `l ++ g`, whose value is longer
    by_contra hk
    obtain ⟨c, made, hwant, hmade, -, hc⟩ := h.first h0 []
    have h5 := length_of_kind hk
    have hcall := hc (by rw [List.length_append]; omega)
    obtain ⟨d, hd⟩ : ∃ d, callOf g = some d := by
      rw [callOf]
      cases hkg : kind g with
      | none => exact absurd hkg hk
      | some k => cases k <;> exact ⟨_, rfl⟩
    rw [calls_cons, callAt, hd] at hwant
    have hcd : c = some d := by
      cases c with
      | none =>
          rw [Option.map_none, Option.toList_none, List.nil_append] at hwant
          have hlt := hmade (behind gs, d) (by rw [← hwant]; simp)
          exact absurd hlt (Nat.lt_irrefl _)
      | some c =>
          simp only [Option.map_some, Option.toList_some, List.singleton_append,
            List.cons.injEq, Prod.mk.injEq, true_and] at hwant
          rw [hwant.1]
    have hle := length_of_callOf (v := l ++ g) (w := g) (by rw [← hcall, hcd, hd]) hk
    rw [List.length_append] at hle
    have hpos := List.length_pos_iff.mpr (hl hk)
    omega
  refine ⟨?_, hg⟩
  rw [calls_cons, callAt_of_none hg] at h
  exact (h.none h0 (place_lt gs)).1

/-! ## The reverse-path -/

/-- A text is cut where its two parts are. -/
theorem splitOn_append (s t : Bytes) : ∃ bs l g gs, s.splitOn 32 = bs ++ [l] ∧
    t.splitOn 32 = g :: gs ∧ (s ++ t).splitOn 32 = bs ++ (l ++ g) :: gs ∧
    (l = [] → s = [] ∨ s.getLast? = some 32) := by
  induction s with
  | nil =>
      obtain ⟨g, gs, hg⟩ := exists_splitOn t
      exact ⟨[], [], g, gs, rfl, hg, hg, fun _ => Or.inl rfl⟩
  | cons b s ih =>
      obtain ⟨bs, l, g, gs, hs, ht, hst, hl⟩ := ih
      rw [List.cons_append, splitOn_cons, splitOn_cons, hs, hst]
      by_cases hb : b = 32
      · rw [if_pos hb, if_pos hb]
        refine ⟨[] :: bs, l, g, gs, rfl, ht, rfl, fun he => Or.inr ?_⟩
        rcases hl he with rfl | h
        · rw [hb]
          rfl
        · rw [List.getLast?_cons, h]
          rfl
      · rw [if_neg hb, if_neg hb]
        cases bs with
        | nil => exact ⟨[], b :: l, g, gs, rfl, ht, rfl, fun he => by cases he⟩
        | cons u bs =>
            refine ⟨(b :: u) :: bs, l, g, gs, rfl, ht, rfl, fun he => Or.inr ?_⟩
            rcases hl he with rfl | h
            · simp at hs
            · rw [List.getLast?_cons, h]
              rfl

theorem closing_append {flagesc flagquoted : Bool} {p s rest : Bytes}
    (h : closing flagesc flagquoted p = some (s, rest)) :
    s ++ rest = p ∧ s.getLast? = some 62 := by
  induction p generalizing flagesc flagquoted s rest with
  | nil => cases h
  | cons ch p ih =>
      rw [closing] at h
      split at h
      · rename_i hc
        simp only [Bool.and_eq_true, decide_eq_true_eq] at hc
        obtain ⟨rfl, rfl⟩ := Prod.mk.inj (Option.some.inj h)
        rw [hc.2]
        exact ⟨rfl, rfl⟩
      · simp only [Option.map_eq_some_iff, Prod.exists] at h
        obtain ⟨s', rest', hrec, h⟩ := h
        obtain ⟨rfl, rfl⟩ := Prod.mk.inj h
        obtain ⟨rfl, hlast⟩ := ih hrec
        refine ⟨rfl, ?_⟩
        rw [List.getLast?_cons, hlast]
        rfl

theorem route_append (path : Bytes) : route path ++ path.drop (route path).length = path := by
  rw [route]
  split
  · rw [List.length_take]
    rcases Nat.le_total ((path.takeWhile (· ≠ 58)).length + 1) path.length with h | h
    · rw [Nat.min_eq_left h, List.take_append_drop]
    · rw [Nat.min_eq_right h, List.take_of_length_le h, List.drop_length, List.append_nil]
  · rfl

/-- The reverse-path is in front of the rest; something is behind it only if it is closed. -/
theorem reversePath_cases (arg : Bytes) :
    (reversePath arg).1 ++ (reversePath arg).2 = arg ∧
      ((reversePath arg).2 ≠ [] → (reversePath arg).1.tail.getLast? = some 62) := by
  rw [reversePath]
  split
  · rename_i s rest hclose
    obtain ⟨hs, hlast⟩ := closing_append hclose
    constructor
    · rw [List.append_assoc, List.append_assoc, hs, route_append, List.take_append_drop]
    · intro _
      cases arg with
      | nil => simp [closing, route] at hclose
      | cons a arg =>
          rw [List.take_succ_cons, List.cons_append, List.cons_append, List.tail_cons,
            List.getLast?_append, hlast]
          rfl
  · exact ⟨List.append_nil _, fun h => absurd rfl h⟩

/-! ## The calls for an argument -/

theorem notMem_of_mem_words (h0 : 0 ∉ arg) (hw : w ∈ words arg) : 0 ∉ w := by
  have hmem : ∀ {s : Bytes}, 0 ∉ s → ∀ v ∈ s.splitOn 32, 0 ∉ v := by
    intro s hs
    induction s with
    | nil =>
        intro v hv
        obtain rfl := List.mem_singleton.mp hv
        exact List.not_mem_nil
    | cons b s ih =>
        rw [List.mem_cons, not_or] at hs
        intro v hv
        rw [splitOn_cons] at hv
        obtain ⟨g, gs, hg⟩ := exists_splitOn s
        have ih := ih hs.2
        rw [hg] at hv ih
        split at hv
        · rcases List.mem_cons.mp hv with rfl | hv
          · exact List.not_mem_nil
          · exact ih v hv
        · rcases List.mem_cons.mp hv with rfl | hv
          · rw [List.mem_cons, not_or]
            exact ⟨hs.1, ih g List.mem_cons_self⟩
          · exact ih v (List.mem_cons_of_mem _ hv)
  exact hmem (fun h => h0 (List.mem_of_mem_tail h)) w hw

/-- The words of an argument: those of the path, the one that goes on behind it, the others. -/
theorem words_cases (hne : arg ≠ []) : ∃ us l g gs,
    (reversePath arg).1.tail.splitOn 32 = us ++ [l] ∧
    (reversePath arg).2.splitOn 32 = g :: gs ∧ words arg = us ++ (l ++ g) :: gs ∧
    (kind g ≠ none → l ≠ []) := by
  obtain ⟨happ, hlast⟩ := reversePath_cases arg
  generalize (reversePath arg).1 = path at happ hlast ⊢
  generalize (reversePath arg).2 = rest at happ hlast ⊢
  obtain ⟨us, l, g, gs, hs, ht, hst, hl⟩ := splitOn_append path.tail rest
  refine ⟨us, l, g, gs, hs, ht, ?_, ?_⟩
  · rw [words, ← hst]
    congr 1
    cases path with
    | nil =>
        -- the path is empty only if there is no text behind it
        rw [List.nil_append] at happ
        cases hlast (happ ▸ hne)
    | cons a path =>
        rw [← happ]
        rfl
  · intro hk he
    have hbehind : rest ≠ [] := by
      intro h
      rw [h] at ht
      obtain ⟨rfl, rfl⟩ := List.cons.inj ht
      exact hk rfl
    have hlast := hlast hbehind
    rcases hl he with h | h
    · rw [h] at hlast
      cases hlast
    · rw [h] at hlast
      cases hlast

theorem mailfrom_parms_of_gate (hg : gate arg = true) (h0 : 0 ∉ arg) (st : St) :
    mailfrom_parms conf arg st = wordsLoop conf { st with len := 0 } (words arg) := by
  rw [mailfrom_parms, if_pos hg, parmsLoop_eq fun h => h0 (List.mem_of_mem_tail h)]
  rfl

/-- **The calls made are those for the parameters**, each once and with its own value and length,
exactly if the argument is clear, or has no parameter and is not looked at. -/
theorem mailfrom_parms_iff (h0 : 0 ∉ arg) :
    (∀ st, ∃ st', mailfrom_parms conf arg st = some st' ∧ st'.calls = st.calls ++ params arg) ↔
      Clear conf arg ∨ (gate arg = false ∧ params arg = []) := by
  cases hg : gate arg with
  | false =>
      have hrun : ∀ st, mailfrom_parms conf arg st = some { st with len := 0 } := by
        intro st
        rw [mailfrom_parms, if_neg (by rw [hg]; exact Bool.false_ne_true)]
      constructor
      · intro h
        obtain ⟨st', hst', hcalls⟩ := h { buf := [] }
        rw [hrun] at hst'
        obtain rfl := Option.some.inj hst'
        exact Or.inr ⟨rfl, hcalls.symm⟩
      · rintro (h | ⟨-, hnone⟩) st
        · exact absurd (h.gate.symm.trans hg) (by decide)
        · exact ⟨_, hrun st, by rw [hnone, List.append_nil]⟩
  | true =>
      have hne : arg ≠ [] := by
        rintro rfl
        cases hg
      obtain ⟨us, l, g, gs, hs, ht, hwords, hl⟩ := words_cases hne
      have hw0 : ∀ w ∈ words arg, 0 ∉ w := fun w hw => notMem_of_mem_words h0 hw
      have htake : (words arg).take ((reversePath arg).1.tail.splitOn 32).length =
          us ++ [l ++ g] := by
        rw [hs, hwords, List.append_cons us (l ++ g) gs]
        apply List.take_left'
        rw [List.length_append, List.length_append, List.length_singleton, List.length_singleton]
      have hparams : params arg = (placed (g :: gs)).filterMap callAt := by
        rw [params, ht]
      have hsame (hus : ∀ u ∈ us ++ [l ++ g], kind u = none) (hkg : kind g = none) :
          (placed (words arg)).filterMap callAt = params arg := by
        rw [hwords, hparams, List.append_cons, calls_append hus, ← List.singleton_append,
          calls_append (by simpa using hkg)]
      constructor
      · -- what the calls say of the words
        intro h
        have hmeets : Meets conf [] (words arg) (params arg) := by
          intro junk
          obtain ⟨st', hst', hcalls⟩ := h { buf := junk }
          rw [mailfrom_parms_of_gate hg h0] at hst'
          exact ⟨{ buf := junk }, rfl, fun q _ => rfl, st', hst', hcalls⟩
        have hpath := hmeets
        rw [hwords, hparams] at hpath
        obtain ⟨hus, known, hrest⟩ := hpath.before
          (fun w hw => hw0 w (hwords ▸ List.mem_append_left _ hw)) fun x hx => by
            have hlt := place_lt _ x hx
            rw [behind] at hlt ⊢
            rw [List.length_append]
            omega
        obtain ⟨hlg, hkg⟩ := hrest.attached
          (hw0 _ (hwords ▸ List.mem_append_right _ List.mem_cons_self)) hl
        have hbefore : ∀ u ∈ us ++ [l ++ g], kind u = none := by
          intro u hu
          rcases List.mem_append.mp hu with hu | hu
          · exact hus u hu
          · obtain rfl := List.mem_singleton.mp hu
            exact hlg
        rw [← hsame hbefore hkg] at hmeets
        refine Or.inl ⟨hg, ?_, ?_, hmeets.told hw0⟩
        · rwa [htake]
        · rw [ht]
          simpa using hkg
      · -- a clear argument
        rintro (h | ⟨hf, -⟩) st
        · have hbefore := h.before
          rw [htake] at hbefore
          have hkg := h.attached
          rw [ht] at hkg
          obtain ⟨st', hst', hcalls⟩ := @wordsLoop_told conf { st with len := 0 }
            (words arg) [] st.buf rfl (fun q _ => rfl) hw0 h.told
          refine ⟨st', ?_, ?_⟩
          · rw [mailfrom_parms_of_gate hg h0, hst']
          · rw [hcalls, hsame hbefore (hkg g rfl)]
        · cases hf

/-- Two parameters, and a word between them that the `Z` keeps apart from what is left of the first. -/
theorem mailfrom_parms_two :
    params (asc "FROM:<a@b.c> SIZE=100 S AUTH=x+2By") =
      [(13, .size (asc "100")), (0, .auth (asc "x+2By") 5)] ∧
    ∀ st, ∃ st',
      mailfrom_parms ⟨ulongs, 200, false, true⟩ (asc "FROM:<a@b.c> SIZE=100 S AUTH=x+2By") st =
        some st' ∧
      st'.calls = st.calls ++ params (asc "FROM:<a@b.c> SIZE=100 S AUTH=x+2By") := by
  refine ⟨by decide +kernel, (mailfrom_parms_iff (by decide +kernel)).mpr (Or.inl ⟨?_, ?_, ?_, ?_⟩)⟩
  · decide +kernel
  · decide +kernel
  · decide +kernel
  · decide +kernel

/-- A space behind the last parameter: the loop of `mailfrom_auth` does not end, and the size is
read twice. So it is with a word that the `Z` completes. -/
theorem mailfrom_parms_space :
    mailfrom_parms ⟨ulongs, 200, false, true⟩ (asc "FROM:<a@b.c> AUTH=xy ") ⟨[], 0, false, 0,
      false, [], none, []⟩ = none ∧
    params (asc "FROM:<a@b.c> AUTH=xy ") = [(1, .auth (asc "xy") 2)] ∧
    ((mailfrom_parms ⟨ulongs, 200, false, true⟩ (asc "FROM:<a@b.c> SIZE=10 ") ⟨[], 0, false, 0,
      false, [], none, []⟩).map fun st => st.calls) =
        some [(1, .size (asc "10")), (0, .size (asc "10"))] ∧
    params (asc "FROM:<a@b.c> SIZE=10 ") = [(1, .size (asc "10"))] ∧
    ((mailfrom_parms ⟨ulongs, 200, false, true⟩ (asc "FROM:<a@b.c> SIZE=10 si") ⟨[], 0, false, 0,
      false, [], none, []⟩).map fun st => st.calls) =
        some [(3, .size (asc "10")), (0, .size (asc "10"))] ∧
    params (asc "FROM:<a@b.c> SIZE=10 si") = [(3, .size (asc "10"))] := by
  decide +kernel

end IndimailMta.Smtpd.Parms
