import IndimailMta.ControlList
import IndimailMta.Access.Matchinet

/-!
# Domains and the hosts they come from

`tablematch` reads `hostaccess`, whose lines are pairs of a domain and an address token. A pair that
matches both allows the mail. Otherwise it counts whether a line names the domain, and whether one
has the address, other than by a wildcard.

The two flags for this are set by every line that matches, so that only the last one counts; and a
line without a colon does not move the pointer, so that no line behind it is looked at.
-/

namespace IndimailMta.Access.Hostaccess

open IndimailMta ControlList Scan

/-! ## The code -/

/-- What `control_readfile` finds. -/
inductive ControlFile where
  | unreadable
  | absent
  | lines (ls : List Bytes)
  deriving DecidableEq, Repr

structure Env where
  HOSTACCESS : Option Bytes
  PARANOID : Bool
  DOMAIN_MASQUERADE : Bool
  deriving DecidableEq, Repr

structure St where
  hostacc : Bytes
  len : Nat
  ptr : Nat
  exact_domain_match : Bool
  exact_ip_match : Bool
  deriving DecidableEq, Repr

variable (net : Net) (ip domain : Bytes)

def isWild (token : Bytes) : Bool := token = asc "*" || token = asc "*.*.*.*"

/-- The domain of a line matches that of the sender, which is empty or begins with `@`. -/
def domainMatch (name : Bytes) : Bool :=
  (name = asc "<>" && domain = []) || (domain ≠ [] && (name = asc "*" || domain.tail = name))

/-- The token of a line matches the client's address. -/
def ipMatch (token : Bytes) : Option Bool :=
  if isWild token then some true else (matchinet net ip token false).map (· ≠ 0)

/-- The body of the loop. -/
def turn (st : St) : Option (Except Int St) := do
  let line ← textAt st.hostacc st.ptr
  let len := st.len + (line.length + 1)
  match line.dropWhile (· ≠ 58) with
  -- the pointer stays
  | [] => some (.ok { st with len := len })
  | _ :: _ =>
      let cptr := st.ptr + (line.takeWhile (· ≠ 58)).length
      let hostacc := st.hostacc.set cptr 0
      let name ← textAt hostacc st.ptr
      let token ← textAt hostacc (cptr + 1)
      let dmatch := domainMatch domain name
      let exact_domain_match := if dmatch then name != asc "*" else st.exact_domain_match
      let imatch ← ipMatch net ip token
      let exact_ip_match := if imatch then !isWild token else st.exact_ip_match
      if imatch && dmatch then some (.error 1)
      else some (.ok ⟨hostacc, len, len, exact_domain_match, exact_ip_match⟩)

def more (st : St) : Bool := st.len < st.hostacc.length

variable (env : Env)

/-- What is returned behind the loop. -/
def verdict (exact_domain_match exact_ip_match : Bool) : Int :=
  if exact_domain_match ∧ env.PARANOID then 0
  else if exact_ip_match ∧ ¬ env.DOMAIN_MASQUERADE then 0
  else 1

def tablematch (control_readfile : Bytes → ControlFile) (filename : Bytes) : Option Int :=
  match control_readfile (env.HOSTACCESS.getD filename) with
  | .unreadable => some (-1)
  | .absent => some 1
  | .lines ls =>
      match loop more (turn net ip domain) (nuls ls).length ⟨nuls ls, 0, 0, false, false⟩ with
      | none => none
      | some (.error r) => some r
      | some (.ok st) => some (verdict env st.exact_domain_match st.exact_ip_match)

/-! ## What the lines say -/

/-- `domain:token` -/
structure Entry where
  name : Bytes
  token : Bytes
  deriving DecidableEq, Repr

def Entry.read (line : Bytes) : Option Entry :=
  match line.dropWhile (· ≠ 58) with
  | [] => none
  | _ :: token => some ⟨line.takeWhile (· ≠ 58), token⟩

variable {ip domain}

/-- The line is for the sender's domain. -/
def Entry.names (e : Entry) (domain : Bytes) : Bool := domainMatch domain e.name

/-- The line has the client's address. -/
def Entry.has (e : Entry) (net : Net) (ip : Bytes) : Bool :=
  isWild e.token || standsFor net e.token ip

def Entry.allows (e : Entry) (net : Net) (ip domain : Bytes) : Bool :=
  e.has net ip && e.names domain

def Entry.namesExactly (e : Entry) (domain : Bytes) : Bool := e.names domain && e.name != asc "*"

def Entry.hasExactly (e : Entry) (net : Net) (ip : Bytes) : Bool :=
  e.has net ip && !isWild e.token

/-- What the lines say, all of them. -/
def decision (net : Net) (env : Env) (ip domain : Bytes) (es : List Entry) : Int :=
  if es.any (·.allows net ip domain) then 1
  else verdict env (es.any (·.namesExactly domain)) (es.any (·.hasExactly net ip))

/-! ## One line -/

/-- Between two lines: what is in front of the pointer was cut. -/
structure At (post : List Bytes) (st : St) : Prop where
  place : ∃ pre, st.hostacc = nuls (pre ++ post) ∧ st.ptr = (nuls pre).length
  len_eq : st.len = st.ptr

/-- A line without a colon: nothing but the count moves. -/
theorem turn_stays {line : Bytes} {post : List Bytes} {st : St} (h0 : (0 : Byte) ∉ line)
    (hplace : ∃ pre, st.hostacc = nuls (pre ++ line :: post) ∧ st.ptr = (nuls pre).length)
    (hread : Entry.read line = none) :
    turn net ip domain st = some (.ok { st with len := st.len + (line.length + 1) }) := by
  obtain ⟨pre, hlist, hptr⟩ := hplace
  have htext : textAt st.hostacc st.ptr = some line := by rw [hlist, hptr, textAt_line pre post h0]
  cases hd : line.dropWhile (· ≠ 58) with
  | nil => simp only [turn, htext, hd, Option.bind_eq_bind, Option.bind_some]
  | cons c u =>
      rw [Entry.read, hd] at hread
      cases hread

/-- The loop then goes on at this line until the count is through. -/
theorem loop_stays {line : Bytes} {post : List Bytes} (h0 : (0 : Byte) ∉ line)
    (hread : Entry.read line = none) {left : Nat} {st : St}
    (hplace : ∃ pre, st.hostacc = nuls (pre ++ line :: post) ∧ st.ptr = (nuls pre).length)
    (hleft : st.hostacc.length - st.len ≤ left) :
    ∃ len, loop more (turn net ip domain) left st = some (.ok { st with len := len }) := by
  induction left generalizing st with
  | zero =>
      refine ⟨st.len, ?_⟩
      have hm : more st = false := by
        simp only [more, decide_eq_false_iff_not]
        omega
      rw [loop, hm]
      rfl
  | succ left ih =>
      rw [loop]
      by_cases hm : more st = true
      · rw [if_pos hm, turn_stays net h0 hplace hread]
        simp only [more, decide_eq_true_eq] at hm
        obtain ⟨len, hlen⟩ := @ih { st with len := st.len + (line.length + 1) } hplace
          (by dsimp only; omega)
        exact ⟨len, hlen⟩
      · exact ⟨st.len, by rw [if_neg hm]⟩

theorem ipMatch_eq {e : Entry} (hip : IpText ip)
    (hcomp : isWild e.token = false → Comparable net e.token ip) :
    ipMatch net ip e.token = some (e.has net ip) := by
  unfold ipMatch Entry.has
  cases hw : isWild e.token with
  | true => rfl
  | false =>
      rw [if_neg Bool.false_ne_true, matchinet_eq hip (hcomp hw)]
      cases standsFor net e.token ip <;> rfl

/-- The flags behind a line. -/
def flags (net : Net) (ip domain : Bytes) (f : Bool × Bool) (e : Entry) : Bool × Bool :=
  (if e.names domain then e.name != asc "*" else f.1, if e.has net ip then !isWild e.token else f.2)

/-- A line with a colon, whose token can be compared. -/
theorem turn_entry {line : Bytes} {post : List Bytes} {st : St} {e : Entry} (hip : IpText ip)
    (h0 : (0 : Byte) ∉ line) (hat : At (line :: post) st) (hread : Entry.read line = some e)
    (hcomp : isWild e.token = false → Comparable net e.token ip) :
    if e.allows net ip domain then turn net ip domain st = some (.error 1)
    else
      ∃ st', turn net ip domain st = some (.ok st') ∧ At post st' ∧
        st'.hostacc.length = st.hostacc.length ∧ st'.len = st.len + (line.length + 1) ∧
        (st'.exact_domain_match, st'.exact_ip_match) =
          flags net ip domain (st.exact_domain_match, st.exact_ip_match) e := by
  obtain ⟨⟨pre, hlist, hptr⟩, hlen⟩ := hat
  have htext : textAt st.hostacc st.ptr = some line := by rw [hlist, hptr, textAt_line pre post h0]
  cases hd : line.dropWhile (· ≠ 58) with
  | nil =>
      rw [Entry.read, hd] at hread
      cases hread
  | cons c token =>
      obtain ⟨rfl, hline⟩ := split_at hd
      have he : e = ⟨line.takeWhile (· ≠ 58), token⟩ := by
        rw [Entry.read, hd] at hread
        exact (Option.some.inj hread).symm
      set name := line.takeWhile (· ≠ 58) with hname
      have h0n : (0 : Byte) ∉ name := fun hm => h0 (List.takeWhile_subset _ hm)
      have h0t : (0 : Byte) ∉ token := fun hm => h0 (by rw [hline]; simp [hm])
      have hcut : st.hostacc.set (st.ptr + name.length) 0 =
          nuls (pre ++ name :: token :: post) := by
        have hbuf : nuls (pre ++ line :: post) = nuls (pre ++ (name ++ 58 :: token) :: post) := by
          rw [← hline]
        rw [hlist, hptr, hbuf, set_within, nuls_cut]
      have hnametext : textAt (nuls (pre ++ name :: token :: post)) st.ptr = some name := by
        rw [hptr, textAt_line pre (token :: post) h0n]
      have htoken : textAt (nuls (pre ++ name :: token :: post)) (st.ptr + name.length + 1) =
          some token := by
        have := textAt_line (pre ++ [name]) post h0t
        rwa [length_nuls_snoc, ← hptr, List.append_assoc, List.singleton_append] at this
      have hmatch : ipMatch net ip token = some (e.has net ip) := by
        have := ipMatch_eq net hip hcomp
        rwa [he] at this ⊢
      have hnext : st.len + (line.length + 1) = (nuls (pre ++ [name, token])).length := by
        have hlen2 : line.length = name.length + (token.length + 1) := by
          conv_lhs => rw [hline]
          simp
        rw [hlen, hptr, hlen2]
        simp [nuls_append]
        omega
      have hlength : (nuls (pre ++ name :: token :: post)).length = st.hostacc.length := by
        rw [← hcut, List.length_set]
      have hturn : turn net ip domain st =
          if e.has net ip && e.names domain then some (.error 1)
          else some (.ok ⟨nuls (pre ++ name :: token :: post), st.len + (line.length + 1),
            st.len + (line.length + 1),
            if e.names domain then e.name != asc "*" else st.exact_domain_match,
            if e.has net ip then !isWild token else st.exact_ip_match⟩) := by
        simp only [turn, htext, hd, Option.bind_eq_bind, Option.bind_some, ← hname, hcut,
          hnametext, htoken, hmatch]
        rw [he]
        rfl
      rw [hturn]
      by_cases ha : e.allows net ip domain = true
      · rw [if_pos ha]
        exact if_pos ha
      · rw [if_neg ha]
        refine ⟨_, if_neg ha, ⟨⟨pre ++ [name, token], by simp, hnext⟩, rfl⟩, hlength, rfl, ?_⟩
        simp [flags, he]

/-! ## All lines -/

/-- The lines the loop comes to. -/
def readable (ls : List Bytes) : List Entry :=
  (ls.takeWhile fun l => (Entry.read l).isSome).filterMap Entry.read

theorem readable_cons (l : Bytes) (ls : List Bytes) :
    readable (l :: ls) = match Entry.read l with | none => [] | some e => e :: readable ls := by
  cases h : Entry.read l <;> simp [readable, h]

variable (ip domain) in
/-- The tokens can be compared, up to the line that allows. -/
def AllComparable : List Entry → Prop
  | [] => True
  | e :: es =>
      (isWild e.token = false → Comparable net e.token ip) ∧
        (e.allows net ip domain = false → AllComparable es)

/-- The loop, from a line on. -/
theorem loop_lines (hip : IpText ip) {ls : List Bytes} (h0 : Plain ls) {left : Nat} {st : St}
    (hat : At ls st) (hcomp : AllComparable net ip domain (readable ls))
    (hleft : st.hostacc.length - st.len ≤ left) :
    if (readable ls).any (·.allows net ip domain) then
      loop more (turn net ip domain) left st = some (.error 1)
    else
      ∃ st', loop more (turn net ip domain) left st = some (.ok st') ∧
        (st'.exact_domain_match, st'.exact_ip_match) =
          (readable ls).foldl (flags net ip domain) (st.exact_domain_match, st.exact_ip_match) := by
  induction ls generalizing left st with
  | nil =>
      obtain ⟨⟨pre, hlist, hptr⟩, hlen⟩ := hat
      have hm : more st = false := by simp [more, hlist, hptr, hlen]
      have hstop : loop more (turn net ip domain) left st = some (.ok st) := by
        cases left <;> simp [loop, hm]
      exact ⟨st, hstop, rfl⟩
  | cons l ls ih =>
      obtain ⟨h0l, h0s⟩ := h0.of_cons
      rw [readable_cons] at hcomp ⊢
      cases hread : Entry.read l with
      | none =>
          obtain ⟨len, hlen⟩ := loop_stays net h0l hread hat.place hleft
          exact ⟨_, hlen, rfl⟩
      | some e =>
          rw [hread] at hcomp
          obtain ⟨he, hrest⟩ := hcomp
          have hturn := @turn_entry net ip domain l ls st e hip h0l hat hread he
          have hm : more st = true := by
            obtain ⟨⟨pre, hlist, hptr⟩, hlen⟩ := hat
            rw [more, hlen, hptr, hlist, length_nuls_split, decide_eq_true_iff]
            omega
          have hlt : st.len < st.hostacc.length := by simpa [more] using hm
          cases left with
          | zero => omega
          | succ left =>
              rw [loop, if_pos hm, List.any_cons, List.foldl_cons]
              cases ha : e.allows net ip domain with
              | true =>
                  rw [if_pos ha] at hturn
                  rw [hturn, Bool.true_or, if_pos rfl]
              | false =>
                  rw [if_neg (by simp [ha])] at hturn
                  obtain ⟨st', hst', hat', hlength, hlen, hflags⟩ := hturn
                  rw [hst', Bool.false_or, ← hflags]
                  exact ih h0s hat' (hrest ha) (by omega)

/-- The last of the lines that name the domain names it exactly. -/
def lastNames (domain : Bytes) (es : List Entry) : Bool :=
  ((es.filter (·.names domain)).getLast?).any (·.namesExactly domain)

/-- The last of the lines that have the address has it exactly. -/
def lastHas (net : Net) (ip : Bytes) (es : List Entry) : Bool :=
  ((es.filter (·.has net ip)).getLast?).any (·.hasExactly net ip)

theorem getLast?_filter_cons {α : Type} (p : α → Bool) (e : α) (es : List α) (g : α → Bool)
    (a : Bool) :
    (((e :: es).filter p).getLast?).elim a g =
      ((es.filter p).getLast?).elim (if p e then g e else a) g := by
  by_cases hp : p e = true
  · rw [List.filter_cons_of_pos hp, List.getLast?_cons, if_pos hp]
    cases (es.filter p).getLast? <;> rfl
  · rw [List.filter_cons_of_neg hp, if_neg hp]

/-- The last line that sets a flag is the one that counts. -/
theorem foldl_flags (es : List Entry) (f : Bool × Bool) :
    es.foldl (flags net ip domain) f =
      (((es.filter (·.names domain)).getLast?).elim f.1 (fun e => e.name != asc "*"),
        ((es.filter (·.has net ip)).getLast?).elim f.2 fun e => !isWild e.token) := by
  induction es generalizing f with
  | nil => rfl
  | cons e es ih =>
      rw [List.foldl_cons, ih, getLast?_filter_cons, getLast?_filter_cons]
      rfl

theorem foldl_flags_false (es : List Entry) :
    es.foldl (flags net ip domain) (false, false) = (lastNames domain es, lastHas net ip es) := by
  rw [foldl_flags, lastNames, lastHas]
  congr 1
  · cases h : (es.filter (·.names domain)).getLast? with
    | none => rfl
    | some e =>
        have hm := (List.mem_filter.mp (List.mem_of_getLast? h)).2
        simp [Entry.namesExactly, hm]
  · cases h : (es.filter (·.has net ip)).getLast? with
    | none => rfl
    | some e =>
        have hm := (List.mem_filter.mp (List.mem_of_getLast? h)).2
        simp [Entry.hasExactly, hm]

/-! ## The decision -/

/-- The lines behind the first one without a colon, and flags that a later line took back, make no
difference: a line that is looked at allows the mail, or the last of the lines looked at that name
the domain and that have the address deny it just when all lines do. -/
def Agrees (net : Net) (env : Env) (ip domain : Bytes) (ls : List Bytes) : Prop :=
  let es := ls.filterMap Entry.read
  (∃ e ∈ readable ls, e.allows net ip domain) ∨
    ((lastNames domain (readable ls) ∧ env.PARANOID ∨
        lastHas net ip (readable ls) ∧ ¬ env.DOMAIN_MASQUERADE) ↔
      (¬ ∃ e ∈ es, e.allows net ip domain) ∧
        ((∃ e ∈ es, e.namesExactly domain) ∧ env.PARANOID ∨
          (∃ e ∈ es, e.hasExactly net ip) ∧ ¬ env.DOMAIN_MASQUERADE))

variable {net env}

theorem verdict_eq_zero (a b : Bool) :
    verdict env a b = 0 ↔ a ∧ env.PARANOID ∨ b ∧ ¬ env.DOMAIN_MASQUERADE := by
  unfold verdict
  split
  · simp [*]
  · split <;> simp_all

theorem verdict_cases (a b : Bool) : verdict env a b = 0 ∨ verdict env a b = 1 := by
  unfold verdict
  split
  · exact .inl rfl
  · split
    · exact .inl rfl
    · exact .inr rfl

theorem readable_subset {ls : List Bytes} {e : Entry} (h : e ∈ readable ls) :
    e ∈ ls.filterMap Entry.read := by
  rw [readable] at h
  exact ((List.takeWhile_sublist _).filterMap _).subset h

theorem tablematch_iff (hip : IpText ip) {control_readfile : Bytes → ControlFile}
    {filename : Bytes} {ls : List Bytes}
    (hfile : control_readfile (env.HOSTACCESS.getD filename) = .lines ls) (h0 : Plain ls)
    (hcomp : AllComparable net ip domain (readable ls)) :
    tablematch net ip domain env control_readfile filename =
        some (decision net env ip domain (ls.filterMap Entry.read)) ↔
      Agrees net env ip domain ls := by
  have hloop := @loop_lines net ip domain hip ls h0 (nuls ls).length
    ⟨nuls ls, 0, 0, false, false⟩ ⟨⟨[], rfl, rfl⟩, rfl⟩ hcomp (Nat.sub_le _ _)
  unfold tablematch Agrees
  rw [hfile]
  dsimp only
  by_cases hallow : (readable ls).any (·.allows net ip domain) = true
  · rw [if_pos hallow] at hloop
    have hsome : ∃ e ∈ readable ls, e.allows net ip domain = true := by simpa using hallow
    have hall : (ls.filterMap Entry.read).any (·.allows net ip domain) = true := by
      obtain ⟨e, he, ha⟩ := hsome
      exact List.any_eq_true.mpr ⟨e, readable_subset he, ha⟩
    refine iff_of_true ?_ (.inl hsome)
    rw [hloop, decision, if_pos hall]
  · rw [if_neg hallow] at hloop
    obtain ⟨st', hst', hflags⟩ := hloop
    rw [foldl_flags_false] at hflags
    have hnames := (Prod.mk.inj hflags).1
    have hhas := (Prod.mk.inj hflags).2
    have hnone : ¬ ∃ e ∈ readable ls, e.allows net ip domain = true := by simpa using hallow
    rw [hst']
    dsimp only
    rw [hnames, hhas, Option.some.injEq, or_iff_right hnone, ← verdict_eq_zero]
    have hzero : decision net env ip domain (ls.filterMap Entry.read) = 0 ↔
        (¬ ∃ e ∈ ls.filterMap Entry.read, e.allows net ip domain = true) ∧
          ((∃ e ∈ ls.filterMap Entry.read, e.namesExactly domain = true) ∧ env.PARANOID = true ∨
            (∃ e ∈ ls.filterMap Entry.read, e.hasExactly net ip = true) ∧
              ¬ env.DOMAIN_MASQUERADE = true) := by
      unfold decision
      split
      · rename_i hany
        exact iff_of_false (by decide) fun h => h.1 (List.any_eq_true.mp hany)
      · rename_i hany
        rw [verdict_eq_zero, List.any_eq_true, List.any_eq_true]
        exact (and_iff_right fun h => hany (List.any_eq_true.mpr h)).symm
    have hone : decision net env ip domain (ls.filterMap Entry.read) = 0 ∨
        decision net env ip domain (ls.filterMap Entry.read) = 1 := by
      unfold decision
      split
      · exact .inr rfl
      · exact verdict_cases _ _
    rw [← hzero]
    rcases @verdict_cases env (lastNames domain (readable ls)) (lastHas net ip (readable ls))
      with hv | hv <;> rcases hone with hd | hd <;> simp [hv, hd]

/-- **The hostaccess file**, read line by line. A token that can be compared is compared field by
field; and where the tokens that are looked at can be, what is returned is what all lines say just
when they agree. -/
theorem hostaccess_by_lines (hip : IpText ip) {control_readfile : Bytes → ControlFile}
    {filename : Bytes} {ls : List Bytes}
    (hfile : control_readfile (env.HOSTACCESS.getD filename) = .lines ls) (h0 : Plain ls)
    (hcomp : AllComparable net ip domain (readable ls)) :
    (∀ token, Comparable net token ip →
      matchinet net ip token false = some (if standsFor net token ip then 1 else 0)) ∧
    (tablematch net ip domain env control_readfile filename =
        some (decision net env ip domain (ls.filterMap Entry.read)) ↔
      Agrees net env ip domain ls) :=
  ⟨fun _ h => matchinet_eq hip h, tablematch_iff hip hfile h0 hcomp⟩

/-- Addresses that are written out as four decimal numbers. -/
def decimalNet : Net where
  inet_addr token := decide (Numeric token) && (token.splitOn 46).length == 4 &&
    (token.splitOn 46).all fun t => t ≠ [] && t.all isDigit && (scanDecimal t).2 ≤ 255
  numeric token h := by
    simp only [Bool.and_eq_true, decide_eq_true_eq] at h
    exact h.1.1
  scan_int s := (scanDecimal s).2
  getaddrinfo _ := none

/-- The lines of the manual. -/
def manual : List Bytes :=
  [asc "*:202.133.22.1", asc "yahoo.com:202.144.77.5", asc "abc.com:202.10-33.54.5",
    asc "indimail.org:*"]

theorem hostaccess_by_lines_manual :
    tablematch decimalNet (asc "202.20.54.5") (asc "@abc.com") ⟨none, true, false⟩
        (fun _ => .lines manual) (asc "hostaccess") =
      some (decision decimalNet ⟨none, true, false⟩ (asc "202.20.54.5") (asc "@abc.com")
        (manual.filterMap Entry.read)) := by
  refine (hostaccess_by_lines ⟨by decide +kernel, by decide +kernel⟩ rfl
    (by unfold Plain; decide +kernel) ?_).2.mpr ?_
  · exact ⟨fun _ => by decide +kernel, fun _ => ⟨fun _ => by decide +kernel, fun _ =>
      ⟨fun _ => by decide +kernel, fun h => absurd h (by decide +kernel)⟩⟩⟩
  · exact .inl ⟨⟨asc "abc.com", asc "202.10-33.54.5"⟩, by decide +kernel, by decide +kernel⟩

/-- What is behind a line without a colon is not looked at; a wildcard takes back what an exact
line found; and an address of the other family is longer than a field. -/
theorem line_without_colon :
    let env : Env := ⟨none, true, false⟩
    let paranoid (ls : List Bytes) (ip : Bytes) :=
      (tablematch decimalNet ip (asc "@yahoo.com") env (fun _ => .lines ls) (asc "hostaccess"),
        decision decimalNet env ip (asc "@yahoo.com") (ls.filterMap Entry.read))
    paranoid [asc "yahoo.com", asc "yahoo.com:202.144.77.5"] (asc "1.2.3.4") = (some 1, 0) ∧
      paranoid [asc "yahoo.com:202.144.77.5", asc "*:1.1.1.1"] (asc "1.2.3.4") = (some 1, 0) ∧
      paranoid [asc "yahoo.com:202.144.77.*"] (asc "2001:db8::1") = (none, 0) := by
  decide +kernel

end IndimailMta.Access.Hostaccess
