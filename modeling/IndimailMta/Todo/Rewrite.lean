import IndimailMta.Base

/-!
# Rewriting a recipient

`rewrite` of `todo-proc.c`, which `qmta-send.c` has as well: the host is added, the percent hack
is undone, and the address is looked up in `locals` and `virtualdomains`. What the loops do with
positions in one buffer is set beside a reference that cuts the address into a box and a domain.

The two are the same for every recipient, with one reading of the percent hack: what stands
behind the `%` is the domain, also where it has an `@` in it.
-/

namespace IndimailMta.Todo

open IndimailMta

/-- The control files that `rewrite` reads. What `constmap` finds for a virtual domain is a C
string. -/
structure Controls where
  envnoathost : Bytes
  percenthack : Bytes → Bool
  locals : Bytes → Bool
  vdoms : Bytes → Option Bytes
  envnoathost_nulFree : 0 ∉ envnoathost
  vdoms_nulFree : ∀ key x, vdoms key = some x → 0 ∉ x

variable (c : Controls)

/-! ## `rewrite` -/

/-- The percent hack: `i` is the place of the `@`. No value when the fuel is used up. -/
def percentLoop : Nat → Bytes → Nat → Option Bytes
  | 0, _, _ => none
  | fuel + 1, addr, i =>
      if c.percenthack (addr.drop (i + 1)) then
        let j := byteRchr (addr.take i) 37
        if j = i then some addr
        else percentLoop fuel ((addr.take i).set j 64) j
      else some addr

/-- The loop over `virtualdomains`: `i` is the place the key begins at, `at_` that of the `@`. -/
def vdomLoop (addr : Bytes) (at_ : Nat) : Nat → Nat → Option Bytes
  | 0, _ => none
  | left + 1, i =>
      if i = 0 ∨ i = at_ + 1 ∨ i = addr.length ∨ (at_ < i ∧ addr[i]? = some 46) then
        match c.vdoms (addr.drop i) with
        | some x => some x
        | none => vdomLoop addr at_ left (i + 1)
      else vdomLoop addr at_ left (i + 1)

/-- By land or by sea. -/
inductive Way where
  | land
  | sea
  deriving DecidableEq, Repr

/-- `rewrite`: the way, and `rwline`. -/
def rewrite (fuel : Nat) (recip : Bytes) : Option (Way × Bytes) := do
  let i := byteRchr recip 64
  let addr := if i = recip.length then recip ++ asc "@" ++ c.envnoathost else recip
  let addr ← percentLoop c fuel addr i
  let at_ := byteRchr addr 64
  if c.locals (addr.drop (at_ + 1)) then return (.land, asc "T" ++ addr ++ [0])
  match vdomLoop c addr at_ (addr.length + 1) 0 with
  | some x =>
      if x = [] then return (.sea, asc "T" ++ addr ++ [0])
      else return (.land, asc "T" ++ x ++ asc "-" ++ addr ++ [0])
  | none => return (.sea, asc "T" ++ addr ++ [0])

/-! ## The reference -/

/-- What is before and behind the last `b`. -/
def splitLast (b : Byte) : Bytes → Option (Bytes × Bytes)
  | [] => none
  | a :: s =>
      match splitLast b s with
      | some (u, t) => some (a :: u, t)
      | none => if a = b then some ([], s) else none

theorem splitLast_of_notMem {b : Byte} {s : Bytes} (h : b ∉ s) : splitLast b s = none := by
  induction s with
  | nil => rfl
  | cons a s ih =>
      simp only [List.mem_cons, not_or] at h
      rw [splitLast, ih h.2]
      exact if_neg (Ne.symm h.1)

theorem splitLast_append {b : Byte} {u t : Bytes} (h : b ∉ t) :
    splitLast b (u ++ b :: t) = some (u, t) := by
  induction u with
  | nil =>
      rw [List.nil_append, splitLast, splitLast_of_notMem h]
      exact if_pos rfl
  | cons a u ih => rw [List.cons_append, splitLast, ih]

theorem length_of_splitLast {b : Byte} {s u t : Bytes} (h : splitLast b s = some (u, t)) :
    u.length < s.length := by
  rcases byteRchr_cases s b with ⟨hno, -⟩ | ⟨v, w, rfl, hw, -⟩
  · rw [splitLast_of_notMem hno] at h
    cases h
  · rw [splitLast_append hw] at h
    cases h
    rw [List.length_append, List.length_cons]
    omega

/-- The box and the domain of a recipient. -/
def boxDomain (recip : Bytes) : Bytes × Bytes :=
  (splitLast 64 recip).getD (recip, c.envnoathost)

def join (a : Bytes × Bytes) : Bytes := a.1 ++ 64 :: a.2

/-- While the domain is a percenthack domain and the box has a `%`, the box is cut at the last
one. -/
def percentHack (box domain : Bytes) : Bytes × Bytes :=
  if c.percenthack domain then
    match _h : splitLast 37 box with
    | some (user, fqdn) => percentHack user fqdn
    | none => (box, domain)
  else (box, domain)
termination_by box.length
decreasing_by exact length_of_splitLast _h

/-- The parts of a domain that begin with a dot, the longest first. -/
def dotSuffixes : Bytes → List Bytes
  | [] => []
  | b :: rest => if b = 46 then (b :: rest) :: dotSuffixes rest else dotSuffixes rest

/-- The text behind the last `@`. -/
def domainOf (addr : Bytes) : Bytes := ((splitLast 64 addr).getD ([], [])).2

/-- The keys that are looked up in `virtualdomains`, in order. -/
def vdomKeys (addr : Bytes) : List Bytes :=
  addr :: domainOf addr :: (dotSuffixes (domainOf addr) ++ [[]])

/-- Where an address goes, with the prepend of a virtual domain. -/
def route (addr : Bytes) : Way × Bytes :=
  if c.locals (domainOf addr) then (.land, [])
  else
    match (vdomKeys addr).findSome? c.vdoms with
    | some x => if x = [] then (.sea, []) else (.land, x ++ asc "-")
    | none => (.sea, [])

/-- The reference: the way, and `rwline`. -/
def rewritten (recip : Bytes) : Way × Bytes :=
  let a := boxDomain c recip
  let addr := join (percentHack c a.1 a.2)
  let r := route c addr
  (r.1, asc "T" ++ r.2 ++ addr ++ [0])

/-! ## The percent hack -/

variable {c}

theorem percentLoop_eq {fuel : Nat} {box : Bytes} (domain : Bytes) (h : box.length < fuel) :
    percentLoop c fuel (box ++ 64 :: domain) box.length =
      some (join (percentHack c box domain)) := by
  induction fuel generalizing box domain with
  | zero => exact absurd h (Nat.not_lt_zero _)
  | succ fuel ih =>
      have hdomain : (box ++ 64 :: domain).drop (box.length + 1) = domain := by
        rw [← List.drop_drop, List.drop_left, List.drop_succ_cons, List.drop_zero]
      rw [percentLoop, hdomain, List.take_left, percentHack]
      by_cases hd : c.percenthack domain = true
      · rw [if_pos hd, if_pos hd]
        simp only
        rcases byteRchr_cases box 37 with ⟨hno, hj⟩ | ⟨user, fqdn, hbox, hno, hj⟩
        · rw [if_pos hj]
          split
          · rename_i hs
            rw [splitLast_of_notMem hno] at hs
            cases hs
          · rfl
        · have hlen : user.length < box.length := by
            rw [hbox, List.length_append, List.length_cons]
            omega
          -- the `%` becomes the `@` of the address that is left
          have hset : box.set user.length 64 = user ++ 64 :: fqdn := by
            rw [hbox, List.set_append_right _ _ (Nat.le_refl _), Nat.sub_self, List.set_cons_zero]
          rw [hj, if_neg (Nat.ne_of_lt hlen), hset, ih fqdn (by omega)]
          have hsplit : splitLast 37 box = some (user, fqdn) := hbox ▸ splitLast_append hno
          split
          · rename_i hs
            rw [hsplit] at hs
            cases hs
            rfl
          · rename_i hs
            rw [hsplit] at hs
            cases hs
      · rw [if_neg hd, if_neg hd]
        rfl

/-! ## The virtual domains -/

section Vdoms

variable {addr : Bytes} {at_ : Nat}

/-- Behind the first byte of the domain, the keys begin with a dot. -/
theorem vdomLoop_suffixes {i : Nat} (s : Bytes) (hs : addr.drop i = s) (hi : at_ + 1 < i)
    (hlen : addr.length = i + s.length) :
    vdomLoop c addr at_ (s.length + 1) i = (dotSuffixes s ++ [[]]).findSome? c.vdoms := by
  induction s generalizing i with
  | nil =>
      rw [vdomLoop, if_pos (Or.inr (Or.inr (Or.inl (by simpa using hlen.symm)))), hs]
      simp only [dotSuffixes, List.nil_append, List.findSome?_cons, List.findSome?_nil]
      split <;> rename_i hv <;> rw [hv]
      rfl
  | cons b s ih =>
      rw [List.length_cons] at hlen
      have hb : addr[i]? = some b := by
        rw [← Nat.add_zero i, ← List.getElem?_drop, hs]
        rfl
      have hnext := ih (i := i + 1) (by rw [← List.drop_drop, hs]; rfl) (by omega) (by omega)
      rw [List.length_cons, vdomLoop, dotSuffixes, hs]
      by_cases hdot : b = 46
      · rw [if_pos (Or.inr (Or.inr (Or.inr ⟨by omega, hdot ▸ hb⟩))), if_pos hdot, hnext,
          List.cons_append, List.findSome?_cons]
        cases c.vdoms (b :: s) with
        | some x => rfl
        | none => rfl
      · rw [if_neg hdot, if_neg, hnext]
        rintro (h | h | h | h)
        · omega
        · omega
        · omega
        · rw [hb, Option.some.injEq] at h
          exact hdot h.2

/-- From the domain on. -/
theorem vdomLoop_domain {domain : Bytes} (hs : addr.drop (at_ + 1) = domain)
    (hlen : addr.length = at_ + 1 + domain.length) :
    vdomLoop c addr at_ (domain.length + 1) (at_ + 1) =
      (domain :: (dotSuffixes domain ++ [[]])).findSome? c.vdoms := by
  rw [vdomLoop, if_pos (Or.inr (Or.inl rfl)), hs, List.findSome?_cons]
  cases hv : c.vdoms domain with
  | some x => rfl
  | none =>
      -- a domain that begins with a dot is its own first suffix, and is looked up once
      cases domain with
      | nil => simp [vdomLoop, dotSuffixes, hv]
      | cons b rest =>
          rw [List.length_cons] at hlen
          have hdrop : addr.drop (at_ + 1 + 1) = rest := by
            rw [← List.drop_drop, hs]
            rfl
          have hrest := vdomLoop_suffixes (c := c) rest hdrop (Nat.lt_succ_self _) (by omega)
          simp only [List.length_cons, dotSuffixes]
          rw [hrest]
          split
          · rw [List.cons_append, List.findSome?_cons, hv]
          · rfl

/-- No key begins in the box, but at its first byte. -/
theorem vdomLoop_box (left : Nat) : ∀ {k i : Nat}, 0 < i → i + k = at_ + 1 → at_ < addr.length →
    vdomLoop c addr at_ (k + left) i = vdomLoop c addr at_ left (at_ + 1)
  | 0, i, _, hk, _ => by
      rw [Nat.zero_add, ← hk, Nat.add_zero]
  | k + 1, i, hi, hk, hat => by
      rw [Nat.add_right_comm, vdomLoop, if_neg (by omega)]
      exact vdomLoop_box left (Nat.succ_pos i) (by omega) hat

theorem vdomLoop_eq {box domain : Bytes} (h : 64 ∉ domain) :
    vdomLoop c (box ++ 64 :: domain) box.length ((box ++ 64 :: domain).length + 1) 0 =
      (vdomKeys (box ++ 64 :: domain)).findSome? c.vdoms := by
  have hlen : (box ++ 64 :: domain).length = box.length + 1 + domain.length := by
    rw [List.length_append, List.length_cons]
    omega
  have hdrop : (box ++ 64 :: domain).drop (box.length + 1) = domain := by
    rw [← List.drop_drop, List.drop_left, List.drop_succ_cons, List.drop_zero]
  have hdomain : domainOf (box ++ 64 :: domain) = domain := by
    rw [domainOf, splitLast_append h]
    rfl
  rw [vdomLoop, if_pos (Or.inl rfl), List.drop_zero, vdomKeys, hdomain, List.findSome?_cons,
    hlen, show box.length + 1 + domain.length = box.length + (domain.length + 1) by omega,
    vdomLoop_box (domain.length + 1) Nat.zero_lt_one (by omega) (by omega),
    vdomLoop_domain hdrop hlen]
  cases c.vdoms (box ++ 64 :: domain) with
  | some x => rfl
  | none => rfl

end Vdoms

/-! ## The whole -/

theorem join_nulFree {a : Bytes × Bytes} (hbox : 0 ∉ a.1) (hdomain : 0 ∉ a.2) : 0 ∉ join a := by
  rw [join, List.mem_append, List.mem_cons, not_or, not_or]
  exact ⟨hbox, by decide, hdomain⟩

theorem boxDomain_nulFree {recip : Bytes} (h : 0 ∉ recip) :
    0 ∉ (boxDomain c recip).1 ∧ 0 ∉ (boxDomain c recip).2 := by
  rcases byteRchr_cases recip 64 with ⟨hno, -⟩ | ⟨box, domain, rfl, hno, -⟩
  · rw [boxDomain, splitLast_of_notMem hno]
    exact ⟨h, c.envnoathost_nulFree⟩
  · rw [boxDomain, splitLast_append hno]
    rw [List.mem_append, List.mem_cons, not_or, not_or] at h
    exact ⟨h.1, h.2.2⟩

theorem percentHack_nulFree (n : Nat) {box domain : Bytes} (hn : box.length ≤ n) (hbox : 0 ∉ box)
    (hdomain : 0 ∉ domain) :
    0 ∉ (percentHack c box domain).1 ∧ 0 ∉ (percentHack c box domain).2 := by
  induction n using Nat.strong_induction_on generalizing box domain with
  | _ n ih =>
      rw [percentHack]
      split
      · split
        · rename_i user fqdn hs
          have hlen := length_of_splitLast hs
          rcases byteRchr_cases box 37 with ⟨hno, -⟩ | ⟨v, w, rfl, hw, -⟩
          · rw [splitLast_of_notMem hno] at hs
            cases hs
          · rw [splitLast_append hw] at hs
            cases hs
            rw [List.mem_append, List.mem_cons, not_or, not_or] at hbox
            exact ih user.length (by omega) (Nat.le_refl _) hbox.1 hbox.2.2
        · exact ⟨hbox, hdomain⟩
      · exact ⟨hbox, hdomain⟩

theorem route_nulFree (addr : Bytes) : 0 ∉ (route c addr).2 := by
  rw [route]
  split
  · simp
  · split
    · rename_i x hx
      split
      · simp
      · obtain ⟨key, -, hkey⟩ := List.exists_of_findSome?_eq_some hx
        rw [List.mem_append, not_or]
        exact ⟨c.vdoms_nulFree key x hkey, by decide⟩
    · simp

/-- The loops end, and do what the reference says. -/
theorem rewrite_eq {fuel : Nat} {recip : Bytes} (h : recip.length < fuel) :
    rewrite c fuel recip = some (rewritten c recip) := by
  -- the address with its host, and the place of its `@`
  have hhost : (boxDomain c recip).1.length < fuel ∧
      byteRchr recip 64 = (boxDomain c recip).1.length ∧
      (if byteRchr recip 64 = recip.length then recip ++ asc "@" ++ c.envnoathost else recip) =
        (boxDomain c recip).1 ++ 64 :: (boxDomain c recip).2 := by
    rcases byteRchr_cases recip 64 with ⟨hno, hi⟩ | ⟨box, domain, rfl, hno, hi⟩
    · rw [boxDomain, splitLast_of_notMem hno, hi, if_pos rfl, List.append_assoc]
      exact ⟨h, rfl, rfl⟩
    · rw [boxDomain, splitLast_append hno, hi]
      rw [List.length_append, List.length_cons] at h
      refine ⟨by simp only [Option.getD_some]; omega, rfl, if_neg ?_⟩
      rw [List.length_append, List.length_cons]
      omega
  obtain ⟨hfuel, hi, haddr⟩ := hhost
  rw [rewrite]
  simp only [haddr]
  rw [hi, percentLoop_eq _ hfuel]
  simp only [Option.bind_eq_bind, Option.bind_some, rewritten]
  generalize percentHack c (boxDomain c recip).1 (boxDomain c recip).2 = a
  -- what is behind the last `@` of the result may come from the box
  rcases byteRchr_cases (join a) 64 with ⟨hno, -⟩ | ⟨u, t, hjoin, hno, hat⟩
  · exact absurd (List.mem_append_right a.1 List.mem_cons_self) hno
  · have hdomain : domainOf (join a) = t := by
      rw [domainOf, hjoin, splitLast_append hno]
      rfl
    have hdrop : (join a).drop (u.length + 1) = t := by
      rw [hjoin, ← List.drop_drop, List.drop_left, List.drop_succ_cons, List.drop_zero]
    have hvdoms : vdomLoop c (join a) u.length ((join a).length + 1) 0 =
        (vdomKeys (join a)).findSome? c.vdoms := by
      rw [hjoin]
      exact vdomLoop_eq hno
    rw [hat, hdrop, hvdoms, route, hdomain]
    split
    · rw [List.append_nil]
      rfl
    · cases (vdomKeys (join a)).findSome? c.vdoms with
      | none => simp
      | some x =>
          simp only
          split
          · simp
          · simp [List.append_assoc]

/-- **Recipients are rewritten as the reference says**: the loops end, and `rwline` is a `T`, the
prepend if there is one, the address, and the only NUL. -/
theorem rewrite_follows (c : Controls) (recip : Bytes) (h : 0 ∉ recip) :
    (∀ fuel, recip.length < fuel → rewrite c fuel recip = some (rewritten c recip)) ∧
      ∃ body, (rewritten c recip).2 = asc "T" ++ body ++ [0] ∧ 0 ∉ body := by
  refine ⟨fun fuel hf => rewrite_eq hf, ?_⟩
  have hrecip := boxDomain_nulFree (c := c) h
  have haddr := percentHack_nulFree (c := c) _ (Nat.le_refl _) hrecip.1 hrecip.2
  generalize ha : percentHack c (boxDomain c recip).1 (boxDomain c recip).2 = a at haddr
  refine ⟨(route c (join a)).2 ++ join a, ?_, ?_⟩
  · simp only [rewritten, ha, List.append_assoc]
  · rw [List.mem_append, not_or]
    exact ⟨route_nulFree _, join_nulFree haddr.1 haddr.2⟩

/-! ## The percent hack by the last `@` -/

/-- A percent hack that takes the text behind the last `@` for the domain each time. -/
def lastHack (c : Controls) : Nat → Bytes → Bytes
  | 0, addr => addr
  | fuel + 1, addr =>
      match splitLast 64 addr with
      | some (box, domain) =>
          if c.percenthack domain then
            match splitLast 37 box with
            | some (user, fqdn) => lastHack c fuel (join (user, fqdn))
            | none => addr
          else addr
      | none => addr

/-- Two percenthack domains. -/
def hacks : Controls where
  envnoathost := asc "here"
  percenthack := fun d => d == asc "b" || d == asc "d"
  locals := fun _ => false
  vdoms := fun _ => none
  envnoathost_nulFree := by decide
  vdoms_nulFree := fun _ _ h => by cases h

/-- What is behind the `%` is not cut again at an `@` in it. -/
theorem rewrite_keeps_fqdn : ¬ ∀ (c : Controls) (recip : Bytes) (fuel : Nat), 0 ∉ recip →
    recip.length < fuel →
      (rewrite c fuel recip).map Prod.snd =
        some (let addr := lastHack c recip.length (join (boxDomain c recip))
          asc "T" ++ (route c addr).2 ++ addr ++ [0]) := by
  intro h
  have hu := h hacks (asc "u%v%a@b@d") 10 (by decide) (by decide)
  exact absurd hu (by decide +kernel)

/-- A user behind two hosts, each of which undoes its percent hack. -/
theorem rewrite_follows_twice :
    rewrite hacks 8 (asc "u%c%b@d") = some (rewritten hacks (asc "u%c%b@d")) :=
  (rewrite_follows hacks (asc "u%c%b@d") (by decide)).1 8 (by decide)

end IndimailMta.Todo
