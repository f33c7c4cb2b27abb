import IndimailMta.Srs.Hashes

/-!
# There and back

What `srs_forward` makes of a sender depends on its form. A plain sender becomes a host and a user behind
a hash and a stamp; one that is rewritten already gets a hash for its first forwarder, and loses the
one it came from. Rewritten back, it is the sender again, or the address of the first forwarder.
-/

namespace IndimailMta.Srs

open IndimailMta

/-! ## Texts -/

section Cut

variable {ch : Byte} {x y s : Bytes}

theorem cutAt_append (h : ch ∉ x) : cutAt ch (x ++ ch :: y) = some (x, y) := by
  have hall : ∀ b ∈ x, decide (b ≠ ch) = true := fun b hb => decide_eq_true fun heq => h (heq ▸ hb)
  have htake : (x ++ ch :: y).takeWhile (· ≠ ch) = x := by
    rw [List.takeWhile_append_of_pos hall, List.takeWhile_cons_of_neg (by simp), List.append_nil]
  have hdrop : (x ++ ch :: y).dropWhile (· ≠ ch) = ch :: y := by
    rw [List.dropWhile_append_of_pos hall, List.dropWhile_cons_of_neg (by simp)]
  rw [cutAt, if_pos (List.mem_append_right x List.mem_cons_self), htake, hdrop, List.tail_cons]

theorem cutAt_some (h : cutAt ch s = some (x, y)) : s = x ++ ch :: y ∧ ch ∉ x := by
  rw [cutAt] at h
  split at h
  · rename_i hmem
    obtain ⟨rfl, rfl⟩ := Prod.mk.inj (Option.some.inj h)
    have hnot : ch ∉ s.takeWhile (· ≠ ch) := fun hch => absurd (List.mem_takeWhile_imp hch) (by simp)
    have hcons : s.dropWhile (· ≠ ch) = ch :: (s.dropWhile (· ≠ ch)).tail := by
      cases hd : s.dropWhile (· ≠ ch) with
      | nil =>
          rw [List.dropWhile_eq_nil_iff] at hd
          exact absurd (hd ch hmem) (by simp)
      | cons b u =>
          have hhead := List.head?_dropWhile_not (· ≠ ch) s
          rw [hd] at hhead
          have hb : b = ch := by simpa using hhead
          rw [hb, List.tail_cons]
    refine ⟨?_, hnot⟩
    rw [← hcons, List.takeWhile_append_dropWhile]
  · exact nomatch h

theorem takeWhile_at (h : ch ∉ x) : (x ++ ch :: y).takeWhile (· ≠ ch) = x := by
  have hcut := cutAt_append (y := y) h
  rw [cutAt, if_pos (List.mem_append_right x List.mem_cons_self)] at hcut
  exact (Prod.mk.inj (Option.some.inj hcut)).1

end Cut

/-- An address with one `@` is taken apart in one way. -/
theorem address_inj {user host user' host' : Bytes} (huser : 64 ∉ user) (hhost : 64 ∉ host)
    (h : user ++ 64 :: host = user' ++ 64 :: host') : user = user' ∧ host = host' := by
  have hcount := congrArg (List.count (64 : Byte)) h
  rw [List.count_append, List.count_cons_self, List.count_append, List.count_cons_self,
    List.count_eq_zero.mpr huser, List.count_eq_zero.mpr hhost] at hcount
  have huser' : 64 ∉ user' := List.count_eq_zero.mp (by omega)
  have hcut := cutAt_append (y := host) huser
  rw [h, cutAt_append huser'] at hcut
  obtain ⟨h1, h2⟩ := Prod.mk.inj (Option.some.inj hcut)
  exact ⟨h1.symm, h2.symm⟩

/-! ## Forms of a sender -/

inductive Form
  | plain (user host : Bytes)
  | srs0 (rest host : Bytes)
  | srs1 (host user : Bytes)

/-- The form, as `srs_compile_guarded` finds it. -/
def formOf (senduser sendhost : Bytes) : Except Code Form :=
  if hasTag (asc "SRS1") senduser && separated senduser then
    let srshash := behindTag senduser sendhost
    if srshash = [] then .error .noSrs1Hash
    else
      match cutAt 61 srshash with
      | none => .error .noSrs1Host
      | some (_, srshost) =>
          match cutAt 61 srshost with
          | none => .error .noSrs1User
          | some (srshost, srsuser) => .ok (.srs1 srshost srsuser)
  else if hasTag (asc "SRS0") senduser && separated senduser then .ok (.srs0 (senduser.drop 4) sendhost)
  else .ok (.plain senduser sendhost)

namespace Form

/-- Where a bounce goes at last, as far as the sender shows it: the sender, or the address that its first
forwarder made. -/
def origin : Form → Bytes
  | plain user host => user ++ 64 :: host
  | srs0 rest host => asc "SRS0" ++ rest ++ 64 :: host
  | srs1 host user => asc "SRS0" ++ user ++ 64 :: host

/-- The host and the user can be told apart in a new address. -/
def Clean : Form → Prop
  | plain _ host => 61 ∉ host ∧ 64 ∉ host
  | srs0 _ host => 61 ∉ host ∧ 64 ∉ host
  | srs1 host user => 64 ∉ host ∧ 64 ∉ user

def IsPlain : Form → Prop
  | plain _ _ => True
  | srs0 _ _ => False
  | srs1 _ _ => False

/-- What is in front of the `@` has none, and a host ends at the first `=`. -/
def WellFormed : Form → Prop
  | plain user _ => 64 ∉ user
  | srs0 rest _ => 64 ∉ rest
  | srs1 host _ => 61 ∉ host

/-- The new address in front of its `@`: for a secret, a time, and a separator. -/
def rewritten (separator : Byte) (hashlength now : Nat) (secret : Bytes) : Form → Bytes
  | plain user host =>
      asc "SRS0" ++ separator :: hashOf hashlength secret [srsTimestampCreate now, host, user] ++
        61 :: srsTimestampCreate now ++ 61 :: (host ++ 61 :: user)
  | srs0 rest host =>
      asc "SRS1" ++ separator :: hashOf hashlength secret [host, rest] ++ 61 :: (host ++ 61 :: rest)
  | srs1 host user =>
      asc "SRS1" ++ separator :: hashOf hashlength secret [host, user] ++ 61 :: (host ++ 61 :: user)

end Form

section Compile

variable {c : SrsT} {now buflen : Nat} {sendhost senduser aliashost b : Bytes}

/-- A configuration with a secret makes a hash of everything. -/
theorem srsHashCreate_done {secret : Bytes} (hc : Sound c)
    (hsecret : c.secrets.head? = some secret) (args : List Bytes) :
    srsHashCreate c args = done (hashOf c.hashlength secret args) := by
  obtain ⟨secrets, hsecrets⟩ := List.head?_eq_some_iff.mp hsecret
  rw [srsHashCreate, hsecrets]
  exact srsHashCreateV_eq (hc.secrets secret (hsecrets ▸ List.mem_cons_self)) hc.hashlength args

theorem compileGuarded_done {srshost srsuser secret : Bytes} (hc : Sound c)
    (hsecret : c.secrets.head? = some secret)
    (h : compileGuarded c buflen srshost srsuser aliashost = done b) :
    b = asc "SRS1" ++ c.separator :: hashOf c.hashlength secret [srshost, srsuser] ++
        61 :: (srshost ++ 61 :: srsuser) ++ 64 :: aliashost ∧ b.length < buflen := by
  rw [compileGuarded, srsHashCreate_done hc hsecret, done_bind] at h
  dsimp only at h
  split at h
  · exact absurd h fail_ne_done
  · rename_i hroom
    have hb := done_inj h
    refine ⟨?_, ?_⟩
    · rw [← hb]
      simp only [List.append_assoc, List.cons_append]
    · rw [← hb]
      simp only [List.length_append, List.length_cons, length_hashOf]
      have h4 : (asc "SRS1").length = 4 := rfl
      omega

/-- **A sender is rewritten** by its form, and there is room for it. -/
theorem srsCompileGuarded_done {secret : Bytes} (hc : Sound c)
    (hsecret : c.secrets.head? = some secret)
    (h : srsCompileGuarded c now buflen sendhost senduser aliashost = done b) :
    ∃ form, formOf senduser sendhost = .ok form ∧
      b = form.rewritten c.separator c.hashlength now secret ++ 64 :: aliashost ∧ b.length < buflen := by
  rw [srsCompileGuarded] at h
  rw [formOf]
  split
  · rename_i htag
    rw [if_pos htag] at h
    dsimp only at h ⊢
    split
    · rename_i hnil
      rw [if_pos hnil] at h
      exact absurd h fail_ne_done
    · rename_i hnil
      rw [if_neg hnil] at h
      cases hcut : cutAt 61 (behindTag senduser sendhost) with
      | none =>
          rw [hcut] at h
          exact absurd h fail_ne_done
      | some p =>
          obtain ⟨hash, rest⟩ := p
          rw [hcut] at h
          dsimp only at h ⊢
          cases hcut' : cutAt 61 rest with
          | none =>
              rw [hcut'] at h
              exact absurd h fail_ne_done
          | some q =>
              obtain ⟨srshost, srsuser⟩ := q
              rw [hcut'] at h
              exact ⟨_, rfl, compileGuarded_done hc hsecret h⟩
  · rename_i htag
    rw [if_neg htag] at h
    split
    · rename_i htag'
      rw [if_pos htag'] at h
      exact ⟨_, rfl, compileGuarded_done hc hsecret h⟩
    · rename_i htag'
      rw [if_neg htag', srsCompileShortcut, if_neg htag', done_bind] at h
      dsimp only at h
      rw [srsHashCreate_done hc hsecret, done_bind] at h
      split at h
      · exact absurd h fail_ne_done
      · rename_i hroom
        have hb := done_inj h
        have hstamp : (srsTimestampCreate now).length = 2 := rfl
        have h4 : (asc "SRS0").length = 4 := rfl
        refine ⟨_, rfl, ?_, ?_⟩
        · rw [← hb, Form.rewritten]
          simp only [List.append_assoc, List.cons_append]
        · rw [← hb]
          simp only [List.length_append, List.length_cons, length_hashOf, hstamp, h4]
          omega

end Compile

/-! ## Rewriting back -/

section Parse

variable {c : SrsT} {now buflen : Nat} {sep : Byte} {hash stamp rest alias' out : Bytes}

theorem part_done {code : Code} {s : Bytes} {p : Bytes × Bytes} :
    part code s = done p ↔ cutAt 61 s = some p := by
  rw [part]
  cases cutAt 61 s with
  | none => exact iff_of_false fail_ne_done (fun h => nomatch h)
  | some q =>
      constructor
      · intro h
        rw [done_inj h]
      · intro h
        rw [Option.some.inj h]

/-- **An address of a first forwarder** is rewritten back if its stamp and its hash are accepted. -/
theorem srsParseGuarded_srs0 (hhash : 61 ∉ hash) (hstamp : 61 ∉ stamp) :
    srsParseGuarded c now (asc "SRS0" ++ sep :: hash ++ 61 :: stamp ++ 61 :: rest) = done out ↔
      ∃ host user, cutAt 61 rest = some (host, user) ∧ srsTimestampCheck c now stamp = done () ∧
        srsHashCheck c hash [stamp, host, user] = done () ∧ out = user ++ 64 :: host := by
  have htext : asc "SRS0" ++ sep :: hash ++ 61 :: stamp ++ 61 :: rest =
      asc "SRS0" ++ (sep :: (hash ++ 61 :: (stamp ++ 61 :: rest))) := by
    simp only [List.append_assoc, List.cons_append]
  have hlen : (asc "SRS0" ++ (sep :: (hash ++ 61 :: (stamp ++ 61 :: rest)))).length ≠ 4 := by
    have h4 : (asc "SRS0").length = 4 := rfl
    rw [List.length_append, List.length_cons, h4]
    omega
  have hnot : hasTag (asc "SRS1") (asc "SRS0" ++ (sep :: (hash ++ 61 :: (stamp ++ 61 :: rest)))) = false :=
    rfl
  have htag : hasTag (asc "SRS0") (asc "SRS0" ++ (sep :: (hash ++ 61 :: (stamp ++ 61 :: rest)))) = true :=
    rfl
  have hdrop : (asc "SRS0" ++ (sep :: (hash ++ 61 :: (stamp ++ 61 :: rest)))).drop 5 =
      hash ++ 61 :: (stamp ++ 61 :: rest) := rfl
  have hne : hash ++ 61 :: (stamp ++ 61 :: rest) ≠ [] := by simp
  rw [htext, srsParseGuarded, hnot, if_neg Bool.false_ne_true, srsParseShortcut, htag, if_pos rfl, pastTag,
    if_neg hlen, hdrop, done_bind, if_neg hne, part_done.mpr (cutAt_append hhash), done_bind]
  dsimp only
  rw [part_done.mpr (cutAt_append hstamp), done_bind]
  dsimp only
  rw [bind_eq_done]
  constructor
  · rintro ⟨⟨host, user⟩, hpart, h⟩
    obtain ⟨⟨⟩, htime, h⟩ := bind_eq_done.mp h
    obtain ⟨⟨⟩, hcheck, h⟩ := bind_eq_done.mp h
    exact ⟨host, user, part_done.mp hpart, htime, hcheck, (done_inj h).symm⟩
  · rintro ⟨host, user, hpart, htime, hcheck, rfl⟩
    refine ⟨(host, user), part_done.mpr hpart, ?_⟩
    dsimp only
    rw [htime, done_bind, hcheck, done_bind]

/-- **An address of a later forwarder.** -/
theorem srsParseGuarded_srs1 (hhash : 61 ∉ hash) :
    srsParseGuarded c now (asc "SRS1" ++ sep :: hash ++ 61 :: rest) = done out ↔
      ∃ host user, cutAt 61 rest = some (host, user) ∧
        srsHashCheck c hash [host, user] = done () ∧ out = asc "SRS0" ++ user ++ 64 :: host := by
  have htext : asc "SRS1" ++ sep :: hash ++ 61 :: rest = asc "SRS1" ++ (sep :: (hash ++ 61 :: rest)) := by
    simp only [List.append_assoc, List.cons_append]
  have hlen : (asc "SRS1" ++ (sep :: (hash ++ 61 :: rest))).length ≠ 4 := by
    have h4 : (asc "SRS1").length = 4 := rfl
    rw [List.length_append, List.length_cons, h4]
    omega
  have htag : hasTag (asc "SRS1") (asc "SRS1" ++ (sep :: (hash ++ 61 :: rest))) = true := rfl
  have hdrop : (asc "SRS1" ++ (sep :: (hash ++ 61 :: rest))).drop 5 = hash ++ 61 :: rest := rfl
  have hne : hash ++ 61 :: rest ≠ [] := by simp
  rw [htext, srsParseGuarded, htag, if_pos rfl, pastTag, if_neg hlen, hdrop, done_bind, if_neg hne,
    part_done.mpr (cutAt_append hhash), done_bind]
  dsimp only
  rw [bind_eq_done]
  constructor
  · rintro ⟨⟨host, user⟩, hpart, h⟩
    obtain ⟨⟨⟩, hcheck, h⟩ := bind_eq_done.mp h
    exact ⟨host, user, part_done.mp hpart, hcheck, (done_inj h).symm⟩
  · rintro ⟨host, user, hpart, hcheck, rfl⟩
    refine ⟨(host, user), part_done.mpr hpart, ?_⟩
    dsimp only
    rw [hcheck, done_bind]

/-- An address with a tag and a separator is looked at up to its first `@`. -/
theorem srsReverse_eq {tag : Byte} (htag : tag = 48 ∨ tag = 49) (hsep : sep ∈ separators)
    (hnoreverse : c.noreverse = false)
    (hlen : (asc "SRS" ++ tag :: sep :: rest).length < buflen) :
    srsReverse c now buflen (asc "SRS" ++ tag :: sep :: rest) =
      srsParseGuarded c now (asc "SRS" ++ tag :: sep :: rest.takeWhile (· ≠ 64)) := by
  have hsrs : hasTag (asc "SRS") (asc "SRS" ++ tag :: sep :: rest) = true := rfl
  have hthird : (asc "SRS" ++ tag :: sep :: rest).getD 3 0 = tag := rfl
  have hthree : (asc "SRS" ++ tag :: sep :: rest).length ≠ 3 := by
    have h3 : (asc "SRS").length = 3 := rfl
    rw [List.length_append, List.length_cons, h3]
    omega
  have hmem : tag ∈ 0 :: asc "01" := by rcases htag with rfl | rfl <;> decide
  have hseparated : separated (asc "SRS" ++ tag :: sep :: rest) = true :=
    decide_eq_true (List.mem_cons_of_mem 0 hsep)
  have htag64 : tag ≠ 64 := by rcases htag with rfl | rfl <;> decide
  have hsep64 : sep ≠ 64 := by
    rintro rfl
    exact absurd hsep (by decide)
  have htake : (asc "SRS" ++ tag :: sep :: rest).takeWhile (· ≠ 64) =
      asc "SRS" ++ tag :: sep :: rest.takeWhile (· ≠ 64) := by
    rw [List.takeWhile_append_of_pos (by decide +kernel), List.takeWhile_cons_of_pos (by simpa using htag64),
      List.takeWhile_cons_of_pos (by simpa using hsep64)]
  rw [srsReverse, isSrsAddress, hsrs, if_pos rfl, hthird, if_pos hmem, if_neg hthree, hseparated,
    done_bind, hnoreverse, htake, if_neg (Nat.not_le.mpr hlen)]
  rfl

end Parse

theorem formOf_wellFormed {senduser sendhost : Bytes} {form : Form} (huser : 64 ∉ senduser)
    (h : formOf senduser sendhost = .ok form) : form.WellFormed := by
  rw [formOf] at h
  split at h
  · dsimp only at h
    split at h
    · exact nomatch h
    · split at h
      · exact nomatch h
      · split at h
        · exact nomatch h
        · rename_i hcut
          rw [← Except.ok.inj h]
          exact (cutAt_some hcut).2
  · split at h
    · rw [← Except.ok.inj h]
      exact fun hmem => huser (List.mem_of_mem_drop hmem)
    · rw [← Except.ok.inj h]
      exact huser

section There

variable {c : SrsT} {now now' buflen : Nat} {sep : Byte} {secret alias' : Bytes}

theorem notMem_stamp (now : Nat) : 61 ∉ srsTimestampCreate now ∧ 64 ∉ srsTimestampCreate now := by
  have hget : ∀ i < 32, baseChars.getD i 0 ≠ 61 ∧ baseChars.getD i 0 ≠ 64 := by decide
  have hhigh := hget (now / 86400 / 32 % 32) (Nat.mod_lt _ (by decide))
  have hlow := hget (now / 86400 % 32) (Nat.mod_lt _ (by decide))
  rw [srsTimestampCreate]
  simp only [List.mem_cons, List.not_mem_nil, or_false, not_or]
  exact ⟨⟨Ne.symm hhigh.1, Ne.symm hlow.1⟩, Ne.symm hhigh.2, Ne.symm hlow.2⟩

/-- The own hash is accepted if it is long enough. -/
theorem srsHashCheck_own (hc : Sound c) (hsecret : secret ∈ c.secrets) (args : List Bytes) :
    srsHashCheck c (hashOf c.hashlength secret args) args = done () ↔ c.hashmin ≤ c.hashlength := by
  rw [srsHashCheck_iff hc (notMem_hashOf (by decide) _ _ _), length_hashOf]
  exact and_iff_left ⟨secret, hsecret, rfl⟩

/-- The host and the user, up to an `@` in them. -/
theorem cut_host_user {host user rest host' user' : Bytes}
    (hcut : cutAt 61 ((host ++ 61 :: user ++ 64 :: rest).takeWhile (· ≠ 64)) = some (host', user')) :
    64 ∉ user' ∧ 64 ∉ host' ∧ 61 ∉ host' := by
  obtain ⟨heq, hnot⟩ := cutAt_some hcut
  have hfree : 64 ∉ (host ++ 61 :: user ++ 64 :: rest).takeWhile (· ≠ (64 : Byte)) := fun h =>
    absurd (List.mem_takeWhile_imp h) (by simp)
  rw [heq, List.mem_append, List.mem_cons, not_or, not_or] at hfree
  exact ⟨hfree.2.2, hfree.1, hnot⟩

theorem cut_clean {host user rest : Bytes} (h61 : 61 ∉ host) (hhost : 64 ∉ host) (huser : 64 ∉ user) :
    cutAt 61 ((host ++ 61 :: user ++ 64 :: rest).takeWhile (· ≠ 64)) = some (host, user) := by
  have hfree : 64 ∉ host ++ 61 :: user := by
    rw [List.mem_append, List.mem_cons, not_or, not_or]
    exact ⟨hhost, by decide, huser⟩
  rw [takeWhile_at hfree, cutAt_append h61]

/-- **A later address is rewritten back** if the host and the user can be told apart. -/
theorem reverse_srs1_iff {host user : Bytes} (hc : Sound c) (hnoreverse : c.noreverse = false)
    (hsecret : secret ∈ c.secrets) (hsep : sep ∈ separators)
    (hroom : (asc "SRS1" ++ sep :: hashOf c.hashlength secret [host, user] ++ 61 :: (host ++ 61 :: user) ++
      64 :: alias').length < buflen) :
    srsReverse c now' buflen (asc "SRS1" ++ sep :: hashOf c.hashlength secret [host, user] ++
        61 :: (host ++ 61 :: user) ++ 64 :: alias') = done (asc "SRS0" ++ user ++ 64 :: host) ↔
      c.hashmin ≤ c.hashlength ∧ 61 ∉ host ∧ 64 ∉ host ∧ 64 ∉ user := by
  have hown := srsHashCheck_own hc hsecret [host, user]
  have hhash64 := notMem_hashOf (show 64 ∉ hashChars by decide) c.hashlength secret [host, user]
  have hhash61 := notMem_hashOf (show 61 ∉ hashChars by decide) c.hashlength secret [host, user]
  generalize hashOf c.hashlength secret [host, user] = hash at *
  have htext : asc "SRS1" ++ sep :: hash ++ 61 :: (host ++ 61 :: user) ++ 64 :: alias' =
      asc "SRS" ++ 49 :: sep :: (hash ++ 61 :: (host ++ 61 :: user ++ 64 :: alias')) := by
    have hasc : asc "SRS1" = asc "SRS" ++ [49] := rfl
    rw [hasc]
    simp only [List.append_assoc, List.cons_append, List.nil_append]
  have hall : ∀ ch ∈ hash, decide (ch ≠ (64 : Byte)) = true := fun ch hch =>
    decide_eq_true fun heq => hhash64 (heq ▸ hch)
  have htake : (hash ++ 61 :: (host ++ 61 :: user ++ 64 :: alias')).takeWhile (· ≠ 64) =
      hash ++ 61 :: (host ++ 61 :: user ++ 64 :: alias').takeWhile (· ≠ 64) := by
    rw [List.takeWhile_append_of_pos hall, List.takeWhile_cons_of_pos (by decide)]
  have hback : asc "SRS" ++ 49 :: sep :: (hash ++ 61 ::
      (host ++ 61 :: user ++ 64 :: alias').takeWhile (· ≠ 64)) =
      asc "SRS1" ++ sep :: hash ++ 61 :: (host ++ 61 :: user ++ 64 :: alias').takeWhile (· ≠ 64) := by
    have hasc : asc "SRS1" = asc "SRS" ++ [49] := rfl
    rw [hasc]
    simp only [List.append_assoc, List.cons_append, List.nil_append]
  rw [htext] at hroom ⊢
  rw [srsReverse_eq (.inr rfl) hsep hnoreverse hroom, htake, hback, srsParseGuarded_srs1 hhash61]
  constructor
  · rintro ⟨host', user', hcut, hcheck, hout⟩
    obtain ⟨huser', hhost', h61⟩ := cut_host_user hcut
    rw [List.append_assoc, List.append_assoc, List.append_cancel_left_eq] at hout
    obtain ⟨rfl, rfl⟩ := address_inj huser' hhost' hout.symm
    exact ⟨hown.mp hcheck, h61, hhost', huser'⟩
  · rintro ⟨hmin, h61, hhost, huser⟩
    exact ⟨host, user, cut_clean h61 hhost huser, hown.mpr hmin, rfl⟩

/-- **A first address is rewritten back** if moreover it is not too old. -/
theorem reverse_srs0_iff {host user : Bytes} (huser : 64 ∉ user) (hc : Sound c)
    (hnoreverse : c.noreverse = false) (hsecret : secret ∈ c.secrets) (hsep : sep ∈ separators)
    (hroom : ((Form.plain user host).rewritten sep c.hashlength now secret ++ 64 :: alias').length < buflen) :
    srsReverse c now' buflen ((Form.plain user host).rewritten sep c.hashlength now secret ++ 64 :: alias') =
        done (user ++ 64 :: host) ↔
      c.hashmin ≤ c.hashlength ∧ 61 ∉ host ∧ 64 ∉ host ∧ (age now now' : Int) ≤ c.maxage := by
  have hown := srsHashCheck_own hc hsecret [srsTimestampCreate now, host, user]
  have hhash64 := notMem_hashOf (show 64 ∉ hashChars by decide) c.hashlength secret [srsTimestampCreate now, host, user]
  have hhash61 := notMem_hashOf (show 61 ∉ hashChars by decide) c.hashlength secret [srsTimestampCreate now, host, user]
  have htime := srsTimestampCheck_created c now now'
  obtain ⟨hstamp61, hstamp64⟩ := notMem_stamp now
  rw [Form.rewritten] at hroom ⊢
  generalize hashOf c.hashlength secret [srsTimestampCreate now, host, user] = hash at *
  generalize srsTimestampCreate now = stamp at *
  have hasc : asc "SRS0" = asc "SRS" ++ [48] := rfl
  have htext : asc "SRS0" ++ sep :: hash ++ 61 :: stamp ++ 61 :: (host ++ 61 :: user) ++ 64 :: alias' =
      asc "SRS" ++ 48 :: sep :: (hash ++ 61 :: stamp ++ 61 :: (host ++ 61 :: user ++ 64 :: alias')) := by
    rw [hasc]
    simp only [List.append_assoc, List.cons_append, List.nil_append]
  have hall : ∀ ch ∈ hash ++ 61 :: stamp, decide (ch ≠ (64 : Byte)) = true := by
    intro ch hch
    refine decide_eq_true ?_
    rintro rfl
    rcases List.mem_append.mp hch with h | h
    · exact hhash64 h
    · exact hstamp64 ((List.mem_cons.mp h).resolve_left (by decide))
  have htake : (hash ++ 61 :: stamp ++ 61 :: (host ++ 61 :: user ++ 64 :: alias')).takeWhile (· ≠ 64) =
      hash ++ 61 :: stamp ++ 61 :: (host ++ 61 :: user ++ 64 :: alias').takeWhile (· ≠ 64) := by
    rw [List.takeWhile_append_of_pos hall, List.takeWhile_cons_of_pos (by decide)]
  have hback : ∀ rest : Bytes, asc "SRS" ++ 48 :: sep :: (hash ++ 61 :: stamp ++ 61 :: rest) =
      asc "SRS0" ++ sep :: hash ++ 61 :: stamp ++ 61 :: rest := by
    intro rest
    rw [hasc]
    simp only [List.append_assoc, List.cons_append, List.nil_append]
  rw [htext] at hroom ⊢
  rw [srsReverse_eq (.inl rfl) hsep hnoreverse hroom, htake, hback, srsParseGuarded_srs0 hhash61 hstamp61,
    htime]
  constructor
  · rintro ⟨host', user', hcut, hfresh, hcheck, hout⟩
    obtain ⟨huser', hhost', h61⟩ := cut_host_user hcut
    obtain ⟨rfl, rfl⟩ := address_inj huser' hhost' hout.symm
    refine ⟨hown.mp hcheck, h61, hhost', ?_⟩
    split at hfresh
    · assumption
    · exact absurd hfresh fail_ne_done
  · rintro ⟨hmin, h61, hhost, hfresh⟩
    exact ⟨host, user, cut_clean h61 hhost huser, if_pos hfresh, hown.mpr hmin, rfl⟩

end There

/-- What a forwarder keeps of its parameters so that it can rewrite back: the secret, among others, and
the length of the hash. -/
structure Keeps (secret : Bytes) (c c' : SrsT) : Prop where
  sound : Sound c'
  secret_mem : secret ∈ c'.secrets
  hashlength : c'.hashlength = c.hashlength
  noreverse : c'.noreverse = false

/-- **A sender that was rewritten is rewritten back** if and only if a whole hash is long enough, the
address can be taken apart, and a stamp in it is not too old. -/
theorem reverse_form_iff {c c' : SrsT} {now now' buflen : Nat} {secret alias' : Bytes} {form : Form}
    (hform : form.WellFormed) (hkeeps : Keeps secret c c')
    (hroom : (form.rewritten c.separator c.hashlength now secret ++ 64 :: alias').length < buflen) :
    srsReverse c' now' buflen (form.rewritten c.separator c.hashlength now secret ++ 64 :: alias') =
        done form.origin ↔
      c'.hashmin ≤ c'.hashlength ∧ form.Clean ∧ (form.IsPlain → (age now now' : Int) ≤ c'.maxage) := by
  have hsep := c.separator_mem
  rw [← hkeeps.hashlength] at hroom ⊢
  cases form with
  | plain user host =>
      rw [Form.origin, reverse_srs0_iff hform hkeeps.sound hkeeps.noreverse hkeeps.secret_mem hsep hroom,
        Form.Clean, Form.IsPlain, true_imp_iff, and_assoc]
  | srs0 rest host =>
      rw [Form.origin, Form.rewritten, reverse_srs1_iff hkeeps.sound hkeeps.noreverse hkeeps.secret_mem hsep hroom,
        Form.Clean, Form.IsPlain, false_imp_iff, and_true]
      exact and_congr_right fun _ => and_congr_right fun _ => and_iff_left hform
  | srs1 host user =>
      rw [Form.origin, Form.rewritten, reverse_srs1_iff hkeeps.sound hkeeps.noreverse hkeeps.secret_mem hsep hroom,
        Form.Clean, Form.IsPlain, false_imp_iff, and_true]
      exact and_congr_right fun _ => and_iff_right hform

/-- A sender is not left as it is: it is always rewritten, or its host is another one. -/
def Rewrites (c : SrsT) (sendhost alias' : Bytes) : Prop :=
  c.alwaysrewrite = true ∨ sendhost.map lower ≠ (aliasHost alias').map lower

/-- **There and back**: the sender that `srs_forward` rewrote, after `srs_reverse`. -/
theorem forward_reverse_iff (c c' : SrsT) (now now' buflen buflen' : Nat)
    (senduser sendhost alias' secret b : Bytes) (huser : 64 ∉ senduser) (hc : Sound c)
    (hsecret : c.secrets.head? = some secret) (hrewrites : Rewrites c sendhost alias')
    (h : srsForward c now buflen (senduser ++ 64 :: sendhost) alias' = done b)
    (hkeeps : Keeps secret c c') (hroom : b.length < buflen') :
    ∃ form, formOf senduser sendhost = .ok form ∧
      (srsReverse c' now' buflen' b = done form.origin ↔
        c'.hashmin ≤ c'.hashlength ∧ form.Clean ∧
          (form.IsPlain → (age now now' : Int) ≤ c'.maxage)) := by
  have hcond : ¬ (!c.alwaysrewrite &&
      decide (sendhost.map lower = (aliasHost alias').map lower)) = true := by
    rw [Bool.and_eq_true, Bool.not_eq_true', decide_eq_true_iff]
    rintro ⟨halways, heq⟩
    rcases hrewrites with hr | hr
    · exact absurd (hr.symm.trans halways) (by decide)
    · exact hr heq
  rw [srsForward] at h
  split at h
  · exact absurd h fail_ne_done
  · rw [cutAt_append huser] at h
    dsimp only at h
    rw [if_neg hcond] at h
    obtain ⟨form, hform, rfl, -⟩ := srsCompileGuarded_done hc hsecret h
    exact ⟨form, hform, reverse_form_iff (formOf_wellFormed huser hform) hkeeps hroom⟩

end IndimailMta.Srs
