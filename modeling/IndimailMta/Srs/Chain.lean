import IndimailMta.Srs.Buffers

/-!
# Chains of forwarders

A mail goes through any number of forwarders, and each of them rewrites the sender, or leaves it where the
domain is its own. A bounce takes two steps at most: the last one that rewrote the sender gives it to the
first one, and that one gives it to the sender.
-/

namespace IndimailMta.Srs

open IndimailMta

/-- A forwarder, with the time when it forwards the mail. -/
structure Forwarder where
  srs : SrsT
  alias' : Bytes
  now : Nat
  buflen : Nat
  secret : Bytes
  sound : Sound srs
  secret_head : srs.secrets.head? = some secret
  plain : 61 ∉ aliasHost alias'

namespace Forwarder

def host (w : Forwarder) : Bytes := aliasHost w.alias'

def forward (w : Forwarder) (sender : Bytes) : Res Bytes :=
  srsForward w.srs w.now w.buflen sender w.alias'

/-- The new address of a sender of this form. -/
def address (w : Forwarder) (form : Form) : Bytes :=
  form.rewritten w.srs.separator w.srs.hashlength w.now w.secret ++ 64 :: w.host

/-- A bounce to this address goes to the forwarder. -/
def Receives (w : Forwarder) (b : Bytes) : Prop := ∃ user, b = user ++ 64 :: w.host

/-- What the forwarder makes of an address when a bounce comes back, with the parameters that it has
then. -/
def GivesBack (w : Forwarder) (b sender : Bytes) (fresh : SrsT → Nat → Prop) : Prop :=
  ∀ c now buflen, Keeps w.secret w.srs c → b.length < buflen →
    (srsReverse c now buflen b = done sender ↔ c.hashmin ≤ c.hashlength ∧ fresh c now)

end Forwarder

/-- The mail goes from one to the next. -/
def relay : List Forwarder → Bytes → Res Bytes
  | [], sender => done sender
  | w :: ws, sender => do
      let sender ← w.forward sender
      relay ws sender

/-! ## One forwarder -/

theorem host_plain (alias' : Bytes) : 64 ∉ aliasHost alias' := fun h =>
  absurd (List.mem_rtakeWhile_imp h) (by simp)

/-- **A forwarder** leaves the sender, or rewrites it by its form. -/
theorem forward_done {w : Forwarder} {user host b : Bytes} (huser : 64 ∉ user)
    (h : w.forward (user ++ 64 :: host) = done b) :
    b = user ++ 64 :: host ∨ ∃ form, formOf user host = .ok form ∧ b = w.address form := by
  rw [Forwarder.forward, srsForward] at h
  split at h
  · exact absurd h fail_ne_done
  · rw [cutAt_append huser] at h
    dsimp only at h
    split at h
    · split at h
      · exact absurd h fail_ne_done
      · exact .inl (done_inj h).symm
    · obtain ⟨form, hform, hb, -⟩ := srsCompileGuarded_done w.sound w.secret_head h
      exact .inr ⟨form, hform, hb⟩

/-- A sender that has a form is forwarded where there is room. -/
theorem forward_room {w : Forwarder} {user host : Bytes} {form : Form} (huser : 64 ∉ user)
    (hno : w.srs.noforward = false) (hform : formOf user host = .ok form)
    (hroom : (user ++ 64 :: host).length + w.alias'.length + w.srs.hashlength + 14 < w.buflen) :
    ∃ b, w.forward (user ++ 64 :: host) = done b := by
  have hsmall : w.forward (user ++ 64 :: host) ≠ fail .bufTooSmall := srsForward_room.2 hroom
  rw [Forwarder.forward, srsForward, hno, if_neg Bool.false_ne_true, cutAt_append huser] at hsmall ⊢
  dsimp only at hsmall ⊢
  split at hsmall
  · rename_i hown
    rw [if_pos hown]
    split at hsmall
    · exact absurd rfl hsmall
    · rename_i hle
      rw [if_neg hle]
      exact ⟨_, rfl⟩
  · rename_i hown
    rw [if_neg hown]
    exact (srsCompileGuarded_cases w.sound w.secret_head hform).resolve_right hsmall
section Forms

variable {w : Forwarder} {user host : Bytes}

theorem separated_of_mem {tag rest : Bytes} {sep : Byte} (htag : tag.length = 4) (hsep : sep ∈ separators) :
    separated (tag ++ sep :: rest) = true := by
  rw [separated]
  refine decide_eq_true (List.mem_cons_of_mem 0 ?_)
  rw [List.getD_eq_getElem?_getD, List.getElem?_append_right (Nat.le_of_eq htag), htag]
  exact hsep

/-- A first address has one `@`, and is one that is rewritten already. -/
theorem address_plain (huser : 64 ∉ user) (hhost : 64 ∉ host) :
    ∃ rest, w.address (.plain user host) = asc "SRS0" ++ rest ++ 64 :: w.host ∧ 64 ∉ rest ∧
      ∀ host', formOf (asc "SRS0" ++ rest) host' = .ok (.srs0 rest host') := by
  have hsep := w.srs.separator_mem
  have hsep64 : w.srs.separator ≠ 64 := fun h => absurd (h ▸ hsep) (by decide)
  refine ⟨w.srs.separator ::
    (hashOf w.srs.hashlength w.secret [srsTimestampCreate w.now, host, user] ++
      61 :: srsTimestampCreate w.now ++ 61 :: (host ++ 61 :: user)), ?_, ?_, fun host' => ?_⟩
  · rw [Forwarder.address, Form.rewritten]
    simp only [List.append_assoc, List.cons_append]
  · simp only [List.mem_cons, List.mem_append, not_or]
    exact ⟨Ne.symm hsep64, ⟨notMem_hashOf (by decide) _ _ _, by decide, (notMem_stamp _).2⟩, by decide,
      hhost, by decide, huser⟩
  · generalize hashOf w.srs.hashlength w.secret [srsTimestampCreate w.now, host, user] ++
      61 :: srsTimestampCreate w.now ++ 61 :: (host ++ 61 :: user) = rest
    have hnot : hasTag (asc "SRS1") (asc "SRS0" ++ w.srs.separator :: rest) = false := rfl
    have htag : hasTag (asc "SRS0") (asc "SRS0" ++ w.srs.separator :: rest) = true := rfl
    have hseparated : separated (asc "SRS0" ++ w.srs.separator :: rest) = true := separated_of_mem rfl hsep
    rw [formOf, hnot, htag, hseparated]
    rfl

/-- A later address keeps the host and the user. -/
theorem address_guarded (h61 : 61 ∉ host) (hhost : 64 ∉ host) (huser : 64 ∉ user) :
    ∃ front, w.address (.srs1 host user) = front ++ 64 :: w.host ∧ 64 ∉ front ∧
      ∀ host', formOf front host' = .ok (.srs1 host user) := by
  have hsep := w.srs.separator_mem
  have hsep64 : w.srs.separator ≠ 64 := fun h => absurd (h ▸ hsep) (by decide)
  have hhash := notMem_hashOf (show 61 ∉ hashChars by decide) w.srs.hashlength w.secret [host, user]
  refine ⟨asc "SRS1" ++ w.srs.separator :: hashOf w.srs.hashlength w.secret [host, user] ++
    61 :: (host ++ 61 :: user), rfl, ?_, fun host' => ?_⟩
  · simp only [List.mem_cons, List.mem_append, not_or]
    exact ⟨⟨by decide, Ne.symm hsep64, notMem_hashOf (by decide) _ _ _⟩, by decide, hhost, by decide,
      huser⟩
  · generalize hashOf w.srs.hashlength w.secret [host, user] = hash at hhash
    rw [List.append_assoc, List.cons_append]
    have htag : hasTag (asc "SRS1")
        (asc "SRS1" ++ w.srs.separator :: (hash ++ 61 :: (host ++ 61 :: user))) = true := rfl
    have hseparated : separated
        (asc "SRS1" ++ w.srs.separator :: (hash ++ 61 :: (host ++ 61 :: user))) = true :=
      separated_of_mem rfl hsep
    have hlen : (asc "SRS1" ++ w.srs.separator :: (hash ++ 61 :: (host ++ 61 :: user))).length ≠ 4 := by
      have h4 : (asc "SRS1").length = 4 := rfl
      rw [List.length_append, List.length_cons, h4]
      omega
    have hbehind : behindTag (asc "SRS1" ++ w.srs.separator :: (hash ++ 61 :: (host ++ 61 :: user))) host' =
        hash ++ 61 :: (host ++ 61 :: user) := if_neg hlen
    have hne : hash ++ 61 :: (host ++ 61 :: user) ≠ [] := by simp
    rw [formOf, htag, hseparated, Bool.and_true, if_pos rfl, hbehind]
    dsimp only
    rw [if_neg hne, cutAt_append hhash]
    dsimp only
    rw [cutAt_append h61]

end Forms

/-! ## The chain -/

/-- The sender as it is on its way: as it was, as the first forwarder that rewrote it made it, or with a
later one in front. -/
inductive Stage (ws : List Forwarder) (user host : Bytes) : Bytes → Prop
  | unchanged : Stage ws user host (user ++ 64 :: host)
  | first (w : Forwarder) (h : w ∈ ws) : Stage ws user host (w.address (.plain user host))
  | later (w first : Forwarder) (rest : Bytes) (h : w ∈ ws) (hfirst : first ∈ ws)
      (hrest : first.address (.plain user host) = asc "SRS0" ++ rest ++ 64 :: first.host) (hplain : 64 ∉ rest) :
      Stage ws user host (w.address (.srs1 first.host rest))

section Chain

variable {ws vs : List Forwarder} {user host s b : Bytes}

/-- A sender that can be rewritten and rewritten back. -/
structure PlainSender (user host : Bytes) : Prop where
  form : formOf user host = .ok (.plain user host)
  user_at : 64 ∉ user
  host_at : 64 ∉ host
  host_eq : 61 ∉ host

/-- **One forwarder more.** -/
theorem Stage.step (hsender : PlainSender user host) (hs : Stage ws user host s) {w : Forwarder}
    (hw : w ∈ ws) (h : w.forward s = done b) : Stage ws user host b := by
  cases hs with
  | unchanged =>
      rcases forward_done hsender.user_at h with rfl | ⟨form, hform, rfl⟩
      · exact .unchanged
      · rw [hsender.form] at hform
        rw [← Except.ok.inj hform]
        exact .first w hw
  | first first hfirst =>
      obtain ⟨rest, haddress, hrest, hform'⟩ := address_plain (w := first) hsender.user_at hsender.host_at
      have hfront : 64 ∉ asc "SRS0" ++ rest := by
        rw [List.mem_append, not_or]
        exact ⟨by decide, hrest⟩
      rw [haddress] at h
      rcases forward_done hfront h with rfl | ⟨form, hform, rfl⟩
      · rw [← haddress]
        exact .first first hfirst
      · rw [hform'] at hform
        rw [← Except.ok.inj hform]
        exact .later w first rest hw hfirst haddress hrest
  | later last first rest hlast hfirst haddress hrest =>
      obtain ⟨front, hb, hfront, hform'⟩ := @address_guarded last rest first.host first.plain
        (host_plain _) hrest
      rw [hb] at h
      rcases forward_done hfront h with rfl | ⟨form, hform, rfl⟩
      · rw [← hb]
        exact .later last first rest hlast hfirst haddress hrest
      · rw [hform'] at hform
        rw [← Except.ok.inj hform]
        exact .later w first rest hw hfirst haddress hrest

theorem Stage.relay (hsender : PlainSender user host) (hs : Stage ws user host s)
    (hvs : ∀ w ∈ vs, w ∈ ws) (h : relay vs s = done b) : Stage ws user host b := by
  induction vs generalizing s with
  | nil =>
      rw [← done_inj h]
      exact hs
  | cons w vs ih =>
      obtain ⟨s', hforward, hrest⟩ := bind_eq_done.mp h
      exact ih (hs.step hsender (hvs w List.mem_cons_self) hforward)
        (fun v hv => hvs v (List.mem_cons_of_mem w hv)) hrest

theorem receives_address (w : Forwarder) (form : Form) : w.Receives (w.address form) := ⟨_, rfl⟩

/-- **A bounce comes back** along the chain, however long it is: the last forwarder that rewrote the
sender gives the address of the first one, and the first one, while its stamp is not too old, the
sender. -/
theorem bounce_comes_back (ws : List Forwarder) (user host b : Bytes) (hsender : PlainSender user host)
    (h : relay ws (user ++ 64 :: host) = done b) :
    b = user ++ 64 :: host ∨
      ∃ first ∈ ws, ∃ b₁, first.Receives b₁ ∧
        first.GivesBack b₁ (user ++ 64 :: host) (fun c now => (age first.now now : Int) ≤ c.maxage) ∧
        (b = b₁ ∨ ∃ last ∈ ws, last.Receives b ∧ last.GivesBack b b₁ fun _ _ => True) := by
  have hfirst : ∀ w : Forwarder, w.GivesBack (w.address (.plain user host)) (user ++ 64 :: host)
      fun c now => (age w.now now : Int) ≤ c.maxage := by
    intro w c now buflen hkeeps hroom
    have hiff := @reverse_form_iff _ _ _ now _ _ _ (.plain user host) hsender.user_at hkeeps hroom
    rw [Form.Clean, Form.IsPlain, true_imp_iff] at hiff
    exact hiff.trans (and_congr_right fun _ => and_iff_right ⟨hsender.host_eq, hsender.host_at⟩)
  have hstart : Stage ws user host (user ++ 64 :: host) := .unchanged
  cases hstart.relay hsender (fun w hw => hw) h with
  | unchanged => exact .inl rfl
  | first w hw =>
      exact .inr ⟨w, hw, _, receives_address w _, hfirst w, .inl rfl⟩
  | later w first rest hw hmem haddress hrest =>
      refine .inr ⟨first, hmem, _, receives_address first _, hfirst first, .inr
        ⟨w, hw, receives_address w _, ?_⟩⟩
      intro c now buflen hkeeps hroom
      have hiff := @reverse_form_iff _ _ _ now _ _ _ (.srs1 first.host rest) first.plain hkeeps hroom
      rw [Form.Clean, Form.IsPlain, false_imp_iff, Form.origin, ← haddress] at hiff
      exact hiff.trans (and_congr_right fun _ => and_iff_right ⟨host_plain _, hrest⟩)

end Chain

/-! ## Two forwarders -/

/-- A forwarder with one secret. -/
def oneSecret (secret alias' : Bytes) (hsecret : secret.length ≤ 64) (halias : 61 ∉ aliasHost alias') :
    Forwarder where
  srs := { srsInit with secrets := [secret] }
  alias' := alias'
  now := 1700000000
  buflen := 1000
  secret := secret
  sound := ⟨fun s hs => List.mem_singleton.mp hs ▸ hsecret, show 4 ≤ 28 by decide⟩
  secret_head := rfl
  plain := halias

def twoForwarders : List Forwarder :=
  [oneSecret (asc "tops3cret") (asc "fwd.org") (by decide) (by decide),
    oneSecret (asc "other") (asc "second.net") (by decide) (by decide)]

def twiceRewritten : Bytes := result (relay twoForwarders (asc "user" ++ 64 :: asc "example.com"))

/-- Both forwarders have room for the address. -/
theorem relay_twoForwarders :
    isDone (relay twoForwarders (asc "user" ++ 64 :: asc "example.com")) = true := by
  have huser : (64 : Byte) ∉ asc "user" := by decide
  have hhost : (64 : Byte) ∉ asc "example.com" := by decide
  have hform : formOf (asc "user") (asc "example.com") =
      .ok (.plain (asc "user") (asc "example.com")) := rfl
  obtain ⟨b, hb⟩ := @forward_room (oneSecret (asc "tops3cret") (asc "fwd.org") (by decide) (by decide))
    _ _ _ huser rfl hform (by decide)
  have hnext : ∃ b', (oneSecret (asc "other") (asc "second.net") (by decide) (by decide)).forward b =
      done b' := by
    rcases forward_done huser hb with rfl | ⟨form, hform', rfl⟩
    · exact forward_room huser rfl hform (by decide)
    · obtain rfl := Except.ok.inj (hform.symm.trans hform')
      obtain ⟨rest, haddress, hrest, hformed⟩ := address_plain huser hhost
      have hfront : (64 : Byte) ∉ asc "SRS0" ++ rest := by
        rw [List.mem_append, not_or]
        exact ⟨by decide, hrest⟩
      have hlen := congrArg List.length haddress
      rw [Forwarder.address, Form.rewritten] at hlen
      simp only [List.length_append, List.length_cons, length_hashOf] at hlen
      rw [haddress]
      refine forward_room hfront rfl (hformed _) ?_
      simp only [List.length_append, List.length_cons]
      rw [← hlen]
      decide
  obtain ⟨b', hb'⟩ := hnext
  rw [twoForwarders, relay, hb, done_bind, relay, hb', done_bind]
  rfl

theorem bounce_comes_back_two :
    twiceRewritten = asc "user" ++ 64 :: asc "example.com" ∨
      ∃ first ∈ twoForwarders, ∃ b₁, first.Receives b₁ ∧
        first.GivesBack b₁ (asc "user" ++ 64 :: asc "example.com")
          (fun c now => (age first.now now : Int) ≤ c.maxage) ∧
        (twiceRewritten = b₁ ∨ ∃ last ∈ twoForwarders, last.Receives twiceRewritten ∧
          last.GivesBack twiceRewritten b₁ fun _ _ => True) :=
  bounce_comes_back twoForwarders (asc "user") (asc "example.com") twiceRewritten
    ⟨rfl, by decide, by decide, by decide⟩ (done_result relay_twoForwarders)

end IndimailMta.Srs
