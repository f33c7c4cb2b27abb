import IndimailMta.Srs.Reverse

/-!
# Room in the buffers

`srs_forward` asks for the room it needs, and `srs_reverse` does not: what it writes is shorter than what
it read. The buffers that `srs_forward_alloc` and `srs_reverse_alloc` take are always large enough. The
lengths are numbers here; in `srs2.c` they are of type `int`, and the same for texts that are not longer
than an `int` can say.
-/

namespace IndimailMta.Srs

open IndimailMta

section Fails

variable {α β : Type} {x : Res α} {f : α → Res β} {code : Code}

/-- A call fails for want of room only if one of its parts does. -/
theorem bind_ne_fail (hx : x ≠ fail code) (hf : ∀ a, x = done a → f a ≠ fail code) :
    (x >>= f) ≠ fail code := by
  match x, hx, hf with
  | some (.ok a), _, hf => exact hf a rfl
  | some (.error e), hx, _ =>
      intro h
      have he : e = code := Except.error.inj (Option.some.inj h)
      exact hx (congrArg (fun e => some (Except.error e)) he)
  | none, _, _ => exact fun h => nomatch h

theorem done_ne_fail {a : α} : done a ≠ fail code := fun h => nomatch h

theorem undefined_ne_fail : (undefined : Res α) ≠ fail code := fun h => nomatch h

theorem fail_ne_fail {code' : Code} (h : code' ≠ code) : (fail code' : Res α) ≠ fail code :=
  fun heq => h (Except.error.inj (Option.some.inj heq))

end Fails

section Room

variable {c : SrsT} {now buflen : Nat} {b sendhost senduser aliashost secret : Bytes}

/-- The hash takes as much room as the configuration says. -/
theorem srsHashCreate_length {args : List Bytes} {hash : Bytes} (h : srsHashCreate c args = done hash) :
    hash.length = c.hashlength := by
  rw [srsHashCreate] at h
  split at h
  · exact absurd h fail_ne_done
  · rw [srsHashCreateV] at h
    split at h
    · exact absurd h undefined_ne_done
    · split at h
      · rw [← done_inj h]
        exact length_encodeLoop _ _ _
      · exact absurd h undefined_ne_done

theorem srsHashCreate_ne_fail (args : List Bytes) : srsHashCreate c args ≠ fail .bufTooSmall := by
  rw [srsHashCreate]
  split
  · exact fail_ne_fail (by decide)
  · rw [srsHashCreateV]
    split
    · exact undefined_ne_fail
    · split
      · exact done_ne_fail
      · exact undefined_ne_fail

/-! ## Forward -/

/-- The address of a later forwarder: the tag, four separators, the hash and the three parts. -/
theorem compileGuarded_room {srshost srsuser aliashost : Bytes} :
    (∀ b, compileGuarded c buflen srshost srsuser aliashost = done b → b.length < buflen) ∧
      (4 + 1 + c.hashlength + 1 + srshost.length + 1 + srsuser.length + 1 + aliashost.length < buflen →
        compileGuarded c buflen srshost srsuser aliashost ≠ fail .bufTooSmall) := by
  have h4 : (asc "SRS1").length = 4 := rfl
  constructor
  · intro b h
    obtain ⟨hash, hhash, h⟩ := bind_eq_done.mp h
    have hlen := srsHashCreate_length hhash
    dsimp only at h
    split at h
    · exact absurd h fail_ne_done
    · rw [← done_inj h]
      simp only [List.length_append, List.length_cons, hlen, h4]
      omega
  · intro hroom
    refine bind_ne_fail (srsHashCreate_ne_fail _) fun hash _ => ?_
    dsimp only
    rw [if_neg (Nat.not_le.mpr hroom)]
    exact done_ne_fail

/-- The address of the first forwarder has a stamp of two bytes besides. -/
theorem srsCompileShortcut_room {sendhost senduser aliashost : Bytes}
    (hplain : (hasTag (asc "SRS0") senduser && separated senduser) = false) :
    (∀ b, srsCompileShortcut c now buflen sendhost senduser aliashost = done b → b.length < buflen) ∧
      (4 + 1 + c.hashlength + 1 + 2 + 1 + sendhost.length + 1 + senduser.length + 1 + aliashost.length < buflen →
        srsCompileShortcut c now buflen sendhost senduser aliashost ≠ fail .bufTooSmall) := by
  have h4 : (asc "SRS0").length = 4 := rfl
  have hstamp : (srsTimestampCreate now).length = 2 := rfl
  rw [srsCompileShortcut, hplain, if_neg Bool.false_ne_true, done_bind]
  dsimp only
  constructor
  · intro b h
    split at h
    · exact absurd h fail_ne_done
    · obtain ⟨hash, hhash, h⟩ := bind_eq_done.mp h
      have hlen := srsHashCreate_length hhash
      rw [← done_inj h]
      simp only [List.length_append, List.length_cons, hlen, h4, hstamp]
      omega
  · intro hroom
    rw [if_neg (Nat.not_le.mpr hroom)]
    exact bind_ne_fail (srsHashCreate_ne_fail _) fun hash _ => done_ne_fail

theorem srsCompileGuarded_room {sendhost senduser aliashost : Bytes} :
    (∀ b, srsCompileGuarded c now buflen sendhost senduser aliashost = done b → b.length < buflen) ∧
      (sendhost.length + senduser.length + aliashost.length + c.hashlength + 14 < buflen →
        srsCompileGuarded c now buflen sendhost senduser aliashost ≠ fail .bufTooSmall) := by
  rw [srsCompileGuarded]
  split
  · dsimp only
    split
    · exact ⟨fun b h => absurd h fail_ne_done, fun _ => fail_ne_fail (by decide)⟩
    · split
      · exact ⟨fun b h => absurd h fail_ne_done, fun _ => fail_ne_fail (by decide)⟩
      · rename_i hash rest hcut
        split
        · exact ⟨fun b h => absurd h fail_ne_done, fun _ => fail_ne_fail (by decide)⟩
        · rename_i srshost srsuser hcut'
          refine ⟨compileGuarded_room.1, fun hroom => compileGuarded_room.2 ?_⟩
          -- The host and the user are parts of the sender.
          have hbehind : (behindTag senduser sendhost).length ≤ sendhost.length + senduser.length := by
            rw [behindTag]
            split
            · exact Nat.le_add_right _ _
            · rw [List.length_drop]
              omega
          have h1 := congrArg List.length (cutAt_some hcut).1
          have h2 := congrArg List.length (cutAt_some hcut').1
          rw [List.length_append, List.length_cons] at h1 h2
          omega
  · split
    · refine ⟨compileGuarded_room.1, fun hroom => compileGuarded_room.2 ?_⟩
      rw [List.length_drop]
      omega
    · rename_i hplain
      have h := @srsCompileShortcut_room c now buflen sendhost senduser aliashost
        (eq_false_of_ne_true hplain)
      exact ⟨h.1, fun hroom => h.2 (by omega)⟩

/-- Nothing but room can be lacking for the address of a later forwarder. -/
theorem compileGuarded_cases (hc : Sound c) (hsecret : c.secrets.head? = some secret)
    (srshost srsuser : Bytes) :
    (∃ b, compileGuarded c buflen srshost srsuser aliashost = done b) ∨
      compileGuarded c buflen srshost srsuser aliashost = fail .bufTooSmall := by
  rw [compileGuarded, srsHashCreate_done hc hsecret, done_bind]
  dsimp only
  split
  · exact .inr rfl
  · exact .inl ⟨_, rfl⟩

/-- Nothing but room can be lacking for a sender that has a form. -/
theorem srsCompileGuarded_cases {form : Form} (hc : Sound c) (hsecret : c.secrets.head? = some secret)
    (hform : formOf senduser sendhost = .ok form) :
    (∃ b, srsCompileGuarded c now buflen sendhost senduser aliashost = done b) ∨
      srsCompileGuarded c now buflen sendhost senduser aliashost = fail .bufTooSmall := by
  rw [formOf] at hform
  rw [srsCompileGuarded]
  split
  · rename_i htag
    rw [if_pos htag] at hform
    dsimp only at hform ⊢
    split
    · rename_i hnil
      rw [if_pos hnil] at hform
      cases hform
    · rename_i hnil
      rw [if_neg hnil] at hform
      cases hcut : cutAt 61 (behindTag senduser sendhost) with
      | none =>
          rw [hcut] at hform
          cases hform
      | some p =>
          obtain ⟨hash, rest⟩ := p
          rw [hcut] at hform
          dsimp only at hform ⊢
          cases hcut' : cutAt 61 rest with
          | none =>
              rw [hcut'] at hform
              cases hform
          | some q => exact compileGuarded_cases hc hsecret q.1 q.2
  · split
    · exact compileGuarded_cases hc hsecret sendhost _
    · rename_i htag
      rw [srsCompileShortcut, if_neg htag, done_bind]
      dsimp only
      split
      · exact .inr rfl
      · rw [srsHashCreate_done hc hsecret, done_bind]
        exact .inl ⟨_, rfl⟩

theorem srsForward_room {sender alias' : Bytes} :
    (∀ b, srsForward c now buflen sender alias' = done b → b.length < buflen) ∧
      (sender.length + alias'.length + c.hashlength + 14 < buflen →
        srsForward c now buflen sender alias' ≠ fail .bufTooSmall) := by
  rw [srsForward]
  split
  · exact ⟨fun b h => absurd h fail_ne_done, fun _ => fail_ne_fail (by decide)⟩
  · split
    · exact ⟨fun b h => absurd h fail_ne_done, fun _ => fail_ne_fail (by decide)⟩
    · rename_i senduser sendhost hcut
      split
      · constructor
        · intro b h
          split at h
          · exact absurd h fail_ne_done
          · rename_i hroom
            rw [← done_inj h]
            exact Nat.lt_of_not_le hroom
        · intro hroom
          rw [if_neg (by omega)]
          exact done_ne_fail
      · refine ⟨srsCompileGuarded_room.1, fun hroom => srsCompileGuarded_room.2 ?_⟩
        have hlen := congrArg List.length (cutAt_some hcut).1
        have halias : (aliasHost alias').length ≤ alias'.length := (List.rtakeWhile_suffix _ _).length_le
        rw [List.length_append, List.length_cons] at hlen
        omega

/-! ## Back -/

/-- An address that is read back has lost its tag and its hash. -/
theorem srsParseGuarded_length {senduser : Bytes} (h : srsParseGuarded c now senduser = done b) :
    b.length ≤ senduser.length := by
  have h4 : (asc "SRS0").length = 4 := rfl
  have hpast : ∀ s, pastTag senduser = done s → s ≠ [] → s.length + 5 = senduser.length := by
    intro s hs hne
    rw [pastTag] at hs
    split at hs
    · exact absurd hs undefined_ne_done
    · have hdrop := congrArg List.length (done_inj hs)
      have hpos := List.length_pos_of_ne_nil hne
      rw [List.length_drop] at hdrop
      omega
  have hparts : ∀ {code : Code} {s : Bytes} {p : Bytes × Bytes}, part code s = done p →
      p.1.length + 1 + p.2.length = s.length := by
    intro code s p hp
    have hlen := congrArg List.length (cutAt_some (part_done.mp hp)).1
    rw [List.length_append, List.length_cons] at hlen
    omega
  rw [srsParseGuarded] at h
  split at h
  · obtain ⟨srshash, hhash, h⟩ := bind_eq_done.mp h
    split at h
    · exact absurd h fail_ne_done
    · rename_i hne
      obtain ⟨p, hp, h⟩ := bind_eq_done.mp h
      obtain ⟨q, hq, h⟩ := bind_eq_done.mp h
      obtain ⟨_, -, h⟩ := bind_eq_done.mp h
      have h1 := hpast srshash hhash hne
      have h2 := hparts hp
      have h3 := hparts hq
      rw [← done_inj h, List.length_append, List.length_append, List.length_cons, h4]
      omega
  · rw [srsParseShortcut] at h
    split at h
    · obtain ⟨srshash, hhash, h⟩ := bind_eq_done.mp h
      split at h
      · exact absurd h fail_ne_done
      · rename_i hne
        obtain ⟨p, hp, h⟩ := bind_eq_done.mp h
        obtain ⟨q, hq, h⟩ := bind_eq_done.mp h
        obtain ⟨r, hr, h⟩ := bind_eq_done.mp h
        obtain ⟨_, -, h⟩ := bind_eq_done.mp h
        obtain ⟨_, -, h⟩ := bind_eq_done.mp h
        have h1 := hpast srshash hhash hne
        have h2 := hparts hp
        have h3 := hparts hq
        have h5 := hparts hr
        rw [← done_inj h, List.length_append, List.length_cons]
        omega
    · exact absurd h fail_ne_done

theorem srsReverse_room {sender : Bytes} (h : srsReverse c now buflen sender = done b) :
    b.length < buflen ∧ b.length ≤ sender.length := by
  obtain ⟨srs, -, h⟩ := bind_eq_done.mp h
  split at h
  · exact absurd h fail_ne_done
  · split at h
    · exact absurd h fail_ne_done
    · split at h
      · exact absurd h fail_ne_done
      · rename_i hroom
        have hlen := srsParseGuarded_length h
        have htake : (sender.takeWhile (· ≠ (64 : Byte))).length ≤ sender.length :=
          (List.takeWhile_prefix _).length_le
        omega

theorem srsHashCheck_ne_fail (hash : Bytes) (args : List Bytes) :
    srsHashCheck c hash args ≠ fail .bufTooSmall := by
  have hcreate : ∀ secret, srsHashCreateV c secret args ≠ fail .bufTooSmall := by
    intro secret
    rw [srsHashCreateV]
    split
    · exact undefined_ne_fail
    · split
      · exact done_ne_fail
      · exact undefined_ne_fail
  have hloop : ∀ secrets hash len, checkLoop c hash len args secrets ≠ fail .bufTooSmall := by
    intro secrets
    induction secrets with
    | nil => exact fun _ _ => fail_ne_fail (by decide)
    | cons secret secrets ih =>
        intro hash len
        refine bind_ne_fail (hcreate secret) fun srshash _ => ?_
        split
        · exact done_ne_fail
        · exact ih hash len
  rw [srsHashCheck]
  split
  · exact fail_ne_fail (by decide)
  · split <;> exact hloop _ _ _

theorem srsTimestampCheck_ne_fail (stamp : Bytes) :
    srsTimestampCheck c now stamp ≠ fail .bufTooSmall := by
  have htime : ∀ t, time t ≠ fail .bufTooSmall := by
    intro t
    rw [time]
    split
    · exact done_ne_fail
    · exact undefined_ne_fail
  have hstamp : ∀ (stamp : Bytes) (then' : Nat), stampLoop then' stamp ≠ fail .bufTooSmall := by
    intro stamp
    induction stamp with
    | nil => exact fun _ => done_ne_fail
    | cons ch sp ih =>
        intro then'
        rw [stampLoop]
        split
        · exact fail_ne_fail (by decide)
        · exact bind_ne_fail (htime _) fun t _ => ih t
  have hcatch : ∀ then' turns now, catchUp then' turns now ≠ fail .bufTooSmall := by
    intro then' turns
    induction turns with
    | zero => exact fun _ => done_ne_fail
    | succ turns ih =>
        intro now
        rw [catchUp]
        split
        · exact bind_ne_fail (htime _) fun t _ => ih t
        · exact done_ne_fail
  rw [srsTimestampCheck]
  refine bind_ne_fail (hstamp _ _) fun then' _ => bind_ne_fail (hcatch _ _ _) fun t _ => ?_
  split
  · exact undefined_ne_fail
  · split
    · exact done_ne_fail
    · exact fail_ne_fail (by decide)

/-- No check is made of the room while an address is read back. -/
theorem srsParseGuarded_ne_fail (senduser : Bytes) :
    srsParseGuarded c now senduser ≠ fail .bufTooSmall := by
  have hpast : pastTag senduser ≠ fail .bufTooSmall := by
    rw [pastTag]
    split
    · exact undefined_ne_fail
    · exact done_ne_fail
  have hpart : ∀ {code : Code} (s : Bytes), code ≠ .bufTooSmall → part code s ≠ fail .bufTooSmall := by
    intro code s hcode
    rw [part]
    split
    · exact fail_ne_fail hcode
    · exact done_ne_fail
  rw [srsParseGuarded]
  split
  · refine bind_ne_fail hpast fun s _ => ?_
    split
    · exact fail_ne_fail (by decide)
    · refine bind_ne_fail (hpart _ (by decide)) fun p _ => ?_
      refine bind_ne_fail (hpart _ (by decide)) fun q _ => ?_
      exact bind_ne_fail (srsHashCheck_ne_fail _ _) fun _ _ => done_ne_fail
  · rw [srsParseShortcut]
    split
    · refine bind_ne_fail hpast fun s _ => ?_
      split
      · exact fail_ne_fail (by decide)
      · refine bind_ne_fail (hpart _ (by decide)) fun p _ => ?_
        refine bind_ne_fail (hpart _ (by decide)) fun q _ => ?_
        refine bind_ne_fail (hpart _ (by decide)) fun r _ => ?_
        refine bind_ne_fail (srsTimestampCheck_ne_fail _) fun _ _ => ?_
        exact bind_ne_fail (srsHashCheck_ne_fail _ _) fun _ _ => done_ne_fail
    · exact fail_ne_fail (by decide)

end Room

/-- **There is always room**: what is written fits into the buffer with its NUL, and a buffer that is taken
for it is never too small. -/
theorem buffers_are_large_enough (c : SrsT) (now : Nat) (sender alias' : Bytes) :
    (∀ buflen b, srsForward c now buflen sender alias' = done b → b.length + 1 ≤ buflen) ∧
      (∀ buflen b, srsReverse c now buflen sender = done b → b.length + 1 ≤ buflen) ∧
      srsForwardAlloc c now sender alias' ≠ fail .bufTooSmall ∧
      srsReverseAlloc c now sender ≠ fail .bufTooSmall := by
  have hsrs : isSrsAddress sender ≠ fail .bufTooSmall := by
    rw [isSrsAddress]
    split
    · split
      · split
        · exact undefined_ne_fail
        · exact done_ne_fail
      · exact done_ne_fail
    · exact done_ne_fail
  refine ⟨fun buflen b h => srsForward_room.1 b h, fun buflen b h => (srsReverse_room h).1, ?_, ?_⟩
  · rw [srsForwardAlloc]
    split
    · exact fail_ne_fail (by decide)
    · exact srsForward_room.2 (by omega)
  · refine bind_ne_fail hsrs fun srs _ => ?_
    split
    · exact fail_ne_fail (by decide)
    · split
      · exact fail_ne_fail (by decide)
      · refine bind_ne_fail hsrs fun srs _ => ?_
        split
        · exact fail_ne_fail (by decide)
        · split
          · rename_i hle
            exact absurd hle (Nat.not_succ_le_self _)
          · exact srsParseGuarded_ne_fail _

end IndimailMta.Srs
