import IndimailMta.Srs.Address
import IndimailMta.Srs.Fips

/-!
# Stamps and hashes of rewritten senders

A stamp has the day modulo 1024. A hash is accepted if and only if it is, but for the case of its
letters, the whole hash for one of the secrets: one that is shorter never is, whatever `hashmin` says.
-/

namespace IndimailMta.Srs

open IndimailMta

/-! ## Results -/

section Results

variable {α β : Type} {x : Res α} {f : α → Res β} {a : α} {b : β} {code : Code}

theorem done_bind : (done a >>= f) = f a := rfl

theorem bind_eq_done : (x >>= f) = done b ↔ ∃ a, x = done a ∧ f a = done b := by
  constructor
  · intro h
    match x, h with
    | some (.ok a), h => exact ⟨a, rfl, h⟩
    | some (.error code), h => exact nomatch h
    | none, h => exact nomatch h
  · rintro ⟨a, rfl, h⟩
    exact h

theorem done_inj {a a' : α} (h : done a = done a') : a = a' := Except.ok.inj (Option.some.inj h)

theorem fail_ne_done : fail code ≠ done a := fun h => nomatch h

theorem undefined_ne_done : undefined ≠ done a := fun h => nomatch h

end Results

/-- What is left in the buffer. -/
def result (x : Res Bytes) : Bytes :=
  match x with
  | some (.ok b) => b
  | _ => []

def isDone (x : Res Bytes) : Bool :=
  match x with
  | some (.ok _) => true
  | _ => false

theorem done_result {x : Res Bytes} (h : isDone x = true) : x = done (result x) :=
  match x, h with
  | some (.ok _), _ => rfl

/-! ## Stamps -/

/-- The days from one time to another, as far as a stamp shows them. -/
def age (now now' : Nat) : Nat := (now' / 86400 + (1024 - now / 86400 % 1024)) % 1024

theorem findIdx_baseChars : ∀ i < 32,
    baseChars.findIdx? (· = upper (baseChars.getD i 0)) = some i := by decide

theorem time_done {t : Nat} (h : t < 9223372036854775808) : time t = done t := if_pos h

theorem stampLoop_created (now : Nat) :
    stampLoop 0 (srsTimestampCreate now) = done (now / 86400 % 1024) := by
  have hhigh := findIdx_baseChars (now / 86400 / 32 % 32) (Nat.mod_lt _ (by decide))
  have hlow := findIdx_baseChars (now / 86400 % 32) (Nat.mod_lt _ (by decide))
  have hsum : (0 * 32 + now / 86400 / 32 % 32) * 32 + now / 86400 % 32 = now / 86400 % 1024 := by omega
  rw [srsTimestampCreate, stampLoop, hhigh]
  dsimp only
  rw [time_done (by omega), done_bind, stampLoop, hlow]
  dsimp only
  rw [time_done (by omega), done_bind, stampLoop, hsum]

/-- One turn is enough for a stamp of two characters. -/
theorem catchUp_eq {then' now : Nat} (hthen : then' < 1024) :
    catchUp then' then' now = done (if now < then' then now + 1024 else now) := by
  cases then' with
  | zero => rw [catchUp, if_neg (Nat.not_lt_zero now)]
  | succ turns =>
      rw [catchUp]
      by_cases hlt : now < turns + 1
      · rw [if_pos hlt, if_pos hlt, time_done (by omega), done_bind]
        cases turns with
        | zero => rfl
        | succ turns => rw [catchUp, if_neg (by omega)]
      · rw [if_neg hlt, if_neg hlt]

/-- **A stamp is accepted** as long as it is not too old. -/
theorem srsTimestampCheck_created (c : SrsT) (now now' : Nat) :
    srsTimestampCheck c now' (srsTimestampCreate now) =
      if (age now now' : Int) ≤ c.maxage then done () else fail .timestampOutOfDate := by
  have hthen : now / 86400 % 1024 < 1024 := Nat.mod_lt _ (by decide)
  have hmax := c.maxage_lt
  rw [srsTimestampCheck, stampLoop_created, done_bind, catchUp_eq hthen, done_bind, if_neg (by omega)]
  refine if_congr ?_ rfl rfl
  rw [age]
  split <;> omega

/-! ## Hashes -/

theorem lower_eq_zero {ch : Byte} (h : lower ch = 0) : ch = 0 := by
  rw [lower] at h
  split at h
  · rename_i hb
    have h1 := UInt8.le_iff_toNat_le.mp hb.1
    have h2 := UInt8.le_iff_toNat_le.mp hb.2
    have h0 := congrArg UInt8.toNat h
    rw [UInt8.toNat_add] at h0
    have h32 : (32 : Byte).toNat = 32 := rfl
    have h65 : (65 : Byte).toNat = 65 := rfl
    have h90 : (90 : Byte).toNat = 90 := rfl
    have hzero : (0 : Byte).toNat = 0 := rfl
    omega
  · exact h

theorem length_encodeLoop (n i : Nat) (hp : Bytes) : (encodeLoop n i hp).length = n := by
  induction n generalizing i hp with
  | zero => rfl
  | succ n ih =>
      rw [encodeLoop]
      split <;> rw [List.length_cons, ih]

theorem getD_hashChars {i : Nat} (h : i < 64) : hashChars.getD i 0 ∈ hashChars := by
  have hlen : i < hashChars.length := h
  rw [List.getD_eq_getElem?_getD, List.getElem?_eq_getElem hlen]
  exact List.getElem_mem hlen

theorem mem_encodeLoop {n i : Nat} {hp : Bytes} {ch : Byte} (h : ch ∈ encodeLoop n i hp) :
    ch ∈ hashChars := by
  induction n generalizing i hp with
  | zero => exact absurd h List.not_mem_nil
  | succ n ih =>
      have hb := (hp.getD 0 0).toNat_lt
      have hb' := (hp.getD 1 0).toNat_lt
      rw [encodeLoop] at h
      split at h
      all_goals
        rcases List.mem_cons.mp h with rfl | h
        · exact getD_hashChars (by omega)
        · exact ih h

/-- Secrets and a length for which there is always a hash. -/
structure Sound (c : SrsT) : Prop where
  secrets : ∀ secret ∈ c.secrets, secret.length ≤ 64
  hashlength : c.hashlength ≤ 28

/-- The hash of these parts. -/
def hashOf (hashlength : Nat) (secret : Bytes) (args : List Bytes) : Bytes :=
  encodeLoop hashlength 0 (Fips.hmac secret (args.flatten.map lower) ++ [0])

theorem length_hashOf (hashlength : Nat) (secret : Bytes) (args : List Bytes) :
    (hashOf hashlength secret args).length = hashlength := length_encodeLoop _ _ _

theorem notMem_hashOf {ch : Byte} (h : ch ∉ hashChars) (hashlength : Nat) (secret : Bytes)
    (args : List Bytes) : ch ∉ hashOf hashlength secret args := fun hmem => h (mem_encodeLoop hmem)

theorem srsHashCreateV_eq {c : SrsT} {secret : Bytes} (hsecret : secret.length ≤ 64)
    (hlength : c.hashlength ≤ 28) (args : List Bytes) :
    srsHashCreateV c secret args = done (hashOf c.hashlength secret args) := by
  rw [srsHashCreateV, srsHmac_eq (zeros 64) List.length_replicate, if_pos hsecret, ← List.map_flatten]
  exact if_pos hlength

/-- A comparison of as many characters as the text in front of the NULs has, or more. -/
theorem strncaseeq_iff {a b : Bytes} {k : Nat} (ha : 0 ∉ a) (hb : 0 ∉ b)
    (hlen : b.length ≤ a.length + k) :
    strncaseeq (a.length + k) (a ++ zeros k) b = true ↔ a.map lower = b.map lower := by
  induction a generalizing b with
  | nil =>
      rw [List.length_nil, Nat.zero_add, List.nil_append]
      cases b with
      | nil =>
          cases k with
          | zero => exact iff_of_true rfl rfl
          | succ k => exact iff_of_true rfl rfl
      | cons y b =>
          rw [List.length_nil, Nat.zero_add, List.length_cons] at hlen
          obtain ⟨k, rfl⟩ := Nat.exists_eq_succ_of_ne_zero (Nat.ne_zero_of_lt hlen)
          have hy : lower 0 ≠ lower y := fun h =>
            hb (lower_eq_zero h.symm ▸ List.mem_cons_self)
          rw [zeros, List.replicate_succ, strncaseeq, List.headD_cons, List.headD_cons, if_pos hy]
          exact iff_of_false Bool.false_ne_true (List.cons_ne_nil _ _).symm
  | cons x a ih =>
      have hx : x ≠ 0 := fun h => ha (h ▸ List.mem_cons_self)
      have ha' : (0 : Byte) ∉ a := fun h => ha (List.mem_cons_of_mem x h)
      rw [List.length_cons, Nat.succ_add, List.cons_append, strncaseeq, List.headD_cons, List.tail_cons,
        if_neg hx]
      cases b with
      | nil =>
          have hne : lower x ≠ lower 0 := fun h => hx (lower_eq_zero h)
          rw [List.headD_nil, if_pos hne]
          exact iff_of_false Bool.false_ne_true (List.cons_ne_nil _ _)
      | cons y b =>
          rw [List.length_cons, List.length_cons, Nat.succ_add] at hlen
          rw [List.headD_cons, List.tail_cons, List.map_cons, List.map_cons, List.cons.injEq]
          by_cases heq : lower x = lower y
          · rw [if_neg (not_not_intro heq),
              ih ha' (fun h => hb (List.mem_cons_of_mem y h)) (Nat.le_of_succ_le_succ hlen)]
            exact (and_iff_right heq).symm
          · rw [if_pos heq]
            exact iff_of_false Bool.false_ne_true fun h => heq h.1

section Check

variable {c : SrsT} {hash : Bytes} {args : List Bytes}

/-- **The loop over the secrets.** -/
theorem checkLoop_iff (hlength : c.hashlength ≤ 28) {k : Nat} {secrets : List Bytes}
    (hsecrets : ∀ secret ∈ secrets, secret.length ≤ 64) (hhash : 0 ∉ hash)
    (hk : c.hashlength ≤ hash.length + k) :
    checkLoop c (hash ++ zeros k) (hash.length + k) args secrets = done () ↔
      ∃ secret ∈ secrets, hash.map lower = (hashOf c.hashlength secret args).map lower := by
  induction secrets with
  | nil =>
      refine iff_of_false (fun h => nomatch h) ?_
      rintro ⟨secret, h, -⟩
      exact absurd h List.not_mem_nil
  | cons secret secrets ih =>
      have hcreate := srsHashCreateV_eq (hsecrets secret List.mem_cons_self) hlength args
      have hcompare := strncaseeq_iff hhash
        (notMem_hashOf (by decide) c.hashlength secret args)
        (by rw [length_hashOf]; exact hk)
      rw [checkLoop, hcreate, done_bind]
      simp only [List.mem_cons, exists_eq_or_imp]
      rw [← hcompare]
      split
      · rename_i heq
        exact iff_of_true rfl (.inl heq)
      · rename_i hne
        rw [ih fun s h => hsecrets s (List.mem_cons_of_mem secret h)]
        exact (or_iff_right hne).symm

/-- **What is accepted.** -/
theorem srsHashCheck_iff (hc : Sound c) (hhash : 0 ∉ hash) :
    srsHashCheck c hash args = done () ↔
      c.hashmin ≤ hash.length ∧
        ∃ secret ∈ c.secrets, hash.map lower = (hashOf c.hashlength secret args).map lower := by
  rw [srsHashCheck]
  by_cases hmin : hash.length < c.hashmin
  · rw [if_pos hmin]
    exact iff_of_false fail_ne_done fun h => absurd h.1 (Nat.not_le.mpr hmin)
  · rw [if_neg hmin, and_iff_right (Nat.le_of_not_lt hmin)]
    by_cases hshort : hash.length < c.hashlength
    · have hsum : hash.length + (c.hashlength - hash.length) = c.hashlength := by omega
      have h := @checkLoop_iff c hash args hc.hashlength (c.hashlength - hash.length) _ hc.secrets
        hhash (Nat.le_of_eq hsum.symm)
      rw [hsum] at h
      rw [if_pos hshort]
      exact h
    · have h := @checkLoop_iff c hash args hc.hashlength 0 _ hc.secrets hhash
        (Nat.le_of_not_lt hshort)
      rw [Nat.add_zero, zeros, List.replicate_zero, List.append_nil] at h
      rw [if_neg hshort]
      exact h

/-- **A hash is accepted** if and only if it is the whole hash for one of the secrets, but for the case of
its letters, and not too short: `hashmin` permits nothing. -/
theorem hash_accepted_iff (c : SrsT) (hc : Sound c) (hash : Bytes) (hhash : 0 ∉ hash) (args : List Bytes) :
    srsHashCheck c hash args = done () ↔
      c.hashmin ≤ c.hashlength ∧ hash.length = c.hashlength ∧
        ∃ secret ∈ c.secrets, hash.map lower = (hashOf c.hashlength secret args).map lower := by
  rw [srsHashCheck_iff hc hhash]
  constructor
  · rintro ⟨hmin, secret, hsecret, heq⟩
    have hlen := congrArg List.length heq
    rw [List.length_map, List.length_map, length_hashOf] at hlen
    exact ⟨hlen ▸ hmin, hlen, secret, hsecret, heq⟩
  · rintro ⟨hmin, hlen, hsecret⟩
    exact ⟨hlen ▸ hmin, hsecret⟩

/-- Three characters, where two are enough for `hashmin`. -/
theorem hash_accepted_iff_short :
    srsHashCheck { srsInit with secrets := [asc "tops3cret"], hashmin := 2 } (asc "zv5") [asc "a"] = done () ↔
      2 ≤ 4 ∧ (asc "zv5").length = 4 ∧
        ∃ secret ∈ [asc "tops3cret"], (asc "zv5").map lower = (hashOf 4 secret [asc "a"]).map lower :=
  hash_accepted_iff { srsInit with secrets := [asc "tops3cret"], hashmin := 2 }
    ⟨fun secret h => by rw [List.mem_singleton.mp h]; decide, show 4 ≤ 28 by decide⟩ (asc "zv5") (by decide)
    [asc "a"]

end Check

end IndimailMta.Srs
