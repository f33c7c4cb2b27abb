import IndimailMta.Srs.Buffers

/-!
# The control files of SRS

`srs.c` takes the parameters from control files. Where the length of the hash is below four, and
`srs_hashmin` is not set, what `srsforward` writes is too short for `srsreverse`.
-/

namespace IndimailMta.Srs

open IndimailMta

/-! ## The code -/

/-- What the control files have; `none` where one of them cannot be read, and 0 or nothing where it is
not there. -/
structure Files where
  domain : Option Bytes
  secrets : Option (List Bytes)
  maxage : Option Nat
  hashlength : Option Nat
  hashmin : Option Nat
  alwaysrewrite : Option Nat
  separator : Option Bytes
  rcpthosts : Bool

/-- The variables of `srs.c`. -/
structure Control where
  srs_domain : Bytes
  srs_secrets : List Bytes
  srs_maxage : Nat
  srs_hashlength : Nat
  srs_hashmin : Nat
  srs_alwaysrewrite : Bool
  srs_separator : Option Byte
  separator_mem : ∀ sep ∈ srs_separator, sep ∈ separators

/-- What is read; a failure is -1. -/
def orFailed {α : Type} : Option α → Except Int α
  | none => .error (-1)
  | some a => .ok a

/-- The setup ends here. -/
def stopIf (c : Bool) (x : Int) : Except Int Unit := if c then .error x else .ok ()

/-- The first character, if it is a separator. -/
def separatorOf (s : Bytes) : Option Byte := s.head?.filter (· ∈ separators)

theorem separatorOf_mem (s : Bytes) : ∀ sep ∈ separatorOf s, sep ∈ separators := by
  intro sep hsep
  exact of_decide_eq_true (Option.filter_eq_some_iff.mp hsep).2

def srsSetup (files : Files) (withRcpthosts : Bool) : Except Int Control := do
  let srs_domain ← orFailed files.domain
  stopIf (srs_domain = []) 0
  let srs_secrets ← orFailed files.secrets
  stopIf (srs_secrets = []) 0
  let srs_maxage ← orFailed files.maxage
  let srs_hashlength ← orFailed files.hashlength
  let srs_hashmin ← orFailed files.hashmin
  let srs_hashmin := if srs_hashlength < srs_hashmin then srs_hashlength else srs_hashmin
  let srs_alwaysrewrite ← orFailed files.alwaysrewrite
  let separator ← orFailed files.separator
  stopIf (srs_alwaysrewrite = 0 && withRcpthosts && !files.rcpthosts) (-1)
  return {
    srs_domain := srs_domain
    srs_secrets := srs_secrets
    srs_maxage := srs_maxage
    srs_hashlength := srs_hashlength
    srs_hashmin := srs_hashmin
    srs_alwaysrewrite := srs_alwaysrewrite ≠ 0
    srs_separator := separatorOf separator
    separator_mem := separatorOf_mem separator }

/-- The parameters of the library: what is not set is as `srs_init` leaves it. -/
def Control.srs (k : Control) (alwaysrewrite : Bool) : SrsT where
  secrets := k.srs_secrets
  separator := k.srs_separator.getD srsInit.separator
  maxage := if 0 < k.srs_maxage then int32 k.srs_maxage else srsInit.maxage
  hashlength := if 0 < k.srs_hashlength then k.srs_hashlength else srsInit.hashlength
  hashmin := if 0 < k.srs_hashmin then k.srs_hashmin else srsInit.hashmin
  alwaysrewrite := alwaysrewrite
  noforward := false
  noreverse := false
  separator_mem := by
    cases hsep : k.srs_separator with
    | none => exact srsInit.separator_mem
    | some sep => exact k.separator_mem sep hsep
  maxage_lt := by
    split
    · rw [int32]
      split <;> omega
    · decide

def srsStrerror : Code → Bytes
  | .notSrsAddress => asc "Not an SRS address."
  | .notRewritten => asc "Unknown error in SRS library."
  | .noSecrets => asc "No secrets in SRS configuration."
  | .separatorInvalid => asc "Invalid separator suggested."
  | .noSenderAtSign => asc "No at sign in sender address"
  | .bufTooSmall => asc "Buffer too small."
  | .noSrs0Host => asc "No host in SRS0 address."
  | .noSrs0User => asc "No user in SRS0 address."
  | .noSrs0Hash => asc "No hash in SRS0 address."
  | .noSrs0Stamp => asc "No timestamp in SRS0 address."
  | .noSrs1Host => asc "No host in SRS1 address."
  | .noSrs1User => asc "No user in SRS1 address."
  | .noSrs1Hash => asc "No hash in SRS1 address."
  | .badTimestampChar => asc "Bad base32 character in timestamp."
  | .hashTooShort => asc "Hash too short in SRS address."
  | .timestampOutOfDate => asc "Time stamp out of date."
  | .hashInvalid => asc "Hash invalid in SRS address."

/-- The value that is returned, with `srs_result` or `srs_error`. -/
def answer (x : Res Bytes) : Option (Int × Bytes) :=
  match x with
  | none => none
  | some (.ok b) => some (1, b)
  | some (.error code) => some (-3, asc "SRS: " ++ srsStrerror code)

/-- `srsforward`; `rcpthosts` says whether an address is local. -/
def srsforward (files : Files) (rcpthosts : Bytes → Bool) (now : Nat) (address : Bytes) :
    Option (Int × Bytes) :=
  match srsSetup files true with
  | .error x => some (x, [])
  | .ok k =>
      if address.length ≤ 1 then some (0, [])
      else if !k.srs_alwaysrewrite && rcpthosts address then some (0, [])
      else answer (srsForward (k.srs k.srs_alwaysrewrite) now 1000 address k.srs_domain)

def srsreverse (files : Files) (now : Nat) (srsaddress : Bytes) : Option (Int × Bytes) :=
  match srsSetup files false with
  | .error x => some (x, [])
  | .ok k =>
      if srsaddress.length ≤ 1 then some (-3, [])
      else answer (srsReverse (k.srs false) now 1000 srsaddress)

/-! ## The own addresses -/

theorem answer_eq_one {x : Res Bytes} {b : Bytes} : answer x = some (1, b) ↔ x = done b := by
  match x with
  | none => exact iff_of_false (fun h => nomatch h) (fun h => nomatch h)
  | some (.ok a) =>
      constructor
      · intro h
        rw [(Prod.mk.inj (Option.some.inj h)).2]
        rfl
      · intro h
        rw [done_inj h]
        rfl
  | some (.error code) =>
      refine iff_of_false (fun h => ?_) (fun h => nomatch h)
      exact absurd (Prod.mk.inj (Option.some.inj h)).1 (by decide)

/-- The secrets, and the length of the hash, if one is set. -/
structure Usable (files : Files) : Prop where
  secrets : ∀ secrets ∈ files.secrets, ∀ secret ∈ secrets, secret.length ≤ 64
  hashlength : ∀ hashlength ∈ files.hashlength, hashlength ≤ 28

/-- What `srs_setup` read. -/
structure Read (files : Files) (k : Control) : Prop where
  domain : files.domain = some k.srs_domain
  secrets : files.secrets = some k.srs_secrets
  maxage : files.maxage = some k.srs_maxage
  hashlength : files.hashlength = some k.srs_hashlength
  hashmin : ∃ n, files.hashmin = some n ∧ k.srs_hashmin = min n k.srs_hashlength
  alwaysrewrite : ∃ n, files.alwaysrewrite = some n ∧ k.srs_alwaysrewrite = decide (n ≠ 0)

theorem orFailed_ok {α : Type} {x : Option α} {a : α} (h : orFailed x = .ok a) : x = some a := by
  cases x with
  | none => exact nomatch h
  | some b => rw [Except.ok.inj h]

theorem stopIf_ok {c : Bool} {x : Int} {u : Unit} (h : stopIf c x = .ok u) : c = false := by
  rw [stopIf] at h
  split at h
  · exact nomatch h
  · exact eq_false_of_ne_true ‹_›

theorem srsSetup_ok {files : Files} {withRcpthosts : Bool} {k : Control}
    (h : srsSetup files withRcpthosts = .ok k) : Read files k ∧ k.srs_secrets ≠ [] := by
  obtain ⟨domain, hdomain, h⟩ := except_bind_ok.mp h
  obtain ⟨_, -, h⟩ := except_bind_ok.mp h
  obtain ⟨secrets, hsecrets, h⟩ := except_bind_ok.mp h
  obtain ⟨_, hne, h⟩ := except_bind_ok.mp h
  obtain ⟨maxage, hmaxage, h⟩ := except_bind_ok.mp h
  obtain ⟨hashlength, hhashlength, h⟩ := except_bind_ok.mp h
  obtain ⟨hashmin, hhashmin, h⟩ := except_bind_ok.mp h
  obtain ⟨always, halways, h⟩ := except_bind_ok.mp h
  obtain ⟨separator, -, h⟩ := except_bind_ok.mp h
  obtain ⟨_, -, h⟩ := except_bind_ok.mp h
  rw [← Except.ok.inj h]
  refine ⟨⟨orFailed_ok hdomain, orFailed_ok hsecrets, orFailed_ok hmaxage, orFailed_ok hhashlength,
    ⟨hashmin, orFailed_ok hhashmin, ?_⟩, ⟨always, orFailed_ok halways, rfl⟩⟩, ?_⟩
  · dsimp only
    split <;> omega
  · exact of_decide_eq_false (stopIf_ok hne)

/-- The other function needs less. -/
theorem srsSetup_false {files : Files} {k : Control} (h : srsSetup files true = .ok k) :
    srsSetup files false = .ok k := by
  obtain ⟨domain, hdomain, h⟩ := except_bind_ok.mp h
  obtain ⟨⟨⟩, hne, h⟩ := except_bind_ok.mp h
  obtain ⟨secrets, hsecrets, h⟩ := except_bind_ok.mp h
  obtain ⟨⟨⟩, hne', h⟩ := except_bind_ok.mp h
  obtain ⟨maxage, hmaxage, h⟩ := except_bind_ok.mp h
  obtain ⟨hashlength, hhashlength, h⟩ := except_bind_ok.mp h
  obtain ⟨hashmin, hhashmin, h⟩ := except_bind_ok.mp h
  obtain ⟨always, halways, h⟩ := except_bind_ok.mp h
  obtain ⟨separator, hseparator, h⟩ := except_bind_ok.mp h
  obtain ⟨⟨⟩, -, h⟩ := except_bind_ok.mp h
  have hstop : stopIf (decide (always = 0) && false && !files.rcpthosts) (-1) = .ok () := by
    rw [Bool.and_false, Bool.false_and]
    rfl
  exact except_bind_ok.mpr ⟨domain, hdomain, except_bind_ok.mpr ⟨(), hne, except_bind_ok.mpr ⟨secrets,
    hsecrets, except_bind_ok.mpr ⟨(), hne', except_bind_ok.mpr ⟨maxage, hmaxage, except_bind_ok.mpr
    ⟨hashlength, hhashlength, except_bind_ok.mpr ⟨hashmin, hhashmin, except_bind_ok.mpr ⟨always, halways,
    except_bind_ok.mpr ⟨separator, hseparator, except_bind_ok.mpr ⟨(), hstop, h⟩⟩⟩⟩⟩⟩⟩⟩⟩⟩

theorem except_bind_ne {α β : Type} {x : Except Int α} {f : α → Except Int β} {code : Int}
    (hx : x ≠ .error code) (hf : ∀ a, f a ≠ .error code) : (x >>= f) ≠ .error code := by
  cases x with
  | error e => exact fun h => hx (congrArg Except.error (Except.error.inj h))
  | ok a => exact hf a

/-- A setup that fails is not taken for an answer. -/
theorem srsSetup_ne {files : Files} {withRcpthosts : Bool} : srsSetup files withRcpthosts ≠ .error 1 := by
  have hread : ∀ {α : Type} (x : Option α), orFailed x ≠ .error 1 := by
    intro α x
    cases x with
    | none => exact fun h => absurd (Except.error.inj h) (by decide)
    | some a => exact nofun
  have hstop : ∀ (c : Bool) {x : Int}, x ≠ 1 → stopIf c x ≠ .error 1 := by
    intro c x hx
    cases c with
    | false => exact nofun
    | true => exact fun h => hx (Except.error.inj h)
  refine except_bind_ne (hread _) fun domain => except_bind_ne (hstop _ (by decide)) fun _ => ?_
  refine except_bind_ne (hread _) fun secrets => except_bind_ne (hstop _ (by decide)) fun _ => ?_
  refine except_bind_ne (hread _) fun maxage => except_bind_ne (hread _) fun hashlength => ?_
  refine except_bind_ne (hread _) fun hashmin => except_bind_ne (hread _) fun always => ?_
  exact except_bind_ne (hread _) fun separator => except_bind_ne (hstop _ (by decide)) fun _ => nofun

/-- The days after which an address is too old. -/
def maxageOf (files : Files) : Int :=
  let maxage := files.maxage.getD 0
  if 0 < maxage then int32 maxage else 21

/-- A hash is written that is too short to be read. -/
def TooShort (files : Files) : Prop :=
  files.hashmin.getD 0 = 0 ∧ 0 < files.hashlength.getD 0 ∧ files.hashlength.getD 0 < 4

theorem hashmin_le_iff {files : Files} {k : Control} (hread : Read files k) (always : Bool) :
    (k.srs always).hashmin ≤ (k.srs always).hashlength ↔ ¬ TooShort files := by
  obtain ⟨n, hn, hmin⟩ := hread.hashmin
  have h4 : srsInit.hashlength = 4 ∧ srsInit.hashmin = 4 := ⟨rfl, rfl⟩
  rw [TooShort, hn, hread.hashlength, Option.getD_some, Option.getD_some, Control.srs]
  dsimp only
  rw [hmin, h4.1, h4.2]
  split <;> split <;> omega

theorem sound_srs {files : Files} {k : Control} (hread : Read files k) (hfiles : Usable files)
    (always : Bool) : Sound (k.srs always) := by
  refine ⟨hfiles.secrets _ hread.secrets, ?_⟩
  have hle := hfiles.hashlength _ hread.hashlength
  have h4 : srsInit.hashlength = 4 := rfl
  rw [Control.srs]
  dsimp only
  rw [h4]
  split <;> omega

/-- What is rewritten back has a tag. -/
theorem length_of_srsReverse {c : SrsT} {now buflen : Nat} {sender b : Bytes}
    (h : srsReverse c now buflen sender = done b) : 3 ≤ sender.length := by
  obtain ⟨srs, hsrs, h⟩ := bind_eq_done.mp h
  rw [isSrsAddress] at hsrs
  split at hsrs
  · rename_i htag
    have hlen := congrArg List.length (of_decide_eq_true htag)
    have h3 : (asc "SRS").length = 3 := rfl
    rw [List.length_map, List.length_map, List.length_take, h3] at hlen
    omega
  · rw [← done_inj hsrs] at h
    exact absurd h fail_ne_done

/-- **The own addresses come back** if and only if the hash is not too short, the address can be taken
apart, and it is not too old. -/
theorem srsreverse_srsforward_iff (files : Files) (hfiles : Usable files) (rcpthosts : Bytes → Bool)
    (now now' : Nat) (senduser sendhost b : Bytes) (huser : 64 ∉ senduser)
    (hdomain : files.alwaysrewrite ≠ some 0 ∨
      ∀ domain ∈ files.domain, sendhost.map lower ≠ (aliasHost domain).map lower)
    (h : srsforward files rcpthosts now (senduser ++ 64 :: sendhost) = some (1, b)) :
    ∃ form, formOf senduser sendhost = .ok form ∧
      (srsreverse files now' b = some (1, form.origin) ↔
        ¬ TooShort files ∧ form.Clean ∧ (form.IsPlain → (age now now' : Int) ≤ maxageOf files)) := by
  rw [srsforward] at h
  cases hsetup : srsSetup files true with
  | error x =>
      rw [hsetup] at h
      have hx := (Prod.mk.inj (Option.some.inj h)).1
      rw [hx] at hsetup
      exact absurd hsetup srsSetup_ne
  | ok k =>
      rw [hsetup] at h
      dsimp only at h
      obtain ⟨hread, hne⟩ := srsSetup_ok hsetup
      split at h
      · exact absurd (Prod.mk.inj (Option.some.inj h)).1 (by decide)
      · split at h
        · exact absurd (Prod.mk.inj (Option.some.inj h)).1 (by decide)
        · have hforward := answer_eq_one.mp h
          have hroom : b.length < 1000 := srsForward_room.1 b hforward
          obtain ⟨secret, secrets, hsecrets⟩ := List.exists_cons_of_ne_nil hne
          have hhead : (k.srs k.srs_alwaysrewrite).secrets.head? = some secret := by
            rw [Control.srs, hsecrets]
            rfl
          have hkeeps : Keeps secret (k.srs k.srs_alwaysrewrite) (k.srs false) :=
            ⟨sound_srs hread hfiles false, List.mem_of_head? hhead, rfl, rfl⟩
          have hrewrites : Rewrites (k.srs k.srs_alwaysrewrite) sendhost k.srs_domain := by
            obtain ⟨n, hn, halways⟩ := hread.alwaysrewrite
            refine hdomain.imp (fun hzero => ?_) fun hhost => hhost _ hread.domain
            rw [Control.srs, halways]
            exact decide_eq_true fun h0 => hzero (h0 ▸ hn)
          obtain ⟨form, hform, hiff⟩ := forward_reverse_iff (k.srs k.srs_alwaysrewrite) (k.srs false) now now'
            1000 1000 senduser sendhost k.srs_domain secret b huser (sound_srs hread hfiles _) hhead hrewrites
            hforward hkeeps hroom
          refine ⟨form, hform, ?_⟩
          have hmaxage : (k.srs false).maxage = maxageOf files := by
            rw [maxageOf, hread.maxage]
            rfl
          rw [hashmin_le_iff hread, hmaxage] at hiff
          rw [← hiff, srsreverse, srsSetup_false hsetup]
          dsimp only
          split
          · rename_i hshort
            -- An address with a tag is not that short.
            refine iff_of_false (fun h => absurd (Prod.mk.inj (Option.some.inj h)).1 (by decide)) fun h => ?_
            have hthree := length_of_srsReverse h
            omega
          · exact answer_eq_one

/-! ## A hash of three characters -/

/-- The control files with a length and without a minimum. -/
def shortFiles : Files :=
  ⟨some (asc "fwd.org"), some [asc "tops3cret"], some 0, some 3, some 0, some 0, some [], true⟩

def shortAddress : Bytes :=
  ((srsforward shortFiles (fun _ => false) 1700000000 (asc "user@example.com")).map Prod.snd).getD []

theorem answer_one {x : Option (Int × Bytes)} (h : x.map Prod.fst = some 1) :
    x = some (1, (x.map Prod.snd).getD []) := by
  obtain ⟨⟨n, b⟩, rfl, hn⟩ := Option.map_eq_some_iff.mp h
  obtain rfl : n = 1 := hn
  rfl

theorem srsreverse_srsforward_iff_short :
    ∃ form, formOf (asc "user") (asc "example.com") = .ok form ∧
      (srsreverse shortFiles 1700000000 shortAddress = some (1, form.origin) ↔
        ¬ TooShort shortFiles ∧ form.Clean ∧
          (form.IsPlain → (age 1700000000 1700000000 : Int) ≤ maxageOf shortFiles)) :=
  srsreverse_srsforward_iff shortFiles
    ⟨fun _ h => by obtain rfl := Option.some.inj h; decide, fun _ h => by obtain rfl := Option.some.inj h; decide⟩
    (fun _ => false) 1700000000 1700000000 (asc "user") (asc "example.com") shortAddress (by decide)
    (.inr fun _ h => by obtain rfl := Option.some.inj h; decide) (answer_one (by decide +kernel))

end IndimailMta.Srs
