import IndimailMta.Supervise.Doit

/-!
# What supervise shows of its service

`Visible` is what a reader of `supervise/status` and a process that waits on `supervise/up` or
`supervise/dn` rely on at every `iopause`. It holds in every run in which the service is started
once: where a service whose exit was collected is started again, `fdup` still has the number that
was closed, `supervise/up` is not opened again, and the next exit closes whatever that number
is by then.
-/

namespace IndimailMta.Supervise

open IndimailMta Descriptors Run

/-! ## Reading the history -/

/-- The last of the commands u, o, d and r. -/
def lastCommand : List Event → Option Command
  | [] => none
  | .byte cmd _ :: es =>
    if cmd ∈ [.up, .once, .down, .restart] then some cmd else lastCommand es
  | _ :: es => lastCommand es

/-- The service was told to go down, and was not started since. -/
def downed : List Event → Bool
  | [] => false
  | .byte cmd pid :: es => cmd = .down && pid ≠ 0 || downed es
  | .started _ _ :: _ => false
  | _ :: es => downed es

/-- The exit of the service was collected, and it was not started since. -/
def awaiting : List Event → Bool
  | [] => false
  | .reaped _ :: _ => true
  | .started _ _ :: _ => false
  | _ :: es => awaiting es

def Event.isStart : Event → Bool
  | .started _ _ => true
  | _ => false

def Event.isReap : Event → Bool
  | .reaped _ => true
  | _ => false

def Event.isExit : Event → Bool
  | .byte .exit _ => true
  | _ => false

/-- `status[17]` after a command, or before the first. -/
def wanted (down : Bool) : Option Command → Byte
  | none => if down then 100 else 117
  | some .once => 0
  | some .down => 100
  | some _ => 117

/-- **What is seen from outside matches the service.** -/
structure Visible (c : Config) (down : Bool) (s : State) : Prop where
  child : s.childpid ≠ 0 ↔ ∃ pid, s.children = [pid]
  pid : s.childpid ≠ 0 →
    s.children = [s.childpid] ∧ unpackPid s.file.pid = s.childpid ∧ s.file.up = 1
  gone : s.childpid = 0 → s.children = [] ∧ s.file.pid = packPid c.svpid ∧ s.file.up = 0
  paused : s.file.paused = if s.childpid ≠ 0 ∧ s.flagpaused then 1 else 0
  want : s.file.want = wanted down (lastCommand s.log)
  up : Holds s.fds .up ↔ s.childpid ≠ 0
  dn : s.childpid = 0 → downed s.log = true → Holds s.fds .dn
  dnClosed : s.log.any Event.isStart = true → downed s.log = false → ¬ Holds s.fds .dn
  closed : ∀ file, .closed file false ∉ s.log
  restarted : lastCommand s.log = some .up ∨ lastCommand s.log = some .restart →
    s.log.any Event.isExit = false → awaiting s.log = false

/-! ## The condition -/

/-- The loop over `waitpid` comes to the exit of the service. -/
def dies (childpid : Nat) : List WaitResult → Bool
  | .intr :: ws => dies childpid ws
  | .exited pid :: ws => pid = childpid || dies childpid ws
  | _ => false

/-- No second start is asked for, and the exit of the service is not collected after
`./shutdown`. -/
structure Single (s : State) (i : Input) : Prop where
  stays : dies s.childpid i.waits = true → s.flagexit = false →
    (s.flagwantxx && s.flagwantup) = false
  once : s.log.any Event.isReap = true ∨ dies s.childpid i.waits = true ∧ s.flagexit = false →
    ∀ ch, i.byte = some ch → command ch ∉ [.up, .once, .restart]
  seen : s.childpid ≠ 0 → dies s.childpid i.waits = false →
    ∀ ch, i.byte = some ch → command ch ∈ [.down, .restart] → i.shutdown.present = true →
      i.shutdown.fork ≠ none → i.shutdown.nohang ≠ some s.childpid

/-! ## The invariant -/

/-- What holds at `iopause` as long as no second start was made. -/
structure Sound (c : Config) (down : Bool) (s : State) : Prop where
  children : s.children = if s.childpid = 0 then [] else [s.childpid]
  small : s.childpid < 2 ^ 31
  nodup : (numbers s.fds).Nodup
  upOpen : s.childpid ≠ 0 → ∃ n, s.fdup = some n ∧ (n, .up) ∈ s.fds
  upOnly : ∀ n, (n, .up) ∈ s.fds → s.childpid ≠ 0 ∧ s.fdup = some n
  dn : ∀ n, (n, .dn) ∈ s.fds ↔ s.fddn = some n
  first : s.fdup = none ↔ s.log.any Event.isStart = false
  again : s.log.any Event.isReap = true ↔ s.childpid = 0 ∧ s.fdup ≠ none
  status : s.status = ⟨packPid (if s.childpid = 0 then c.svpid else s.childpid),
    if s.childpid ≠ 0 ∧ s.flagpaused then 1 else 0, wantByte s.flagwantxx s.flagwantup,
    if s.childpid = 0 then 0 else 1⟩
  file : s.file = s.status
  want : wantByte s.flagwantxx s.flagwantup = wanted down (lastCommand s.log)
  failed : s.flagfailed = false
  exit : s.flagexit = s.log.any Event.isExit
  down : downed s.log = true → s.fddn ≠ none
  undown : s.log.any Event.isStart = true → downed s.log = false → s.fddn = none
  closed : ∀ file, .closed file false ∉ s.log
  await : awaiting s.log = true → (s.flagwantxx && s.flagwantup) = false

variable {c : Config} {down : Bool} {s t : State} {i : Input}

/-- The wish to be up is on record. -/
theorem Sound.up_of_last (h : Sound c down s)
    (hl : lastCommand s.log = some .up ∨ lastCommand s.log = some .restart) :
    (s.flagwantxx && s.flagwantup) = true := by
  have hw := h.want
  have h117 : wanted down (lastCommand s.log) = 117 := by
    rcases hl with hl | hl
    · rw [hl]
      rfl
    · rw [hl]
      rfl
  rw [h117, wantByte] at hw
  split at hw
  · split at hw
    · simp [*]
    · exact absurd hw (by decide)
  · exact absurd hw (by decide)

/-- **Sound is visible.** -/
theorem Sound.visible (h : Sound c down s) : Visible c down s where
  child := by
    rw [h.children]
    split <;> simp [*]
  pid hp := by
    refine ⟨by rw [h.children, if_neg hp], ?_, ?_⟩
    · rw [h.file, h.status]
      show unpackPid (packPid (if s.childpid = 0 then c.svpid else s.childpid)) = s.childpid
      rw [if_neg hp]
      exact unpackPid_packPid (Nat.lt_trans h.small (by decide))
    · rw [h.file, h.status]
      exact if_neg hp
  gone hp := by
    refine ⟨by rw [h.children, if_pos hp], ?_, ?_⟩
    · rw [h.file, h.status]
      show packPid (if s.childpid = 0 then c.svpid else s.childpid) = packPid c.svpid
      rw [if_pos hp]
    · rw [h.file, h.status]
      exact if_pos hp
  paused := by rw [h.file, h.status]
  want := by
    rw [h.file, h.status]
    exact h.want
  up := by
    constructor
    · rintro ⟨n, hn⟩
      exact (h.upOnly n hn).1
    · intro hp
      obtain ⟨n, -, hn⟩ := h.upOpen hp
      exact ⟨n, hn⟩
  dn _ hd := by
    obtain ⟨n, hn⟩ := Option.ne_none_iff_exists'.mp (h.down hd)
    exact ⟨n, (h.dn n).mpr hn⟩
  dnClosed hs hd := by
    rintro ⟨n, hn⟩
    have := (h.dn n).mp hn
    rw [h.undown hs hd] at this
    cases this
  closed := h.closed
  restarted hl _ := by
    cases ha : awaiting s.log with
    | false => rfl
    | true =>
        have hno := h.await ha
        rw [h.up_of_last hl] at hno
        cases hno

/-! ## Scripts and signals -/

/-- What the invariant does not look at. -/
theorem Sound.same (h : Sound c down s) (l : List Nat) (k : List Kill) (g r : Bool) :
    Sound c down { s with scripts := l, kills := k, g := g, flagrestart := r } :=
  ⟨h.children, h.small, h.nodup, h.upOpen, h.upOnly, h.dn, h.first, h.again, h.status, h.file,
    h.want, h.failed, h.exit, h.down, h.undown, h.closed, h.await⟩

/-- `tryaction` changes the list of scripts, and may collect the exit of a child with
`wait_nohang`. -/
theorem tryaction_cases {a : Script} {w : Bool} (h : tryaction c a w s = some t) :
    (∃ l, t = { s with scripts := l }) ∨
      ∃ l, ∃ r ∈ s.children, a.present = true ∧ a.fork ≠ none ∧ a.nohang = some r ∧
        t = { s with
          scripts := l
          children := s.children.erase r
          log := .reaped r :: s.log } := by
  unfold tryaction at h
  split at h
  · cases h
    exact Or.inl ⟨_, rfl⟩
  rename_i hp
  split at h
  · cases h
    exact Or.inl ⟨_, rfl⟩
  rename_i pid hf
  split at h
  · cases h
  split at h
  · cases h
    exact Or.inl ⟨_, rfl⟩
  split at h
  · cases h
    exact Or.inl ⟨_, rfl⟩
  rename_i r hr
  unfold State.collect at h
  split at h
  · cases h
  split at h
  · rename_i hmem
    cases h
    exact Or.inr ⟨_, r, hmem, by simpa using hp, by rw [hf]; simp, hr, rfl⟩
  split at h
  · cases h
    exact Or.inl ⟨_, rfl⟩
  · cases h

/-- Without a child there is none to collect. -/
theorem tryaction_childless {a : Script} {w : Bool} (hc : s.children = [])
    (h : tryaction c a w s = some t) : ∃ l, t = { s with scripts := l } := by
  rcases tryaction_cases h with hl | ⟨l, r, hr, -⟩
  · exact hl
  · rw [hc] at hr
    cases hr

/-! ## Starts -/

theorem trystart_some {how : How} {pid : Nat} (h : trystart c how (some pid) s = some t) :
    s.fresh c pid = true ∧ t = started c how pid s := by
  unfold trystart at h
  split at h
  · rename_i heq
    cases heq
  · rename_i heq
    cases heq
    split at h
    · rename_i hf
      cases h
      exact ⟨hf, rfl⟩
    · cases h

theorem fresh_spec {pid : Nat} (h : s.fresh c pid = true) :
    pid ≠ 0 ∧ pid < 2 ^ 31 ∧ pid ∉ s.children := by
  simp only [State.fresh, Bool.and_eq_true, decide_eq_true_eq] at h
  exact ⟨h.1.1.1.1, h.1.1.1.2, h.1.2⟩

/-- The state in which a running service is not shown by `supervise/up`. -/
structure Hidden (s : State) : Prop where
  child : s.childpid ≠ 0
  stale : s.fdup ≠ none
  up : ¬ Holds s.fds .up

theorem Hidden.not_visible (h : Hidden s) : ¬ Visible c down s := fun hv =>
  h.up (hv.up.mpr h.child)

theorem not_holds_close {f : File} {n : Nat} (h : ¬ Holds s.fds f) :
    ¬ Holds (close s.fds n) f := by
  rintro ⟨m, hm⟩
  exact h ⟨m, (mem_close.mp hm).1⟩

theorem Hidden.announce (h : Hidden s) : Hidden s.announce := ⟨h.child, h.stale, h.up⟩

theorem Hidden.openUp (h : Hidden s) : s.openUp = s := if_neg h.stale

theorem Hidden.closeDn (h : Hidden s) : Hidden s.closeDn := by
  unfold State.closeDn State.closeFd
  split
  · exact h
  · rename_i hd
    split
    · exact ⟨h.child, h.stale, h.up⟩
    · exact ⟨h.child, h.stale, not_holds_close h.up⟩

theorem not_holds_openOn {f f' : File} (hne : f ≠ f') (h : ¬ Holds s.fds f) :
    ¬ Holds (openOn s.fds f') f := by
  rintro ⟨n, hn⟩
  rcases mem_openOn.mp hn with heq | hm
  · exact hne (Prod.mk.inj heq).2
  · exact h ⟨n, hm⟩

theorem Hidden.openDn (h : Hidden s) : Hidden s.openDn := by
  unfold State.openDn
  split
  · exact ⟨h.child, h.stale, not_holds_openOn (by decide) h.up⟩
  · exact h

/-- **A second start is hidden.** `fdup` is not −1, so that `supervise/up` is not opened. -/
theorem started_hidden {how : How} {pid : Nat} (hp : pid ≠ 0) (hs : s.fdup ≠ none)
    (hu : ¬ Holds s.fds .up) : Hidden (started c how pid s) := by
  have h : Hidden (State.announce
      { s with
        flagpaused := false
        childpid := pid
        status := pidchange pid 1 s.status
        children := pid :: s.children
        log := .started pid how :: s.log }) := ⟨hp, hs, hu⟩
  unfold started
  rw [h.openUp]
  dsimp only
  split
  · exact h.closeDn
  · exact h

theorem Sound.not_up (h : Sound c down s) (hp : s.childpid = 0) : ¬ Holds s.fds .up := by
  rintro ⟨n, hn⟩
  exact (h.upOnly n hn).1 hp

/-- Before the first start nothing was collected. -/
theorem Sound.unreaped (h : Sound c down s) (hf : s.fdup = none) :
    s.log.any Event.isReap = false := by
  cases hr : s.log.any Event.isReap with
  | false => rfl
  | true => exact absurd hf (h.again.mp hr).2

/-- **The first start** opens `supervise/up` and closes `supervise/dn`. -/
theorem Sound.started (h : Sound c down s) (hone : c.flagoneshot = false) {how : How} {pid : Nat}
    (hf : s.fresh c pid = true) (hp : s.childpid = 0) (hup : s.fdup = none) :
    Sound c down (started c how pid s) := by
  obtain ⟨hpid, hsmall, -⟩ := fresh_spec hf
  have hch : s.children = [] := by rw [h.children, if_pos hp]
  have hno : ∀ n, (n, File.up) ∉ s.fds := fun n hn => h.not_up hp ⟨n, hn⟩
  have hreap := h.unreaped hup
  have hlow : ∀ m, (m, File.dn) ∈ openOn s.fds .up ↔ s.fddn = some m := by
    intro m
    rw [mem_openOn, ← h.dn m]
    simp
  unfold Supervise.started State.openUp State.announce
  simp only [hup, hone, if_true, Bool.not_false, Bool.true_or]
  unfold State.closeDn
  cases hdn : s.fddn with
  | none =>
      rw [if_pos rfl]
      constructor
      case children => simp [hpid, hch]
      case small => exact hsmall
      case nodup => exact nodup_openOn h.nodup
      case upOpen => exact fun _ => ⟨_, rfl, mem_openOn.mpr (Or.inl rfl)⟩
      case upOnly =>
        intro n hn
        rcases mem_openOn.mp hn with heq | hm
        · exact ⟨hpid, by rw [(Prod.mk.inj heq).1]⟩
        · exact absurd hm (hno n)
      case dn =>
        intro m
        rw [← hdn]
        exact hlow m
      case first => simp [Event.isStart]
      case again => simp [Event.isReap, hreap, hpid]
      case status => simp [pidchange, hpid]
      case file => rfl
      case want => exact h.want
      case failed => exact h.failed
      case exit => exact h.exit.trans (by simp [Event.isExit])
      case down => simp [downed]
      case undown => exact fun _ _ => rfl
      case closed => simpa using h.closed
      case await => simp [awaiting]
  | some n =>
      rw [if_neg (by simp)]
      have hmem : (n, File.dn) ∈ openOn s.fds .up := (hlow n).mpr hdn
      have hne : lowest s.fds ≠ n := by
        rintro rfl
        exact lowest_free s.fds (mem_numbers ((h.dn _).mpr hdn))
      constructor
      case children => simp [hpid, hch, State.closeFd]
      case small => exact hsmall
      case nodup => exact nodup_close (nodup_openOn h.nodup)
      case upOpen => exact fun _ => ⟨_, rfl, mem_close.mpr ⟨mem_openOn.mpr (Or.inl rfl), hne⟩⟩
      case upOnly =>
        intro m hm
        rcases mem_openOn.mp (mem_close.mp hm).1 with heq | hm
        · exact ⟨hpid, by rw [(Prod.mk.inj heq).1]; rfl⟩
        · exact absurd hm (hno m)
      case dn =>
        intro m
        constructor
        · intro hm
          obtain ⟨hm, hmn⟩ := mem_close.mp hm
          rw [hlow m, hdn, Option.some.injEq] at hm
          exact absurd hm.symm hmn
        · intro hm
          cases hm
      case first => simp [State.closeFd, Event.isStart]
      case again => simp [State.closeFd, Event.isReap, hreap, hpid]
      case status => simp [State.closeFd, pidchange, hpid]
      case file => rfl
      case want => exact h.want
      case failed => exact h.failed
      case exit => exact h.exit.trans (by simp [State.closeFd, Event.isExit])
      case down => simp [State.closeFd, downed]
      case undown => exact fun _ _ => rfl
      case closed =>
        intro file hmem'
        simp only [State.closeFd, List.mem_cons, Event.closed.injEq, hmem, decide_true,
          Bool.false_eq_true, and_false, false_or, reduceCtorEq] at hmem'
        exact h.closed file hmem'
      case await => simp [State.closeFd, awaiting]

/-! ## Death -/

/-- The state after the exit of the service was collected and announced. -/
def buried (c : Config) (l : List Nat) (s : State) : State :=
  State.announce <| State.closeFd s.fdup .up
    { s with
      childpid := 0
      status := pidchange c.svpid 0 s.status
      children := []
      scripts := l
      log := .reaped s.childpid :: s.log }

theorem Sound.buried_up (h : Sound c down s) (hp : s.childpid ≠ 0) {l : List Nat} :
    (buried c l s).childpid = 0 ∧ (buried c l s).fdup ≠ none ∧
      ¬ Holds (buried c l s).fds .up := by
  obtain ⟨n, hn, hmem⟩ := h.upOpen hp
  unfold buried State.closeFd State.announce
  simp only [hn]
  refine ⟨trivial, by simp, ?_⟩
  rintro ⟨m, hm⟩
  obtain ⟨hm, hmn⟩ := mem_close.mp hm
  have hm' := (h.upOnly m hm).2
  rw [hn, Option.some.injEq] at hm'
  exact hmn hm'.symm

/-- **An exit is shown**: `supervise/up` is closed, and the status has no child. -/
theorem Sound.buried (h : Sound c down s) (hp : s.childpid ≠ 0)
    (hw : (s.flagwantxx && s.flagwantup) = false) (l : List Nat) :
    Sound c down (buried c l s) := by
  obtain ⟨n, hn, hmem⟩ := h.upOpen hp
  obtain ⟨-, -, hno⟩ := h.buried_up hp (l := l)
  unfold Supervise.buried State.closeFd State.announce at hno ⊢
  simp only [hn] at hno ⊢
  constructor
  case children => rfl
  case small => exact Nat.zero_lt_of_lt h.small
  case nodup => exact nodup_close h.nodup
  case upOpen => exact fun h0 => absurd rfl h0
  case upOnly => exact fun m hm => absurd ⟨m, hm⟩ hno
  case dn =>
    intro m
    constructor
    · intro hm
      exact (h.dn m).mp (mem_close.mp hm).1
    · intro hm
      have hm' := (h.dn m).mpr hm
      refine mem_close.mpr ⟨hm', ?_⟩
      rintro rfl
      exact absurd (eq_of_mem h.nodup hm' hmem) (by decide)
  case first =>
    have hf := h.first
    rw [hn] at hf
    simpa [Event.isStart] using hf
  case again => simp [Event.isReap]
  case status => simp [pidchange]
  case file => rfl
  case want => exact h.want
  case failed => exact h.failed
  case exit => exact h.exit.trans (by simp [Event.isExit])
  case down => exact h.down
  case undown =>
    intro hs hd
    exact h.undown (by simpa [Event.isStart] using hs) hd
  case closed =>
    intro file hm
    simp only [List.mem_cons, Event.closed.injEq, hmem, decide_true, Bool.false_eq_true,
      and_false, false_or, reduceCtorEq] at hm
    exact h.closed file hm
  case await => exact fun _ => hw

theorem died_eq {p : Nat} (hp : s.children = [p]) (hs : s.childpid = p)
    (h : died c i { s with children := s.children.erase p, log := .reaped p :: s.log } = some t) :
    ∃ l, (s.flagexit = true → t = { buried c l s with returned := true }) ∧
      (s.flagexit = false → autostart c i (buried c l s) = some t) := by
  subst hs
  unfold died at h
  obtain ⟨u, hu, h⟩ := Option.bind_eq_some_iff.mp h
  have hl : ∃ l, u = { s with
      children := []
      scripts := l
      log := .reaped s.childpid :: s.log } := by
    have he : s.children.erase s.childpid = [] := by rw [hp]; simp
    rw [he] at hu
    unfold postmortem at hu
    split at hu
    · cases hu
      exact ⟨_, rfl⟩
    · obtain ⟨l, rfl⟩ := tryaction_childless rfl hu
      exact ⟨l, rfl⟩
  obtain ⟨l, rfl⟩ := hl
  refine ⟨l, ?_⟩
  have hb : State.announce (State.closeFd s.fdup .up
      { s with
        childpid := 0
        status := pidchange c.svpid 0 s.status
        children := []
        scripts := l
        log := .reaped s.childpid :: s.log }) = buried c l s := rfl
  have hx : (buried c l s).flagexit = s.flagexit := by
    unfold buried State.closeFd State.announce
    split <;> rfl
  dsimp only at h
  rw [hb, hx] at h
  split at h
  · rename_i hexit
    refine ⟨fun _ => ?_, fun hno => absurd hexit (by simp [hno])⟩
    have hret := (Option.some.inj h).symm
    rw [← hx] at hret
    exact hret
  · rename_i hexit
    exact ⟨fun hyes => absurd hyes hexit, fun _ => h⟩

theorem collect_script {pid : Nat} (hp : pid ∉ s.children) (h : s.collect pid = some t) :
    pid ≠ 0 ∧ ∃ l, t = { s with scripts := l } := by
  unfold State.collect at h
  split at h
  · cases h
  rename_i h0
  split at h
  · cases h
    exact ⟨h0, _, rfl⟩
  · cases h

theorem collect_child {pid : Nat} (hp : pid ∈ s.children) (h : s.collect pid = some t) :
    t = { s with children := s.children.erase pid, log := .reaped pid :: s.log } := by
  unfold State.collect at h
  split at h
  · cases h
  · exact (Option.some.inj h).symm

/-- The loop over `waitpid` as far as the exit of the service. -/
theorem waits_cases {ws : List WaitResult}
    (hc : s.children = if s.childpid = 0 then [] else [s.childpid])
    (h : waits c i ws s = some t) :
    ∃ l, (dies s.childpid ws = false → t = { s with scripts := l }) ∧
      (dies s.childpid ws = true → s.childpid ≠ 0 ∧
        died c i { s with
          scripts := l
          children := s.children.erase s.childpid
          log := .reaped s.childpid :: s.log } = some t) := by
  induction ws generalizing s with
  | nil => exact ⟨s.scripts, fun _ => (Option.some.inj h).symm, fun hd => by cases hd⟩
  | cons w ws ih =>
      cases w with
      | nothing => exact ⟨s.scripts, fun _ => (Option.some.inj h).symm, fun hd => by cases hd⟩
      | error => exact ⟨s.scripts, fun _ => (Option.some.inj h).symm, fun hd => by cases hd⟩
      | intr => exact ih hc h
      | changed pid =>
          unfold waits at h
          split at h
          · exact ⟨s.scripts, fun _ => (Option.some.inj h).symm, fun hd => by cases hd⟩
          · cases h
      | exited pid =>
          unfold waits at h
          obtain ⟨u, hu, h⟩ := Option.bind_eq_some_iff.mp h
          by_cases hp : pid = s.childpid
          · subst hp
            rw [if_pos rfl] at h
            have h0 : s.childpid ≠ 0 := by
              intro h0
              unfold State.collect at hu
              rw [if_pos h0] at hu
              cases hu
            have hmem : s.childpid ∈ s.children := by rw [hc, if_neg h0]; simp
            rw [collect_child hmem hu] at h
            exact ⟨s.scripts, fun hd => by simp [dies] at hd, fun _ => ⟨h0, h⟩⟩
          · rw [if_neg hp] at h
            have hno : pid ∉ s.children := by
              rw [hc]
              split
              · simp
              · simpa using hp
            obtain ⟨-, l, rfl⟩ := collect_script hno hu
            obtain ⟨l', h1, h2⟩ := @ih { s with scripts := l } hc h
            have hd : dies s.childpid (.exited pid :: ws) = dies s.childpid ws := by
              simp [dies, hp]
            rw [hd]
            exact ⟨l', h1, h2⟩

/-! ## Commands -/

theorem reaped_of_awaiting {es : List Event} (h : awaiting es = true) :
    es.any Event.isReap = true := by
  induction es with
  | nil => cases h
  | cons e es ih =>
      cases e with
      | reaped pid => simp [Event.isReap]
      | started pid how => simp [awaiting] at h
      | byte cmd pid => simpa [Event.isReap] using ih h
      | closed file live => simpa [Event.isReap] using ih h

/-- The history after a command has the same starts, exits and closes. -/
theorem Sound.record (h : Sound c down s) (cmd : Command) (x u p e : Bool)
    (fds : Table File) (fddn : Option Nat)
    (hw : wantByte x u = wanted down (lastCommand (.byte cmd s.childpid :: s.log)))
    (he : e = (s.flagexit || Event.isExit (.byte cmd s.childpid)))
    (ha : s.log.any Event.isReap = true → (x && u) = (s.flagwantxx && s.flagwantup) ∨
      (x && u) = false)
    (hn : (numbers fds).Nodup) (hup : ∀ n, (n, .up) ∈ fds ↔ (n, .up) ∈ s.fds)
    (hdn : ∀ n, (n, .dn) ∈ fds ↔ fddn = some n)
    (hd : downed (.byte cmd s.childpid :: s.log) = true → fddn ≠ none)
    (hu : s.log.any Event.isStart = true → downed (.byte cmd s.childpid :: s.log) = false →
      fddn = none) :
    Sound c down (State.announce
      { s with
        flagwantxx := x
        flagwantup := u
        flagpaused := p
        flagexit := e
        fds := fds
        fddn := fddn
        log := .byte cmd s.childpid :: s.log }) where
  children := h.children
  small := h.small
  nodup := hn
  upOpen hp := by
    obtain ⟨n, hs, hm⟩ := h.upOpen hp
    exact ⟨n, hs, (hup n).mpr hm⟩
  upOnly n hm := h.upOnly n ((hup n).mp hm)
  dn := hdn
  first := h.first
  again := h.again
  status := by
    unfold State.announce
    rw [h.status]
  file := rfl
  want := hw
  failed := h.failed
  exit := by
    rw [State.announce, he, h.exit, Bool.or_comm]
    rfl
  down := hd
  undown := hu
  closed file hm := by
    rcases List.mem_cons.mp hm with heq | hm
    · cases heq
    · exact h.closed file hm
  await haw := by
    rcases ha (reaped_of_awaiting haw) with heq | hno
    · exact heq.trans (h.await haw)
    · exact hno

/-- A command that leaves the descriptors alone. -/
theorem Sound.recordSame (h : Sound c down s) (cmd : Command) (x u p e : Bool)
    (hw : wantByte x u = wanted down (lastCommand (.byte cmd s.childpid :: s.log)))
    (he : e = (s.flagexit || Event.isExit (.byte cmd s.childpid)))
    (ha : s.log.any Event.isReap = true → (x && u) = (s.flagwantxx && s.flagwantup) ∨
      (x && u) = false)
    (hd : cmd = .down → s.childpid = 0) :
    Sound c down (State.announce
      { s with
        flagwantxx := x
        flagwantup := u
        flagpaused := p
        flagexit := e
        log := .byte cmd s.childpid :: s.log }) := by
  have hsame : downed (.byte cmd s.childpid :: s.log) = downed s.log := by
    by_cases hcmd : cmd = .down
    · simp [downed, hd hcmd]
    · simp [downed, hcmd]
  refine h.record cmd x u p e s.fds s.fddn hw he ha h.nodup (fun _ => Iff.rfl) h.dn ?_ ?_
  · rw [hsame]
    exact h.down
  · rw [hsame]
    exact h.undown

/-- A command that changes none of the flags is recorded, and nothing else. -/
theorem Sound.note (h : Sound c down s) {cmd : Command}
    (hc : cmd ∉ [.up, .once, .down, .restart, .exit]) :
    Sound c down { s with log := .byte cmd s.childpid :: s.log } := by
  simp only [List.mem_cons, List.not_mem_nil, or_false, not_or] at hc
  have hr := h.recordSame cmd s.flagwantxx s.flagwantup s.flagpaused s.flagexit
    (by rw [h.want]; simp [lastCommand, hc]) (by cases cmd <;> simp_all [Event.isExit])
    (fun _ => Or.inl rfl) (fun hd => absurd hd hc.2.2.1)
  have he : State.announce { s with log := .byte cmd s.childpid :: s.log }
      = { s with log := .byte cmd s.childpid :: s.log } := by
    unfold State.announce
    rw [h.file, h.status]
  rw [← he]
  exact hr

theorem Sound.signalChild (h : Sound c down s) (sig : Int) :
    Sound c down (signalChild sig s) := by
  unfold Supervise.signalChild
  split
  · exact h.same _ _ _ _
  · exact h

/-- The end of the service is asked for, and its exit is left to the loop over `waitpid`. -/
theorem shutdownChild_eq (h : shutdownChild c i s = some t) (hs : s.children = [s.childpid])
    (hseen : i.shutdown.present = true → i.shutdown.fork ≠ none →
      i.shutdown.nohang ≠ some s.childpid) :
    ∃ l k, t = { s with scripts := l, kills := k, g := false, flagpaused := false } := by
  unfold shutdownChild at h
  obtain ⟨u, hu, rfl⟩ := Option.map_eq_some_iff.mp h
  rcases tryaction_cases hu with ⟨l, rfl⟩ | ⟨l, r, hr, hp, hf, hn, -⟩
  · exact ⟨l, _, rfl⟩
  · rw [hs, List.mem_singleton] at hr
    exact absurd (hr ▸ hn) (hseen hp hf)

theorem Sound.unstarted (h : Sound c down s) (hp : s.childpid = 0)
    (hr : s.log.any Event.isReap = false) : s.fdup = none := by
  by_contra hf
  rw [h.again.mpr ⟨hp, hf⟩] at hr
  cases hr

/-- A start that a command asks for is the first. -/
theorem Sound.trystart (h : Sound c down s) (hone : c.flagoneshot = false) {how : How}
    {fork : Option Nat} (hf : fork ≠ none) (hp : s.childpid = 0) (hup : s.fdup = none)
    (ht : trystart c how fork s = some t) : Sound c down t ∧ t.returned = s.returned := by
  obtain ⟨pid, rfl⟩ := Option.ne_none_iff_exists'.mp hf
  obtain ⟨hfresh, rfl⟩ := trystart_some ht
  exact ⟨h.started hone hfresh hp hup, by simp⟩

/-- **A command keeps what is shown** unless it asks for a second start, or collects the exit. -/
theorem Sound.obey (h : Sound c down s) (hone : c.flagoneshot = false) (hf : i.ForksSucceed)
    {cmd : Command} (honce : s.log.any Event.isReap = true → cmd ∉ [.up, .once, .restart])
    (hseen : s.childpid ≠ 0 → cmd ∈ [.down, .restart] → i.shutdown.present = true →
      i.shutdown.fork ≠ none → i.shutdown.nohang ≠ some s.childpid)
    (ho : obey c i { s with log := .byte cmd s.childpid :: s.log } cmd = some t) :
    Sound c down t ∧ t.returned = s.returned := by
  have hfirst : cmd ∈ [.up, .once, .restart] → s.childpid = 0 → s.fdup = none := by
    intro hmem hp
    apply h.unstarted hp
    cases hr : s.log.any Event.isReap with
    | false => rfl
    | true => exact absurd hmem (honce hr)
  have hrun : s.childpid ≠ 0 → s.children = [s.childpid] := fun hp => by
    rw [h.children, if_neg hp]
  cases cmd with
  | group =>
      cases ho
      exact ⟨(h.note (by decide)).same _ _ true _, rfl⟩
  | unknown =>
      cases ho
      exact ⟨h.note (by decide), rfl⟩
  | signal sig =>
      cases ho
      refine ⟨(h.note (by simp)).signalChild sig, ?_⟩
      unfold Supervise.signalChild
      split <;> rfl
  | pause =>
      cases ho
      have hr := h.recordSame .pause s.flagwantxx s.flagwantup true s.flagexit h.want
        (by simp [Event.isExit]) (fun _ => Or.inl rfl) nofun
      refine ⟨hr.signalChild SIGSTOP, ?_⟩
      unfold Supervise.signalChild
      split <;> rfl
  | cont =>
      cases ho
      have hr := h.recordSame .cont s.flagwantxx s.flagwantup false s.flagexit h.want
        (by simp [Event.isExit]) (fun _ => Or.inl rfl) nofun
      refine ⟨hr.signalChild SIGCONT, ?_⟩
      unfold Supervise.signalChild
      split <;> rfl
  | exit =>
      cases ho
      exact ⟨h.recordSame .exit s.flagwantxx s.flagwantup s.flagpaused true h.want
        (by simp [Event.isExit]) (fun _ => Or.inl rfl) nofun, rfl⟩
  | up =>
      have hr := h.recordSame .up true true s.flagpaused s.flagexit rfl (by simp [Event.isExit])
        (fun hreap => absurd (by simp) (honce hreap)) nofun
      unfold Supervise.obey at ho
      dsimp only at ho
      split at ho
      · cases ho
        exact ⟨hr, rfl⟩
      · rename_i hp
        have hp0 : s.childpid = 0 := by simpa [State.announce] using hp
        exact hr.trystart hone hf.2.2 hp0 (hfirst (by simp) hp0) ho
  | once =>
      have hr := h.recordSame .once false s.flagwantup s.flagpaused s.flagexit rfl
        (by simp [Event.isExit]) (fun _ => Or.inr rfl) nofun
      unfold Supervise.obey at ho
      dsimp only at ho
      split at ho
      · cases ho
        exact ⟨hr, rfl⟩
      · rename_i hp
        have hp0 : s.childpid = 0 := by simpa [State.announce] using hp
        exact hr.trystart hone hf.2.2 hp0 (hfirst (by simp) hp0) ho
  | restart =>
      unfold Supervise.obey at ho
      dsimp only at ho
      split at ho
      · rename_i hp
        obtain ⟨u, hu, rfl⟩ := Option.map_eq_some_iff.mp ho
        obtain ⟨l, k, rfl⟩ := shutdownChild_eq hu (hrun hp) (hseen hp (by simp))
        have hr := h.recordSame .restart true true false s.flagexit rfl (by simp [Event.isExit])
          (fun hreap => absurd (by simp) (honce hreap)) nofun
        exact ⟨hr.same l k false true, rfl⟩
      · rename_i hp
        have hp0 : s.childpid = 0 := by simpa using hp
        have hr := h.recordSame .restart true true s.flagpaused s.flagexit rfl
          (by simp [Event.isExit]) (fun hreap => absurd (by simp) (honce hreap)) nofun
        exact hr.trystart hone hf.2.2 hp0 (hfirst (by simp) hp0) ho
  | down =>
      unfold Supervise.obey at ho
      dsimp only at ho
      split at ho
      · rename_i hp
        obtain ⟨u, hu, rfl⟩ := Option.map_eq_some_iff.mp ho
        obtain ⟨l, k, rfl⟩ := shutdownChild_eq hu (hrun hp) (hseen hp (by simp))
        have hno : s.log.any Event.isReap = true → (true && false) =
            (s.flagwantxx && s.flagwantup) ∨ (true && false) = false := fun _ => Or.inr rfl
        unfold State.openDn
        split
        · rename_i hd
          have hd : s.fddn = none := hd
          have hr := h.record .down true false false s.flagexit (openOn s.fds .dn)
            (some (lowest s.fds)) rfl (by simp [Event.isExit]) hno (nodup_openOn h.nodup)
            (fun n => by rw [mem_openOn]; simp)
            (fun n => by
              rw [mem_openOn, h.dn n, hd]
              simp [eq_comm])
            (fun _ => by simp) (by simp [downed, hp])
          exact ⟨hr.same l k false _, rfl⟩
        · rename_i hd
          have hr := h.record .down true false false s.flagexit s.fds s.fddn rfl
            (by simp [Event.isExit]) hno h.nodup (fun _ => Iff.rfl) h.dn (fun _ => hd)
            (by simp [downed, hp])
          exact ⟨hr.same l k false _, rfl⟩
      · rename_i hp
        have hp0 : s.childpid = 0 := by simpa using hp
        cases ho
        exact ⟨h.recordSame .down true false s.flagpaused s.flagexit rfl (by simp [Event.isExit])
          (fun _ => Or.inr rfl) (fun _ => hp0), rfl⟩

/-! ## What a second start hides stays hidden -/

theorem tryaction_returned {a : Script} {w : Bool} (h : tryaction c a w s = some t) :
    t.childpid = s.childpid ∧ t.fdup = s.fdup ∧ t.fds = s.fds ∧ t.returned = s.returned := by
  rcases tryaction_cases h with ⟨l, rfl⟩ | ⟨l, r, -, -, -, -, rfl⟩ <;> exact ⟨rfl, rfl, rfl, rfl⟩

theorem shutdownChild_returned (h : shutdownChild c i s = some t) :
    t.childpid = s.childpid ∧ t.fdup = s.fdup ∧ t.fds = s.fds ∧ t.returned = s.returned := by
  unfold shutdownChild at h
  obtain ⟨u, hu, rfl⟩ := Option.map_eq_some_iff.mp h
  have he := tryaction_returned hu
  exact he

theorem Hidden.of_eq (h : Hidden s)
    (he : t.childpid = s.childpid ∧ t.fdup = s.fdup ∧ t.fds = s.fds ∧ t.returned = s.returned) :
    Hidden t :=
  ⟨by rw [he.1]; exact h.child, by rw [he.2.1]; exact h.stale, by rw [he.2.2.1]; exact h.up⟩

theorem Hidden.trystart (h : Hidden s) {how : How} {fork : Option Nat}
    (ht : trystart c how fork s = some t) : Hidden t ∧ t.returned = s.returned := by
  cases fork with
  | none =>
      cases ht
      exact ⟨h.of_eq ⟨rfl, rfl, rfl, rfl⟩, rfl⟩
  | some pid =>
      obtain ⟨hf, rfl⟩ := trystart_some ht
      exact ⟨started_hidden (fresh_spec hf).1 h.stale h.up, by simp⟩

theorem Hidden.retry (h : Hidden s) (ht : retry c i s = some t) :
    Hidden t ∧ t.returned = s.returned := by
  unfold Supervise.retry at ht
  split at ht
  · exact (h.of_eq (t := { s with flagfailed := false }) ⟨rfl, rfl, rfl, rfl⟩).trystart ht
  · cases ht
    exact ⟨h, rfl⟩

theorem Hidden.signalChild (h : Hidden s) (sig : Int) :
    Hidden (signalChild sig s) ∧ (signalChild sig s).returned = s.returned := by
  unfold Supervise.signalChild
  split
  · exact ⟨h.of_eq ⟨rfl, rfl, rfl, rfl⟩, rfl⟩
  · exact ⟨h, rfl⟩

theorem Hidden.obey (h : Hidden s) {cmd : Command} (ho : obey c i s cmd = some t) :
    Hidden t ∧ t.returned = s.returned := by
  have hkeep : ∀ x u p e, Hidden (State.announce
      { s with flagwantxx := x, flagwantup := u, flagpaused := p, flagexit := e }) :=
    fun _ _ _ _ => h.of_eq ⟨rfl, rfl, rfl, rfl⟩
  have hp : s.childpid ≠ 0 := h.child
  cases cmd with
  | group =>
      cases ho
      exact ⟨h.of_eq ⟨rfl, rfl, rfl, rfl⟩, rfl⟩
  | unknown =>
      cases ho
      exact ⟨h, rfl⟩
  | signal sig =>
      cases ho
      exact h.signalChild sig
  | pause =>
      cases ho
      exact (hkeep s.flagwantxx s.flagwantup true s.flagexit).signalChild SIGSTOP
  | cont =>
      cases ho
      exact (hkeep s.flagwantxx s.flagwantup false s.flagexit).signalChild SIGCONT
  | exit =>
      cases ho
      exact ⟨hkeep s.flagwantxx s.flagwantup s.flagpaused true, rfl⟩
  | up =>
      unfold Supervise.obey at ho
      dsimp only at ho
      split at ho
      · cases ho
        exact ⟨hkeep true true s.flagpaused s.flagexit, rfl⟩
      · rename_i hno
        exact absurd hp hno
  | once =>
      unfold Supervise.obey at ho
      dsimp only at ho
      split at ho
      · cases ho
        exact ⟨hkeep false s.flagwantup s.flagpaused s.flagexit, rfl⟩
      · rename_i hno
        exact absurd hp hno
  | restart =>
      unfold Supervise.obey at ho
      dsimp only at ho
      rw [if_pos hp] at ho
      obtain ⟨u, hu, rfl⟩ := Option.map_eq_some_iff.mp ho
      have he := shutdownChild_returned hu
      exact ⟨h.of_eq he, he.2.2.2⟩
  | down =>
      unfold Supervise.obey at ho
      dsimp only at ho
      rw [if_pos hp] at ho
      obtain ⟨u, hu, rfl⟩ := Option.map_eq_some_iff.mp ho
      have he := shutdownChild_returned hu
      exact ⟨(h.of_eq he).openDn.announce, by simpa using he.2.2.2⟩

theorem Hidden.control (h : Hidden s) (ho : control c i s = some t) :
    Hidden t ∧ t.returned = s.returned := by
  unfold Supervise.control at ho
  split at ho
  · cases ho
    exact ⟨h, rfl⟩
  · rename_i ch hb
    have hlog : Hidden { s with log := .byte (command ch) s.childpid :: s.log } :=
      h.of_eq ⟨rfl, rfl, rfl, rfl⟩
    exact hlog.obey ho

/-- **A command that starts the service again hides it.** -/
theorem obey_hidden {cmd : Command} (ho : obey c i s cmd = some t)
    (hc : cmd ∈ [.up, .once, .restart]) (hf : i.ForksSucceed) (hp : s.childpid = 0)
    (hs : s.fdup ≠ none) (hu : ¬ Holds s.fds .up) : Hidden t ∧ t.returned = s.returned := by
  obtain ⟨pid, hstart⟩ := Option.ne_none_iff_exists'.mp hf.2.2
  have hgo : ∀ {u : State} {how : How}, Supervise.trystart c how i.start u = some t →
      u.fdup = s.fdup → u.fds = s.fds → u.returned = s.returned →
      Hidden t ∧ t.returned = s.returned := by
    intro u how ht h1 h2 h3
    rw [hstart] at ht
    obtain ⟨hfresh, rfl⟩ := trystart_some ht
    exact ⟨started_hidden (fresh_spec hfresh).1 (by rw [h1]; exact hs) (by rw [h2]; exact hu),
      by simp [h3]⟩
  simp only [List.mem_cons, List.not_mem_nil, or_false] at hc
  rcases hc with rfl | rfl | rfl
  · unfold Supervise.obey at ho
    dsimp only at ho
    rw [if_neg (by simpa [State.announce] using hp)] at ho
    exact hgo ho rfl rfl rfl
  · unfold Supervise.obey at ho
    dsimp only at ho
    rw [if_neg (by simpa [State.announce] using hp)] at ho
    exact hgo ho rfl rfl rfl
  · unfold Supervise.obey at ho
    dsimp only at ho
    rw [if_neg (by simpa using hp)] at ho
    exact hgo ho rfl rfl rfl

theorem Hidden.top (h : Hidden s) : s.top = s := by
  unfold State.top
  rw [if_neg (by simp [h.child])]

/-- A service whose exit `wait_nohang` took is taken to run. -/
theorem obey_orphan {cmd : Command} (ho : obey c i s cmd = some t)
    (hc : cmd ∈ [.down, .restart]) (hs : s.children = [s.childpid]) (hp : s.childpid ≠ 0)
    (ha : i.shutdown.present = true) (hf : i.shutdown.fork ≠ none)
    (hn : i.shutdown.nohang = some s.childpid) :
    t.children = [] ∧ t.childpid ≠ 0 ∧ t.returned = s.returned := by
  have hgone : ∀ {u v : State}, shutdownChild c i u = some v → u.children = s.children →
      u.childpid = s.childpid →
      v.children = [] ∧ v.childpid = s.childpid ∧ v.returned = u.returned := by
    intro u v hv h1 h2
    unfold shutdownChild at hv
    obtain ⟨w, hw, rfl⟩ := Option.map_eq_some_iff.mp hv
    obtain ⟨pid, hpid⟩ := Option.ne_none_iff_exists'.mp hf
    unfold tryaction at hw
    simp only [ha, hpid, hn, Bool.not_true, Bool.false_eq_true, if_false] at hw
    split at hw
    · cases hw
    unfold State.collect at hw
    rw [if_neg hp] at hw
    simp only [h1, hs, List.mem_singleton, if_true, Option.some.injEq] at hw
    subst hw
    exact ⟨by simp [State.doKill], h2, rfl⟩
  simp only [List.mem_cons, List.not_mem_nil, or_false] at hc
  rcases hc with rfl | rfl
  · unfold Supervise.obey at ho
    dsimp only at ho
    rw [if_pos hp] at ho
    obtain ⟨u, hu, rfl⟩ := Option.map_eq_some_iff.mp ho
    obtain ⟨h1, h2, h3⟩ := hgone hu rfl rfl
    unfold State.openDn
    split
    · exact ⟨h1, fun h0 => hp (h2.symm.trans h0), h3⟩
    · exact ⟨h1, fun h0 => hp (h2.symm.trans h0), h3⟩
  · unfold Supervise.obey at ho
    dsimp only at ho
    rw [if_pos hp] at ho
    obtain ⟨u, hu, rfl⟩ := Option.map_eq_some_iff.mp ho
    obtain ⟨h1, h2, h3⟩ := hgone hu rfl rfl
    exact ⟨h1, fun h0 => hp (h2.symm.trans h0), h3⟩

/-! ## One round -/

theorem Sound.retry (h : Sound c down s) : retry c i s = some s := by
  unfold Supervise.retry
  rw [h.failed]
  rfl

/-- What is left of a round after the loop over `waitpid`. -/
theorem round_rest (h : Sound c down s) (hret : s.returned = false)
    (hr : (if s.returned then some s
      else (retry c i s).bind fun s => (control c i s).map State.top) = some t) :
    ∃ u, control c i s = some u ∧ t = u.top := by
  rw [if_neg (by simp [hret]), h.retry, Option.bind_some] at hr
  obtain ⟨u, hu, rfl⟩ := Option.map_eq_some_iff.mp hr
  exact ⟨u, hu, rfl⟩

theorem Sound.control (h : Sound c down s) (hone : c.flagoneshot = false) (hf : i.ForksSucceed)
    (honce : s.log.any Event.isReap = true →
      ∀ ch, i.byte = some ch → command ch ∉ [.up, .once, .restart])
    (hseen : s.childpid ≠ 0 → ∀ ch, i.byte = some ch → command ch ∈ [.down, .restart] →
      i.shutdown.present = true → i.shutdown.fork ≠ none → i.shutdown.nohang ≠ some s.childpid)
    (ho : control c i s = some t) : Sound c down t ∧ t.returned = s.returned := by
  unfold Supervise.control at ho
  split at ho
  · cases ho
    exact ⟨h, rfl⟩
  · rename_i ch hb
    exact h.obey hone hf (fun hr => honce hr ch hb) (fun hp => hseen hp ch hb) ho

theorem Sound.top (h : Sound c down s) : s.top.returned = true ∨ Sound c down s.top := by
  unfold State.top
  split
  · exact Or.inl rfl
  · exact Or.inr h

theorem buried_flags (l : List Nat) :
    (buried c l s).flagwantxx = s.flagwantxx ∧ (buried c l s).flagwantup = s.flagwantup ∧
      (buried c l s).returned = s.returned ∧
      (buried c l s).log.any Event.isReap = true := by
  unfold buried State.closeFd State.announce
  split <;> exact ⟨rfl, rfl, rfl, by simp [Event.isReap]⟩

/-- **A round keeps what is shown** where no second start is made. -/
theorem Sound.round (h : Sound c down s) (hone : c.flagoneshot = false) (hf : i.ForksSucceed)
    (hret : s.returned = false) (hm : Single s i) (hr : round c i s = some t) :
    t.returned = true ∨ Sound c down t := by
  unfold Supervise.round at hr
  obtain ⟨u, hu, hr⟩ := Option.bind_eq_some_iff.mp hr
  obtain ⟨l, halive, hdead⟩ := waits_cases h.children hu
  cases hd : dies s.childpid i.waits with
  | false =>
      obtain rfl := halive hd
      have hs := h.same l s.kills s.g s.flagrestart
      obtain ⟨v, hv, rfl⟩ := round_rest hs hret hr
      exact (hs.control hone hf (fun hreap => hm.once (Or.inl hreap))
        (fun hp => hm.seen hp hd) hv).1.top
  | true =>
      obtain ⟨hp, hdied⟩ := hdead hd
      obtain ⟨m, hexit, hstay⟩ := died_eq (s := { s with scripts := l })
        (by rw [h.children, if_neg hp]) rfl hdied
      cases hx : s.flagexit with
      | true =>
          obtain rfl := hexit hx
          rw [if_pos rfl, Option.some.injEq] at hr
          exact Or.inl (by rw [← hr])
      | false =>
          have hw := hm.stays hd hx
          have hb := (h.same l s.kills s.g s.flagrestart).buried hp hw m
          obtain ⟨hxx, hup, hrt, hreap⟩ := buried_flags (c := c) (s := { s with scripts := l }) m
          have hauto := hstay hx
          unfold autostart at hauto
          rw [hxx, hup, if_neg (by simp [hw]), Option.some.injEq] at hauto
          subst hauto
          obtain ⟨v, hv, rfl⟩ := round_rest hb (hrt.trans hret) hr
          obtain ⟨h0, -, -⟩ := (h.same l s.kills s.g s.flagrestart).buried_up hp (l := m)
          exact (hb.control hone hf (fun _ => hm.once (Or.inr ⟨hd, hx⟩))
            (fun hp' => absurd h0 hp') hv).1.top

/-- The rest of a round hides what the loop over `waitpid` has hidden. -/
theorem Hidden.rest (h : Hidden s) (hret : s.returned = false)
    (hr : (if s.returned then some s
      else (Supervise.retry c i s).bind fun s =>
        (Supervise.control c i s).map State.top) = some t) :
    Hidden t ∧ t.returned = false := by
  rw [if_neg (by simp [hret])] at hr
  obtain ⟨u, hu, hr⟩ := Option.bind_eq_some_iff.mp hr
  obtain ⟨v, hv, rfl⟩ := Option.map_eq_some_iff.mp hr
  obtain ⟨hu, hur⟩ := h.retry hu
  obtain ⟨hv, hvr⟩ := hu.control hv
  rw [hv.top]
  exact ⟨hv, hvr.trans (hur.trans hret)⟩

/-- The restart on death hides the service. -/
theorem autostart_hidden (hf : i.ForksSucceed) (hw : (s.flagwantxx && s.flagwantup) = true)
    (hs : s.fdup ≠ none) (hu : ¬ Holds s.fds .up) (ha : autostart c i s = some t) :
    Hidden t ∧ t.returned = s.returned := by
  obtain ⟨pid, hstart⟩ := Option.ne_none_iff_exists'.mp hf.1
  unfold autostart at ha
  rw [if_pos hw, hstart] at ha
  split at ha
  · obtain ⟨hfresh, rfl⟩ := trystart_some ha
    exact ⟨started_hidden (fresh_spec hfresh).1 hs hu, by simp⟩
  · obtain ⟨u, hu', ha⟩ := Option.bind_eq_some_iff.mp ha
    obtain ⟨-, h2, h3, h4⟩ := tryaction_returned hu'
    obtain ⟨hfresh, rfl⟩ := trystart_some ha
    exact ⟨started_hidden (fresh_spec hfresh).1 (by rw [h2]; exact hs) (by rw [h3]; exact hu),
      by simp [h4]⟩

/-- **A round that makes a second start, or loses the exit, is seen** at the next `iopause`. -/
theorem not_visible_of_not_single (h : Sound c down s) (hf : i.ForksSucceed)
    (hret : s.returned = false) (hm : ¬ Single s i) (hr : round c i s = some t) :
    t.returned = false ∧ ¬ Visible c down t := by
  have hhid : Hidden t ∧ t.returned = false → t.returned = false ∧ ¬ Visible c down t :=
    fun hh => ⟨hh.2, hh.1.not_visible⟩
  unfold Supervise.round at hr
  obtain ⟨u, hu, hr⟩ := Option.bind_eq_some_iff.mp hr
  obtain ⟨l, halive, hdead⟩ := waits_cases h.children hu
  cases hd : dies s.childpid i.waits with
  | false =>
      obtain rfl := halive hd
      have hs := h.same l s.kills s.g s.flagrestart
      obtain ⟨v, hv, rfl⟩ := round_rest hs hret hr
      unfold Supervise.control at hv
      cases hb : i.byte with
      | none => exact absurd ⟨by simp [hd], by simp [hb], by simp [hb]⟩ hm
      | some ch =>
          rw [hb] at hv
          dsimp only at hv
          by_cases honce : s.log.any Event.isReap = true ∧ command ch ∈ [.up, .once, .restart]
          · obtain ⟨hreap, hc⟩ := honce
            obtain ⟨hp, hstale⟩ := h.again.mp hreap
            obtain ⟨hv', hvr⟩ := obey_hidden hv hc hf hp hstale (h.not_up hp)
            refine hhid ?_
            rw [hv'.top]
            exact ⟨hv', hvr.trans hret⟩
          · -- what is collected behind the shutdown script is the child itself
            have hseen : s.childpid ≠ 0 ∧ command ch ∈ [.down, .restart] ∧
                i.shutdown.present = true ∧ i.shutdown.fork ≠ none ∧
                i.shutdown.nohang = some s.childpid := by
              by_contra hno
              refine hm ⟨by simp [hd], ?_, ?_⟩
              · rintro (hreap | ⟨hd', -⟩) ch' hb' hc
                · rw [hb, Option.some.injEq] at hb'
                  exact honce ⟨hreap, hb' ▸ hc⟩
                · rw [hd] at hd'
                  cases hd'
              · intro hp _ ch' hb' hc ha hfk hn
                rw [hb, Option.some.injEq] at hb'
                exact hno ⟨hp, hb' ▸ hc, ha, hfk, hn⟩
            obtain ⟨hp, hc, ha, hfk, hn⟩ := hseen
            obtain ⟨h1, h2, h3⟩ := obey_orphan hv hc (hs.children.trans (if_neg hp)) hp ha hfk hn
            have htop : v.top = v := by
              unfold State.top
              rw [if_neg (by simp [h2])]
            rw [htop]
            refine ⟨h3.trans hret, fun hvis => ?_⟩
            obtain ⟨pid, hpid⟩ := hvis.child.mp h2
            rw [h1] at hpid
            cases hpid
  | true =>
      obtain ⟨hp, hdied⟩ := hdead hd
      obtain ⟨m, hexit, hstay⟩ := died_eq (s := { s with scripts := l })
        (by rw [h.children, if_neg hp]) rfl hdied
      cases hx : s.flagexit with
      | true =>
          refine absurd ⟨?_, ?_, ?_⟩ hm
          · intro _ hno
            rw [hx] at hno
            cases hno
          · rintro (hreap | ⟨-, hno⟩)
            · exact absurd (h.again.mp hreap).1 hp
            · rw [hx] at hno
              cases hno
          · intro _ hno
            rw [hd] at hno
            cases hno
      | false =>
          have hs := h.same l s.kills s.g s.flagrestart
          obtain ⟨hxx, hup, hrt, hreap⟩ := buried_flags (c := c) (s := { s with scripts := l }) m
          obtain ⟨h0, hstale, hno⟩ := hs.buried_up hp (l := m)
          have hauto := hstay hx
          cases hw : s.flagwantxx && s.flagwantup with
          | true =>
              obtain ⟨hu', hur⟩ := autostart_hidden hf (by rw [hxx, hup]; exact hw) hstale hno hauto
              exact hhid (hu'.rest (hur.trans (hrt.trans hret)) hr)
          | false =>
              have hb := hs.buried hp hw m
              unfold autostart at hauto
              rw [hxx, hup, if_neg (by simp [hw]), Option.some.injEq] at hauto
              subst hauto
              obtain ⟨v, hv, rfl⟩ := round_rest hb (hrt.trans hret) hr
              have hc : ∃ ch, i.byte = some ch ∧ command ch ∈ [.up, .once, .restart] := by
                by_contra hnone
                refine hm ⟨fun _ _ => hw, fun _ ch hb' hc => hnone ⟨ch, hb', hc⟩, ?_⟩
                intro _ hno'
                rw [hd] at hno'
                cases hno'
              obtain ⟨ch, hb', hc⟩ := hc
              unfold Supervise.control at hv
              rw [hb'] at hv
              dsimp only at hv
              obtain ⟨hv', hvr⟩ := obey_hidden hv hc hf h0 hstale hno
              refine hhid ?_
              rw [hv'.top]
              exact ⟨hv', hvr.trans (hrt.trans hret)⟩

/-! ## Runs -/

/-- The descriptors `main` holds before it opens `supervise/dn` or `supervise/up`. -/
structure Plain (fds : Table File) : Prop where
  nodup : (numbers fds).Nodup
  other : ∀ e ∈ fds, e.2 = .other

theorem initial_sound {fds : Table File} (hfds : Plain fds) (hone : c.flagoneshot = false) :
    Sound c down (initial c fds down) ∧ (initial c fds down).childpid = 0 ∧
      (initial c fds down).fdup = none ∧ (initial c fds down).returned = false ∧
      (initial c fds down).flagwantxx = true ∧ (initial c fds down).flagwantup = !down := by
  have hno : ∀ n f, (n, f) ∈ fds → f = .other := fun n f hm => hfds.other (n, f) hm
  have hup : ∀ n, (n, File.up) ∉ fds := fun n hm => absurd (hno n _ hm) (by decide)
  have hdn : ∀ n, (n, File.dn) ∉ fds := fun n hm => absurd (hno n _ hm) (by decide)
  unfold initial State.openDn State.announce
  cases down with
  | false =>
      simp only [hone, Bool.not_false, Bool.and_self, if_true]
      refine ⟨?_, trivial, trivial, trivial, trivial, trivial⟩
      constructor
      case nodup => exact hfds.nodup
      case upOnly => exact fun n hm => absurd hm (hup n)
      case dn => exact fun n => ⟨fun hm => absurd hm (hdn n), nofun⟩
      all_goals simp [pidchange, wantByte, wanted, lastCommand, downed, awaiting]
  | true =>
      simp only [hone, Bool.not_true, Bool.false_and, Bool.false_eq_true, if_false, if_true]
      refine ⟨?_, trivial, trivial, trivial, trivial, trivial⟩
      constructor
      case nodup => exact nodup_openOn hfds.nodup
      case upOnly =>
        intro n hm
        rcases mem_openOn.mp hm with heq | hm
        · exact absurd (Prod.mk.inj heq).2 (by decide)
        · exact absurd hm (hup n)
      case dn =>
        intro n
        rw [mem_openOn]
        simp [hdn n, eq_comm]
      all_goals simp [pidchange, wantByte, wanted, lastCommand, downed, awaiting]

theorem Sound.announce (h : Sound c down s) : s.announce = s := by
  have hs : s.announce.status = s.status := by
    unfold State.announce
    rw [h.status]
  calc s.announce = { s with status := s.announce.status, file := s.announce.status } := rfl
    _ = { s with file := s.status } := by rw [hs]
    _ = s := congrArg (fun st => { s with file := st }) h.file.symm

/-- At its first `iopause` supervise shows what it has. -/
theorem boot_sound {fds : Table File} (hfds : Plain fds) (hone : c.flagoneshot = false)
    {fork : Option Nat} (hf : fork ≠ none) (hb : boot c fds down fork = some s) :
    Sound c down s ∧ s.returned = false := by
  obtain ⟨hi, hp, hup, hret, -, -⟩ := @initial_sound c down fds hfds hone
  unfold boot at hb
  dsimp only at hb
  split at hb
  · obtain ⟨u, hu, rfl⟩ := Option.map_eq_some_iff.mp hb
    obtain ⟨hs, hr⟩ := hi.trystart hone hf hp hup hu
    rw [hs.announce]
    exact ⟨hs, hr.trans hret⟩
  · cases hb
    rw [hi.announce]
    exact ⟨hi, hret⟩

variable {fds : Table File}

theorem machine_step (hs : (machine c fds).step s i = some t) :
    s.returned = false ∧ round c i s = some t := by
  unfold machine at hs
  dsimp only at hs
  split at hs
  · cases hs
  · rename_i hr
    exact ⟨by simpa using hr, hs⟩

theorem exec_returned {is : List Input} (hr : s.returned = true)
    (he : (machine c fds).exec s is = some t) : is = [] := by
  cases is with
  | nil => rfl
  | cons i is =>
      obtain ⟨u, hu, -⟩ := Machine.exec_cons_eq_some.mp he
      rw [(machine_step hu).1] at hr
      cases hr

/-- From a sound state on, everything is visible exactly as long as nothing is hidden. -/
theorem sound_visible_iff (hone : c.flagoneshot = false) {is : List Input}
    (hf : ∀ i ∈ is, i.ForksSucceed) (h : Sound c down s) (hret : s.returned = false)
    (he : (machine c fds).exec s is = some t) :
    (∀ js u, js <+: is → (machine c fds).exec s js = some u → u.returned = false →
      Visible c down u) ↔ (machine c fds).Meets Single s is := by
  induction is generalizing s with
  | nil =>
      refine ⟨fun _ => trivial, ?_⟩
      intro _ js u hjs hu _
      rw [List.prefix_nil.mp hjs, Machine.exec_nil, Option.some.injEq] at hu
      exact hu ▸ h.visible
  | cons i is ih =>
      obtain ⟨u, hu, ht⟩ := Machine.exec_cons_eq_some.mp he
      have hr := (machine_step hu).2
      have hfi := hf i List.mem_cons_self
      have hfs : ∀ j ∈ is, j.ForksSucceed := fun j hj => hf j (List.mem_cons_of_mem _ hj)
      constructor
      · intro hall
        have hm : Single s i := by
          by_contra hno
          obtain ⟨hur, hnv⟩ := not_visible_of_not_single h hfi hret hno hr
          refine hnv (hall [i] u (by simp) ?_ hur)
          exact Machine.exec_cons_eq_some.mpr ⟨u, hu, rfl⟩
        refine ⟨hm, fun v hv => ?_⟩
        rw [hu, Option.some.injEq] at hv
        subst hv
        rcases h.round hone hfi hret hm hr with hret' | hs
        · rw [exec_returned hret' ht]
          exact trivial
        · cases hret' : u.returned with
          | true =>
              rw [exec_returned hret' ht]
              exact trivial
          | false =>
              refine (ih hfs hs hret' ht).mp fun js v hjs hv hvr => ?_
              exact hall (i :: js) v ((List.prefix_cons_inj i).mpr hjs)
                (Machine.exec_cons_eq_some.mpr ⟨u, hu, hv⟩) hvr
      · rintro ⟨hm, hms⟩ js v hjs hv hvr
        cases js with
        | nil =>
            rw [Machine.exec_nil, Option.some.injEq] at hv
            exact hv ▸ h.visible
        | cons j js =>
            obtain ⟨rfl, hrest⟩ := List.cons_prefix_cons.mp hjs
            obtain ⟨w, hw, hv⟩ := Machine.exec_cons_eq_some.mp hv
            rw [hu, Option.some.injEq] at hw
            subst hw
            cases hret' : u.returned with
            | true =>
                -- nothing happens behind the return
                obtain rfl := exec_returned hret' hv
                rw [Machine.exec_nil, Option.some.injEq] at hv
                rw [← hv, hret'] at hvr
                cases hvr
            | false =>
                rcases h.round hone hfi hret hm hr with hno | hs
                · rw [hret'] at hno
                  cases hno
                · exact (ih hfs hs hret' ht).mpr (hms u hu) js v hrest hv hvr

/-- **supervise shows its service exactly until it starts it a second time**, or collects its
exit after `./shutdown`. -/
theorem visible_iff_single (hone : c.flagoneshot = false) (hfds : Plain fds) {fork : Option Nat}
    (hfork : fork ≠ none) (hb : boot c fds down fork = some s) {is : List Input}
    (hf : ∀ i ∈ is, i.ForksSucceed) (he : (machine c fds).exec s is = some t) :
    (∀ js u, js <+: is → (machine c fds).exec s js = some u → u.returned = false →
      Visible c down u) ↔ (machine c fds).Meets Single s is := by
  obtain ⟨hs, hret⟩ := boot_sound hfds hone hfork hb
  exact sound_visible_iff hone hf hs hret he

def noScript : Script := ⟨false, none, none⟩

def plainInput : Input :=
  { waits := [], post := noScript, alert := noScript, restart := some 101, retry := some 102
    byte := none, shutdown := noScript, start := some 103 }

def plainConfig : Config := ⟨1, false, false, SIGTERM⟩

/-- The service is told to go down, and goes. -/
theorem visible_iff_single_stopped :
    ∃ s t, boot plainConfig [(0, .other)] false (some 100) = some s ∧
      (machine plainConfig [(0, .other)]).exec s
        [{ plainInput with byte := some 100 }, { plainInput with waits := [.exited 100] }]
          = some t ∧
      ((∀ js u, js <+:
          [{ plainInput with byte := some 100 }, { plainInput with waits := [.exited 100] }] →
        (machine plainConfig [(0, .other)]).exec s js = some u → u.returned = false →
          Visible plainConfig false u) ↔
        (machine plainConfig [(0, .other)]).Meets Single s
          [{ plainInput with byte := some 100 },
            { plainInput with waits := [.exited 100] }]) := by
  refine ⟨_, _, rfl, rfl, visible_iff_single rfl ⟨by decide, by simp⟩ (Option.some_ne_none 100)
    rfl ?_ rfl⟩
  intro i hi
  simp only [List.mem_cons, List.not_mem_nil, or_false] at hi
  rcases hi with rfl | rfl
  · exact ⟨nofun, nofun, nofun⟩
  · exact ⟨nofun, nofun, nofun⟩

/-- A service that crashes once is started again, and `supervise/up` stays closed. -/
theorem crash_not_visible :
    ∃ s t, boot plainConfig [(0, .other)] false (some 100) = some s ∧
      (machine plainConfig [(0, .other)]).exec s [{ plainInput with waits := [.exited 100] }]
        = some t ∧
      t.returned = false ∧ t.children = [101] ∧ ¬ Visible plainConfig false t := by
  refine ⟨_, _, rfl, rfl, rfl, rfl, fun h => ?_⟩
  obtain ⟨n, hn⟩ := h.up.mpr (by decide)
  rcases List.mem_cons.mp hn with heq | hm
  · exact absurd (Prod.mk.inj heq).2 (by decide)
  · cases hm

end IndimailMta.Supervise
