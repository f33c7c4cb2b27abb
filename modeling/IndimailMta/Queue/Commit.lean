import IndimailMta.Queue.Safe

/-!
# What a failing qmail-queue leaves behind

A run of qmail-queue that exits non-zero must not have linked `todo/id`, and once
`todo/id` is there neither `mess/id` nor `intd/id`, which shares its inode with
`todo/id`, may be truncated or removed. Before the link that is so. The link itself
is where it goes wrong: it can fail after the link was made, and then qmail-queue
cleans up.
-/

namespace IndimailMta.Queue

open IndimailMta Exits

/-! ## §1 What must be left -/

/-- `todo/id` is there. -/
def Committed (w : World) : Prop := w.exist .todo = true

theorem stable_committed : Stable Committed (fun e w => e ≠ 0 ∧ Committed w) :=
  ⟨fun _ _ h => h, fun _ _ h => h, fun _ _ h => h,
    fun _ he _ h => ⟨ne_zero_of_signalCodes he, h⟩⟩

/-- What a run that exits with `code` must leave behind. -/
structure NothingCommitted (code : Nat) (w : World) : Prop where
  failed : code ≠ 0 → w.exist .todo = false
  kept : ∀ newer older op, w.trace = newer ++ op :: older → op.makesTodo = true →
    ∀ later ∈ newer, later.destroys = false

theorem Uncommitted.nothingCommitted {w : World} (h : Uncommitted w) (code : Nat) :
    NothingCommitted code w where
  failed := fun _ => h.1
  kept := fun newer older op he hop => by
    have hno := h.2 op (by rw [he]; simp)
    rw [hno] at hop
    exact absurd hop (by decide)

/-- A signal comes next. -/
def interrupted : List Answer → Bool
  | .alarm :: _ => true
  | .bug :: _ => true
  | _ => false

/-- The link is made, and fails; or it works, and a signal comes before `_exit`. -/
def failsAfterLink (k : Mode) : List Answer → Bool
  | .ok :: rest => interrupted rest
  | .late :: rest => k.use_syncdir || interrupted rest
  | _ => false

/-- A run of `main` comes to the link, and `main` fails after it was made. -/
def LateFailure (env : Env) (w : World) : Prop :=
  ∃ v, prepare env w = (.ok (), v) ∧ failsAfterLink env.mode v.answers = true

theorem committed_apply {w : World} (h : Made w) :
    Committed (w.apply (.link .intd .todo)) ∧
      NothingCommitted 0 (w.apply (.link .intd .todo)) := by
  refine ⟨by simp [Committed, World.apply], fun h0 => absurd rfl h0, ?_⟩
  intro newer older op he hop later hl
  rcases newer with _ | ⟨n, newer⟩
  · simp at hl
  · have hmem : op ∈ w.trace := by
      rw [(List.cons.inj he).2]
      simp
    rw [h.2.2 op hmem] at hop
    exact absurd hop (by decide)

theorem not_nothingCommitted {code : Nat} {w : World} (h : code ≠ 0 ∧ Committed w) :
    ¬ NothingCommitted code w := by
  intro hn
  have hgone := hn.failed h.1
  rw [h.2] at hgone
  exact absurd hgone (by decide)

/-- A file that is discarded is not `todo/id`. -/
theorem committed_cleanup (k : Mode) :
    Keeps Committed (fun e w => e ≠ 0 ∧ Committed w) (cleanup k) :=
  keeps_cleanup stable_committed k (fun _ _ _ h => h) fun n w hn h => by
    simpa [Committed, World.apply, Function.update_of_ne (Ne.symm hn)] using h

/-- What `main` does behind a link that worked. -/
theorem leave_spec (env : Env) {w : World} (h : Committed w) (h0 : NothingCommitted 0 w) :
    ∃ code v, leave env w = (.error code, v) ∧
      (NothingCommitted code v ↔ interrupted w.answers = false) := by
  have hsignal : ∀ e ∈ signalCodes, ∀ u, Committed u →
      ¬ NothingCommitted (handler env.mode e u).1 (handler env.mode e u).2 := fun e he u hu =>
    not_nothingCommitted (handler_of_stable stable_committed env.mode he hu)
  have hquiet : ∀ l, NothingCommitted 0 { w with answers := l } := fun l => ⟨h0.failed, h0.kept⟩
  cases ha : w.answers with
  | nil =>
      refine ⟨0, w, by simp [leave, attempt, ask, World.next, bind, pure, exit, ha], ?_⟩
      exact iff_of_true h0 rfl
  | cons a rest =>
      cases a with
      | alarm =>
          refine ⟨_, _, by simp [leave, attempt, ask, World.next, bind, ha]; exact ⟨rfl, rfl⟩, ?_⟩
          exact iff_of_false (hsignal QQ_TIMEOUT (by decide) _ h) (by simp [interrupted])
      | bug =>
          refine ⟨_, _, by simp [leave, attempt, ask, World.next, bind, ha]; exact ⟨rfl, rfl⟩, ?_⟩
          exact iff_of_false (hsignal QQ_INTERNAL_BUG (by decide) _ h) (by simp [interrupted])
      | _ =>
          refine ⟨0, { w with answers := rest }, ?_, iff_of_true (hquiet rest) rfl⟩
          simp [leave, attempt, ask, World.next, bind, pure, exit, ha]

/-- The link was made in `v`, whatever is still to be answered. -/
theorem commit_linked (env : Env) {w v : World} (h : Made v)
    (hcall : call env.mode (.link .intd .todo) w = (.ok true, v.apply (.link .intd .todo))) :
    ∃ code u, commit env w = (.error code, u) ∧
      (NothingCommitted code u ↔ interrupted v.answers = false) := by
  obtain ⟨hc, h0⟩ := committed_apply h
  obtain ⟨code, u, hu, hiff⟩ := leave_spec env hc h0
  refine ⟨code, u, ?_, hiff⟩
  rw [commit, run_bind_ok hcall]
  exact hu

/-- The link failed, and `main` dies. -/
theorem commit_unlinked (env : Env) {w v : World} {E : Nat → World → Prop} {I : World → Prop}
    (h : I v) (hcall : call env.mode (.link .intd .todo) w = (.ok false, v))
    (hdie : Triple I (die env.mode QQ_LINK_TODO_INTD true : QQ Unit) (fun _ _ => False) E) :
    ∃ code u, commit env w = (.error code, u) ∧ E code u := by
  have hrun := hdie v h
  cases hd : (die env.mode QQ_LINK_TODO_INTD true : QQ Unit) v with
  | mk r u =>
      rw [hd] at hrun
      cases r with
      | ok a => exact absurd hrun not_false
      | error code =>
          refine ⟨code, u, ?_, hrun⟩
          rw [commit, run_bind_ok hcall]
          exact run_bind_exit hd

/-- A signal came before the link. -/
theorem commit_signalled (env : Env) {w v : World} {code : Nat} (h : Uncommitted v)
    (hask : ask env.mode w = (.error code, v)) :
    ∃ code u, commit env w = (.error code, u) ∧ NothingCommitted code u :=
  ⟨code, v, run_bind_exit (run_bind_exit hask), h.nothingCommitted code⟩

/-- **The link and what follows it.** -/
theorem commit_spec (env : Env) {w : World} (h : Made w) :
    ∃ code v, commit env w = (.error code, v) ∧
      (NothingCommitted code v ↔ failsAfterLink env.mode w.answers = false) := by
  have hpossible : ∀ l, World.possible { w with answers := l } (.link .intd .todo) = true :=
    fun l => by simp [World.possible, h.1, h.2.1]
  have hmade : ∀ l, Made { w with answers := l } := fun l => h
  cases ha : w.answers with
  | nil =>
      have hp := hpossible w.answers
      obtain ⟨code, u, hu, hiff⟩ := commit_linked env (w := w) h (by
        simp [call, ask, World.next, ha, bind, pure, Exits.read, Exits.update, hp])
      exact ⟨code, u, hu, hiff.trans (by simp [ha, interrupted, failsAfterLink])⟩
  | cons a rest =>
      have hp := hpossible rest
      cases a with
      | ok =>
          obtain ⟨code, u, hu, hiff⟩ := commit_linked env (w := w) (hmade rest) (by
            simp [call, ask, World.next, ha, bind, pure, Exits.read, Exits.update, hp])
          exact ⟨code, u, hu, hiff⟩
      | late =>
          cases hs : env.mode.use_syncdir with
          | false =>
              obtain ⟨code, u, hu, hiff⟩ := commit_linked env (w := w) (hmade rest) (by
                simp [call, ask, World.next, ha, bind, pure, Exits.read, Exits.update, hp, hs])
              exact ⟨code, u, hu, hiff.trans (by simp [failsAfterLink, hs])⟩
          | true =>
              -- the link is there, and yet `die` cleans up and exits
              obtain ⟨code, u, hu, hbad⟩ := commit_unlinked env (w := w)
                (committed_apply (hmade rest)).1 (by
                  simp [call, ask, World.next, ha, bind, pure, Exits.read, Exits.update, hp, hs])
                (triple_die stable_committed env.mode true (committed_cleanup env.mode)
                  fun _ hc => ⟨by decide, hc⟩)
              exact ⟨code, u, hu,
                iff_of_false (not_nothingCommitted hbad) (by simp [failsAfterLink, hs])⟩
      | fails =>
          obtain ⟨code, u, hu, hunc⟩ := commit_unlinked env (w := w) (hmade rest) (by
              simp [call, ask, World.next, ha, bind, pure, Exits.read, hp])
            (safe_die env (I := Made) (fun _ hm => hm.2) env.mode QQ_LINK_TODO_INTD true (by decide))
          exact ⟨code, u, hu, iff_of_true (hunc.1.nothingCommitted code) rfl⟩
      | alarm =>
          obtain ⟨code, u, hu, hn⟩ := commit_signalled env (w := w)
            (handler_of_stable (stable_uncommitted env) env.mode (e := QQ_TIMEOUT) (by decide)
              (hmade rest).2).1 (by simp only [ask, World.next, ha]; rfl)
          exact ⟨code, u, hu, iff_of_true hn rfl⟩
      | bug =>
          obtain ⟨code, u, hu, hn⟩ := commit_signalled env (w := w)
            (handler_of_stable (stable_uncommitted env) env.mode (e := QQ_INTERNAL_BUG) (by decide)
              (hmade rest).2).1 (by simp only [ask, World.next, ha]; rfl)
          exact ⟨code, u, hu, iff_of_true hn rfl⟩

/-- **A failing qmail-queue leaves nothing committed, unless it fails after the link.** -/
theorem nothing_committed_iff (env : Env) (answers : List Answer) :
    ∃ code w, main env { answers := answers } = (.error code, w) ∧
      (NothingCommitted code w ↔ ¬ LateFailure env { answers := answers }) := by
  have hstart : Uncommitted { answers := answers } := ⟨rfl, fun op hop => by simp at hop⟩
  have hprepare := triple_prepare env { answers := answers } hstart
  cases hp : prepare env { answers := answers } with
  | mk r v =>
      rw [hp] at hprepare
      cases r with
      | error code =>
          refine ⟨code, v, run_bind_exit hp, ?_⟩
          refine iff_of_true (hprepare.1.nothingCommitted code) ?_
          rintro ⟨u, hu, _⟩
          rw [hp] at hu
          simp at hu
      | ok a =>
          obtain ⟨code, u, hc, hiff⟩ := commit_spec env hprepare.1
          refine ⟨code, u, by rw [main, run_bind_ok hp, hc], hiff.trans ?_⟩
          simp [LateFailure, hp]

/-- One message, with directories synced. -/
def syncedEnv : Env where
  mode := { use_syncdir := true }
  nm := decimal
  received := asc "Received: x\n"
  body := .copy [asc "hello\n"]
  envelope := asc "Fs@x" ++ [0] ++ asc "Tr@y" ++ [0, 0]

/-- The run of qmail-queue on it in which the sync of `todo/` fails after the link. -/
def lateRun : Except Nat Unit × World :=
  main syncedEnv { answers := List.replicate 46 .ok ++ [.late] }

/-- It exits with 66, and `todo/id` is there, truncated through `intd/id`. -/
theorem late_link_committed :
    lateRun.1 = .error QQ_LINK_TODO_INTD ∧ FileOp.seekTrunc .intd ∈ lateRun.2.trace ∧
      ¬ NothingCommitted QQ_LINK_TODO_INTD lateRun.2 := by
  refine ⟨by decide +kernel, by decide +kernel, fun h => ?_⟩
  have hgone := h.failed (by decide)
  revert hgone
  decide +kernel

end IndimailMta.Queue
