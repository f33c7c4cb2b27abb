import IndimailMta.Qscheduler.Dynamic
import Mathlib.Data.List.Basic

/-!
# qscheduler keeps one sender for each queue

`Kept` is what is wanted of the scheduler at every moment. It holds in every run in which the
steps meet `Steady`. Outside of that the scheduler fails by its own doing: it adds a queue for
which `shm_queue` has no element, takes a load from a queue `queue_table` has no element for, or
collects the exit of a child that is not in the table, a sender it removed or queue-fix, and
dies of it.
-/

namespace IndimailMta.Qscheduler

open Run Function

variable {c : Config} {s t : State}

/-! ## What is wanted -/

/-- The queue has a sender that runs, or that is started again when its exit is collected. -/
def Sends (cs : List Child) (q : Nat) (pid : Int) : Prop :=
  ∃ ch ∈ cs, ch.pid = pid ∧ ch.job = .send q ∧ ch.ended ≠ some (.exited 0)

/-- A sender of the queue runs. -/
def Runs (cs : List Child) (q : Nat) (pid : Int) : Prop :=
  ∃ ch ∈ cs, ch.pid = pid ∧ ch.job = .send q ∧ ch.ended = none

def Has (cs : List Child) (pid : Int) : Prop := ∃ ch ∈ cs, ch.pid = pid

/-- The sender that was forked and is not in the table yet, with its queue. -/
def Pc.forked (qcount : Nat) : Pc → Option (Nat × Int)
  | .booted i pid => some (i, pid)
  | .started pid => some (qcount, pid)
  | _ => none

/-- The main program is yet to start a sender for the queue, or to put it into the table. -/
def Pc.blank (qcount q : Nat) : Pc → Prop
  | .boot i => i ≤ q
  | .booted i _ => i ≤ q
  | .ipc => q = qcount
  | .check => q = qcount
  | .fork => q = qcount
  | .started _ => q = qcount
  | _ => False

/-- The main program is on its way to start a sender for the queue. -/
def Pc.coming (qcount q : Nat) : Pc → Prop
  | .boot i => i ≤ q
  | .booted i _ => i < q
  | .init => q = qcount
  | .ipc => q = qcount
  | .check => q = qcount
  | .fork => q = qcount
  | _ => False

theorem Pc.coming_of_blank {pc : Pc} {qcount q : Nat} (h : pc.blank qcount q) :
    pc.coming qcount q ∨ ∃ p, pc.forked qcount = some (q, p) := by
  cases pc with
  | boot i => exact Or.inl h
  | booted i p =>
      rcases Nat.lt_or_eq_of_le (show i ≤ q from h) with hlt | rfl
      · exact Or.inl hlt
      · exact Or.inr ⟨p, rfl⟩
  | ipc => exact Or.inl h
  | check => exact Or.inl h
  | fork => exact Or.inl h
  | started p =>
      obtain rfl : q = qcount := h
      exact Or.inr ⟨p, rfl⟩
  | _ => exact absurd h id

/-- How far the shared memory is behind `qcount` in the middle of a change. -/
def Pc.lag : Pc → Int
  | .init => -1
  | .ipc => -1
  | .check => -1
  | .fork => -1
  | .started _ => -1
  | .publish => -1
  | .realloc _ _ => 1
  | .kill _ _ => 1
  | .removed _ _ => 1
  | _ => 0

/-- **What the scheduler keeps**: it is there, no queue has two senders, each queue has one that
runs or is about to be started, and the shared memory has the number of the queues. -/
structure Kept (s : State) : Prop where
  alive : s.halt = none
  single : ∀ q p p', Runs s.children q p → Runs s.children q p' → p = p'
  served : ∀ q, 1 ≤ q → q ≤ s.qcount → Sends s.children q (s.queueTable q).pid ∨
    (∃ p, s.pc.forked s.qcount = some (q, p) ∧ Sends s.children q p) ∨ s.pc.coming s.qcount q
  shm : s.pc.lag = 0 → s.shm.1 = s.qcount

/-! ## The condition -/

/-- The entries of the table that were assigned. -/
def State.bound (s : State) : Nat := if s.pc = .init then s.qcount else s.qcount + 1

/-- The table has the pid. -/
def State.Listed (pid : Int) (s : State) : Prop := ∃ i < s.bound, (s.queueTable i).pid = pid

/-- The step does not lead into one of the defects. -/
structure Steady (c : Config) (s : State) (l : Label) : Prop where
  message : ∀ q n, l = .message q n → c.keepQcount = false → q < s.tableLen
  ipc : l = .tick → s.pc = .ipc → s.qcount ≤ s.shmLen
  ended : ∀ pid, l = .ended pid (.exited 0) →
    ¬ s.Listed pid ∧ ∀ q, s.pc.forked s.qcount ≠ some (q, pid)
  fix : l = .wait → ∀ ch ∈ s.children, ch.job = .fix → ch.ended = none ∨ ch.ended = some (.exited 0)
  sigchld : ∀ as, l = .sigchld as → ∀ ch ∈ s.children, ch.ended ≠ none → s.Listed ch.pid

/-! ## The invariant -/

/-- While the first senders are started: the queues that were not come to yet. -/
def Pc.booting : Pc → Option Nat
  | .boot i => some i
  | .booted i _ => some (i + 1)
  | _ => none

/-- The sender that is being removed, with its queue. -/
def Pc.leaving : Pc → Option (Nat × Int)
  | .realloc i r => some (i, r)
  | .kill i r => some (i, r)
  | .removed i r => some (i, r)
  | _ => none

structure Inv (s : State) : Prop where
  alive : s.halt = none
  fits : s.qcount < s.tableLen
  pos : ∀ ch ∈ s.children, 0 < ch.pid
  one : ∀ a ∈ s.children, ∀ b ∈ s.children, a.pid = b.pid → a = b
  listed : ∀ i < s.bound, (s.queueTable i).pid ≠ -1 → Sends s.children i (s.queueTable i).pid
  served : ∀ q, 1 ≤ q → q < s.bound → (s.queueTable q).pid ≠ -1 ∨ s.pc.blank s.qcount q
  blank : ∀ q, s.pc.blank s.qcount q → (s.queueTable q).pid = -1
  single : ∀ q p p', Runs s.children q p → Runs s.children q p' → p = p'
  current : ∀ i < s.bound, (s.queueTable i).pid ≠ -1 →
    ∀ p, Runs s.children i p → p = (s.queueTable i).pid
  forked : ∀ q p, s.pc.forked s.qcount = some (q, p) → q ≤ s.qcount ∧ Sends s.children q p ∧
    ∀ p', Runs s.children q p' → p' = p
  free : s.pc = .fork → ∀ p, ¬ Runs s.children s.qcount p
  booting : ∀ k, s.pc.booting = some k → ∀ ch ∈ s.children, ∃ j < k, ch.job = .send j
  fixing : ∀ f, s.pc = .fixing f → ∃ ch ∈ s.children, ch.pid = f ∧ ch.job = .fix
  leaving : ∀ i r, s.pc.leaving = some (i, r) →
    i = s.qcount + 1 ∧ Has s.children r ∧ ¬ s.Listed r
  shrink : ∀ i, s.pc = .shrink i → i = s.qcount
  count : s.pc = .count → s.qcount + 1 < s.tableLen
  killed : s.killed ≤ 0 ∨ Has s.children s.killed ∧ ¬ s.Listed s.killed ∧
    (∀ q, s.pc.forked s.qcount ≠ some (q, s.killed)) ∧ s.pc ≠ .fixing s.killed
  shm : (s.shm.1 : Int) = s.qcount + s.pc.lag

/-- **The invariant is what is wanted.** -/
theorem Inv.kept (h : Inv s) : Kept s where
  alive := h.alive
  single := h.single
  served q hq hle := by
    by_cases hinit : s.pc = .init ∧ q = s.qcount
    · obtain ⟨hi, rfl⟩ := hinit
      right; right
      rw [hi]
      rfl
    have hb : q < s.bound := by
      unfold State.bound
      split
      · rename_i hi
        have : q ≠ s.qcount := fun he => hinit ⟨hi, he⟩
        omega
      · omega
    rcases h.served q hq hb with hp | hblank
    · exact Or.inl (h.listed q hb hp)
    · rcases Pc.coming_of_blank hblank with hc | ⟨p, hf⟩
      · exact Or.inr (Or.inr hc)
      · exact Or.inr (Or.inl ⟨p, hf, (h.forked q p hf).2.1⟩)
  shm hl := by
    have hs := h.shm
    rw [hl] at hs
    omega

/-- A pid that is put into the table. -/
theorem pid_update (table : Nat → Qtab) (q : Nat) (pid : Int) (k : Nat) :
    (update table q { table q with pid := pid, load := 0 } k).pid =
      if k = q then pid else (table k).pid := by
  split
  · rename_i hk
    rw [hk, update_self]
  · rename_i hk
    rw [update_of_ne hk]

/-! ## Children come and go -/

theorem find?_pid {cs : List Child} {pid : Int} {ch : Child}
    (h : cs.find? (fun ch => ch.pid = pid) = some ch) : ch ∈ cs ∧ ch.pid = pid := by
  have hp := List.find?_some h
  exact ⟨List.mem_of_find?_eq_some h, by simpa using hp⟩

theorem endChild_some {pid : Int} {e : Ended} (h : s.endChild pid e = some t) :
    t = { s with children := t.children } ∧
      t.children = s.children.map fun ch =>
        if ch.pid = pid then { ch with ended := some e } else ch := by
  unfold State.endChild at h
  split at h
  · cases h
    exact ⟨rfl, rfl⟩
  · cases h

theorem forkChild_some {pid : Int} {job : Job} (h : s.forkChild pid job = some t) :
    0 < pid ∧ (∀ ch ∈ s.children, ch.pid ≠ pid) ∧
      t = { s with children := ⟨pid, job, none⟩ :: s.children } := by
  unfold State.forkChild at h
  split at h
  · rename_i hf
    cases h
    exact ⟨hf.1, hf.2, rfl⟩
  · cases h

theorem runs_cons {cs : List Child} {ch : Child} {q : Nat} {p : Int} :
    Runs (ch :: cs) q p ↔ ch.pid = p ∧ ch.job = .send q ∧ ch.ended = none ∨ Runs cs q p := by
  simp [Runs, or_and_right, exists_or]

theorem Sends.cons {cs : List Child} {ch : Child} {q : Nat} {p : Int} (h : Sends cs q p) :
    Sends (ch :: cs) q p := by
  obtain ⟨d, hd, h⟩ := h
  exact ⟨d, List.mem_cons_of_mem _ hd, h⟩

theorem Has.cons {cs : List Child} {ch : Child} {p : Int} (h : Has cs p) : Has (ch :: cs) p := by
  obtain ⟨d, hd, h⟩ := h
  exact ⟨d, List.mem_cons_of_mem _ hd, h⟩

/-- What ended does not run. -/
theorem runs_end {cs : List Child} {pid : Int} {e : Ended} {q : Nat} {p : Int}
    (h : Runs (cs.map fun ch => if ch.pid = pid then { ch with ended := some e } else ch) q p) :
    Runs cs q p := by
  obtain ⟨d, hd, hp, hj, he⟩ := h
  obtain ⟨ch, hch, rfl⟩ := List.mem_map.mp hd
  split at he
  · cases he
  · rename_i hne
    rw [if_neg hne] at hp hj
    exact ⟨ch, hch, hp, hj, he⟩

theorem Sends.end {cs : List Child} {pid : Int} {e : Ended} {q : Nat} {p : Int}
    (h : Sends cs q p) (he : e = .exited 0 → p ≠ pid) :
    Sends (cs.map fun ch => if ch.pid = pid then { ch with ended := some e } else ch) q p := by
  obtain ⟨d, hd, hp, hj, hn⟩ := h
  refine ⟨_, List.mem_map.mpr ⟨d, hd, rfl⟩, ?_⟩
  split
  · rename_i heq
    refine ⟨hp, hj, ?_⟩
    simp only [ne_eq, Option.some.injEq]
    intro h0
    exact he h0 (hp.symm.trans heq)
  · exact ⟨hp, hj, hn⟩

theorem Has.end {cs : List Child} {pid : Int} {e : Ended} {p : Int} (h : Has cs p) :
    Has (cs.map fun ch => if ch.pid = pid then { ch with ended := some e } else ch) p := by
  obtain ⟨d, hd, hp⟩ := h
  refine ⟨_, List.mem_map.mpr ⟨d, hd, rfl⟩, ?_⟩
  split
  · exact hp
  · exact hp

theorem mem_drop {pid : Int} {ch : Child} :
    ch ∈ (s.drop pid).children ↔ ch ∈ s.children ∧ ch.pid ≠ pid := by
  rw [State.drop, List.mem_filter, decide_eq_true_iff]

theorem runs_drop {pid : Int} {q : Nat} {p : Int} (h : Runs (s.drop pid).children q p) :
    Runs s.children q p ∧ p ≠ pid := by
  obtain ⟨d, hd, hp, h⟩ := h
  obtain ⟨hd, hne⟩ := mem_drop.mp hd
  exact ⟨⟨d, hd, hp, h⟩, hp ▸ hne⟩

theorem Sends.drop {pid : Int} {q : Nat} {p : Int} (h : Sends s.children q p) (hp : p ≠ pid) :
    Sends (s.drop pid).children q p := by
  obtain ⟨d, hd, rfl, h⟩ := h
  exact ⟨d, mem_drop.mpr ⟨hd, hp⟩, rfl, h⟩

theorem Has.drop {pid p : Int} (h : Has s.children p) (hp : p ≠ pid) :
    Has (s.drop pid).children p := by
  obtain ⟨d, hd, rfl⟩ := h
  exact ⟨d, mem_drop.mpr ⟨hd, hp⟩, rfl⟩

/-- A lock that is free. -/
theorem checkSend_eq_false {q : Nat} : s.checkSend q = false ↔ ∀ p, ¬ Runs s.children q p := by
  unfold State.checkSend Runs
  rw [List.any_eq_false]
  constructor
  · rintro h p ⟨ch, hch, -, hj, he⟩
    exact h ch hch (by simp [hj, he])
  · intro h ch hch hno
    simp only [Bool.and_eq_true, decide_eq_true_eq, Option.isNone_iff_eq_none] at hno
    exact h ch.pid ⟨ch, hch, rfl, hno⟩

/-- A pid in the table is that of one queue. -/
theorem Inv.index (h : Inv s) {i j : Nat} (hi : i < s.bound) (hj : j < s.bound)
    (hp : (s.queueTable i).pid ≠ -1) (he : (s.queueTable i).pid = (s.queueTable j).pid) :
    i = j := by
  obtain ⟨a, ha, hap, haj, -⟩ := h.listed i hi hp
  obtain ⟨b, hb, hbp, hbj, -⟩ := h.listed j hj (he ▸ hp)
  have hab := h.one a ha b hb (by rw [hap, hbp, he])
  rw [hab, hbj] at haj
  cases haj
  rfl

end IndimailMta.Qscheduler
