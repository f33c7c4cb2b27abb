import IndimailMta.Qscheduler.Handler

/-!
# qscheduler: the main program and its runs

The steps of `dynamic_queue`: the start of the first senders, a message with a load, a queue
that is added, a queue that is removed. With the handler they make the invariant one of every
run.
-/

namespace IndimailMta.Qscheduler

open Run Function

variable {c : Config} {s t : State}

/-! ## The main program -/

theorem State.bound_eq (h : s.pc ≠ .init) : s.bound = s.qcount + 1 := if_neg h

/-- What a move of the main program has to see to when the children and the pids in the table
stay. -/
structure Move (s : State) (f : Nat → Qtab) (n : Nat) (p : Pc) : Prop where
  source : s.pc ≠ .init
  target : p ≠ .init
  fits : s.qcount < n
  pids : ∀ q ≤ s.qcount, (f q).pid = (s.queueTable q).pid
  lag : p.lag = s.pc.lag
  served : ∀ q ≤ s.qcount, 1 ≤ q → s.pc.blank s.qcount q → p.blank s.qcount q
  blank : ∀ q, p.blank s.qcount q → (f q).pid = -1
  forked : p.forked s.qcount = none
  free : p = .fork → ∀ r, ¬ Runs s.children s.qcount r
  booting : ∀ k, p.booting = some k → ∀ ch ∈ s.children, ∃ j < k, ch.job = .send j
  fixing : ∀ r, p ≠ .fixing r
  leaving : p.leaving = none ∨ p.leaving = s.pc.leaving
  shrink : ∀ i, p = .shrink i → i = s.qcount
  count : p = .count → s.qcount + 1 < n

theorem Inv.move (h : Inv s) {f : Nat → Qtab} {n : Nat} {p : Pc} (m : Move s f n p) :
    Inv { s with queueTable := f, tableLen := n, pc := p } := by
  have hb : s.bound = s.qcount + 1 := State.bound_eq m.source
  have hbt : State.bound { s with queueTable := f, tableLen := n, pc := p } = s.qcount + 1 :=
    if_neg m.target
  have hunlisted : ∀ r, ¬ s.Listed r →
      ¬ State.Listed r { s with queueTable := f, tableLen := n, pc := p } := by
    rintro r hno ⟨i, hit, hie⟩
    rw [hbt] at hit
    replace hie : (f i).pid = r := hie
    rw [m.pids i (by omega)] at hie
    exact hno ⟨i, by omega, hie⟩
  constructor
  case alive => exact h.alive
  case fits => exact m.fits
  case pos => exact h.pos
  case one => exact h.one
  case listed =>
    intro i hit hne
    rw [hbt] at hit
    have heq := m.pids i (by omega)
    show Sends s.children i (f i).pid
    replace hne : (f i).pid ≠ -1 := hne
    rw [heq] at hne ⊢
    exact h.listed i (by omega) hne
  case served =>
    intro q hq hqt
    rw [hbt] at hqt
    show (f q).pid ≠ -1 ∨ p.blank s.qcount q
    rw [m.pids q (by omega)]
    rcases h.served q hq (by omega) with hs | hs
    · exact Or.inl hs
    · exact Or.inr (m.served q (by omega) hq hs)
  case blank => exact m.blank
  case single => exact h.single
  case current =>
    intro i hit hne r hr
    rw [hbt] at hit
    have heq := m.pids i (by omega)
    show r = (f i).pid
    replace hne : (f i).pid ≠ -1 := hne
    rw [heq] at hne ⊢
    exact h.current i (by omega) hne r hr
  case forked =>
    intro q r hfk
    rw [show Pc.forked _ _ = none from m.forked] at hfk
    cases hfk
  case free => exact m.free
  case booting => exact m.booting
  case fixing => exact fun r hr => absurd hr (m.fixing r)
  case leaving =>
    intro i r hr
    replace hr : p.leaving = some (i, r) := hr
    rcases m.leaving with hno | hl
    · rw [hno] at hr
      cases hr
    · obtain ⟨hiq, hhas, hno⟩ := h.leaving i r (hl ▸ hr)
      exact ⟨hiq, hhas, hunlisted r hno⟩
  case shrink => exact m.shrink
  case count => exact m.count
  case killed =>
    rcases h.killed with hk | ⟨hk, hno, -⟩
    · exact Or.inl hk
    · refine Or.inr ⟨hk, hunlisted _ hno, fun q hfk => ?_, m.fixing _⟩
      rw [show Pc.forked _ _ = none from m.forked] at hfk
      cases hfk
  case shm =>
    have := h.shm
    rw [← m.lag] at this
    exact this

/-- The pid of a forked sender is put into the table. -/
theorem Inv.record (h : Inv s) {q : Nat} {pid : Int} (hf : s.pc.forked s.qcount = some (q, pid))
    {p : Pc} (hp : p ≠ .init) (hlag : p.lag = s.pc.lag)
    (hblank : ∀ k, p.blank s.qcount k ↔ s.pc.blank s.qcount k ∧ k ≠ q)
    (hforked : p.forked s.qcount = none) (hfree : p ≠ .fork)
    (hboot : ∀ k, p.booting = some k → ∀ ch ∈ s.children, ∃ j < k, ch.job = .send j)
    (hfix : ∀ r, p ≠ .fixing r) (hleave : p.leaving = none) (hshrink : ∀ i, p ≠ .shrink i)
    (hcount : p ≠ .count) : Inv { s.record q pid with pc := p } := by
  obtain ⟨hq, hs, hr⟩ := h.forked q pid hf
  have hpos : 0 < pid := by
    obtain ⟨ch, hch, rfl, -⟩ := hs
    exact h.pos ch hch
  have hsi : s.pc ≠ .init := by
    intro hi
    rw [hi] at hf
    cases hf
  have hb : s.bound = s.qcount + 1 := State.bound_eq hsi
  have hqb := h.blank q (Pc.blank_of_forked hf)
  have hrec : s.record q pid = { s with
      queueTable := update s.queueTable q { s.queueTable q with pid := pid, load := 0 } } :=
    if_pos (Nat.lt_of_le_of_lt hq h.fits)
  rw [hrec]
  have hat := pid_update s.queueTable q pid
  have hbt : State.bound { s with
      queueTable := update s.queueTable q { s.queueTable q with pid := pid, load := 0 }
      pc := p } = s.qcount + 1 := if_neg hp
  constructor
  case alive => exact h.alive
  case fits => exact h.fits
  case pos => exact h.pos
  case one => exact h.one
  case listed =>
    intro k hk hne
    rw [hbt] at hk
    show Sends s.children k (update s.queueTable q _ k).pid
    replace hne : (update s.queueTable q _ k).pid ≠ -1 := hne
    rw [hat] at hne ⊢
    split
    · rename_i hkq
      exact hkq ▸ hs
    · rename_i hkq
      rw [if_neg hkq] at hne
      exact h.listed k (by omega) hne
  case served =>
    intro k hk1 hk
    rw [hbt] at hk
    show (update s.queueTable q _ k).pid ≠ -1 ∨ p.blank s.qcount k
    rw [hat, hblank]
    split
    · exact Or.inl (by omega)
    · rename_i hkq
      rcases h.served k hk1 (by omega) with hs | hs
      · exact Or.inl hs
      · exact Or.inr ⟨hs, hkq⟩
  case blank =>
    intro k hk
    obtain ⟨hk, hkq⟩ := (hblank k).mp hk
    show (update s.queueTable q _ k).pid = -1
    rw [hat, if_neg hkq]
    exact h.blank k hk
  case single => exact h.single
  case current =>
    intro k hk hne r hrun
    rw [hbt] at hk
    show r = (update s.queueTable q _ k).pid
    replace hne : (update s.queueTable q _ k).pid ≠ -1 := hne
    rw [hat] at hne ⊢
    split
    · rename_i hkq
      exact hr r (hkq ▸ hrun)
    · rename_i hkq
      rw [if_neg hkq] at hne
      exact h.current k (by omega) hne r hrun
  case forked =>
    intro k r hfk
    rw [show Pc.forked _ _ = none from hforked] at hfk
    cases hfk
  case free => exact fun hfk => absurd hfk hfree
  case booting => exact hboot
  case fixing => exact fun r hr => absurd hr (hfix r)
  case leaving =>
    intro i r hl
    rw [show Pc.leaving _ = none from hleave] at hl
    cases hl
  case shrink => exact fun i hi => absurd hi (hshrink i)
  case count => exact fun hc => absurd hc hcount
  case killed =>
    rcases h.killed with hk | ⟨hk, hno, hnf, -⟩
    · exact Or.inl hk
    refine Or.inr ⟨hk, ?_, fun k hfk => ?_, hfix _⟩
    · rintro ⟨k, hkb, hkp⟩
      rw [hbt] at hkb
      replace hkp : (update s.queueTable q _ k).pid = s.killed := hkp
      rw [hat] at hkp
      split at hkp
      · exact hnf q (hkp ▸ hf)
      · exact hno ⟨k, by omega, hkp⟩
    · rw [show Pc.forked _ _ = none from hforked] at hfk
      cases hfk
  case shm =>
    have := h.shm
    rw [← hlag] at this
    exact this

/-- A sender is forked for a queue whose lock is free. -/
theorem Inv.fork (h : Inv s) {q : Nat} {pid : Int} (hq : q ≤ s.qcount)
    (hidle : ∀ p, ¬ Runs s.children q p) (hqb : s.pc.blank s.qcount q) {p : Pc}
    (hf : p.forked s.qcount = some (q, pid)) (hlag : p.lag = s.pc.lag)
    (hblank : ∀ k, p.blank s.qcount k ↔ s.pc.blank s.qcount k)
    (hboot : ∀ k, p.booting = some k → q < k ∧ ∀ ch ∈ s.children, ∃ j < k, ch.job = .send j)
    (hfork : s.forkChild pid (.send q) = some t) : Inv { t with pc := p } := by
  obtain ⟨hpos, hfresh, rfl⟩ := forkChild_some hfork
  have hsi : s.pc ≠ .init := by
    intro hi
    rw [hi] at hqb
    exact hqb
  have hpi : p ≠ .init ∧ p ≠ .fork ∧ (∀ r, p ≠ .fixing r) ∧ p.leaving = none ∧
      (∀ i, p ≠ .shrink i) ∧ p ≠ .count := by
    cases p with
    | booted i r => exact ⟨nofun, nofun, nofun, rfl, nofun, nofun⟩
    | started r => exact ⟨nofun, nofun, nofun, rfl, nofun, nofun⟩
    | _ => cases hf
  obtain ⟨hp, hpfork, hpfix, hpleave, hpshrink, hpcount⟩ := hpi
  have hb : s.bound = s.qcount + 1 := State.bound_eq hsi
  have hbt : State.bound { s with children := ⟨pid, .send q, none⟩ :: s.children, pc := p }
      = s.qcount + 1 := if_neg hp
  have hblankq := h.blank q hqb
  have hruns : ∀ {k r}, Runs (⟨pid, .send q, none⟩ :: s.children) k r →
      r = pid ∧ k = q ∨ Runs s.children k r := by
    intro k r hrun
    rcases runs_cons.mp hrun with ⟨rfl, hj, -⟩ | hrun
    · cases hj
      exact Or.inl ⟨rfl, rfl⟩
    · exact Or.inr hrun
  constructor
  case alive => exact h.alive
  case fits => exact h.fits
  case pos =>
    intro ch hch
    rcases List.mem_cons.mp hch with rfl | hch
    · exact hpos
    · exact h.pos ch hch
  case one =>
    intro a ha b hb hab
    rcases List.mem_cons.mp ha with rfl | ha
    · rcases List.mem_cons.mp hb with rfl | hb
      · rfl
      · exact absurd hab.symm (hfresh b hb)
    · rcases List.mem_cons.mp hb with rfl | hb
      · exact absurd hab (hfresh a ha)
      · exact h.one a ha b hb hab
  case listed =>
    intro i hi hne
    rw [hbt] at hi
    exact (h.listed i (by omega) hne).cons
  case served =>
    intro k hk1 hk
    rw [hbt] at hk
    rcases h.served k hk1 (by omega) with hs | hs
    · exact Or.inl hs
    · exact Or.inr ((hblank k).mpr hs)
  case blank => exact fun k hk => h.blank k ((hblank k).mp hk)
  case single =>
    intro k r r' hr hr'
    rcases hruns hr with ⟨rfl, rfl⟩ | hold
    · rcases hruns hr' with ⟨rfl, -⟩ | hold'
      · rfl
      · exact absurd hold' (hidle r')
    · rcases hruns hr' with ⟨rfl, rfl⟩ | hold'
      · exact absurd hold (hidle r)
      · exact h.single k r r' hold hold'
  case current =>
    intro i hi hne r hrun
    rw [hbt] at hi
    rcases hruns hrun with ⟨rfl, rfl⟩ | hold
    · exact absurd hblankq hne
    · exact h.current i (by omega) hne r hold
  case forked =>
    intro k r hfk
    rw [show Pc.forked _ _ = _ from hf] at hfk
    cases hfk
    refine ⟨hq, ⟨_, List.mem_cons_self, rfl, rfl, nofun⟩, fun r' hrun => ?_⟩
    rcases hruns hrun with ⟨rfl, -⟩ | hold
    · rfl
    · exact absurd hold (hidle r')
  case free => exact fun hfk => absurd hfk hpfork
  case booting =>
    intro k hk ch hch
    obtain ⟨hqk, hall⟩ := hboot k hk
    rcases List.mem_cons.mp hch with rfl | hch
    · exact ⟨q, hqk, rfl⟩
    · exact hall ch hch
  case fixing => exact fun r hr => absurd hr (hpfix r)
  case leaving =>
    intro i r hl
    rw [show Pc.leaving _ = none from hpleave] at hl
    cases hl
  case shrink => exact fun i hi => absurd hi (hpshrink i)
  case count => exact fun hc => absurd hc hpcount
  case killed =>
    rcases h.killed with hk | ⟨hk, hno, -⟩
    · exact Or.inl hk
    refine Or.inr ⟨hk.cons, ?_, fun k hfk => ?_, hpfix _⟩
    · rintro ⟨i, hi, hie⟩
      rw [hbt] at hi
      exact hno ⟨i, by omega, hie⟩
    · rw [show Pc.forked _ _ = _ from hf] at hfk
      obtain ⟨-, hpk⟩ := Prod.mk.inj (Option.some.inj hfk)
      obtain ⟨ch, hch, hcp⟩ := hk
      exact hfresh ch hch (hcp.trans hpk.symm)
  case shm =>
    have := h.shm
    rw [← hlag] at this
    exact this

/-! ## Adding and removing a queue -/

/-- `++qcount`. The new entry is not assigned yet. -/
theorem Inv.count_init (h : Inv s) (hc : s.pc = .count) (n : Nat) :
    Inv { s with qcount := s.qcount + 1, qconf := n, pc := .init } := by
  have hb : s.bound = s.qcount + 1 := State.bound_eq (by rw [hc]; exact nofun)
  have hquiet : ∀ q, ¬ s.pc.blank s.qcount q := by
    intro q hq
    rw [hc] at hq
    exact hq
  constructor
  case alive => exact h.alive
  case fits => exact h.count hc
  case pos => exact h.pos
  case one => exact h.one
  case listed => exact fun i hi => h.listed i (hb ▸ hi)
  case served =>
    intro q hq hqb
    rcases h.served q hq (hb ▸ hqb) with hs | hs
    · exact Or.inl hs
    · exact absurd hs (hquiet q)
  case blank => exact fun q hq => absurd hq id
  case single => exact h.single
  case current => exact fun i hi => h.current i (hb ▸ hi)
  case forked => exact fun _ _ => nofun
  case free => exact nofun
  case booting => exact fun _ => nofun
  case fixing => exact fun _ => nofun
  case leaving => exact fun _ _ => nofun
  case shrink => exact fun _ => nofun
  case count => exact nofun
  case killed =>
    rcases h.killed with hk | ⟨hk, hno, -⟩
    · exact Or.inl hk
    · exact Or.inr ⟨hk, fun ⟨i, hi, hie⟩ => hno ⟨i, hb ▸ hi, hie⟩, fun _ => nofun, nofun⟩
  case shm =>
    have hs := h.shm
    rw [hc] at hs
    show (s.shm.1 : Int) = ((s.qcount + 1 : Nat) : Int) + -1
    simp only [Pc.lag] at hs
    omega

/-- The new entry is assigned. -/
theorem Inv.init_ipc (h : Inv s) (hc : s.pc = .init) :
    Inv { s with
      queueTable := update s.queueTable s.qcount ⟨-1, s.qcount, 0⟩
      pc := .ipc } := by
  have hb : s.bound = s.qcount := if_pos hc
  have hbt : State.bound { s with
      queueTable := update s.queueTable s.qcount ⟨-1, s.qcount, 0⟩
      pc := .ipc } = s.qcount + 1 := if_neg nofun
  have hold : ∀ i, i < s.qcount → update s.queueTable s.qcount ⟨-1, s.qcount, 0⟩ i = s.queueTable i :=
    fun i hi => update_of_ne (by omega) _ _
  have hnew : (update s.queueTable s.qcount ⟨-1, s.qcount, 0⟩ s.qcount).pid = -1 := by
    rw [update_self]
  have hquiet : ∀ q, ¬ s.pc.blank s.qcount q := by
    intro q hq
    rw [hc] at hq
    exact hq
  have hlt : ∀ i, i < s.qcount + 1 →
      (update s.queueTable s.qcount ⟨-1, s.qcount, 0⟩ i).pid ≠ -1 → i < s.qcount := by
    intro i hi hne
    rcases Nat.lt_or_eq_of_le (Nat.le_of_lt_succ hi) with hlt | rfl
    · exact hlt
    · exact absurd hnew hne
  constructor
  case alive => exact h.alive
  case fits => exact h.fits
  case pos => exact h.pos
  case one => exact h.one
  case listed =>
    intro i hi hne
    rw [hbt] at hi
    have hi' := hlt i hi hne
    show Sends s.children i (update s.queueTable s.qcount _ i).pid
    replace hne : (update s.queueTable s.qcount _ i).pid ≠ -1 := hne
    rw [hold i hi'] at hne ⊢
    exact h.listed i (by omega) hne
  case served =>
    intro q hq hqb
    rw [hbt] at hqb
    rcases Nat.lt_or_eq_of_le (Nat.le_of_lt_succ hqb) with hqlt | rfl
    · left
      show (update s.queueTable s.qcount _ q).pid ≠ -1
      rw [hold q hqlt]
      rcases h.served q hq (by omega) with hs | hs
      · exact hs
      · exact absurd hs (hquiet q)
    · exact Or.inr rfl
  case blank =>
    rintro q rfl
    exact hnew
  case single => exact h.single
  case current =>
    intro i hi hne r hr
    rw [hbt] at hi
    have hi' := hlt i hi hne
    show r = (update s.queueTable s.qcount _ i).pid
    replace hne : (update s.queueTable s.qcount _ i).pid ≠ -1 := hne
    rw [hold i hi'] at hne ⊢
    exact h.current i (by omega) hne r hr
  case forked => exact fun _ _ => nofun
  case free => exact nofun
  case booting => exact fun _ => nofun
  case fixing => exact fun _ => nofun
  case leaving => exact fun _ _ => nofun
  case shrink => exact fun _ => nofun
  case count => exact nofun
  case killed =>
    rcases h.killed with hk | ⟨hk, hno, -⟩
    · exact Or.inl hk
    refine Or.inr ⟨hk, ?_, fun _ => nofun, nofun⟩
    rintro ⟨i, hi, hie⟩
    rw [hbt] at hi
    obtain ⟨ch, hch, hcp⟩ := hk
    have hpos := h.pos ch hch
    have hne : (update s.queueTable s.qcount ⟨-1, s.qcount, 0⟩ i).pid ≠ -1 := by
      show _ ≠ _
      intro h0
      have hie' : (update s.queueTable s.qcount ⟨-1, s.qcount, 0⟩ i).pid = s.killed := hie
      rw [h0] at hie'
      omega
    have hi' := hlt i hi hne
    replace hie : (update s.queueTable s.qcount _ i).pid = s.killed := hie
    rw [hold i hi'] at hie
    exact hno ⟨i, by omega, hie⟩
  case shm =>
    have hs := h.shm
    rw [hc] at hs
    exact hs

/-- The lock of the new queue is held, and the queue is given up. -/
theorem Inv.check_locked (h : Inv s) (hc : s.pc = .check) :
    Inv { s with qcount := s.qcount - 1, pc := .idle } := by
  have hb : s.bound = s.qcount + 1 := State.bound_eq (by rw [hc]; exact nofun)
  have hs := h.shm
  rw [hc] at hs
  simp only [Pc.lag] at hs
  have hbt : State.bound { s with qcount := s.qcount - 1, pc := .idle } = s.qcount - 1 + 1 :=
    if_neg nofun
  constructor
  case alive => exact h.alive
  case fits => exact Nat.lt_of_le_of_lt (Nat.sub_le _ _) h.fits
  case pos => exact h.pos
  case one => exact h.one
  case listed => exact fun i hi => h.listed i (by omega)
  case served =>
    intro q hq hqb
    rw [hbt] at hqb
    rcases h.served q hq (by omega) with hs | hs
    · exact Or.inl hs
    · rw [hc] at hs
      have : q = s.qcount := hs
      omega
  case blank => exact fun q hq => absurd hq id
  case single => exact h.single
  case current => exact fun i hi => h.current i (by omega)
  case forked => exact fun _ _ => nofun
  case free => exact nofun
  case booting => exact fun _ => nofun
  case fixing => exact fun _ => nofun
  case leaving => exact fun _ _ => nofun
  case shrink => exact fun _ => nofun
  case count => exact nofun
  case killed =>
    rcases h.killed with hk | ⟨hk, hno, -⟩
    · exact Or.inl hk
    · refine Or.inr ⟨hk, ?_, fun _ => nofun, nofun⟩
      rintro ⟨i, hi, hie⟩
      exact hno ⟨i, by omega, hie⟩
  case shm =>
    show (s.shm.1 : Int) = ((s.qcount - 1 : Nat) : Int) + 0
    omega

/-- The shared memory is written, and the change is complete. -/
theorem Inv.written (h : Inv s) (hi : s.pc ≠ .init) (hb : ∀ q, ¬ s.pc.blank s.qcount q)
    {p : Pc} (hp : p = .idle ∨ p = .shrink s.qcount) {k : Int}
    (hk : k ≤ 0 ∨ Has s.children k ∧ ¬ s.Listed k) :
    Inv { State.writeQueue2shm { s with killed := k } with pc := p } := by
  have hbnd : s.bound = s.qcount + 1 := State.bound_eq hi
  have hbt : State.bound { State.writeQueue2shm { s with killed := k } with pc := p }
      = s.qcount + 1 := by
    refine if_neg ?_
    rcases hp with rfl | rfl
    · exact nofun
    · exact nofun
  have hq : (∀ q, ¬ p.blank s.qcount q) ∧ p.forked s.qcount = none ∧ p ≠ .fork ∧
      p.booting = none ∧ (∀ r, p ≠ .fixing r) ∧ p.leaving = none ∧ p ≠ .count ∧ p.lag = 0 ∧
      ∀ i, p = .shrink i → i = s.qcount := by
    rcases hp with rfl | rfl
    · exact ⟨fun _ => id, rfl, nofun, rfl, nofun, rfl, nofun, rfl, nofun⟩
    · refine ⟨fun _ => id, rfl, nofun, rfl, nofun, rfl, nofun, rfl, fun i hi => ?_⟩
      cases hi
      rfl
  obtain ⟨hpb, hpf, hpfork, hpboot, hpfix, hpleave, hpcount, hplag, hpshrink⟩ := hq
  constructor
  case alive => exact h.alive
  case fits => exact h.fits
  case pos => exact h.pos
  case one => exact h.one
  case listed => exact fun i hi => h.listed i (by omega)
  case served =>
    intro q hq hqb
    rcases h.served q hq (by omega) with hs | hs
    · exact Or.inl hs
    · exact absurd hs (hb q)
  case blank => exact fun q hq => absurd hq (hpb q)
  case single => exact h.single
  case current => exact fun i hi => h.current i (by omega)
  case forked =>
    intro q r hf
    replace hf : p.forked s.qcount = some (q, r) := hf
    rw [hpf] at hf
    cases hf
  case free => exact fun hf => absurd hf hpfork
  case booting =>
    intro i hi
    rw [show Pc.booting _ = none from hpboot] at hi
    cases hi
  case fixing => exact fun r hr => absurd hr (hpfix r)
  case leaving =>
    intro i r hl
    rw [show Pc.leaving _ = none from hpleave] at hl
    cases hl
  case shrink => exact hpshrink
  case count => exact fun hc => absurd hc hpcount
  case killed =>
    rcases hk with hk | ⟨hk, hno⟩
    · exact Or.inl hk
    · refine Or.inr ⟨hk, ?_, fun q hf => ?_, hpfix _⟩
      · rintro ⟨i, hi, hie⟩
        exact hno ⟨i, by omega, hie⟩
      · replace hf : p.forked s.qcount = some (q, k) := hf
        rw [hpf] at hf
        cases hf
  case shm =>
    show (s.qcount : Int) = s.qcount + p.lag
    rw [hplag]
    omega

/-- The exit of queue-fix is collected by the main program. -/
theorem Inv.waited (h : Inv s) {f : Int} (hf : s.pc = .fixing f) :
    Inv { s.drop f with pc := .grow } := by
  have hb : s.bound = s.qcount + 1 := State.bound_eq (by rw [hf]; exact nofun)
  have hquiet : ∀ q, ¬ s.pc.blank s.qcount q := by
    intro q hq
    rw [hf] at hq
    exact hq
  obtain ⟨d, hd, hdp, hdj⟩ := h.fixing f hf
  have hother : ∀ {q p}, Sends s.children q p → p ≠ f := by
    rintro q p ⟨a, ha, rfl, haj, -⟩ heq
    rw [h.one a ha d hd (heq.trans hdp.symm), hdj] at haj
    cases haj
  have hs := h.shm
  rw [hf] at hs
  constructor
  case alive => exact h.alive
  case fits => exact h.fits
  case pos => exact fun ch hch => h.pos ch (mem_drop.mp hch).1
  case one => exact fun a ha b hb => h.one a (mem_drop.mp ha).1 b (mem_drop.mp hb).1
  case listed =>
    intro i hi hne
    have hl := h.listed i (hb ▸ hi) hne
    exact hl.drop (hother hl)
  case served =>
    intro q hq hqb
    rcases h.served q hq (hb ▸ hqb) with hs | hs
    · exact Or.inl hs
    · exact absurd hs (hquiet q)
  case blank => exact fun q hq => absurd hq id
  case single => exact fun q p p' hr hr' => h.single q p p' (runs_drop hr).1 (runs_drop hr').1
  case current => exact fun i hi hne p hr => h.current i (hb ▸ hi) hne p (runs_drop hr).1
  case forked => exact fun _ _ => nofun
  case free => exact nofun
  case booting => exact fun _ => nofun
  case fixing => exact fun _ => nofun
  case leaving => exact fun _ _ => nofun
  case shrink => exact fun _ => nofun
  case count => exact nofun
  case killed =>
    rcases h.killed with hk | ⟨hk, hno, -, hnf⟩
    · exact Or.inl hk
    · refine Or.inr ⟨hk.drop fun hkf => hnf (hkf ▸ hf), ?_, fun _ => nofun, nofun⟩
      exact fun ⟨i, hi, hie⟩ => hno ⟨i, hb ▸ hi, hie⟩
  case shm => exact hs

/-- The sender of the last queue is taken out of the table. -/
theorem Inv.forget (h : Inv s) (hp : s.pc = .shrink s.qcount) (hq : 1 < s.qcount) :
    Inv { s with
      queueTable := update s.queueTable s.qcount { s.queueTable s.qcount with pid := -1 }
      qcount := s.qcount - 1
      pc := .realloc s.qcount (s.queueTable s.qcount).pid } := by
  have hb : s.bound = s.qcount + 1 := State.bound_eq (by rw [hp]; exact nofun)
  have hquiet : ∀ q, ¬ s.pc.blank s.qcount q := by
    intro q hq
    rw [hp] at hq
    exact hq
  have hbt : State.bound { s with
      queueTable := update s.queueTable s.qcount { s.queueTable s.qcount with pid := -1 }
      qcount := s.qcount - 1
      pc := .realloc s.qcount (s.queueTable s.qcount).pid } = s.qcount := by
    have : s.qcount - 1 + 1 = s.qcount := by omega
    exact (if_neg nofun).trans this
  have hold : ∀ i, i < s.qcount →
      update s.queueTable s.qcount { s.queueTable s.qcount with pid := -1 } i = s.queueTable i :=
    fun i hi => update_of_ne (by omega) _ _
  have hpid : (s.queueTable s.qcount).pid ≠ -1 := by
    rcases h.served s.qcount (by omega) (by omega) with hs | hs
    · exact hs
    · exact absurd hs (hquiet _)
  have hs := h.shm
  rw [hp] at hs
  simp only [Pc.lag] at hs
  have hunlisted : ∀ r, ¬ s.Listed r → ¬ State.Listed r { s with
      queueTable := update s.queueTable s.qcount { s.queueTable s.qcount with pid := -1 }
      qcount := s.qcount - 1
      pc := .realloc s.qcount (s.queueTable s.qcount).pid } := by
    rintro r hno ⟨i, hi, hie⟩
    rw [hbt] at hi
    replace hie : (update s.queueTable s.qcount _ i).pid = r := hie
    rw [hold i hi] at hie
    exact hno ⟨i, by omega, hie⟩
  constructor
  case alive => exact h.alive
  case fits => exact Nat.lt_of_le_of_lt (Nat.sub_le _ _) h.fits
  case pos => exact h.pos
  case one => exact h.one
  case listed =>
    intro i hi hne
    rw [hbt] at hi
    show Sends s.children i (update s.queueTable s.qcount _ i).pid
    replace hne : (update s.queueTable s.qcount _ i).pid ≠ -1 := hne
    rw [hold i hi] at hne ⊢
    exact h.listed i (by omega) hne
  case served =>
    intro q hq' hqb
    rw [hbt] at hqb
    left
    show (update s.queueTable s.qcount _ q).pid ≠ -1
    rw [hold q hqb]
    rcases h.served q hq' (by omega) with hs | hs
    · exact hs
    · exact absurd hs (hquiet q)
  case blank => exact fun q hq => absurd hq id
  case single => exact h.single
  case current =>
    intro i hi hne r hr
    rw [hbt] at hi
    show r = (update s.queueTable s.qcount _ i).pid
    replace hne : (update s.queueTable s.qcount _ i).pid ≠ -1 := hne
    rw [hold i hi] at hne ⊢
    exact h.current i (by omega) hne r hr
  case forked => exact fun _ _ => nofun
  case free => exact nofun
  case booting => exact fun _ => nofun
  case fixing => exact fun _ => nofun
  case leaving =>
    intro i r hl
    cases hl
    refine ⟨(by omega : s.qcount = s.qcount - 1 + 1), ?_, ?_⟩
    · obtain ⟨ch, hch, hcp, -⟩ := h.listed s.qcount (by omega) hpid
      exact ⟨ch, hch, hcp⟩
    · rintro ⟨i, hi, hie⟩
      rw [hbt] at hi
      replace hie : (update s.queueTable s.qcount _ i).pid = (s.queueTable s.qcount).pid := hie
      rw [hold i hi] at hie
      have := h.index (by omega : i < s.bound) (by omega : s.qcount < s.bound)
        (by rw [hie]; exact hpid) hie
      omega
  case shrink => exact fun _ => nofun
  case count => exact nofun
  case killed =>
    rcases h.killed with hk | ⟨hk, hno, -⟩
    · exact Or.inl hk
    · exact Or.inr ⟨hk, hunlisted _ hno, fun _ => nofun, nofun⟩
  case shm =>
    show (s.shm.1 : Int) = ((s.qcount - 1 : Nat) : Int) + 1
    omega

/-- queue-fix is started. -/
theorem Inv.fix (h : Inv s) (ha : s.pc = .access) {f : Int}
    (hf : s.forkChild f .fix = some t) : Inv { t with pc := .fixing f } := by
  obtain ⟨hpos, hfresh, rfl⟩ := forkChild_some hf
  have hb : s.bound = s.qcount + 1 := State.bound_eq (by rw [ha]; exact nofun)
  have hquiet : ∀ q, ¬ s.pc.blank s.qcount q := by
    intro q hq
    rw [ha] at hq
    exact hq
  have hs := h.shm
  rw [ha] at hs
  have hruns : ∀ {q p}, Runs (⟨f, .fix, none⟩ :: s.children) q p → Runs s.children q p := by
    intro q p hr
    rcases runs_cons.mp hr with ⟨-, hj, -⟩ | hr
    · cases hj
    · exact hr
  constructor
  case alive => exact h.alive
  case fits => exact h.fits
  case pos =>
    intro ch hch
    rcases List.mem_cons.mp hch with rfl | hch
    · exact hpos
    · exact h.pos ch hch
  case one =>
    intro a ha b hb hab
    rcases List.mem_cons.mp ha with rfl | ha
    · rcases List.mem_cons.mp hb with rfl | hb
      · rfl
      · exact absurd hab.symm (hfresh b hb)
    · rcases List.mem_cons.mp hb with rfl | hb
      · exact absurd hab (hfresh a ha)
      · exact h.one a ha b hb hab
  case listed => exact fun i hi hne => (h.listed i (hb ▸ hi) hne).cons
  case served =>
    intro q hq hqb
    rcases h.served q hq (hb ▸ hqb) with hs | hs
    · exact Or.inl hs
    · exact absurd hs (hquiet q)
  case blank => exact fun q hq => absurd hq id
  case single => exact fun q p p' hr hr' => h.single q p p' (hruns hr) (hruns hr')
  case current => exact fun i hi hne p hr => h.current i (hb ▸ hi) hne p (hruns hr)
  case forked => exact fun _ _ => nofun
  case free => exact nofun
  case booting => exact fun _ => nofun
  case fixing =>
    intro g hg
    cases hg
    exact ⟨_, List.mem_cons_self, rfl, rfl⟩
  case leaving => exact fun _ _ => nofun
  case shrink => exact fun _ => nofun
  case count => exact nofun
  case killed =>
    rcases h.killed with hk | ⟨hk, hno, -⟩
    · exact Or.inl hk
    · refine Or.inr ⟨hk.cons, fun ⟨i, hi, hie⟩ => hno ⟨i, hb ▸ hi, hie⟩, fun _ => nofun, ?_⟩
      intro hfk
      obtain ⟨ch, hch, hcp⟩ := hk
      exact hfresh ch hch (hcp.trans (Pc.fixing.inj hfk).symm)
  case shm => exact hs

/-! ## Every step -/

/-- A move that leaves the table alone. -/
theorem Inv.goto (h : Inv s) {p : Pc} (m : Move s s.queueTable s.tableLen p) :
    Inv { s with pc := p } := h.move m

/-- The places from which a move to a quiet place needs nothing. -/
theorem Inv.toQuiet (h : Inv s) (hi : s.pc ≠ .init) (hl : s.pc.lag = 0)
    (hb : ∀ q ≤ s.qcount, 1 ≤ q → ¬ s.pc.blank s.qcount q) {p : Pc}
    (hp : p = .idle ∨ p = .access ∨ p = .grow ∨ p = .shrink s.qcount)
    {f : Nat → Qtab} (hf : ∀ q ≤ s.qcount, (f q).pid = (s.queueTable q).pid) :
    Inv { s with queueTable := f, pc := p } := by
  have m : Move s f s.tableLen p := by
    constructor
    case source => exact hi
    case target => rcases hp with rfl | rfl | rfl | rfl <;> exact nofun
    case fits => exact h.fits
    case pids => exact hf
    case lag => rcases hp with rfl | rfl | rfl | rfl <;> exact hl.symm
    case served => exact fun q hq hq1 hqb => absurd hqb (hb q hq hq1)
    case blank => rcases hp with rfl | rfl | rfl | rfl <;> exact fun q hq => absurd hq id
    case forked => rcases hp with rfl | rfl | rfl | rfl <;> rfl
    case free => rcases hp with rfl | rfl | rfl | rfl <;> exact nofun
    case booting => rcases hp with rfl | rfl | rfl | rfl <;> exact nofun
    case fixing => rcases hp with rfl | rfl | rfl | rfl <;> exact nofun
    case leaving => rcases hp with rfl | rfl | rfl | rfl <;> exact Or.inl rfl
    case shrink =>
      rcases hp with rfl | rfl | rfl | rfl
      · exact nofun
      · exact nofun
      · exact nofun
      · intro i he
        cases he
        rfl
    case count => rcases hp with rfl | rfl | rfl | rfl <;> exact nofun
  exact h.move m

theorem Inv.tick (h : Inv s) (hs : Steady c s .tick) (ht : tick c s = some t) : Inv t := by
  unfold Qscheduler.tick at ht
  split at ht
  case h_1 i hpc =>
    have hi : s.pc ≠ .init := by rw [hpc]; exact nofun
    have hboot := h.booting i (by rw [hpc]; rfl)
    split at ht
    · rename_i hlt
      cases ht
      refine h.toQuiet hi (by rw [hpc]; rfl) ?_ (Or.inl rfl) fun _ _ => rfl
      intro q hq _ hb
      rw [hpc] at hb
      have : i ≤ q := hb
      omega
    split at ht
    · rename_i h0
      cases ht
      refine h.goto ⟨hi, nofun, h.fits, fun _ _ => rfl, by rw [hpc]; rfl, ?_, ?_, rfl, nofun, ?_,
        nofun, Or.inl rfl, nofun, nofun⟩
      · intro q _ hq _
        exact hq
      · intro q hq
        apply h.blank
        rw [hpc, h0.1]
        exact Nat.zero_le q
      · intro k hk ch hch
        obtain ⟨j, hj, -⟩ := hboot ch hch
        omega
    split at ht
    · rename_i hlock
      exfalso
      have hno : s.checkSend i = false := by
        rw [checkSend_eq_false]
        rintro p ⟨ch, hch, -, hj, -⟩
        obtain ⟨j, hji, hjob⟩ := hboot ch hch
        rw [hjob] at hj
        cases hj
        omega
      rw [hno] at hlock
      cases hlock
    · cases ht
  case h_2 i pid hpc =>
    cases ht
    refine h.record (by rw [hpc]; rfl) nofun (by rw [hpc]; rfl) ?_ rfl nofun ?_ nofun rfl nofun
      nofun
    · intro k
      rw [hpc]
      show i + 1 ≤ k ↔ i ≤ k ∧ k ≠ i
      omega
    · intro k hk
      cases hk
      exact h.booting (i + 1) (by rw [hpc]; rfl)
  case h_3 hpc =>
    cases ht
    exact h.count_init hpc _
  case h_4 hpc =>
    rw [if_pos h.fits] at ht
    cases ht
    exact h.init_ipc hpc
  case h_5 hpc =>
    rw [if_neg (Nat.not_lt.mpr (hs.ipc rfl hpc))] at ht
    cases ht
    refine h.goto ⟨by rw [hpc]; exact nofun, nofun, h.fits, fun _ _ => rfl, by rw [hpc]; rfl,
      ?_, ?_, rfl, nofun, nofun, nofun, Or.inl rfl, nofun, nofun⟩
    · intro q _ _ hq
      rw [hpc] at hq
      exact hq
    · intro q hq
      apply h.blank
      rw [hpc]
      exact hq
  case h_6 hpc =>
    split at ht
    · cases ht
      exact h.check_locked hpc
    · rename_i hlock
      cases ht
      refine h.goto ⟨by rw [hpc]; exact nofun, nofun, h.fits, fun _ _ => rfl, by rw [hpc]; rfl,
        ?_, ?_, rfl, ?_, nofun, nofun, Or.inl rfl, nofun, nofun⟩
      · intro q _ _ hq
        rw [hpc] at hq
        exact hq
      · intro q hq
        apply h.blank
        rw [hpc]
        exact hq
      · intro _
        exact checkSend_eq_false.mp (by simpa using hlock)
  case h_7 pid hpc =>
    cases ht
    refine h.record (by rw [hpc]; rfl) nofun (by rw [hpc]; rfl) ?_ rfl nofun nofun nofun rfl nofun
      nofun
    intro k
    rw [hpc]
    exact ⟨fun hk => absurd hk id, fun hk => absurd hk.1 hk.2⟩
  case h_8 hpc =>
    cases ht
    have hk := h.killed
    refine h.written (by rw [hpc]; exact nofun) ?_ (Or.inl rfl)
      (hk.imp_right fun hh => ⟨hh.1, hh.2.1⟩)
    intro q hq
    rw [hpc] at hq
    exact hq
  case h_9 i hpc =>
    split at ht
    · cases ht
    · cases ht
      refine h.toQuiet (by rw [hpc]; exact nofun) (by rw [hpc]; rfl) ?_ (Or.inl rfl)
        fun _ _ => rfl
      intro q _ _ hq
      rw [hpc] at hq
      exact hq
  case h_10 i r hpc =>
    obtain ⟨hiq, ⟨ch, hch, hcp⟩, hno⟩ := h.leaving i r (by rw [hpc]; rfl)
    rw [if_pos (Or.inr ⟨ch, hch, hcp⟩)] at ht
    cases ht
    refine h.goto ⟨by rw [hpc]; exact nofun, nofun, h.fits, fun _ _ => rfl, by rw [hpc]; rfl,
      ?_, ?_, rfl, nofun, nofun, nofun, Or.inr (by rw [hpc]; rfl), nofun, nofun⟩
    · intro q _ _ hq
      rw [hpc] at hq
      exact hq
    · exact fun q hq => absurd hq id
  case h_11 i r hpc =>
    obtain ⟨rfl, hhas, hno⟩ := h.leaving i r (by rw [hpc]; rfl)
    cases ht
    refine h.written (by rw [hpc]; exact nofun) ?_ (Or.inr rfl) (Or.inr ⟨hhas, hno⟩)
    intro q hq
    rw [hpc] at hq
    exact hq
  case h_12 => cases ht

/-- A message changes no pid, and leads to a quiet place. -/
theorem Inv.message (h : Inv s) (hpc : s.pc = .idle) {q n : Nat}
    (hq : c.keepQcount = false → q < s.tableLen) : Inv (message c q n s) := by
  have hquiet : ∀ k ≤ s.qcount, 1 ≤ k → ¬ s.pc.blank s.qcount k := by
    intro k _ _ hk
    rw [hpc] at hk
    exact hk
  have hpids : ∀ k ≤ s.qcount,
      (update s.queueTable q { s.queueTable q with load := n } k).pid = (s.queueTable k).pid := by
    intro k _
    by_cases hkq : k = q
    · rw [hkq, update_self]
    · rw [update_of_ne hkq]
  have hi : s.pc ≠ .init := by rw [hpc]; exact nofun
  have hl : s.pc.lag = 0 := by rw [hpc]; rfl
  unfold Qscheduler.message
  split
  · exact h
  rename_i hkeep
  rw [if_pos (hq (by simpa using hkeep))]
  dsimp only
  rw [if_neg (Nat.not_le.mpr h.fits)]
  split
  · exact h.toQuiet hi hl hquiet (Or.inr (Or.inl rfl)) hpids
  · exact h.toQuiet hi hl hquiet (Or.inr (Or.inr (Or.inr rfl))) hpids

theorem Inv.alloc (h : Inv s) (mem : Nat → Qtab) {p : Pc}
    (hp : s.pc = .grow ∧ p = .count ∨ ∃ i r, s.pc = .realloc i r ∧ p = .kill i r) :
    Inv { s.allocRe (s.qcount + 1) (s.qcount + 2) mem with pc := p } := by
  refine h.move ?_
  have hpids : ∀ q ≤ s.qcount, (if q < s.qcount + 1 then s.queueTable q else mem q).pid
      = (s.queueTable q).pid := by
    intro q hq
    rw [if_pos (Nat.lt_succ_of_le hq)]
  rcases hp with ⟨hpc, rfl⟩ | ⟨i, r, hpc, rfl⟩
  · refine ⟨by rw [hpc]; exact nofun, nofun, Nat.lt_add_of_pos_right (by decide), hpids,
      by rw [hpc]; rfl, ?_, fun q hq => absurd hq id, rfl, nofun, nofun, nofun, Or.inl rfl, nofun,
      fun _ => Nat.lt_succ_self _⟩
    intro q _ _ hq
    rw [hpc] at hq
    exact hq
  · refine ⟨by rw [hpc]; exact nofun, nofun, Nat.lt_add_of_pos_right (by decide), hpids,
      by rw [hpc]; rfl, ?_, fun q hq => absurd hq id, rfl, nofun, nofun, nofun,
      Or.inr (by rw [hpc]; rfl), nofun, nofun⟩
    intro q _ _ hq
    rw [hpc] at hq
    exact hq

/-- **A steady step keeps the invariant.** -/
theorem Inv.step (h : Inv s) {l : Label} (hs : Steady c s l) (ht : step c s l = some t) :
    Inv t := by
  unfold Qscheduler.step at ht
  rw [if_neg (by simp [h.alive])] at ht
  split at ht
  case h_1 pid e =>
    refine h.ended ?_ ht
    rintro rfl
    exact hs.ended pid rfl
  case h_2 as => exact h.sigchld (hs.sigchld as rfl) ht
  case h_3 => exact h.tick hs ht
  case h_4 q n hpc =>
    cases ht
    exact h.message hpc (hs.message q n rfl)
  case h_5 hpc =>
    cases ht
    refine h.toQuiet (by rw [hpc]; exact nofun) (by rw [hpc]; rfl) ?_
      (Or.inr (Or.inr (Or.inl rfl))) fun _ _ => rfl
    intro q _ _ hq
    rw [hpc] at hq
    exact hq
  case h_6 fix hpc =>
    obtain ⟨u, hu, rfl⟩ := Option.map_eq_some_iff.mp ht
    exact h.fix hpc hu
  case h_7 hpc =>
    cases ht
    refine h.toQuiet (by rw [hpc]; exact nofun) (by rw [hpc]; rfl) ?_ (Or.inl rfl) fun _ _ => rfl
    intro q _ _ hq
    rw [hpc] at hq
    exact hq
  case h_8 pid hpc =>
    obtain ⟨d, hd, hdp, hdj⟩ := h.fixing pid hpc
    unfold waitFix at ht
    split at ht
    · rename_i hnone
      have := List.find?_eq_none.mp hnone d hd
      simp [hdp] at this
    · rename_i ch hfind
      obtain ⟨hch, hcp⟩ := find?_pid hfind
      obtain rfl := h.one ch hch d hd (hcp.trans hdp.symm)
      rcases hs.fix rfl ch hch hdj with he | he
      · rw [he] at ht
        cases ht
      · rw [he] at ht
        cases ht
        exact h.waited hpc
  case h_9 mem hpc =>
    cases ht
    exact h.alloc mem (Or.inl ⟨hpc, rfl⟩)
  case h_10 pid i hpc =>
    split at ht
    · cases ht
    rename_i hgo
    simp only [not_or, not_and] at hgo
    obtain ⟨u, hu, rfl⟩ := Option.map_eq_some_iff.mp ht
    refine h.fork (by omega) (checkSend_eq_false.mp (by simpa using hgo.2.2))
      (by rw [hpc]; exact Nat.le_refl i) rfl (by rw [hpc]; rfl) ?_ ?_ hu
    · intro k
      rw [hpc]
      exact Iff.rfl
    · intro k hk
      cases hk
      refine ⟨Nat.lt_succ_self i, fun ch hch => ?_⟩
      obtain ⟨j, hj, hjob⟩ := h.booting i (by rw [hpc]; rfl) ch hch
      exact ⟨j, Nat.lt_succ_of_lt hj, hjob⟩
  case h_11 pid hpc =>
    obtain ⟨u, hu, rfl⟩ := Option.map_eq_some_iff.mp ht
    refine h.fork (Nat.le_refl _) (h.free hpc) (by rw [hpc]; exact rfl) ?_ (by rw [hpc]; rfl) ?_
      nofun hu
    · rfl
    · intro k
      rw [hpc]
      exact Iff.rfl
  case h_12 b i hpc =>
    obtain rfl := h.shrink i hpc
    split at ht
    · cases ht
    rename_i hlt
    split at ht
    · rw [if_pos h.fits] at ht
      cases ht
      exact h.forget hpc (by omega)
    · cases ht
      refine h.toQuiet (by rw [hpc]; exact nofun) (by rw [hpc]; rfl) ?_ (Or.inl rfl)
        fun _ _ => rfl
      intro q _ _ hq
      rw [hpc] at hq
      exact hq
  case h_13 mem i r hpc =>
    cases ht
    exact h.alloc mem (Or.inr ⟨i, r, hpc, rfl⟩)
  case h_14 => cases ht

/-! ## Every run -/

end IndimailMta.Qscheduler
