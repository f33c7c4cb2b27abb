import IndimailMta.Qscheduler.Senders

/-!
# qscheduler: exits and the handler

What happens without the main program: a child ends, and the handler of SIGCHLD collects the
children that ended and starts their senders again. The handler keeps the invariant where every
child it can find is in the table.
-/

namespace IndimailMta.Qscheduler

open Run Function

variable {c : Config} {s t : State}

/-- A child ends. -/
theorem Inv.ended (h : Inv s) {pid : Int} {e : Ended}
    (hn : e = .exited 0 → ¬ s.Listed pid ∧ ∀ q, s.pc.forked s.qcount ≠ some (q, pid))
    (he : s.endChild pid e = some t) : Inv t := by
  obtain ⟨ht, hc⟩ := endChild_some he
  rw [hc] at ht
  subst ht
  have hsame : ∀ ch, (if ch.pid = pid then { ch with ended := some e } else ch : Child).pid = ch.pid ∧
      (if ch.pid = pid then { ch with ended := some e } else ch : Child).job = ch.job := by
    intro ch
    split <;> exact ⟨rfl, rfl⟩
  constructor
  case alive => exact h.alive
  case fits => exact h.fits
  case pos =>
    intro ch hch
    obtain ⟨d, hd, rfl⟩ := List.mem_map.mp hch
    rw [(hsame d).1]
    exact h.pos d hd
  case one =>
    intro a ha b hb hab
    obtain ⟨a', ha', rfl⟩ := List.mem_map.mp ha
    obtain ⟨b', hb', rfl⟩ := List.mem_map.mp hb
    rw [(hsame a').1, (hsame b').1] at hab
    rw [h.one a' ha' b' hb' hab]
  case listed =>
    intro i hi hp
    refine (h.listed i hi hp).end fun h0 => ?_
    rintro heq
    exact (hn h0).1 ⟨i, hi, heq⟩
  case served => exact h.served
  case blank => exact h.blank
  case single => exact fun q p p' hr hr' => h.single q p p' (runs_end hr) (runs_end hr')
  case current => exact fun i hi hp p hr => h.current i hi hp p (runs_end hr)
  case forked =>
    intro q p hf
    obtain ⟨hq, hs, hr⟩ := h.forked q p hf
    refine ⟨hq, hs.end fun h0 => ?_, fun p' hr' => hr p' (runs_end hr')⟩
    rintro rfl
    exact (hn h0).2 q hf
  case free => exact fun hf p hr => h.free hf p (runs_end hr)
  case booting =>
    intro k hk ch hch
    obtain ⟨d, hd, rfl⟩ := List.mem_map.mp hch
    rw [(hsame d).2]
    exact h.booting k hk d hd
  case fixing =>
    intro f hf
    obtain ⟨d, hd, hp, hj⟩ := h.fixing f hf
    exact ⟨_, List.mem_map.mpr ⟨d, hd, rfl⟩, (hsame d).1.trans hp, (hsame d).2.trans hj⟩
  case leaving =>
    intro i r hl
    obtain ⟨hi, hr, hno⟩ := h.leaving i r hl
    exact ⟨hi, hr.end, hno⟩
  case shrink => exact h.shrink
  case count => exact h.count
  case killed =>
    rcases h.killed with hk | ⟨hk, hno, hf⟩
    · exact Or.inl hk
    · exact Or.inr ⟨hk.end, hno, hf⟩
  case shm => exact h.shm

theorem locate_some {pid : Int} {i : Nat} (h : s.locate pid = some i) :
    i ≤ s.qcount ∧ (s.queueTable i).pid = pid := by
  have hp := List.find?_some h
  have hm := List.mem_of_find?_eq_some h
  rw [List.mem_range] at hm
  exact ⟨by omega, by simpa using hp⟩

/-- The search finds a pid that is in the table where it is. -/
theorem Inv.locate (h : Inv s) {pid : Int} {i : Nat} (hi : i < s.bound)
    (hp : (s.queueTable i).pid = pid) (hpos : pid ≠ -1) : s.locate pid = some i := by
  have hle : i < s.qcount + 1 := by
    unfold State.bound at hi
    split at hi <;> omega
  cases hl : s.locate pid with
  | none =>
      have hno := List.find?_eq_none.mp hl i (List.mem_range.mpr hle)
      exact absurd hp (by simpa using hno)
  | some j =>
      obtain ⟨hj, hpj⟩ := locate_some hl
      by_cases hjb : j < s.bound
      · rw [h.index hi hjb (by rw [hp]; exact hpos) (hp.trans hpj.symm)]
      · -- The last entry was not assigned yet, and the search comes to `i` before it.
        exfalso
        have hij : i < j := by omega
        have hfirst : ∀ k < j, (s.queueTable k).pid ≠ pid := by
          intro k hk
          have hfind := List.find?_range_eq_some.mp hl
          have := hfind.2.2 k hk
          simpa using this
        exact hfirst i hij hp

theorem Pc.blank_of_forked {pc : Pc} {qcount q : Nat} {p : Int}
    (h : pc.forked qcount = some (q, p)) : pc.blank qcount q := by
  cases pc with
  | booted i r =>
      cases h
      exact Nat.le_refl q
  | started r =>
      cases h
      exact rfl
  | _ => cases h

theorem Pc.lt_of_booting {pc : Pc} {qcount k i : Nat} (h : pc.booting = some k)
    (hb : ¬ pc.blank qcount i) : i < k := by
  cases pc with
  | boot j =>
      cases h
      exact Nat.lt_of_not_le hb
  | booted j p =>
      cases h
      exact Nat.lt_succ_of_lt (Nat.lt_of_not_le hb)
  | _ => cases h

/-- Every child that ended is in the table. -/
def EndedListed (s : State) : Prop := ∀ ch ∈ s.children, ch.ended ≠ none → s.Listed ch.pid

/-- What a restart does: a new child is there for the one that died, and its pid in the table. -/
theorem Inv.restart_eq (h : Inv s) {pid new : Int} {i : Nat} (hi : i < s.bound)
    (hpi : (s.queueTable i).pid = pid) (hpos : 0 < pid)
    (hr : (s.drop pid).restart pid new = some t) :
    0 < new ∧ (∀ ch ∈ (s.drop pid).children, ch.pid ≠ new) ∧
      t = { s with
        children := ⟨new, .send i, none⟩ :: (s.drop pid).children
        queueTable := update s.queueTable i { s.queueTable i with pid := new, load := 0 } } := by
  have hne : pid ≠ -1 := by omega
  have hpi' : (s.queueTable i).pid ≠ -1 := by rw [hpi]; exact hne
  have hloc : (s.drop pid).locate pid = some i := h.locate hi hpi hne
  have hidle : ∀ p, ¬ Runs (s.drop pid).children i p := by
    intro p hrun
    obtain ⟨hrun, hp⟩ := runs_drop hrun
    exact hp ((h.current i hi hpi' p hrun).trans hpi)
  have hlen : i < s.tableLen := by
    have := h.fits
    unfold State.bound at hi
    split at hi <;> omega
  unfold State.restart at hr
  simp only [hloc, checkSend_eq_false.mpr hidle, Bool.false_eq_true, if_false] at hr
  obtain ⟨u, hu, rfl⟩ := Option.map_eq_some_iff.mp hr
  obtain ⟨hnew, hfresh, rfl⟩ := forkChild_some hu
  exact ⟨hnew, hfresh, if_pos hlen⟩

/-- The children that ended stay in the table. -/
theorem EndedListed.restart (h : Inv s) (hl : EndedListed s) {pid new : Int} {i : Nat}
    (hi : i < s.bound) (hpi : (s.queueTable i).pid = pid) (hpos : 0 < pid)
    (hr : (s.drop pid).restart pid new = some t) : EndedListed t := by
  obtain ⟨-, -, rfl⟩ := h.restart_eq hi hpi hpos hr
  intro ch hch hend
  rcases List.mem_cons.mp hch with rfl | hch
  · exact absurd rfl hend
  · obtain ⟨hch, hpne⟩ := mem_drop.mp hch
    obtain ⟨k, hk, hkp⟩ := hl ch hch hend
    refine ⟨k, hk, ?_⟩
    rw [pid_update, if_neg]
    · exact hkp
    · rintro rfl
      exact hpne (hkp.symm.trans hpi)

/-- **A sender that died is started again in its place.** -/
theorem Inv.restart (h : Inv s) {pid new : Int} {i : Nat} (hi : i < s.bound)
    (hpi : (s.queueTable i).pid = pid) (hpos : 0 < pid)
    (hr : (s.drop pid).restart pid new = some t) : Inv t := by
  obtain ⟨hnew, hfresh, rfl⟩ := h.restart_eq hi hpi hpos hr
  have hpi' : (s.queueTable i).pid ≠ -1 := by omega
  have hblank : ∀ q, s.pc.blank s.qcount q → q ≠ i := by
    rintro q hb rfl
    exact hpi' (h.blank q hb)
  have hat := pid_update s.queueTable i new
  have hruns : ∀ {q p}, Runs (⟨new, .send i, none⟩ :: (s.drop pid).children) q p →
      p = new ∧ q = i ∨ Runs s.children q p ∧ p ≠ pid := by
    intro q p hrun
    rcases runs_cons.mp hrun with ⟨rfl, hj, -⟩ | hrun
    · cases hj
      exact Or.inl ⟨rfl, rfl⟩
    · exact Or.inr (runs_drop hrun)
  have hstill : ∀ p, Has s.children p → ¬ s.Listed p → p ≠ pid ∧ p ≠ new := by
    intro p hp hno
    have hpp : p ≠ pid := by
      rintro rfl
      exact hno ⟨i, hi, hpi⟩
    refine ⟨hpp, ?_⟩
    obtain ⟨d, hd, rfl⟩ := hp.drop hpp
    exact hfresh d hd
  have hlisted : ∀ p, Has s.children p → ¬ s.Listed p →
      ¬ ∃ k < s.bound,
        (update s.queueTable i { s.queueTable i with pid := new, load := 0 } k).pid = p := by
    rintro p hp hno ⟨k, hk, hkp⟩
    rw [hat] at hkp
    split at hkp
    · exact (hstill p hp hno).2 hkp.symm
    · exact hno ⟨k, hk, hkp⟩
  constructor
  case alive => exact h.alive
  case fits => exact h.fits
  case pos =>
    intro ch hch
    rcases List.mem_cons.mp hch with rfl | hch
    · exact hnew
    · exact h.pos ch (mem_drop.mp hch).1
  case one =>
    intro a ha b hb hab
    rcases List.mem_cons.mp ha with rfl | ha
    · rcases List.mem_cons.mp hb with rfl | hb
      · rfl
      · exact absurd hab.symm (hfresh b hb)
    · rcases List.mem_cons.mp hb with rfl | hb
      · exact absurd hab (hfresh a ha)
      · exact h.one a (mem_drop.mp ha).1 b (mem_drop.mp hb).1 hab
  case listed =>
    intro k hk hp
    show Sends (_ :: (s.drop pid).children) k (update s.queueTable i _ k).pid
    rw [hat]
    replace hp : (update s.queueTable i _ k).pid ≠ -1 := hp
    rw [hat] at hp
    split
    · -- the new child has the place of the one that died
      rename_i hki
      subst hki
      exact ⟨_, List.mem_cons_self, rfl, rfl, nofun⟩
    · rename_i hki
      rw [if_neg hki] at hp
      refine ((h.listed k hk hp).drop ?_).cons
      intro heq
      exact hki (h.index hk hi hp (heq.trans hpi.symm))
  case served =>
    intro q hq hqb
    show (update s.queueTable i _ q).pid ≠ -1 ∨ _
    rw [hat]
    split
    · exact Or.inl (by omega)
    · exact h.served q hq hqb
  case blank =>
    intro q hq
    show (update s.queueTable i _ q).pid = -1
    rw [hat, if_neg (hblank q hq)]
    exact h.blank q hq
  case single =>
    intro q p p' hp hp'
    rcases hruns hp with ⟨rfl, rfl⟩ | ⟨hold, hpne⟩
    · -- a sender of the queue that runs is the one of the table, which died
      rcases hruns hp' with ⟨rfl, -⟩ | ⟨hold', hpne'⟩
      · rfl
      · exact absurd ((h.current q hi hpi' p' hold').trans hpi) hpne'
    · rcases hruns hp' with ⟨rfl, rfl⟩ | ⟨hold', -⟩
      · exact absurd ((h.current q hi hpi' p hold).trans hpi) hpne
      · exact h.single q p p' hold hold'
  case current =>
    intro k hk hp p hrun
    show p = (update s.queueTable i _ k).pid
    replace hp : (update s.queueTable i _ k).pid ≠ -1 := hp
    rw [hat] at hp ⊢
    rcases hruns hrun with ⟨rfl, rfl⟩ | ⟨hold, hpne⟩
    · rw [if_pos rfl]
    · split
      · rename_i hki
        subst hki
        exact absurd ((h.current k hi hpi' p hold).trans hpi) hpne
      · rename_i hki
        rw [if_neg hki] at hp
        exact h.current k hk hp p hold
  case forked =>
    intro q p hf
    obtain ⟨hq, hs, hr⟩ := h.forked q p hf
    have hqi := hblank q (Pc.blank_of_forked hf)
    refine ⟨hq, (hs.drop ?_).cons, ?_⟩
    · rintro rfl
      obtain ⟨a, ha, hap, haj, -⟩ := hs
      obtain ⟨b, hb, hbp, hbj, -⟩ := h.listed i hi hpi'
      have hab := h.one a ha b hb (by rw [hap, hbp, hpi])
      rw [hab, hbj] at haj
      cases haj
      exact hqi rfl
    · intro p' hrun
      rcases hruns hrun with ⟨-, hqi'⟩ | ⟨hrun, -⟩
      · exact absurd hqi' hqi
      · exact hr p' hrun
  case free =>
    intro hf p hrun
    have hqi := hblank s.qcount (by
      have hf : s.pc = .fork := hf
      rw [hf]
      exact rfl)
    rcases hruns hrun with ⟨-, hqi'⟩ | ⟨hrun, -⟩
    · exact hqi hqi'
    · exact h.free hf p hrun
  case booting =>
    intro k hk ch hch
    rcases List.mem_cons.mp hch with rfl | hch
    · exact ⟨i, Pc.lt_of_booting hk fun hb => hblank i hb rfl, rfl⟩
    · exact h.booting k hk ch (mem_drop.mp hch).1
  case fixing =>
    intro f hf
    obtain ⟨d, hd, rfl, hj⟩ := h.fixing f hf
    refine ⟨d, List.mem_cons_of_mem _ (mem_drop.mpr ⟨hd, ?_⟩), rfl, hj⟩
    intro hdp
    obtain ⟨b, hb, hbp, hbj, -⟩ := h.listed i hi hpi'
    have hab := h.one d hd b hb (by rw [hbp, hdp, hpi])
    rw [hab, hbj] at hj
    cases hj
  case leaving =>
    intro k r hk
    obtain ⟨hkq, hr, hno⟩ := h.leaving k r hk
    exact ⟨hkq, (hr.drop (hstill r hr hno).1).cons, hlisted r hr hno⟩
  case shrink => exact h.shrink
  case count => exact h.count
  case killed =>
    rcases h.killed with hk | ⟨hk, hno, hf⟩
    · exact Or.inl hk
    · exact Or.inr ⟨(hk.drop (hstill _ hk hno).1).cons, hlisted _ hk hno, hf⟩
  case shm => exact h.shm

/-- **The handler keeps the senders** where the children that ended are those of the table. -/
theorem Inv.sigchld {as : List (Int × Int)} (h : Inv s) (hl : EndedListed s)
    (hs : sigchld as s = some t) : Inv t := by
  induction as generalizing s with
  | nil =>
      unfold Qscheduler.sigchld at hs
      split at hs
      · cases hs
      · cases hs
        exact h
  | cons a as ih =>
      obtain ⟨pid, new⟩ := a
      unfold Qscheduler.sigchld at hs
      split at hs
      · cases hs
      rename_i e he
      obtain ⟨ch, hfind, hend⟩ := Option.bind_eq_some_iff.mp he
      obtain ⟨hch, rfl⟩ := find?_pid hfind
      have hpos := h.pos ch hch
      obtain ⟨i, hi, hpi⟩ := hl ch hch (by rw [hend]; exact Option.some_ne_none e)
      have hne : ch.pid ≠ -1 := by omega
      have hpi' : (s.queueTable i).pid ≠ -1 := by rw [hpi]; exact hne
      have hloc : (s.drop ch.pid).locate ch.pid = some i := h.locate hi hpi hne
      have hkilled : ch.pid ≠ s.killed := by
        intro hk
        rcases h.killed with h0 | ⟨-, hno, -, -⟩
        · omega
        · exact hno ⟨i, hi, hpi.trans hk⟩
      have he0 : e ≠ .exited 0 := by
        rintro rfl
        obtain ⟨b, hb, hbp, -, hbe⟩ := h.listed i hi hpi'
        rw [h.one b hb ch hch (hbp.trans hpi)] at hbe
        exact hbe hend
      dsimp only at hs
      rw [if_neg (by simpa [State.drop] using h.fits), if_neg (by rw [hloc]; exact Option.some_ne_none i),
        if_neg (show ¬ ch.pid = (s.drop ch.pid).killed from hkilled), if_neg he0] at hs
      obtain ⟨u, hu, hs⟩ := Option.bind_eq_some_iff.mp hs
      have hiu := h.restart hi hpi hpos hu
      rw [if_neg (by simp [hiu.alive])] at hs
      exact ih hiu (EndedListed.restart h hl hi hpi hpos hu) hs

end IndimailMta.Qscheduler
