import IndimailMta.Send.Holds
import IndimailMta.Spawn.Commands

/-!
# Delivery slots

`Accounted s` is what the slot array promises in a state: every read so far was of
an allocated slot, `concurrencyused` counts the used slots and stays below the
limit the spawner announced, and a report for a started delivery frees its slot
and closes its job once.

A control file can break it. `regetcontrols` stores whatever number it reads in
`concurrency`, the variable that bounds the scan of `del_start` and the slot
numbers `del_dochan` accepts, while the array keeps the size it had at start-up.
`accounted_of_run` says under which steps nothing goes wrong: a new limit stays
above every slot in use, and no slot outside the array (or with a number that
does not survive the pipe) is taken or named by a report.
-/

namespace IndimailMta.Send

open IndimailMta Prioq Run
open Function (update update_of_ne)

/-! ## §1 What the array promises -/

/-- The used slots of a channel. -/
def usedSlots (s : State) (c : Channel) : Finset Nat :=
  (Finset.range (s.slots c)).filter fun i => (s.del c i).used = true

/-- The jobs closed so far, the last one first. -/
def closedJobs (trace : List Event) : List Nat :=
  trace.filterMap fun e => match e with
    | .jobClose j => some j
    | _ => none

/-- The slot accounting is right. -/
structure Accounted (s : State) : Prop where
  /-- Only allocated slots were read. -/
  index : ∀ c i n, Event.index c i n ∈ s.trace → i < n
  /-- A report for a started delivery frees its slot and closes its job once. -/
  accepted : ∀ c i, (s.del c i).used = true → ∀ (o : ReportAnswers) (r : Spawn.Report),
    r.slot = i → ((delReport o c r.dline s).del c i).used = false ∧
      closedJobs (delReport o c r.dline s).trace = (s.del c i).j :: closedJobs s.trace
  /-- `concurrencyused` counts the used slots. -/
  counted : ∀ c, s.concurrencyused c = (usedSlots s c).card
  /-- It never exceeds what the spawner announced. -/
  limit : ∀ c, s.concurrencyused c ≤ s.spawnlimit c

/-! ## §2 The invariant -/

/-- The variables of the slot accounting, and the reads of the slot array so far. -/
structure SlotView where
  slots : Channel → Nat
  spawnlimit : Channel → Nat
  concurrency : Channel → Nat
  concurrencyused : Channel → Nat
  del : Channel → Nat → Del
  trace : List Event

def slotView (s : State) : SlotView :=
  ⟨s.slots, s.spawnlimit, s.concurrency, s.concurrencyused, s.del, s.trace⟩

/-- Used slots are allocated, below the limit and below 2^15; the rest is counting. -/
structure SlotView.Ok (v : SlotView) : Prop where
  index : ∀ c i n, Event.index c i n ∈ v.trace → i < n
  slots_le : ∀ c, v.slots c ≤ v.spawnlimit c
  used_lt : ∀ c i, (v.del c i).used = true →
    i < v.slots c ∧ i < v.concurrency c ∧ i < 32768
  count : ∀ c, v.concurrencyused c =
    ((Finset.range (v.slots c)).filter fun i => (v.del c i).used = true).card

section View

variable {v : SlotView}

/-- Events that are no reads of the array. -/
theorem SlotView.Ok.log (h : v.Ok) {l : List Event}
    (hes : ∀ e ∈ l, ∀ c i n, e ≠ .index c i n) : { v with trace := l ++ v.trace }.Ok :=
  { h with
    index := fun c i n hmem => by
      rcases List.mem_append.mp hmem with he | he
      · exact absurd rfl (hes _ he c i n)
      · exact h.index c i n he }

/-- Reads of allocated slots. -/
theorem SlotView.Ok.scan (h : v.Ok) {c : Channel} {n : Nat} (hn : n ≤ v.slots c) :
    { v with
      trace := (List.range n).reverse.map (fun i => Event.index c i (v.slots c)) ++ v.trace }.Ok :=
  { h with
    index := fun d i m hmem => by
      rcases List.mem_append.mp hmem with he | he
      · obtain ⟨k, hk, he⟩ := List.mem_map.mp he
        have hk := List.mem_range.mp (List.mem_reverse.mp hk)
        simp only [Event.index.injEq] at he
        omega
      · exact h.index d i m he }

/-- A free slot is taken. -/
theorem SlotView.Ok.take (h : v.Ok) {c : Channel} {i : Nat} {d : Del}
    (hi : i < v.slots c ∧ i < v.concurrency c ∧ i < 32768) (hfree : (v.del c i).used = false)
    (hd : d.used = true) :
    { v with
      del := update₂ v.del c i d
      concurrencyused := update v.concurrencyused c (v.concurrencyused c + 1) }.Ok := by
  refine { h with used_lt := fun e k hk => ?_, count := fun e => ?_ }
  · by_cases hek : e = c ∧ k = i
    · obtain ⟨rfl, rfl⟩ := hek
      exact hi
    · change (update₂ v.del c i d e k).used = true at hk
      rw [update₂_of_ne v.del d hek] at hk
      exact h.used_lt e k hk
  · by_cases he : e = c
    · subst he
      have hset : ((Finset.range (v.slots e)).filter fun k =>
          (update₂ v.del e i d e k).used = true) =
          insert i ((Finset.range (v.slots e)).filter fun k => (v.del e k).used = true) := by
        ext k
        by_cases hk : k = i
        · subst hk
          simp [hd, hi.1]
        · simp [update₂_of_ne v.del d (fun hh : e = e ∧ k = i => hk hh.2), hk]
      simp only [hset, Function.update_self]
      rw [Finset.card_insert_of_notMem (by simp [hfree]), h.count e]
    · have hsame : ∀ k, update₂ v.del c i d e k = v.del e k :=
        fun k => update₂_of_ne v.del d (fun hh => he hh.1)
      simp only [hsame, update_of_ne he]
      exact h.count e

/-- A used slot is freed. -/
theorem SlotView.Ok.free (h : v.Ok) {c : Channel} {i : Nat} {d : Del}
    (hused : (v.del c i).used = true) (hd : d.used = false) :
    { v with
      del := update₂ v.del c i d
      concurrencyused := update v.concurrencyused c (v.concurrencyused c - 1) }.Ok := by
  refine { h with used_lt := fun e k hk => ?_, count := fun e => ?_ }
  · by_cases hek : e = c ∧ k = i
    · obtain ⟨rfl, rfl⟩ := hek
      change (update₂ v.del e k d e k).used = true at hk
      rw [update₂_self, hd] at hk
      exact absurd hk (by decide)
    · change (update₂ v.del c i d e k).used = true at hk
      rw [update₂_of_ne v.del d hek] at hk
      exact h.used_lt e k hk
  · by_cases he : e = c
    · subst he
      have hset : ((Finset.range (v.slots e)).filter fun k =>
          (update₂ v.del e i d e k).used = true) =
          ((Finset.range (v.slots e)).filter fun k => (v.del e k).used = true).erase i := by
        ext k
        by_cases hk : k = i
        · subst hk
          simp [hd]
        · simp [update₂_of_ne v.del d (fun hh : e = e ∧ k = i => hk hh.2), hk]
      have hin : i ∈ (Finset.range (v.slots e)).filter fun k => (v.del e k).used = true := by
        simp [hused, (h.used_lt e i hused).1]
      simp only [hset, Function.update_self]
      rw [Finset.card_erase_of_mem hin, h.count e]
    · have hsame : ∀ k, update₂ v.del c i d e k = v.del e k :=
        fun k => update₂_of_ne v.del d (fun hh => he hh.1)
      simp only [hsame, update_of_ne he]
      exact h.count e

/-- New limits above every used slot. -/
theorem SlotView.Ok.relimit (h : v.Ok) {f : Channel → Nat}
    (hf : ∀ c i, (v.del c i).used = true → i < f c) : { v with concurrency := f }.Ok :=
  { h with
    used_lt := fun c i hi => ⟨(h.used_lt c i hi).1, hf c i hi, (h.used_lt c i hi).2.2⟩ }

end View

theorem slotsOk_startup (k : StartConf) (fs : Fs) {trace : List Event}
    (ht : ∀ c i n, Event.index c i n ∈ trace → i < n) :
    (slotView (startup k fs trace)).Ok where
  index := ht
  slots_le := fun c => Nat.min_le_right _ _
  used_lt := fun _ _ hi => by simp [slotView, startup] at hi
  count := fun c => by simp [slotView, startup]

/-! ## §3 What the invariant gives -/

theorem closedJobs_append_of_plain {es : List Event} (hes : ∀ e ∈ es, ∀ j, e ≠ .jobClose j)
    (t : List Event) : closedJobs (es ++ t) = closedJobs t := by
  have hnil : closedJobs es = [] := by
    rw [closedJobs, List.filterMap_eq_nil_iff]
    intro e he
    cases e with
    | jobClose j => exact absurd rfl (hes _ he j)
    | _ => rfl
  unfold closedJobs at hnil ⊢
  rw [List.filterMap_append, hnil, List.nil_append]

private theorem isUnlink_plain {e : Event} (h : e.isUnlink = true) :
    (∀ j, e ≠ .jobClose j) ∧ ∀ c i n, e ≠ .index c i n := by
  cases e <;> simp [Event.isUnlink] at h ⊢

private theorem isSettle_plain {e : Event} (h : e.isSettle = true) :
    (∀ j, e ≠ .jobClose j) ∧ ∀ c i n, e ≠ .index c i n := by
  cases e <;> simp [Event.isSettle] at h ⊢

private theorem isDone_plain {e : Event} (h : e.isDone = true) : ∀ c i n, e ≠ .index c i n := by
  cases e <;> simp [Event.isDone] at h ⊢

/-- A report on a used slot: the slot is freed, and its job closed once. -/
theorem delReport_accepts {s : State} {o : ReportAnswers} {c : Channel} {dline : Bytes} {i : Nat}
    (hi : reportDelnum dline = i) (hlt : i < s.concurrency c) (hused : (s.del c i).used = true) :
    ∃ es₁ es₂ jo fs q d, (∀ e ∈ es₁, e.isUnlink = true) ∧ (∀ e ∈ es₂, e.isSettle = true) ∧
      delReport o c dline s =
        { s with
          jo := jo, fs := fs, pqchan := q, pqdone := d
          del := update₂ s.del c i { s.del c i with used := false }
          concurrencyused := update s.concurrencyused c (s.concurrencyused c - 1)
          trace := es₁ ++ .jobClose (s.del c i).j ::
            (es₂ ++ .index c i (s.slots c) :: s.trace) } := by
  have hnat : (reportDelnum dline).toNat = i := by rw [hi]; rfl
  rcases delReport_cases s o c dline with ⟨hrange, _⟩ | ⟨_, _, hfree, _⟩ | ⟨_, _, _, he⟩
  · omega
  · rw [hnat, hused] at hfree
    exact absurd hfree (by decide)
  · rw [hnat] at he
    obtain ⟨n, fs, es₂, h₂, hs⟩ := settle_writes (logIndex c i s) o c (s.del c i)
      (effectiveReport (s.jo (s.del c i).j) dline)
    obtain ⟨q, d, fs', es₁, h₁, hj⟩ := jobClose_writes
      (settle o c (s.del c i) (effectiveReport (s.jo (s.del c i).j) dline) (logIndex c i s))
      o.close (s.del c i).j
    rw [he, hj, hs]
    exact ⟨es₁, es₂, _, _, _, _, h₁, h₂, rfl⟩

theorem accounted_of_ok {s : State} (h : (slotView s).Ok) : Accounted s where
  index := h.index
  accepted := fun c i hused o r hr => by
    have hlt := h.used_lt c i hused
    have hnum : reportDelnum r.dline = i := by
      rw [Spawn.reportDelnum_dline, hr]
      exact (addHigh_eq_iff (by omega)).mpr hlt.2.2
    obtain ⟨es₁, es₂, jo, fs, q, d, h₁, h₂, he⟩ :=
      delReport_accepts (o := o) hnum hlt.2.1 hused
    rw [he]
    refine ⟨by simp, ?_⟩
    simp only
    rw [closedJobs_append_of_plain (fun e hm => (isUnlink_plain (h₁ e hm)).1)]
    have htail := closedJobs_append_of_plain (fun e hm => (isSettle_plain (h₂ e hm)).1)
      (.index c i (s.slots c) :: s.trace)
    simp only [closedJobs, List.filterMap_cons] at htail ⊢
    rw [htail]
  counted := h.count
  limit := fun c => by
    have hcount : s.concurrencyused c = (usedSlots s c).card := h.count c
    have hcard : (usedSlots s c).card ≤ s.slots c :=
      (Finset.card_filter_le _ _).trans (Finset.card_range _).le
    have hle : s.slots c ≤ s.spawnlimit c := h.slots_le c
    omega

/-! ## §4 Steps -/

/-- `pass_dochan` is about to start a delivery: the next record of the pass is a `T`, read
while a delivery is possible, and the rate limit lets it through. -/
def startsDelivery (o : PassAnswers) (c : Channel) (s : State) : Bool :=
  let t := if (s.pass c).isNone then passOpen o c s else s
  match t.pass c with
  | none => false
  | some p =>
      !s.flagexitsend && delAvail c t && o.readOk &&
        match getln o.ahead (t.fs.chan c p.id).bytes p, o.rate with
        | _, .throttled _ => false
        | (line, terminated, _), _ => terminated && line.head? == some 84

/-- The report a byte completes, if any, names a slot of the array, or none the limit
allows. -/
def ReportSafe (s : State) (c : Channel) (ch : Byte) : Prop :=
  ∀ dline ∈ (reportByte (s.dline c) ch).2,
    reportDelnum dline < s.slots c ∨ (s.concurrency c : Int) ≤ reportDelnum dline

instance (s : State) (c : Channel) (ch : Byte) : Decidable (ReportSafe s c ch) := by
  unfold ReportSafe
  infer_instance

/-- What a step must not do. A new limit must be above every slot in use. A delivery must
find a free slot that is allocated and has a number below 2^15. A report must not name a
slot that the limit allows and the array does not have. -/
def StepSafe (s : State) : Label → Prop
  | .reread o => ∀ c n, o.newLimit c = some n → ∀ i, (s.del c i).used = true → i < n
  | .pass o c => startsDelivery o c s = true →
      ∃ i, i < s.slots c ∧ i < s.concurrency c ∧ i < 32768 ∧ (s.del c i).used = false
  | .report _ c ch => ReportSafe s c ch
  | _ => True

section Steps

variable {s : State}

theorem slotsOk_delReport (o : ReportAnswers) {c : Channel} {dline : Bytes}
    (h : (slotView s).Ok) (hsafe : reportDelnum dline < s.slots c ∨
      (s.concurrency c : Int) ≤ reportDelnum dline) :
    (slotView (delReport o c dline s)).Ok := by
  rcases delReport_cases s o c dline with ⟨_, he⟩ | ⟨h₀, h₁, hfree, he⟩ | ⟨h₀, h₁, hused, _⟩
  · rwa [he]
  · have hread := h.log (l := []) (by simp)
    rw [he]
    refine { h with index := fun d k n hmem => ?_ }
    rcases List.mem_cons.mp hmem with hm | hm
    · simp only [Event.index.injEq] at hm
      omega
    · exact h.index d k n hm
  · obtain ⟨i, hi⟩ : ∃ i : Nat, reportDelnum dline = i := ⟨_, (Int.toNat_of_nonneg h₀).symm⟩
    have hnat : (reportDelnum dline).toNat = i := by rw [hi]; rfl
    rw [hnat] at hused
    obtain ⟨es₁, es₂, jo, fs, q, d, hu, hs, he⟩ :=
      delReport_accepts (o := o) hi (by omega) hused
    rw [he]
    have hfree := h.free (d := { s.del c i with used := false }) hused rfl
    refine { hfree with index := fun d k n hmem => ?_ }
    rcases List.mem_append.mp hmem with hm | hm
    · exact absurd rfl ((isUnlink_plain (hu _ hm)).2 d k n)
    rcases List.mem_cons.mp hm with hm | hm
    · cases hm
    rcases List.mem_append.mp hm with hm | hm
    · exact absurd rfl ((isSettle_plain (hs _ hm)).2 d k n)
    rcases List.mem_cons.mp hm with hm | hm
    · have hlt := (h.used_lt c i hused).1
      simp only [Event.index.injEq] at hm
      simp only [slotView] at hlt
      omega
    · exact h.index d k n hm

theorem slotsOk_delStart (cfg : Config) {j mpos : Nat} {recip : Bytes} (h : (slotView s).Ok)
    (hsafe : ∃ i, i < s.slots (s.jo j).channel ∧ i < s.concurrency (s.jo j).channel ∧
      i < 32768 ∧ (s.del (s.jo j).channel i).used = false) :
    (slotView (delStart cfg j mpos recip s)).Ok := by
  obtain ⟨k, hk₁, hk₂, hk₃, hk₄⟩ := hsafe
  rcases delStart_cases s cfg j mpos recip with he | ⟨hnone, _⟩ | ⟨i, hi, he⟩
  · rwa [he]
  · -- slot k is free, so the scan finds one
    have := List.find?_eq_none.mp hnone k (List.mem_range.mpr hk₂)
    simp [hk₄] at this
  · obtain ⟨hlt, hfree, hbelow⟩ := freeSlot_spec hi
    have hik : i ≤ k := by
      by_contra hki
      have := hbelow k (by omega)
      rw [hk₄] at this
      exact absurd this (by decide)
    have hscan := h.scan (c := (s.jo j).channel) (n := i + 1)
      (by simp only [slotView]; omega)
    have htake := hscan.take (c := (s.jo j).channel) (i := i)
      (d := ⟨true, j, s.masterdelid, mpos, recip⟩)
      ⟨by simp only [slotView]; omega, by simp only [slotView]; omega, by omega⟩ hfree rfl
    have hlog := htake.log (l := [.start (s.jo j).channel i (s.jo j).id mpos]) (by simp)
    rw [he, logScan_eq]
    exact hlog

theorem slotsOk_passEnd (o : PassAnswers) (c : Channel) (j : Nat) (h : (slotView s).Ok) :
    (slotView (passEnd o c j s)).Ok := by
  obtain ⟨q, d, fs, es, hes, hw⟩ := passEnd_writes s o c j
  rw [hw]
  have hclose := h.log (l := [.jobClose j]) (by simp)
  exact hclose.log fun e he => (isUnlink_plain (hes e he)).2

theorem slotsOk_passNext (cfg : Config) (o : PassAnswers) {c : Channel} {p : Pass}
    (h : (slotView s).Ok) (hheld : s.Held) (hp : s.pass c = some p)
    (hsafe : (delAvail c s && o.readOk &&
        match getln o.ahead (s.fs.chan c p.id).bytes p, o.rate with
        | _, .throttled _ => false
        | (line, terminated, _), _ => terminated && line.head? == some 84) = true →
      ∃ i, i < s.slots c ∧ i < s.concurrency c ∧ i < 32768 ∧ (s.del c i).used = false) :
    (slotView (passNext cfg o c p s)).Ok := by
  rcases passNext_cases s cfg o c p with he | he | ⟨line, buf, _, he⟩ | ⟨r, he⟩ |
    ⟨line, buf, havail, hread, hrate, hline, hT, he⟩ | ⟨line, buf, _, _, he⟩
  · rwa [he]
  · rw [he]
    exact slotsOk_passEnd o c p.j h
  · rw [he]
    exact slotsOk_passEnd o c p.j h
  · obtain ⟨q, d, fs, es, n, w, k, hes, hw⟩ := passThrottled_writes s o c p.j r
    rw [he, hw]
    have hclose := h.log (l := [.jobClose p.j]) (by simp)
    exact hclose.log fun e he => (isUnlink_plain (hes e he)).2
  · have hstart : (delAvail c s && o.readOk &&
        match getln o.ahead (s.fs.chan c p.id).bytes p, o.rate with
        | _, .throttled _ => false
        | (line, terminated, _), _ => terminated && line.head? == some 84) = true := by
      rw [havail, hread, hline]
      cases hr : o.rate with
      | throttled t => exact absurd hr (hrate t)
      | ok b => simp [hT]
      | failed => simp [hT]
    obtain ⟨w, hw⟩ := passDeliver_eq s cfg o p (cstr (line.drop 1))
    have hc : (s.jo p.j).channel = c := (hheld.pass_fits c p hp).2.1
    rw [he, hw]
    refine slotsOk_delStart cfg (s := { s with
      delayed_jobs := w
      jo := update s.jo p.j { s.jo p.j with numtodo := (s.jo p.j).numtodo + 1 } }) h ?_
    simp only [Function.update_self, hc]
    exact hsafe hstart
  · rw [he]
    exact h

theorem slotView_passOpen (o : PassAnswers) (c : Channel) :
    slotView (passOpen o c s) = slotView s := by
  rcases passOpen_cases s o c with ⟨q, he⟩ | ⟨j, pe, info, _, _, _, he⟩
  · rw [he]
    rfl
  · rw [he]
    rfl

theorem slotsOk_step (cfg : Config) {l : Label} (h : (slotView s).Ok) (hheld : s.Held)
    (hsafe : StepSafe s l) : (slotView (step cfg s l)).Ok := by
  cases l with
  | clock now => exact h
  | alarm => exact h
  | runasap =>
      simp only [step]
      split
      · exact h
      · exact h
  | reread o =>
      obtain ⟨k, a, m, hw⟩ := regetcontrols_writes s o
      rw [step, hw]
      refine h.relimit (f := fun c => (o.newLimit c).getD (s.concurrency c)) fun c i hi => ?_
      cases hn : o.newLimit c with
      | none =>
          simp only [Option.getD_none]
          exact (h.used_lt c i hi).2.1
      | some n =>
          simp only [Option.getD_some]
          exact hsafe c n hn i hi
  | comm c w =>
      simp only [step]
      split
      · exact h
      · exact h
  | spawndied c => exact h
  | report o c ch =>
      simp only [step]
      split
      · unfold delByte
        simp only
        rcases lineByte_cases 2 (s.dline c) ch with hr | ⟨dline, _, hr⟩
        · simp only [reportByte, hr, List.foldl_nil]
          exact h
        · have hsafe' := hsafe dline (by simp only [reportByte, hr, List.mem_singleton])
          simp only [reportByte, hr, List.foldl_cons, List.foldl_nil]
          exact slotsOk_delReport o (s := { s with dline := _ }) h hsafe'
      · exact h
  | todo now delayed ch =>
      simp only [step]
      split
      · obtain ⟨q, d, x, y, t, hw⟩ := todoByte_writes s cfg now delayed ch
        rw [hw]
        exact h
      · exact h
  | pqadd o id =>
      obtain ⟨r, q, d, f, hw⟩ := pqadd_writes s o id s.do_ratelimit
      rw [step, hw]
      exact h
  | pass o c =>
      rw [step]
      rcases passDochan_cases s cfg o c with he | ⟨_, _, _, he⟩ | ⟨p, hx, hp, hp', he⟩ |
        ⟨p, hx, hp, he⟩
      · rwa [he]
      · rw [he, slotView_passOpen]
        exact h
      · rw [he]
        have hview := slotView_passOpen (s := s) o c
        refine slotsOk_passNext cfg o (by rw [hview]; exact h) (held_passOpen o hheld hp) hp' ?_
        intro hstart
        have hs := hsafe (by
          simp only [startsDelivery, hp, Option.isNone_none, if_true, hp', hx, Bool.not_false,
            Bool.true_and]
          exact hstart)
        have h₁ := congrArg SlotView.slots hview
        have h₂ := congrArg SlotView.concurrency hview
        have h₃ := congrArg SlotView.del hview
        simp only [slotView] at h₁ h₂ h₃
        rw [h₁, h₂, h₃]
        exact hs
      · rw [he]
        refine slotsOk_passNext cfg o h hheld hp fun hstart => hsafe ?_
        simp only [startsDelivery, hp, Option.isNone_some, Bool.false_eq_true, if_false, hx,
          Bool.not_false, Bool.true_and]
        exact hstart
  | pqfail o =>
      obtain ⟨r, q, d, f, hw⟩ := pqfailDo_writes s o
      rw [step, hw]
      exact h
  | pqdone o =>
      obtain ⟨d, m, i, b, x, y, es, hes, hw⟩ := pqdoneDo_writes s o
      rw [step, hw]
      exact h.log fun e he => isDone_plain (hes e he)
  | restart k => exact slotsOk_startup k s.fs h.index

end Steps

/-! ## §5 Runs -/

/-- The invariant holds in every state of a run whose steps are safe. -/
theorem slotsOk_of_run {cfg : Config} {ls : List Label} {s t : State}
    (hi : (sendMachine cfg).init s) (hsafe : (sendMachine cfg).Meets StepSafe s ls)
    (he : (sendMachine cfg).exec s ls = some t) : (slotView t).Ok := by
  have hinv : t.Held ∧ (slotView t).Ok := by
    refine (sendMachine cfg).exec_invariant (I := fun s => s.Held ∧ (slotView s).Ok)
      (C := StepSafe) ?_ ?_ hsafe he
    · rintro s l s' ⟨hheld, hok⟩ hs hstep
      obtain rfl : step cfg s l = s' := Option.some.inj hstep
      exact ⟨step_held cfg l hheld, slotsOk_step cfg hok hheld hs⟩
    · obtain ⟨k, fs, rfl⟩ := hi
      exact ⟨held_startup, slotsOk_startup k fs (by simp)⟩
  exact hinv.2

/-- In such a run the program does not leave while a report can still come. -/
theorem delCanexit_iff {cfg : Config} {ls : List Label} {s t : State}
    (hi : (sendMachine cfg).init s) (hsafe : (sendMachine cfg).Meets StepSafe s ls)
    (he : (sendMachine cfg).exec s ls = some t) :
    delCanexit t = true ↔
      ∀ c, t.flagspawnalive c = true → t.holdjobs c = 0 → usedSlots t c = ∅ := by
  have hcount := (accounted_of_ok (slotsOk_of_run hi hsafe he)).counted
  have hnone : ∀ c, usedSlots t c = ∅ ↔ t.concurrencyused c = 0 := fun c => by
    rw [hcount, Finset.card_eq_zero]
  have hchannel : ∀ c : Channel, c ∈ [Channel.loc, Channel.rem] := by
    intro c
    cases c <;> decide
  rw [delCanexit, List.all_eq_true]
  refine forall_congr' fun c => ?_
  rw [hnone]
  cases t.flagspawnalive c <;> by_cases h : t.concurrencyused c = 0 <;> simp [hchannel c, h]

/-- **The slot accounting is right in every state of a run whose steps are safe.** -/
theorem accounted_of_run {cfg : Config} {ls : List Label} {s t : State}
    (hi : (sendMachine cfg).init s) (hsafe : (sendMachine cfg).Meets StepSafe s ls)
    (he : (sendMachine cfg).exec s ls = some t) : Accounted t :=
  accounted_of_ok (slotsOk_of_run hi hsafe he)

/-- Two local deliveries at a time. -/
def twoSlots : StartConf where
  concurrency := fun _ => 2

/-- While the first delivery is in slot 0 the limit is lowered to 1; the delivery succeeds, its pass
ends, and the second message takes the slot. -/
def steadyRun : List Label :=
  startFirst ++ [.reread { concurrencylocal := .value 1 }, .report {} .loc 0, .report {} .loc 0,
    .report {} .loc 75, .report {} .loc 0, .comm .loc 100, .pass {} .loc, .pqadd {} 2,
    .pass {} .loc]

theorem accounted_steadyRun :
    ∃ t, (sendMachine demoConfig).exec (startup twoSlots twoMessages []) steadyRun = some t ∧
      t.concurrency .loc = 1 ∧ (t.del .loc 0).used = true ∧ Accounted t := by
  have hinit : (sendMachine demoConfig).init (startup twoSlots twoMessages []) :=
    ⟨twoSlots, twoMessages, rfl⟩
  have hfirst : (sendMachine demoConfig).Meets StepSafe (startup twoSlots twoMessages [])
      startFirst :=
    meets_cons trivial (meets_cons trivial (meets_cons (fun _ => ⟨0, by decide⟩) trivial))
  refine ⟨_, rfl, by decide +kernel, by decide +kernel,
    @accounted_of_run demoConfig steadyRun _ _ hinit ?_ rfl⟩
  refine Machine.meets_append.mpr ⟨hfirst, fun s hs => ?_⟩
  have hok := slotsOk_of_run hinit hfirst hs
  obtain rfl := Option.some.inj hs
  refine meets_cons ?_ ?_
  · -- only slot 0 is in use
    intro c n hn i hi
    cases c with
    | rem => cases hn
    | loc =>
        obtain rfl : 1 = n := Option.some.inj hn
        have hlt : i < 2 := (hok.used_lt .loc i hi).1
        by_contra hge
        obtain rfl : i = 1 := by omega
        exact absurd hi (by decide +kernel)
  have hsafe : ∀ {s o c ch}, ReportSafe s c ch → StepSafe s (.report o c ch) := id
  refine meets_cons (hsafe ?_) (meets_cons (hsafe ?_) (meets_cons (hsafe ?_)
    (meets_cons (hsafe ?_) (meets_cons trivial (meets_cons (fun _ => ⟨0, by decide +kernel⟩)
      (meets_cons trivial (meets_cons (fun _ => ⟨0, by decide +kernel⟩) trivial)))))))
  all_goals decide +kernel

/-- The limit is lowered to 0 while slot 0 is in use, and its report is not accepted. And the
limit is raised to 2 while slot 0, the only one, is in use, and the second message makes
`del_start` read slot 1. -/
theorem reread_not_accounted :
    (∃ t, (sendMachine demoConfig).exec (startup oneSlot twoMessages [])
        (startFirst ++ [.reread { concurrencylocal := .value 0 }]) = some t ∧ ¬ Accounted t) ∧
    ∃ t, (sendMachine demoConfig).exec (startup oneSlot twoMessages [])
        (startFirst ++ [.pass {} .loc, .reread { concurrencylocal := .value 2 },
          .comm .loc 100, .pass {} .loc, .pqadd {} 2, .pass {} .loc]) = some t ∧
      ¬ Accounted t := by
  refine ⟨⟨_, rfl, fun h => ?_⟩, ⟨_, rfl, fun h => ?_⟩⟩
  · have hfreed := (h.accepted .loc 0 (by decide +kernel) {} ⟨0, asc "Kok"⟩ rfl).1
    revert hfreed
    decide +kernel
  · exact absurd (h.index .loc 1 1 (by decide +kernel)) (by decide)

end IndimailMta.Send
