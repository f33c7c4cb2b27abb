import IndimailMta.Send.Holds
import IndimailMta.Send.Records

/-!
# The ledger of recipients

What a pass reads from a channel file is accounted for until it is reported. The
ledger lists it: `pend j` is the set of positions that job `j` has read as `T` and
not settled; `numtodo` is its size, every delivery in a slot is for one of its
elements, and a recipient a pass is past (or any, once it saw the end of the file)
is finished or in it. One theorem for each kind of write says that the ledger
stays balanced. It does not depend on how jobs of one message overlap, on which
marks reach the file, or on what a pass finds there.
-/

namespace IndimailMta.Send

open IndimailMta Prioq Run
open Function (update update_of_ne)

/-! ## §1 Finished recipients -/

/-- The recipient at `pos` is finished: a success was reported, or a failure whose report
`addbounce` appended to the bounce before the record was marked. The history has its newest
event first. -/
def Finished (c : Channel) (id pos : Nat) (trace : List Event) : Prop :=
  (∃ text, Event.report c 75 id pos text ∈ trace) ∨
    ∃ newer older mapvdoms recip report,
      trace = newer ++ .addbounce id report (bounceText mapvdoms recip report) ::
        .report c 68 id pos report :: older ∧
      Event.markdone c id pos ∉ older

/-- Whenever a channel file was removed, every recipient it was written with (`orig`) had
been finished. -/
def RemovedFinished (orig : Channel → Nat → Bytes) (trace : List Event) : Prop :=
  ∀ c id newer older, trace = newer ++ .unlink c id :: older →
    ∀ pos, TRecord (orig c id) pos → Finished c id pos older

theorem Finished.append {c : Channel} {id pos : Nat} {trace : List Event}
    (h : Finished c id pos trace) (es : List Event) : Finished c id pos (es ++ trace) := by
  rcases h with ⟨text, h⟩ | ⟨newer, older, m, recip, report, h, hm⟩
  · exact .inl ⟨text, List.mem_append_right es h⟩
  · exact .inr ⟨es ++ newer, older, m, recip, report, by rw [h, List.append_assoc], hm⟩

/-! ## §2 The ledger -/

/-- Passes, slots and counters agree with what was read and reported. -/
structure Ledger (orig : Channel → Nat → Bytes) (pend : Nat → Finset Nat) (jo : Nat → Job)
    (del : Channel → Nat → Del) (pass : Channel → Option Pass)
    (chan : Channel → Nat → ChanFile) (trace : List Event) : Prop where
  /-- A channel file is as written, but for marks on finished recipients. -/
  files : ∀ c id, (chan c id).bytes.length = (orig c id).length ∧
    Copy (fun pos => Finished c id pos trace) (orig c id) 0 (chan c id).bytes
  marks : ∀ c id pos, Event.markdone c id pos ∈ trace → Finished c id pos trace
  removed : RemovedFinished orig trace
  numtodo : ∀ j x, holds del pass j x → (jo j).numtodo = (pend j).card
  slot : ∀ c i, (del c i).used = true → (del c i).mpos ∈ pend (del c i).j ∧
    (orig c (jo (del c i).j).id)[(del c i).mpos]? = some 84
  slot_inj : ∀ c i k, (del c i).used = true → (del c k).used = true →
    (del c i).j = (del c k).j → (del c i).mpos = (del c k).mpos → i = k
  /-- A pass stands at a record, and what it is past is finished or pending. -/
  passes : ∀ c p, pass c = some p → Boundary (orig c p.id) p.mpos ∧
    Copy (fun pos => Finished c p.id pos trace) (orig c p.id) p.mpos p.buf ∧
    (∀ pos ∈ pend p.j, pos < p.mpos) ∧
    ∀ pos, TRecord (orig c p.id) pos → pos < p.mpos →
      Finished c p.id pos trace ∨ pos ∈ pend p.j
  eof : ∀ j x, holds del pass j x → (jo j).flaghiteof = true →
    ∀ pos, TRecord (orig (jo j).channel (jo j).id) pos →
      Finished (jo j).channel (jo j).id pos trace ∨ pos ∈ pend j

section Writes

variable {orig : Channel → Nat → Bytes} {pend : Nat → Finset Nat} {jo jo' : Nat → Job}
  {del : Channel → Nat → Del} {pass : Channel → Option Pass}
  {chan : Channel → Nat → ChanFile} {trace : List Event}

/-- **A held job that saw the end of its file and has nothing to do is finished.** -/
theorem Ledger.all_finished (h : Ledger orig pend jo del pass chan trace) {j : Nat} {x : Holder}
    (hx : holds del pass j x) (heof : (jo j).flaghiteof = true) (h0 : (jo j).numtodo = 0)
    {pos : Nat} (ht : TRecord (orig (jo j).channel (jo j).id) pos) :
    Finished (jo j).channel (jo j).id pos trace := by
  have hcard := h.numtodo j x hx
  have hempty : pend j = ∅ := Finset.card_eq_zero.mp (by omega)
  rcases h.eof j x hx heof pos ht with hf | hp
  · exact hf
  · rw [hempty] at hp
    exact absurd hp (Finset.notMem_empty pos)

/-- New events, none of which removes a file, and marks of finished recipients only. -/
theorem Ledger.extend (h : Ledger orig pend jo del pass chan trace) {l : List Event}
    (hunlink : ∀ c id, Event.unlink c id ∉ l)
    (hmarks : ∀ c id pos, Event.markdone c id pos ∈ l → Finished c id pos (l ++ trace)) :
    Ledger orig pend jo del pass chan (l ++ trace) where
  files := fun c id => ⟨(h.files c id).1, (h.files c id).2.mono fun pos hp => hp.append l⟩
  marks := fun c id pos hm => by
    rcases List.mem_append.mp hm with hm | hm
    · exact hmarks c id pos hm
    · exact (h.marks c id pos hm).append l
  removed := fun c id newer older he pos ht => by
    obtain ⟨n, hn⟩ : ∃ n, newer = l ++ n := by
      rcases List.append_eq_append_iff.mp he with ⟨n, hn, _⟩ | ⟨n, hn, hu⟩
      · exact ⟨n, hn⟩
      · rcases n with _ | ⟨e, n⟩
        · exact ⟨[], by simpa using hn.symm⟩
        · have hmem : Event.unlink c id ∈ l := by
            have hhead := (List.cons.inj hu).1
            rw [hn, ← hhead]
            simp
          exact absurd hmem (hunlink c id)
    subst hn
    rw [List.append_assoc] at he
    exact h.removed c id n older (List.append_cancel_left he) pos ht
  numtodo := h.numtodo
  slot := h.slot
  slot_inj := h.slot_inj
  passes := fun c p hp => by
    obtain ⟨hb, hc, hlt, hcov⟩ := h.passes c p hp
    exact ⟨hb, hc.mono fun pos hf => hf.append l, hlt,
      fun pos ht hpos => (hcov pos ht hpos).imp (fun hf => hf.append l) id⟩
  eof := fun j x hx he pos ht => (h.eof j x hx he pos ht).imp (fun hf => hf.append l) id

/-- One event that is neither a removal nor a mark. -/
theorem Ledger.log (h : Ledger orig pend jo del pass chan trace) {e : Event}
    (hunlink : ∀ c id, e ≠ .unlink c id) (hmark : ∀ c id pos, e ≠ .markdone c id pos) :
    Ledger orig pend jo del pass chan (e :: trace) :=
  h.extend (l := [e])
    (fun c id hm => hunlink c id (List.mem_singleton.mp hm).symm)
    (fun c id pos hm => absurd (List.mem_singleton.mp hm).symm (hmark c id pos))

/-- A finished recipient is marked in the file. -/
theorem Ledger.mark (h : Ledger orig pend jo del pass chan trace) {c : Channel} {id pos : Nat}
    (ht : (orig c id)[pos]? = some 84) (hf : Finished c id pos trace) {f : ChanFile}
    (hbytes : f.bytes = (chan c id).bytes.set pos 68) :
    Ledger orig pend jo del pass (update₂ chan c id f) trace :=
  { h with
    files := fun e k => by
      by_cases hek : e = c ∧ k = id
      · obtain ⟨rfl, rfl⟩ := hek
        rw [update₂_self, hbytes, List.length_set]
        exact ⟨(h.files e k).1, (h.files e k).2.mark ht hf⟩
      · rw [update₂_of_ne chan f hek]
        exact h.files e k }

/-- A file whose recipients are all finished is removed. -/
theorem Ledger.unlink (h : Ledger orig pend jo del pass chan trace) {c : Channel} {id : Nat}
    (hall : ∀ pos, TRecord (orig c id) pos → Finished c id pos trace) {f : ChanFile}
    (hbytes : f.bytes = (chan c id).bytes) :
    Ledger orig pend jo del pass (update₂ chan c id f) (.unlink c id :: trace) where
  files := fun e k => by
    have hfile := h.files e k
    by_cases hek : e = c ∧ k = id
    · obtain ⟨rfl, rfl⟩ := hek
      rw [update₂_self, hbytes]
      exact ⟨hfile.1, hfile.2.mono fun pos hp => hp.append [.unlink e k]⟩
    · rw [update₂_of_ne chan f hek]
      exact ⟨hfile.1, hfile.2.mono fun pos hp => hp.append [.unlink c id]⟩
  marks := fun e k pos hm => by
    rcases List.mem_cons.mp hm with hm | hm
    · cases hm
    · exact (h.marks e k pos hm).append [.unlink c id]
  removed := fun e k newer older he pos ht => by
    rcases newer with _ | ⟨n, newer⟩
    · simp only [List.nil_append, List.cons.injEq, Event.unlink.injEq] at he
      obtain ⟨⟨rfl, rfl⟩, rfl⟩ := he
      exact hall pos ht
    · exact h.removed e k newer older (List.cons.inj he).2 pos ht
  numtodo := h.numtodo
  slot := h.slot
  slot_inj := h.slot_inj
  passes := fun e p hp => by
    obtain ⟨hb, hc, hlt, hcov⟩ := h.passes e p hp
    exact ⟨hb, hc.mono fun pos hf => hf.append [.unlink c id], hlt,
      fun pos ht hpos => (hcov pos ht hpos).imp (fun hf => hf.append [.unlink c id]) (fun hin => hin)⟩
  eof := fun j x hx he pos ht => (h.eof j x hx he pos ht).imp
    (fun hf => hf.append [.unlink c id]) (fun hin => hin)

/-- Fields of a job that do not bear on the ledger. -/
theorem Ledger.setJob (h : Ledger orig pend jo del pass chan trace) {j : Nat} {b : Job}
    (hs : b.sameFile (jo j)) (hn : b.numtodo = (jo j).numtodo) :
    Ledger orig pend (update jo j b) del pass chan trace :=
  { h with
    numtodo := fun k x hx => by
      have hk := h.numtodo k x hx
      by_cases hkj : k = j
      · subst hkj
        rw [Function.update_self, hn, hk]
      · rwa [update_of_ne hkj]
    slot := fun c i hi => by
      rw [(sameFile_update hs _).1]
      exact h.slot c i hi
    eof := fun k x hx he pos ht => by
      obtain ⟨hid, hchan, hhit⟩ := @sameFile_update jo _ _ hs k
      rw [hid, hchan] at ht ⊢
      rw [hhit] at he
      exact h.eof k x hx he pos ht }

/-- Nothing pends at start-up. -/
theorem Ledger.restart (h : Ledger orig pend jo del pass chan trace) :
    Ledger orig (fun _ => ∅) (fun _ => {}) (fun _ _ => {}) (fun _ => none) chan trace where
  files := h.files
  marks := h.marks
  removed := h.removed
  numtodo := fun _ _ _ => rfl
  slot := fun _ _ hi => by simp at hi
  slot_inj := fun _ _ _ hi => by simp at hi
  passes := fun _ _ hp => by simp at hp
  eof := fun _ _ _ he => by simp at he

/-- A pass is opened with an unused job. -/
theorem Ledger.openPass (h : Ledger orig pend jo del pass chan trace) (hheld : Held jo del pass)
    {c : Channel} {p : Pass} {b : Job} (hunused : (jo p.j).refs = 0)
    (hpos : p.mpos = 0) (hbuf : p.buf = []) (hn : b.numtodo = 0) (heof : b.flaghiteof = false) :
    Ledger orig (update pend p.j ∅) (update jo p.j b) del (update pass c (some p)) chan
      trace := by
  have hfree := hheld.refs.not_holds hunused
  have hslot : ∀ e l, (del e l).used = true → (del e l).j ≠ p.j :=
    fun e l hl hj => hfree (.slot e l) ⟨hl, hj⟩
  have hother : ∀ k x, k ≠ p.j → holds del (update pass c (some p)) k x →
      holds del pass k x ∨ x = .pass c := by
    intro k x hk hx
    cases x with
    | slot e l => exact .inl hx
    | pass e =>
        by_cases he : e = c
        · exact .inr (by rw [he])
        · obtain ⟨q, hq, hqj⟩ := hx
          rw [update_of_ne he] at hq
          exact .inl ⟨q, hq, hqj⟩
  have hold : ∀ k x, k ≠ p.j → holds del (update pass c (some p)) k x → holds del pass k x := by
    intro k x hk hx
    rcases hother k x hk hx with hx' | rfl
    · exact hx'
    · obtain ⟨q, hq, hqj⟩ := hx
      rw [Function.update_self, Option.some.injEq] at hq
      subst hq
      exact absurd hqj.symm hk
  refine ⟨h.files, h.marks, h.removed, fun k x hx => ?_, fun e l hl => ?_, h.slot_inj,
    fun e q hq => ?_, fun k x hx he => ?_⟩
  · by_cases hk : k = p.j
    · subst hk
      simp [hn]
    · rw [update_of_ne hk, update_of_ne hk]
      exact h.numtodo k x (hold k x hk hx)
  · rw [update_of_ne (hslot e l hl), update_of_ne (hslot e l hl)]
    exact h.slot e l hl
  · by_cases he : e = c
    · subst he
      rw [Function.update_self, Option.some.injEq] at hq
      subst hq
      rw [hpos, hbuf, Function.update_self]
      exact ⟨.inl rfl, Copy.nil _ _ _, fun pos hm => absurd hm (Finset.notMem_empty pos),
        fun pos _ hlt => absurd hlt (Nat.not_lt_zero pos)⟩
    · rw [update_of_ne he] at hq
      have hj : q.j ≠ p.j := fun hj => hfree (.pass e) ⟨q, hq, hj⟩
      rw [update_of_ne hj]
      exact h.passes e q hq
  · by_cases hk : k = p.j
    · subst hk
      rw [Function.update_self, heof] at he
      exact absurd he (by decide)
    · rw [update_of_ne hk] at he ⊢
      rw [update_of_ne hk]
      exact h.eof k x (hold k x hk hx) he

theorem holds_of_advance {c : Channel} {p q : Pass} {k : Nat} {x : Holder}
    (hp : pass c = some p) (hj : q.j = p.j) (hx : holds del (update pass c (some q)) k x) :
    holds del pass k x := by
  cases x with
  | slot e l => exact hx
  | pass e =>
      obtain ⟨r, hr, hrj⟩ := hx
      by_cases he : e = c
      · subst he
        rw [Function.update_self, Option.some.injEq] at hr
        subst hr
        exact ⟨p, hp, hj.symm.trans hrj⟩
      · rw [update_of_ne he] at hr
        exact ⟨r, hr, hrj⟩

/-- A pass goes on; what it goes past is finished or pending. -/
theorem Ledger.advance (h : Ledger orig pend jo del pass chan trace) {c : Channel} {p q : Pass}
    (hp : pass c = some p) (hid : q.id = p.id) (hj : q.j = p.j)
    (hb : Boundary (orig c p.id) q.mpos)
    (hc : Copy (fun pos => Finished c p.id pos trace) (orig c p.id) q.mpos q.buf)
    (hle : p.mpos ≤ q.mpos)
    (hcov : ∀ pos, TRecord (orig c p.id) pos → p.mpos ≤ pos → pos < q.mpos →
      Finished c p.id pos trace ∨ pos ∈ pend p.j) :
    Ledger orig pend jo del (update pass c (some q)) chan trace := by
  refine { h with
    numtodo := fun k x hx => h.numtodo k x (holds_of_advance hp hj hx)
    eof := fun k x hx => h.eof k x (holds_of_advance hp hj hx)
    passes := fun e r hr => ?_ }
  by_cases he : e = c
  · subst he
    rw [Function.update_self, Option.some.injEq] at hr
    subst hr
    obtain ⟨_, _, hlt, hpast⟩ := h.passes e p hp
    rw [hid, hj]
    refine ⟨hb, hc, fun pos hm => Nat.lt_of_lt_of_le (hlt pos hm) hle, fun pos ht hpos => ?_⟩
    by_cases hpp : pos < p.mpos
    · exact hpast pos ht hpp
    · exact hcov pos ht (Nat.le_of_not_lt hpp) hpos
  · rw [update_of_ne he] at hr
    exact h.passes e r hr

/-- The pass goes past a record `T`, which is to be done from now on. -/
theorem Ledger.todo (h : Ledger orig pend jo del pass chan trace) (hheld : Held jo del pass)
    {c : Channel} {p q : Pass} {b : Job} (hp : pass c = some p) (hid : q.id = p.id)
    (hj : q.j = p.j) (hb : Boundary (orig c p.id) q.mpos)
    (hc : Copy (fun pos => Finished c p.id pos trace) (orig c p.id) q.mpos q.buf)
    (hlt : p.mpos < q.mpos)
    (hcov : ∀ pos, TRecord (orig c p.id) pos → p.mpos ≤ pos → pos < q.mpos → pos = p.mpos)
    (hs : b.sameFile (jo p.j)) (hn : b.numtodo = (jo p.j).numtodo + 1) :
    Ledger orig (update pend p.j (insert p.mpos (pend p.j))) (update jo p.j b) del
      (update pass c (some q)) chan trace := by
  have hnew : p.mpos ∉ pend p.j := fun hm => Nat.lt_irrefl _ ((h.passes c p hp).2.2.1 _ hm)
  have hsub : ∀ k, pend k ⊆ update pend p.j (insert p.mpos (pend p.j)) k := by
    intro k pos hm
    by_cases hk : k = p.j
    · subst hk
      rw [Function.update_self]
      exact Finset.mem_insert_of_mem hm
    · rwa [update_of_ne hk]
  have hpass : ∀ e r, pass e = some r → e ≠ c → r.j ≠ p.j := by
    intro e r hr he hrj
    have hre := (hheld.pass_fits e r hr).2.1
    rw [hrj, (hheld.pass_fits c p hp).2.1] at hre
    exact he hre.symm
  refine ⟨h.files, h.marks, h.removed, fun k x hx => ?_, fun e l hl => ?_, h.slot_inj,
    fun e r hr => ?_, fun k x hx he pos ht => ?_⟩
  · have hk := h.numtodo k x (holds_of_advance hp hj hx)
    by_cases hkj : k = p.j
    · subst hkj
      rw [Function.update_self, Function.update_self, hn, Finset.card_insert_of_notMem hnew]
      omega
    · rwa [update_of_ne hkj, update_of_ne hkj]
  · rw [(sameFile_update hs _).1]
    exact ⟨hsub _ (h.slot e l hl).1, (h.slot e l hl).2⟩
  · by_cases he : e = c
    · subst he
      rw [Function.update_self, Option.some.injEq] at hr
      subst hr
      obtain ⟨_, _, hbelow, hpast⟩ := h.passes e p hp
      rw [hid, hj, Function.update_self]
      refine ⟨hb, hc, fun pos hm => ?_, fun pos ht hpos => ?_⟩
      · rcases Finset.mem_insert.mp hm with rfl | hm
        · exact hlt
        · exact Nat.lt_trans (hbelow pos hm) hlt
      · by_cases hpp : pos < p.mpos
        · exact (hpast pos ht hpp).imp (fun hf => hf) Finset.mem_insert_of_mem
        · rw [hcov pos ht (Nat.le_of_not_lt hpp) hpos]
          exact .inr (Finset.mem_insert_self _ _)
    · rw [update_of_ne he] at hr
      rw [update_of_ne (hpass e r hr he)]
      exact h.passes e r hr
  · obtain ⟨hid', hchan, hhit⟩ := @sameFile_update jo _ _ hs k
    rw [hid', hchan] at ht ⊢
    rw [hhit] at he
    exact (h.eof k x (holds_of_advance hp hj hx) he pos ht).imp (fun hf => hf) (fun hm => hsub k hm)

/-- A free slot is given to a delivery of a pending recipient of a held job. -/
theorem Ledger.takeSlot (h : Ledger orig pend jo del pass chan trace) {c : Channel} {i : Nat}
    {d : Del} {x : Holder} (hfree : (del c i).used = false) (hx : holds del pass d.j x)
    (hmem : d.mpos ∈ pend d.j) (hT : (orig c (jo d.j).id)[d.mpos]? = some 84)
    (hnew : ∀ k, (del c k).used = true → (del c k).j = d.j → (del c k).mpos ≠ d.mpos) :
    Ledger orig pend jo (update₂ del c i d) pass chan trace := by
  have hold : ∀ k y, holds (update₂ del c i d) pass k y → ∃ z, holds del pass k z := by
    intro k y hy
    cases y with
    | pass e => exact ⟨.pass e, hy⟩
    | slot e l =>
        by_cases hel : e = c ∧ l = i
        · obtain ⟨rfl, rfl⟩ := hel
          rw [holds, update₂_self] at hy
          exact ⟨x, hy.2 ▸ hx⟩
        · rw [holds, update₂_of_ne del d hel] at hy
          exact ⟨.slot e l, hy⟩
  refine { h with
    numtodo := fun k y hy => (hold k y hy).elim fun z hz => h.numtodo k z hz
    eof := fun k y hy => (hold k y hy).elim fun z hz => h.eof k z hz
    slot := fun e l hl => ?_
    slot_inj := fun e l k hl hk hj hm => ?_ }
  · by_cases hel : e = c ∧ l = i
    · obtain ⟨rfl, rfl⟩ := hel
      rw [update₂_self]
      exact ⟨hmem, hT⟩
    · rw [update₂_of_ne del d hel] at hl ⊢
      exact h.slot e l hl
  · by_cases hel : e = c ∧ l = i <;> by_cases hek : e = c ∧ k = i
    · rw [hel.2, hek.2]
    · obtain ⟨rfl, rfl⟩ := hel
      rw [update₂_of_ne del d hek] at hk hj hm
      rw [update₂_self] at hj hm
      exact absurd hm.symm (hnew k hk hj.symm)
    · obtain ⟨rfl, rfl⟩ := hek
      rw [update₂_of_ne del d hel] at hl hj hm
      rw [update₂_self] at hj hm
      exact absurd hm (hnew l hl hj)
    · rw [update₂_of_ne del d hel] at hl hj hm
      rw [update₂_of_ne del d hek] at hk hj hm
      exact h.slot_inj e l k hl hk hj hm

theorem holds_of_freeSlot {c : Channel} {i k : Nat} {d : Del} {x : Holder}
    (hd : d.used = false) (hx : holds (update₂ del c i d) pass k x) : holds del pass k x := by
  cases x with
  | pass e => exact hx
  | slot e l =>
      by_cases hel : e = c ∧ l = i
      · obtain ⟨rfl, rfl⟩ := hel
        rw [holds, update₂_self, hd] at hx
        exact absurd hx.1 (by decide)
      · rwa [holds, update₂_of_ne del d hel] at hx

theorem used_of_freeSlot {c e : Channel} {i l : Nat} {d : Del} (hd : d.used = false)
    (hl : (update₂ del c i d e l).used = true) :
    ¬ (e = c ∧ l = i) ∧ update₂ del c i d e l = del e l := by
  have hel : ¬ (e = c ∧ l = i) := by
    rintro ⟨rfl, rfl⟩
    rw [update₂_self, hd] at hl
    exact absurd hl (by decide)
  exact ⟨hel, update₂_of_ne del d hel⟩

/-- The delivery in a slot ends, and its recipient stays to be done. -/
theorem Ledger.dropSlot (h : Ledger orig pend jo del pass chan trace) {c : Channel} {i : Nat}
    {d : Del} (hd : d.used = false) : Ledger orig pend jo (update₂ del c i d) pass chan trace :=
  { h with
    numtodo := fun k x hx => h.numtodo k x (holds_of_freeSlot hd hx)
    eof := fun k x hx => h.eof k x (holds_of_freeSlot hd hx)
    slot := fun e l hl => by
      obtain ⟨_, he⟩ := used_of_freeSlot hd hl
      rw [he] at hl ⊢
      exact h.slot e l hl
    slot_inj := fun e l k hl hk hj hm => by
      obtain ⟨_, hel⟩ := used_of_freeSlot hd hl
      obtain ⟨_, hek⟩ := used_of_freeSlot hd hk
      rw [hel] at hl hj hm
      rw [hek] at hk hj hm
      exact h.slot_inj e l k hl hk hj hm }

/-- Once a recipient is finished, it need not pend. -/
theorem finished_or_erase {c : Channel} {id mpos pos : Nat} {due : Finset Nat}
    (hf : Finished c id mpos trace) (hor : Finished c id pos trace ∨ pos ∈ due) :
    Finished c id pos trace ∨ pos ∈ due.erase mpos := by
  rcases hor with hf' | hm
  · exact .inl hf'
  · by_cases hpos : pos = mpos
    · subst hpos
      exact .inl hf
    · exact .inr (Finset.mem_erase.mpr ⟨hpos, hm⟩)

/-- The delivery in a slot ends, and its recipient is finished. -/
theorem Ledger.doneSlot (h : Ledger orig pend jo del pass chan trace) (hheld : Held jo del pass)
    {c : Channel} {i : Nat} {d : Del} {jb : Job} (hused : (del c i).used = true)
    (hd : d.used = false) (hf : Finished c (jo (del c i).j).id (del c i).mpos trace)
    (hs : jb.sameFile (jo (del c i).j)) (hn : jb.numtodo = (jo (del c i).j).numtodo - 1) :
    Ledger orig (update pend (del c i).j ((pend (del c i).j).erase (del c i).mpos))
      (update jo (del c i).j jb) (update₂ del c i d) pass chan trace := by
  have hmem := (h.slot c i hused).1
  have hchan := hheld.slot_fits c i hused
  refine ⟨h.files, h.marks, h.removed, fun k x hx => ?_, fun e l hl => ?_,
    (h.dropSlot hd).slot_inj, fun e p hp => ?_, fun k x hx he pos ht => ?_⟩
  · have hk := h.numtodo k x (holds_of_freeSlot hd hx)
    by_cases hkj : k = (del c i).j
    · subst hkj
      have hpos : 0 < (pend (del c i).j).card := Finset.card_pos.mpr ⟨_, hmem⟩
      rw [Function.update_self, Function.update_self, hn, Finset.card_erase_of_mem hmem]
      omega
    · rwa [update_of_ne hkj, update_of_ne hkj]
  · obtain ⟨hel, he⟩ := used_of_freeSlot hd hl
    rw [he] at hl ⊢
    rw [(sameFile_update hs _).1]
    refine ⟨?_, (h.slot e l hl).2⟩
    by_cases hj : (del e l).j = (del c i).j
    · rw [hj, Function.update_self]
      refine Finset.mem_erase.mpr ⟨fun hm => hel ?_, hj ▸ (h.slot e l hl).1⟩
      have hec : e = c := by rw [← hheld.slot_fits e l hl, hj, hchan]
      subst hec
      exact ⟨rfl, h.slot_inj e l i hl hused hj hm⟩
    · rw [update_of_ne hj]
      exact (h.slot e l hl).1
  · obtain ⟨hb, hc, hlt, hcov⟩ := h.passes e p hp
    by_cases hj : p.j = (del c i).j
    · obtain ⟨hid, hec, _⟩ := hheld.pass_fits e p hp
      have hec : e = c := by rw [← hec, hj, hchan]
      subst hec
      rw [hj] at hid
      rw [hj, Function.update_self]
      rw [hj, ← hid] at hcov
      refine ⟨hb, hc, fun pos hm => hlt pos (hj ▸ Finset.mem_of_mem_erase hm),
        fun pos ht hpos => ?_⟩
      rw [← hid] at ht ⊢
      exact finished_or_erase hf (hcov pos ht hpos)
    · rw [update_of_ne hj]
      exact ⟨hb, hc, hlt, hcov⟩
  · obtain ⟨hid', hchan', hhit⟩ := @sameFile_update jo _ _ hs k
    rw [hid', hchan'] at ht ⊢
    rw [hhit] at he
    have hor := h.eof k x (holds_of_freeSlot hd hx) he pos ht
    by_cases hkj : k = (del c i).j
    · subst hkj
      rw [Function.update_self]
      rw [hchan] at hor ⊢
      exact finished_or_erase hf hor
    · rwa [update_of_ne hkj]

/-- A delivery was the last thing to do of a job that saw the end of its file. -/
theorem Ledger.done_finished (h : Ledger orig pend jo del pass chan trace)
    (hheld : Held jo del pass) {c : Channel} {i : Nat} (hused : (del c i).used = true)
    (hf : Finished c (jo (del c i).j).id (del c i).mpos trace)
    (heof : (jo (del c i).j).flaghiteof = true) (h1 : (jo (del c i).j).numtodo - 1 = 0)
    {pos : Nat} (ht : TRecord (orig c (jo (del c i).j).id) pos) :
    Finished c (jo (del c i).j).id pos trace := by
  have hin : holds del pass (del c i).j (.slot c i) := ⟨hused, rfl⟩
  have hmem := (h.slot c i hused).1
  have hcard := h.numtodo _ _ hin
  have hempty : (pend (del c i).j).erase (del c i).mpos = ∅ := by
    rw [← Finset.card_eq_zero, Finset.card_erase_of_mem hmem]
    omega
  have heof' := h.eof _ _ hin heof
  rw [hheld.slot_fits c i hused] at heof'
  rcases finished_or_erase hf (heof' pos ht) with hf' | hm
  · exact hf'
  · rw [hempty] at hm
    exact absurd hm (Finset.notMem_empty pos)

/-- A pass ends; if it has seen the end of the file, every recipient is finished or pends. -/
theorem Ledger.endPass (h : Ledger orig pend jo del pass chan trace) (hheld : Held jo del pass)
    {c : Channel} {p : Pass} {jb : Job} (hp : pass c = some p) (hid : jb.id = (jo p.j).id)
    (hchan : jb.channel = (jo p.j).channel) (hn : jb.numtodo = (jo p.j).numtodo)
    (hcov : jb.flaghiteof = true → ∀ pos, TRecord (orig c p.id) pos →
      Finished c p.id pos trace ∨ pos ∈ pend p.j) :
    Ledger orig pend (update jo p.j jb) del (update pass c none) chan trace := by
  obtain ⟨hpid, hpc, _⟩ := hheld.pass_fits c p hp
  have hold : ∀ k x, holds del (update pass c none) k x → holds del pass k x := by
    intro k x hx
    cases x with
    | slot e l => exact hx
    | pass e =>
        obtain ⟨r, hr, hrj⟩ := hx
        by_cases he : e = c
        · subst he
          simp at hr
        · rw [update_of_ne he] at hr
          exact ⟨r, hr, hrj⟩
  refine { h with
    numtodo := fun k x hx => ?_
    slot := fun e l hl => ?_
    passes := fun e r hr => ?_
    eof := fun k x hx he pos ht => ?_ }
  · have hk := h.numtodo k x (hold k x hx)
    by_cases hkj : k = p.j
    · subst hkj
      rw [Function.update_self, hn, hk]
    · rwa [update_of_ne hkj]
  · by_cases hj : (del e l).j = p.j
    · rw [hj, Function.update_self, hid, ← hj]
      exact h.slot e l hl
    · rw [update_of_ne hj]
      exact h.slot e l hl
  · by_cases he : e = c
    · subst he
      simp at hr
    · rw [update_of_ne he] at hr
      exact h.passes e r hr
  · by_cases hkj : k = p.j
    · subst hkj
      rw [Function.update_self] at he ht ⊢
      rw [hid, hchan, hpid, hpc] at ht ⊢
      exact hcov he pos ht
    · rw [update_of_ne hkj] at he ht ⊢
      exact h.eof k x (hold k x hx) he pos ht

end Writes

end IndimailMta.Send
