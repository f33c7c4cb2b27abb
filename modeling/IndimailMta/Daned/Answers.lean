import IndimailMta.Daned.Reload
import IndimailMta.Daned.Server

/-!
# What qmail-daned answers

`Cache` is what the daemon is for: for each domain the last report on it, made by a
verification or by an `S` or `F` request. `Cache.answer` is the answer it gives from the
whitelist, the list of domains and a report that is not older than `timeout`, and it knows
nothing of other domains. A step of the daemon gives this answer if it meets `Fair`, which names
where the code does not: data that `save` has from another domain, a field of a new record that
nobody assigns, a whitelisted domain without a record, and a record that reaches `timeout` and is
not verified again.
-/

namespace IndimailMta.Daned

open IndimailMta Links Run

/-! ## The cache -/

/-- What was last reported of a domain, and the data that were last found for it. -/
structure Report where
  status : Byte
  data : Bytes
  time : Int
  deriving DecidableEq, Repr

abbrev Cache := Bytes → Option Report

/-- The report, if it is not older than `timeout`. -/
def Cache.recent (c : Conf) (now : Int) (m : Cache) (d : Bytes) : Option Report :=
  (m d).filter fun r => decide (now < r.time + c.timeout)

def Cache.set (m : Cache) (d : Bytes) (r : Report) : Cache := fun x => if x = d then some r else m x

/-- The report a verification makes. -/
def Request.verified (q : Request) : Report := ⟨verdict q.dane, q.dane.2, q.added⟩

/-- The report a request makes where there is none. -/
def Request.report (q : Request) : Kind → Report
  | .S => ⟨RECORD_OK, [], q.added⟩
  | .F => ⟨RECORD_NOVRFY, [], q.added⟩
  | .q | .D | .E => q.verified

/-- The report after a request where there is one: what is verified is not verified again. -/
def Report.after (r : Report) (q : Request) : Kind → Report
  | .S => { r with status := RECORD_OK, time := q.added }
  | .F => { r with status := RECORD_NOVRFY, time := q.added }
  | .q => r
  | .D | .E => if r.status = RECORD_OK then r else q.verified

/-- The status that is answered from a report. -/
def Report.reply (r : Report) (q : Request) : Kind → Bytes
  | .S => [1, RECORD_OK]
  | .F => [if r.status = RECORD_OK then 1 else 0, RECORD_NOVRFY]
  | .q => [1, if r.status = RECORD_OK then RECORD_OK else RECORD_OLD]
  | .D | .E => if r.status = RECORD_OK then [1, RECORD_OK] else okFirst q.verified.status

/-- What an `E` request is sent after that. -/
def Report.sent (k : Kind) (r : Report) : List Bytes := if k = .E then [r.data] else []

/-- The answer for a domain on which there is no report. -/
def Cache.first (m : Cache) (k : Kind) (q : Request) : Cache × List Bytes :=
  let r := q.report k
  if k = .q then (m, [[0, RECORD_NEW]])
  else if k = .S ∨ k = .F then (m.set q.domain r, [[1, r.status]])
  else (m.set q.domain r, okFirst r.status :: r.sent k)

/-- The answer from a report. -/
def Cache.again (m : Cache) (k : Kind) (q : Request) (r : Report) : Cache × List Bytes :=
  (m.set q.domain (r.after q k), r.reply q k :: (r.after q k).sent k)

/-- The domain is looked up in the cache: it is in the list of domains, if there is one, and not
in the whitelist. -/
def Conf.consults (c : Conf) (d : Bytes) : Bool :=
  !(c.is_tlsadomain.any fun f => !f d) && !(c.is_white.any fun f => f d)

/-- **What is answered to a request**, and the reports after it. -/
def Cache.answer (c : Conf) (m : Cache) (q : Request) : Cache × List Bytes :=
  match Kind.ofByte q.qmr with
  | none => (m, [])
  | some k =>
      if q.domain = [] then (m, [])
      else if (c.is_tlsadomain.any fun f => !f q.domain) = true then (m, [[1, RECORD_NOVRFY]])
      else if (c.is_white.any fun f => f q.domain) = true then (m, [[1, RECORD_WHITE]])
      else
        match m.recent c q.now q.domain with
        | none => m.first k q
        | some r => m.again k q r

/-! ## When a step is fair -/

/-- No expiry is due, and the clock does not go back. -/
structure Timely (c : Conf) (σ : Store) (q : Request) : Prop where
  clock : (c.timeout : Int) ≤ q.now ∧ q.now ≤ q.added ∧ q.added < 2 ^ 63
  past : ∀ a < σ.fresh, ∀ e, σ.valOf a = some e → 0 ≤ e.timestamp ∧ e.timestamp ≤ q.now
  head : ∀ a, σ.head = some a → ∀ e, σ.valOf a = some e →
    q.now - c.timeout ≤ e.timestamp ∨ q.now % c.fr_int ≠ 0

/-- The record is not as old as `timeout`. -/
def Young (c : Conf) (q : Request) (e : Entry) : Prop := q.now < e.timestamp + c.timeout

instance (c : Conf) (q : Request) (e : Entry) : Decidable (Young c q e) :=
  inferInstanceAs (Decidable (_ < _))

/-- A record that is older is verified again: some record is not older, so that the search comes to
the table, and a success is not reported within `timeout`. -/
structure Renewed (c : Conf) (t : Server × Cache) (k : Kind) (q : Request) (e : Entry) : Prop where
  kind : k = .D ∨ k = .E
  reached : ∃ b < t.1.store.fresh, ∃ f, t.1.store.valOf b = some f ∧ q.now - c.timeout ≤ f.timestamp
  report : e.status = RECORD_OK → t.2.recent c q.now q.domain = none

/-- A record for a domain that has none is well formed: its memory has null in `next`, if it is
not the first, and no length of data where there are no data to copy, and it fits in the hash;
what `save` has for an `S` or an `F` request is nothing. -/
structure AddsWell (c : Conf) (s : Server) (k : Kind) (q : Request) : Prop where
  next : s.store.head ≠ none → q.mem.next = none
  fits : s.store.Fits c (s.store.table.map Prod.fst ++ [q.domain]) q.domain
  stale : k = .S ∨ k = .F → s.save = []
  datalen : (k = .D ∨ k = .E → q.dane.2 = []) → q.mem.val.datalen = 0

/-- A verification for a record that is there: what it returns and what it answers agree, and if
it found no data there were none before. -/
def VerifiesWell (q : Request) (e : Entry) : Prop :=
  (verdict q.dane = RECORD_OK → q.dane.1 = RECORD_OK) ∧ (q.dane.2 = [] → e.data.getD [] = [])

/-- The request is none of those that are answered from the wrong place, or not at all. -/
def Fair (c : Conf) (t : Server × Cache) (q : Request) : Prop :=
  ∀ k, Kind.ofByte q.qmr = some k → q.domain ≠ [] →
    (c.is_tlsadomain.any fun f => !f q.domain) = false →
    ((c.is_white.any fun f => f q.domain) = true → k ≠ .S ∧ k ≠ .F) ∧
    (c.consults q.domain = true →
      Timely c t.1.store q ∧
      (t.1.store.find q.domain = none → k ≠ .q → AddsWell c t.1 k q) ∧
      ∀ a, t.1.store.find q.domain = some a → ∀ e, t.1.store.valOf a = some e →
        (Young c q e ∨ Renewed c t k q e) ∧
        (k = .D ∨ k = .E → e.status ≠ RECORD_OK ∨ ¬ Young c q e → VerifiesWell q e))

/-! ### Deciding it -/

/-- What is wanted of the value of an option. -/
instance decidableSome {α : Type} {P : α → Prop} [DecidablePred P] :
    ∀ o : Option α, Decidable (∀ x, o = some x → P x)
  | none => isTrue (by simp)
  | some x => decidable_of_iff (P x) ⟨fun h _ hx => Option.some.inj hx ▸ h, fun h => h x rfl⟩

instance (c : Conf) (σ : Store) (q : Request) : Decidable (Timely c σ q) :=
  decidable_of_iff (_ ∧ _ ∧ _) ⟨fun h => ⟨h.1, h.2.1, h.2.2⟩, fun h => ⟨h.clock, h.past, h.head⟩⟩

instance (c : Conf) (t : Server × Cache) (k : Kind) (q : Request) (e : Entry) :
    Decidable (Renewed c t k q e) :=
  decidable_of_iff (_ ∧ (∃ b < t.1.store.fresh,
      (t.1.store.valOf b).any fun f => decide (q.now - c.timeout ≤ f.timestamp)) ∧ _)
    ⟨fun h => ⟨h.1, by simpa [Option.any_eq_true] using h.2.1, h.2.2⟩,
      fun h => ⟨h.kind, by simpa [Option.any_eq_true] using h.reached, h.report⟩⟩

instance (c : Conf) (s : Server) (k : Kind) (q : Request) : Decidable (AddsWell c s k q) :=
  decidable_of_iff (_ ∧ _ ∧ _ ∧ _)
    ⟨fun h => ⟨h.1, h.2.1, h.2.2.1, h.2.2.2⟩, fun h => ⟨h.next, h.fits, h.stale, h.datalen⟩⟩

instance (q : Request) (e : Entry) : Decidable (VerifiesWell q e) :=
  inferInstanceAs (Decidable (_ ∧ _))

instance (c : Conf) (t : Server × Cache) (q : Request) : Decidable (Fair c t q) := by
  unfold Fair
  infer_instance

/-! ## The store and the cache -/

variable {c : Conf} {s : Server} {σ σ' : Store} {m : Cache} {q : Request} {l : List Addr} {a : Addr}
  {e : Entry} {r : Report} {k : Kind}

/-- A record says what was reported. -/
structure Agrees (e : Entry) (r : Report) : Prop where
  status : e.status = RECORD_OK ↔ r.status = RECORD_OK
  data : e.data.getD [] = r.data
  datalen : e.datalen = (e.data.getD []).length
  time : e.timestamp ≤ r.time

/-- The records of the store are the reports of the cache, one for each domain. -/
structure Mirrors (σ : Store) (l : List Addr) (m : Cache) : Prop where
  record : ∀ a ∈ l, ∀ e, σ.valOf a = some e → ∃ r, m e.domain = some r ∧ Agrees e r
  known : ∀ d, m d ≠ none → ∃ a ∈ l, σ.domainOf a = some d
  once : ∀ a ∈ l, ∀ b ∈ l, σ.domainOf a = σ.domainOf b → a = b

/-- What holds between two requests. -/
def Matches (σ : Store) (m : Cache) : Prop :=
  ∃ l, Listed σ.toHeap l ∧ σ.Hashed l ∧ (σ.h_allocated = 0 → l = [] ∧ σ.hcount = 0) ∧
    Mirrors σ l m

theorem matches_empty : Matches {} fun _ => none := by
  refine ⟨[], listed_empty, Store.hashed_nil rfl, fun _ => ⟨rfl, rfl⟩, ?_⟩
  constructor
  · intro a ha
    cases ha
  · intro d hd
    exact absurd rfl hd
  · intro a ha
    cases ha

theorem Mirrors.of_find_none (h : Mirrors σ l m) (hh : σ.Hashed l) {d : Bytes}
    (hf : σ.find d = none) : m d = none := by
  by_contra hne
  have hsome := hh.find_isSome.mpr (h.known d hne)
  rw [hf] at hsome
  cases hsome

theorem Mirrors.of_find_some (h : Mirrors σ l m) (hh : σ.Hashed l) {d : Bytes}
    (hf : σ.find d = some a) :
    a ∈ l ∧ ∃ e r, σ.valOf a = some e ∧ e.domain = d ∧ m d = some r ∧ Agrees e r := by
  obtain ⟨ha, hd⟩ := hh.entry _ (Store.find_eq_some hf)
  obtain ⟨e, he, hed⟩ := Option.map_eq_some_iff.mp hd
  simp only at hed
  obtain ⟨r, hr, hag⟩ := h.record a ha e he
  exact ⟨ha, e, r, he, hed, hed ▸ hr, hag⟩

/-! ### A record that is there -/

/-- The store with another record at an address. -/
structure Updated (σ σ' : Store) (l : List Addr) (a : Addr) (e : Entry) : Prop where
  listed : Listed σ'.toHeap l
  old : ∀ b, b ≠ a → σ'.valOf b = σ.valOf b
  new : σ'.valOf a = some e
  same : Store.SameTable σ σ'

theorem updated_refl (hl : Listed σ.toHeap l) (he : σ.valOf a = some e) : Updated σ σ l a e :=
  ⟨hl, fun _ _ => rfl, he, rfl, rfl, rfl, rfl, rfl⟩

theorem Updated.assign (h : Updated σ σ' l a e) (f : Entry → Entry) :
    ∃ τ, σ'.assign (some a) f = .ok τ ∧ Updated σ τ l a (f e) := by
  obtain ⟨τ, hτ, hl, hv, ha, hs, -⟩ := Store.assign_listed h.listed h.new f
  exact ⟨τ, hτ, hl, fun b hb => (hv b hb).trans (h.old b hb), ha, h.same.trans hs⟩

/-- What a copy of `save` does to a record that is there. -/
theorem Updated.copySave (h : Updated σ σ' l a e) (save : Bytes) :
    ∃ τ, σ'.copySave save (some a) = .ok τ ∧ Updated σ τ l a
      (if save = [] then e else { e with data := some save, datalen := save.length }) := by
  by_cases hs : save = []
  · exact ⟨σ', by rw [Store.copySave, if_pos hs], by rw [if_pos hs]; exact h⟩
  · obtain ⟨τ, hτ, h'⟩ := h.assign fun e => { e with data := some save, datalen := save.length }
    exact ⟨τ, by rw [Store.copySave, if_neg hs, hτ], by rw [if_neg hs]; exact h'⟩

/-- **A report on a record that is there.** -/
theorem Updated.matches {e' : Entry} (h : Updated σ σ' l a e') (hh : σ.Hashed l)
    (hzero : σ.h_allocated = 0 → l = [] ∧ σ.hcount = 0) (hm : Mirrors σ l m)
    (he : σ.valOf a = some e) (hd : e'.domain = e.domain) (hag : Agrees e' r) (ha : a ∈ l) :
    Matches σ' (m.set e.domain r) := by
  have hdom : ∀ b, σ'.domainOf b = σ.domainOf b := by
    intro b
    by_cases hb : b = a
    · subst hb
      rw [Store.domainOf, Store.domainOf, h.new, he, Option.map_some, Option.map_some, hd]
    · rw [Store.domainOf, h.old b hb, Store.domainOf]
  refine ⟨l, h.listed, hh.congr h.same.table fun b _ => hdom b, ?_, ?_, ?_, ?_⟩
  · rw [h.same.allocated, h.same.hcount]
    exact hzero
  · intro b hb x hx
    by_cases hba : b = a
    · subst hba
      rw [h.new, Option.some.injEq] at hx
      subst hx
      exact ⟨r, by rw [hd]; exact if_pos rfl, hag⟩
    · rw [h.old b hba] at hx
      obtain ⟨r', hr', hag'⟩ := hm.record b hb x hx
      refine ⟨r', ?_, hag'⟩
      have hne : x.domain ≠ e.domain := by
        intro heq
        refine hba (hm.once b hb a ha ?_)
        rw [Store.domainOf, Store.domainOf, hx, he, Option.map_some, Option.map_some, heq]
      rw [Cache.set, if_neg hne, hr']
  · intro d hne
    by_cases hed : d = e.domain
    · exact ⟨a, ha, by rw [hdom, Store.domainOf, he, hed]; rfl⟩
    · rw [Cache.set, if_neg hed] at hne
      obtain ⟨b, hb, hbd⟩ := hm.known d hne
      exact ⟨b, hb, (hdom b).trans hbd⟩
  · intro b hb b' hb' heq
    rw [hdom, hdom] at heq
    exact hm.once b hb b' hb' heq

/-- **A record is found**: its attempts are counted, and nothing else changes. -/
theorem lookup_eq (hl : Listed σ.toHeap l) (hf : σ.find q.domain = some a)
    (he : σ.valOf a = some e) (hnow : (c.timeout : Int) ≤ q.now ∧ q.now < 2 ^ 63)
    (hage : 0 ≤ e.timestamp ∧ e.timestamp ≤ q.now) :
    ∃ σ', σ.lookup c q.now q.domain = .ok (σ', some a,
        if e.status = RECORD_OK ∧ Young c q e then RECORD_OK else RECORD_OLD) ∧
      Updated σ σ' l a { e with attempts := e.attempts + 1 } := by
  obtain ⟨σ', hσ', hu⟩ := (updated_refl hl he).assign fun e => { e with attempts := e.attempts + 1 }
  refine ⟨σ', ?_, hu⟩
  obtain ⟨n, hn, hnv⟩ := Option.map_eq_some_iff.mp hu.new
  have hlt : c.horizon q.now < unsignedLong e.timestamp ↔ Young c q e := by
    have h1 := unsignedLong_eq hage.1 (by omega)
    have h2 : (c.horizon q.now : Int) = q.now - c.timeout := by
      rw [Conf.horizon]
      exact unsignedLong_eq (by omega) (by omega)
    rw [Young]
    omega
  simp only [Store.lookup, hf, hσ', bind, Except.bind, Heap.read_eq hn, hnv, hlt]
  split
  · rfl
  · rfl

/-- The walk finds out whether some record is not expired. -/
theorem someAlive_eq {t : Int} {P S : List Addr} {n : Nat} (hl : Listed σ.toHeap (P ++ S))
    (hn : S.length ≤ n) :
    ∃ b, Store.someAlive c t σ n S.head? = .ok b ∧ (b ↔ ∃ a ∈ S, σ.aliveAt c t a) := by
  induction S generalizing P n with
  | nil => exact ⟨false, by cases n <;> rfl, by simp⟩
  | cons a S ih =>
      obtain ⟨n, rfl⟩ : ∃ j, n = j + 1 := ⟨n - 1, by simp only [List.length_cons] at hn; omega⟩
      obtain ⟨v, hv⟩ := hl.node
      have hat : σ.aliveAt c t a = decide (c.start t ≤ v.timestamp) := by
        simp [Store.aliveAt, Heap.valOf, hv, Entry.alive]
      simp only [List.head?_cons, Store.someAlive, Heap.read_eq hv, bind, Except.bind]
      by_cases hex : v.timestamp < c.start t
      · obtain ⟨b, hb, hiff⟩ := ih (P := P ++ [a]) (n := n) (by simpa using hl) (by simpa using hn)
        refine ⟨b, by rw [if_pos hex, hb], hiff.trans ?_⟩
        have hdead : ¬ σ.aliveAt c t a = true := by
          rw [hat, decide_eq_true_eq]
          omega
        simp [hdead]
      · refine ⟨true, by rw [if_neg hex], ?_⟩
        have halive : σ.aliveAt c t a = true := by
          rw [hat, decide_eq_true_eq]
          omega
        simp [halive]

/-- While the domain has no record, or some record is not too old, a search is a look into the
table. -/
theorem search_record_eq (hl : Listed σ.toHeap l) (hh : σ.Hashed l) (ht : Timely c σ q)
    (hw : (c.is_white.any fun f => f q.domain) = false)
    (hreach : σ.find q.domain = none ∨
      ∃ b f, σ.valOf b = some f ∧ q.now - c.timeout ≤ f.timestamp) :
    σ.search_record c q.now q.domain = σ.lookup c q.now q.domain := by
  have hclock := ht.clock
  rw [Store.search_record, hw]
  cases l with
  | nil =>
      have hhead : σ.head = none := hl.head
      have hfind : σ.find q.domain = none := by
        rw [Store.find_eq_none]
        intro x hx
        exact absurd (hh.entry x hx).1 List.not_mem_nil
      simp only [Bool.false_eq_true, if_false, hhead, if_true, Store.lookup, hfind]
  | cons b l =>
      have hhead : σ.head = some b := hl.head
      obtain ⟨n, hn⟩ := hl.get List.mem_cons_self
      have hv : σ.valOf b = some n.val := by rw [Heap.valOf, hn]; rfl
      obtain ⟨h0, h1⟩ := ht.past b (hl.lt b List.mem_cons_self) n.val hv
      have hlt := lt_horizon (c := c) (t := q.now) (by omega) (by omega) h0 (by omega)
      simp only [Bool.false_eq_true, if_false, hhead, reduceCtorEq, bind, Except.bind,
        Heap.read_eq hn]
      by_cases hover : unsignedLong n.val.timestamp < c.horizon q.now
      · have hdue : ¬ q.now % c.fr_int = 0 := by
          rcases ht.head b hhead n.val hv with hage | hdue
          · rw [hlt] at hover
            omega
          · exact hdue
        obtain ⟨alive, ha, hiff⟩ := someAlive_eq (c := c) (t := q.now) (P := []) hl hl.length_le
        rw [List.head?_cons] at ha
        simp only [hover, if_true, hdue, if_false, ha]
        cases halive : alive with
        | true => rfl
        | false =>
            have hfind : σ.find q.domain = none := by
              rcases hreach with hnone | ⟨a, f, hf, hage⟩
              · exact hnone
              · obtain ⟨m, hm, -⟩ := Option.map_eq_some_iff.mp hf
                have hmem : a ∈ b :: l := by
                  rw [← hl.alive a, hm]
                  rfl
                rw [halive] at hiff
                refine absurd (hiff.mpr ⟨a, hmem, ?_⟩) Bool.false_ne_true
                rw [Store.aliveAt, hf]
                show decide (c.start q.now ≤ f.timestamp) = true
                rw [decide_eq_true_eq, Conf.start, time_t_eq (by omega) (by omega)]
                exact hage
            simp only [Store.lookup, hfind, Bool.false_eq_true, if_false]
      · simp only [hover, if_false]

/-! ### What is sent -/

theorem sendData_eq (ha : σ.valOf a = some e) (hlen : e.datalen = (e.data.getD []).length)
    (hd : e.data.getD [] = r.data) : sendData k (some a) σ = .ok (r.sent k) := by
  obtain ⟨n, hn, rfl⟩ := Option.map_eq_some_iff.mp ha
  rw [sendData, Report.sent]
  by_cases hk : k = .E
  · rw [if_pos hk, if_pos hk]
    simp only [Heap.read_eq hn, bind, Except.bind, writeData_eq hlen, hd, Option.toList_some]
  · rw [if_neg hk, if_neg hk]

theorem sendData_none : sendData k none σ = .ok [] := by
  rw [sendData]
  split <;> rfl

theorem printData_eq (ha : σ.valOf a = some e) (hlen : e.datalen = (e.data.getD []).length) :
    printData c (some a) σ = .ok () := by
  obtain ⟨n, hn, rfl⟩ := Option.map_eq_some_iff.mp ha
  rw [printData]
  by_cases hv : c.verbose = 0
  · rw [if_pos hv]
  · rw [if_neg hv]
    simp only [Heap.read_eq hn, bind, Except.bind]
    by_cases h0 : n.val.datalen ≤ 0
    · rw [if_pos h0]
    · rw [if_neg h0]
      cases hd : n.val.data with
      | none =>
          rw [hd] at hlen
          have hlen' : n.val.datalen = 0 := hlen
          omega
      | some d =>
          rw [hd] at hlen
          have hlen' : n.val.datalen = d.length := hlen
          exact if_pos (by omega)

/-! ### The answers -/

/-- A verification of a domain that has a record. -/
theorem respondOld_verified {t : Server} (hu : Updated σ t.store l a e)
    (hlen : e.datalen = (e.data.getD []).length) (ht : e.timestamp ≤ q.added)
    (hk : k = .D ∨ k = .E) (hv : VerifiesWell q e) :
    ∃ s' e', respondOld k q (some a) t = .ok (s', okFirst q.verified.status) ∧
      Updated σ s'.store l a e' ∧ e'.domain = e.domain ∧ Agrees e' q.verified ∧
      e'.attempts = e.attempts := by
  obtain ⟨hv₁, hv₂⟩ := hv
  obtain ⟨τ, hτ, hu'⟩ := hu.assign fun e => { e with status := q.dane.1 }
  obtain ⟨υ, hυ, hu''⟩ := hu'.copySave q.dane.2
  have hresp : respondOld k q (some a) t = .ok (⟨υ, q.dane.2⟩, okFirst q.verified.status) := by
    rcases hk with rfl | rfl <;>
      simp [respondOld, hτ, hυ, bind, Except.bind, Request.verified]
  have hst : q.dane.1 = RECORD_OK ↔ verdict q.dane = RECORD_OK := by
    refine ⟨fun h => ?_, hv₁⟩
    rw [verdict]
    split
    · rfl
    · exact h
  refine ⟨⟨υ, q.dane.2⟩, _, hresp, hu'', ?_, ?_, ?_⟩
  · split <;> rfl
  · by_cases hs : q.dane.2 = []
    · rw [if_pos hs]
      exact ⟨hst, (hv₂ hs).trans hs.symm, hlen, ht⟩
    · rw [if_neg hs]
      exact ⟨hst, rfl, rfl, ht⟩
  · split <;> rfl

/-- **A record with a success is answered from and reported on.** -/
theorem respondOk_known {t : Server} (hu : Updated σ t.store l a e) (hag : Agrees e r)
    (ht : e.timestamp ≤ q.added) (hok : e.status = RECORD_OK) :
    ∃ s' e', respondOk k RECORD_OK (some a) t = .ok (s', r.reply q k) ∧
      Updated σ s'.store l a e' ∧ e'.domain = e.domain ∧ Agrees e' (r.after q k) ∧
      e'.attempts = e.attempts := by
  have hset : ∀ st : Byte, Agrees { e with status := st } { r with status := st, time := q.added } :=
    fun st => ⟨Iff.rfl, hag.data, hag.datalen, ht⟩
  have hrok : r.status = RECORD_OK := hag.status.mp hok
  cases k with
  | S =>
      obtain ⟨τ, hτ, hu'⟩ := hu.assign fun e => { e with status := RECORD_OK }
      exact ⟨{ t with store := τ }, _, by simp [respondOk, hτ, bind, Except.bind, Report.reply],
        hu', rfl, hset RECORD_OK, rfl⟩
  | F =>
      obtain ⟨τ, hτ, hu'⟩ := hu.assign fun e => { e with status := RECORD_NOVRFY }
      exact ⟨{ t with store := τ }, _,
        by simp [respondOk, hτ, bind, Except.bind, Report.reply, hrok], hu', rfl,
        hset RECORD_NOVRFY, rfl⟩
  | q => exact ⟨t, e, by simp [respondOk, Report.reply, hrok], hu, rfl, hag, rfl⟩
  | E | D =>
      refine ⟨t, e, by simp [respondOk, Report.reply, hrok], hu, rfl, ?_, rfl⟩
      rw [Report.after, if_pos hrok]
      exact hag

/-- **A record without one is answered from and reported on.** -/
theorem respondOld_known {t : Server} (hu : Updated σ t.store l a e) (hag : Agrees e r)
    (ht : e.timestamp ≤ q.added) (hno : e.status ≠ RECORD_OK)
    (hv : k = .D ∨ k = .E → VerifiesWell q e) :
    ∃ s' e', respondOld k q (some a) t = .ok (s', r.reply q k) ∧
      Updated σ s'.store l a e' ∧ e'.domain = e.domain ∧ Agrees e' (r.after q k) ∧
      e'.attempts = e.attempts := by
  have hset : ∀ st : Byte, Agrees { e with status := st } { r with status := st, time := q.added } :=
    fun st => ⟨Iff.rfl, hag.data, hag.datalen, ht⟩
  have hrok : r.status ≠ RECORD_OK := fun h => hno (hag.status.mpr h)
  cases k with
  | S =>
      obtain ⟨τ, hτ, hu'⟩ := hu.assign fun e => { e with status := RECORD_OK }
      exact ⟨{ t with store := τ }, _,
        by simp [respondOld, hτ, bind, Except.bind, Report.reply, okFirst], hu', rfl,
        hset RECORD_OK, rfl⟩
  | F =>
      obtain ⟨τ, hτ, hu'⟩ := hu.assign fun e => { e with status := RECORD_NOVRFY }
      refine ⟨{ t with store := τ }, _, ?_, hu', rfl, hset RECORD_NOVRFY, rfl⟩
      simp only [respondOld, hτ, bind, Except.bind, Report.reply, okFirst, hrok, if_false]
      rfl
  | q =>
      exact ⟨t, e, by simp [respondOld, Report.reply, hrok], hu, rfl, hag, rfl⟩
  | E | D =>
      rw [Report.after, Report.reply, if_neg hrok, if_neg hrok]
      exact respondOld_verified hu hag.datalen ht (by simp) (hv (by simp))

/-- **A domain that has a record**, once it is looked up. Its attempts are counted, also for a
`q`. -/
theorem send_found {state : Byte} {reply : Bytes} {s' : Server} {e' : Entry} (hh : s.store.Hashed l)
    (hzero : s.store.h_allocated = 0 → l = [] ∧ s.store.hcount = 0) (hm : Mirrors s.store l m)
    (hlist : (c.is_tlsadomain.any fun f => !f q.domain) = false) (ha : a ∈ l)
    (he : s.store.valOf a = some e) (hd : e.domain = q.domain)
    (hsearch : s.store.search_record c q.now q.domain = .ok (σ, some a, state))
    (hnew : state ≠ RECORD_NEW)
    (hresp : (if state = RECORD_OLD then respondOld k q (some a) { s with store := σ }
      else respondOk k state (some a) { s with store := σ }) = .ok (s', reply))
    (hu : Updated s.store s'.store l a e') (hd' : e'.domain = e.domain) (hag : Agrees e' r)
    (hatt : e'.attempts = e.attempts + 1) :
    send_response c k q s = .ok (s', reply :: r.sent k) ∧
      Matches s'.store (m.set q.domain r) ∧ s'.store ≠ s.store := by
  have hdata := sendData_eq (k := k) hu.new hag.datalen hag.data
  have hprint := printData_eq (c := c) hu.new hag.datalen
  refine ⟨?_, ?_, ?_⟩
  · by_cases hs : state = RECORD_OLD
    · rw [if_pos hs] at hresp
      simp only [send_response, hlist, Bool.false_eq_true, if_false, hsearch, bind, Except.bind,
        hnew, if_pos hs, hresp, hdata, hprint]
    · rw [if_neg hs] at hresp
      simp only [send_response, hlist, Bool.false_eq_true, if_false, hsearch, bind, Except.bind,
        hnew, if_neg hs, hresp, hdata, hprint]
  · rw [← hd]
    exact hu.matches hh hzero hm he hd' hag ha
  · intro heq
    have hnewVal := hu.new
    rw [heq, he, Option.some.injEq] at hnewVal
    rw [← hnewVal] at hatt
    omega

/-- **A domain that has a record**: it is answered from it while it is young. -/
theorem send_known (hl : Listed s.store.toHeap l) (hh : s.store.Hashed l)
    (hzero : s.store.h_allocated = 0 → l = [] ∧ s.store.hcount = 0) (hm : Mirrors s.store l m)
    (hlist : (c.is_tlsadomain.any fun f => !f q.domain) = false)
    (hw : (c.is_white.any fun f => f q.domain) = false) (ht : Timely c s.store q)
    (hf : s.store.find q.domain = some a) (he : s.store.valOf a = some e)
    (hyoung : Young c q e)
    (hv : k = .D ∨ k = .E → e.status ≠ RECORD_OK → VerifiesWell q e) :
    ∃ r s', m.recent c q.now q.domain = some r ∧
      send_response c k q s = .ok (s', (m.again k q r).2) ∧
      Matches s'.store (m.again k q r).1 ∧ s'.store ≠ s.store := by
  obtain ⟨ha, e₀, r, he₀, hdom, hr, hag⟩ := hm.of_find_some hh hf
  obtain rfl := Option.some.inj (he₀.symm.trans he)
  have hclock := ht.clock
  have hpast := ht.past a (hl.lt a ha) e₀ he
  have hlate : e₀.timestamp ≤ q.added := by omega
  have hrecent : m.recent c q.now q.domain = some r := by
    have htime := hag.time
    have hlt : q.now < r.time + c.timeout := by
      rw [Young] at hyoung
      omega
    rw [Cache.recent, hr, Option.filter_some, if_pos (decide_eq_true hlt)]
  obtain ⟨σ₁, hσ₁, hu⟩ := lookup_eq (c := c) hl hf he ⟨hclock.1, by omega⟩ hpast
  have hreach : ∃ b f, s.store.valOf b = some f ∧ q.now - c.timeout ≤ f.timestamp := by
    refine ⟨a, e₀, he, ?_⟩
    rw [Young] at hyoung
    omega
  have hsearch := (search_record_eq hl hh ht hw (.inr hreach)).trans hσ₁
  have hag₁ : Agrees { e₀ with attempts := e₀.attempts + 1 } r :=
    ⟨hag.status, hag.data, hag.datalen, hag.time⟩
  by_cases hok : e₀.status = RECORD_OK
  · rw [if_pos ⟨hok, hyoung⟩] at hsearch
    obtain ⟨s', e', hs', hu', hd', hag', hatt⟩ :=
      respondOk_known (k := k) (t := { s with store := σ₁ }) hu hag₁ hlate hok
    exact ⟨r, s', hrecent, send_found hh hzero hm hlist ha he hdom hsearch (by decide) hs' hu' hd'
      hag' hatt⟩
  · rw [if_neg fun h => hok h.1] at hsearch
    obtain ⟨s', e', hs', hu', hd', hag', hatt⟩ :=
      respondOld_known (k := k) (t := { s with store := σ₁ }) hu hag₁ hlate hok fun hk => hv hk hok
    exact ⟨r, s', hrecent, send_found hh hzero hm hlist ha he hdom hsearch (by decide) hs' hu' hd'
      hag' hatt⟩

/-- **A domain whose record is too old** is verified again. -/
theorem send_renewed (hl : Listed s.store.toHeap l) (hh : s.store.Hashed l)
    (hzero : s.store.h_allocated = 0 → l = [] ∧ s.store.hcount = 0) (hm : Mirrors s.store l m)
    (hlist : (c.is_tlsadomain.any fun f => !f q.domain) = false)
    (hw : (c.is_white.any fun f => f q.domain) = false) (ht : Timely c s.store q)
    (hf : s.store.find q.domain = some a) (he : s.store.valOf a = some e)
    (hold : ¬ Young c q e) (hnew : Renewed c (s, m) k q e) (hv : VerifiesWell q e) :
    ∃ s', send_response c k q s = .ok (s', okFirst q.verified.status :: q.verified.sent k) ∧
      Matches s'.store (m.set q.domain q.verified) := by
  obtain ⟨ha, e₀, r, he₀, hdom, hr, hag⟩ := hm.of_find_some hh hf
  obtain rfl := Option.some.inj (he₀.symm.trans he)
  have hclock := ht.clock
  have hpast := ht.past a (hl.lt a ha) e₀ he
  obtain ⟨σ₁, hσ₁, hu⟩ := lookup_eq (c := c) hl hf he ⟨hclock.1, by omega⟩ hpast
  obtain ⟨b, -, f, hreach⟩ := hnew.reached
  have hsearch := (search_record_eq hl hh ht hw (.inr ⟨b, f, hreach⟩)).trans hσ₁
  rw [if_neg fun h => hold h.2] at hsearch
  obtain ⟨s', e', hs', hu', hd', hag', hatt⟩ :=
    respondOld_verified (k := k) (t := { s with store := σ₁ }) hu hag.datalen
      (show e₀.timestamp ≤ q.added by omega) hnew.kind hv
  obtain ⟨hsent, hmatch, -⟩ := send_found hh hzero hm hlist ha he hdom hsearch (by decide) hs' hu' hd'
    hag' hatt
  exact ⟨s', hsent, hmatch⟩

/-- What is answered where a verification is made again. -/
theorem answer_renewed (hm : ∃ r, m q.domain = some r ∧ (e.status = RECORD_OK ↔ r.status = RECORD_OK))
    (hnew : Renewed c (s, m) k q e) :
    (match m.recent c q.now q.domain with
      | none => m.first k q
      | some r => m.again k q r) =
      (m.set q.domain q.verified, okFirst q.verified.status :: q.verified.sent k) := by
  obtain ⟨r, hr, hst⟩ := hm
  cases hrec : m.recent c q.now q.domain with
  | none =>
      rcases hnew.kind with rfl | rfl <;> simp [Cache.first, Request.report]
  | some r' =>
      have hrr : r' = r := by
        rw [Cache.recent, hr, Option.filter_some] at hrec
        split at hrec
        · exact (Option.some.inj hrec).symm
        · cases hrec
      subst hrr
      have hno : r'.status ≠ RECORD_OK := by
        intro hok
        have hnone := hnew.report (hst.mpr hok)
        rw [hrec] at hnone
        cases hnone
      rcases hnew.kind with rfl | rfl <;>
        simp [Cache.again, Report.after, Report.reply, hno]

theorem length_dedup_keys (hh : σ.Hashed l) (d : Bytes) :
    (σ.table.map Prod.fst ++ [d]).dedup.length
      = ((σ.vals l).map Entry.domain ++ [d]).dedup.length := by
  apply List.Perm.length_eq
  rw [List.perm_ext_iff_of_nodup (List.nodup_dedup _) (List.nodup_dedup _)]
  intro x
  have hkeys : x ∈ σ.table.map Prod.fst ↔ x ∈ (σ.vals l).map Entry.domain := by
    rw [← List.mem_dedup (l := (σ.vals l).map Entry.domain)]
    exact hh.mem_keys
  simp only [List.mem_dedup, List.mem_append, hkeys]

theorem not_known (hh : σ.Hashed l) {d : Bytes} (hf : σ.find d = none) :
    ∀ b ∈ l, σ.domainOf b ≠ some d := by
  intro b hb hd
  have hsome := hh.find_isSome.mpr ⟨b, hb, hd⟩
  rw [hf] at hsome
  cases hsome

/-- **A report on a new record.** -/
theorem Extended.matches {υ : Store} (hzero : σ.h_allocated = 0 → l = [] ∧ σ.hcount = 0)
    (hm : Mirrors σ l m) (hext : σ.Extended υ l a e) (hs : υ.SameRecords σ')
    (hh : σ'.Hashed (l ++ [a])) (hnew : ∀ b ∈ l, σ.domainOf b ≠ some e.domain) (hag : Agrees e r)
    (halloc : σ'.h_allocated ≠ 0 ∨ (σ'.h_allocated = σ.h_allocated ∧ σ.hcount ≠ 0)) :
    Matches σ' (m.set e.domain r) := by
  have hval : ∀ b, σ'.valOf b = υ.valOf b := fun b => by rw [hs.heap]
  have hold : ∀ b ∈ l, σ'.valOf b = σ.valOf b := fun b hb => (hval b).trans (hext.old b hb)
  have hdom : ∀ b ∈ l, σ'.domainOf b = σ.domainOf b := by
    intro b hb
    rw [Store.domainOf, hold b hb, Store.domainOf]
  have hdoma : σ'.domainOf a = some e.domain := by
    rw [Store.domainOf, hval, hext.new]
    rfl
  refine ⟨l ++ [a], hs.heap ▸ hext.listed, hh, ?_, ?_, ?_, ?_⟩
  · intro h0
    rcases halloc with hne | ⟨heq, hne⟩
    · exact absurd h0 hne
    · exact absurd (hzero (heq.symm.trans h0)).2 hne
  · intro b hb x hx
    rcases List.mem_append.mp hb with hb | hb
    · rw [hold b hb] at hx
      obtain ⟨r', hr', hag'⟩ := hm.record b hb x hx
      have hne : x.domain ≠ e.domain := by
        intro heq
        refine hnew b hb ?_
        rw [Store.domainOf, hx, ← heq]
        rfl
      exact ⟨r', by rw [Cache.set, if_neg hne, hr'], hag'⟩
    · rw [List.mem_singleton.mp hb, hval, hext.new, Option.some.injEq] at hx
      subst hx
      exact ⟨r, if_pos rfl, hag⟩
  · intro d hne
    by_cases hed : d = e.domain
    · exact ⟨a, by simp, by rw [hdoma, hed]⟩
    · rw [Cache.set, if_neg hed] at hne
      obtain ⟨b, hb, hbd⟩ := hm.known d hne
      exact ⟨b, List.mem_append_left _ hb, (hdom b hb).trans hbd⟩
  · intro b hb b' hb' heq
    rcases List.mem_append.mp hb with hb | hb <;> rcases List.mem_append.mp hb' with hb' | hb'
    · rw [hdom b hb, hdom b' hb'] at heq
      exact hm.once b hb b' hb' heq
    · rw [List.mem_singleton.mp hb', hdoma, hdom b hb] at heq
      exact absurd heq (hnew b hb)
    · rw [List.mem_singleton.mp hb, hdoma, hdom b' hb'] at heq
      exact absurd heq.symm (hnew b' hb')
    · rw [List.mem_singleton.mp hb, List.mem_singleton.mp hb']

/-- The data that is copied into a record that is added. -/
theorem AddsWell.saved (h : AddsWell c s k q) (hk : k ≠ .q) :
    (if k = .D ∨ k = .E then q.dane.2 else s.save) = (q.report k).data := by
  cases k with
  | q => exact absurd rfl hk
  | S | F => simpa [Request.report] using h.stale (by simp)
  | D | E => simp [Request.report, Request.verified]

/-- A record that is added, with its data, before it is hashed. -/
theorem AddsWell.added (h : AddsWell c s k q) (hl : Listed s.store.toHeap l) (hk : k ≠ .q) :
    ∃ σ υ e, s.store.add_record q.mem q.added q.domain (q.report k).status =
        .ok (s.store.fresh, σ) ∧
      Store.copySave (q.report k).data (some s.store.fresh) σ = .ok υ ∧
      s.store.Extended υ l s.store.fresh e ∧ e.domain = q.domain ∧ Agrees e (q.report k) := by
  have hlen : (q.report k).data = [] → q.mem.val.datalen = 0 := by
    intro hnil
    refine h.datalen fun hde => ?_
    have hsave := h.saved hk
    rw [if_pos hde] at hsave
    exact hsave.trans hnil
  have htime : (q.report k).time = q.added := by
    cases k <;> rfl
  obtain ⟨τ, hτ, hext⟩ := Store.link_extended hl
    { q.mem with
      val :=
        { q.mem.val with
          domain := q.domain, data := none, timestamp := q.added, attempts := 1
          status := (q.report k).status } }
    (fun hne => h.next fun hnone => hne (hl.head_eq_none.mp hnone))
  have hadd : s.store.add_record q.mem q.added q.domain (q.report k).status
      = .ok (s.store.fresh, { τ with dane_count := τ.dane_count + 1 }) := by
    rw [Store.add_record, hτ]
    rfl
  by_cases hnil : (q.report k).data = []
  · refine ⟨_, _, _, hadd, by rw [Store.copySave, if_pos hnil], hext, rfl, Iff.rfl, ?_, ?_, ?_⟩
    · exact hnil.symm
    · exact hlen hnil
    · exact le_of_eq htime.symm
  · obtain ⟨υ, hυ, hext'⟩ := hext.assign fun e =>
      { e with data := some (q.report k).data, datalen := (q.report k).data.length }
    refine ⟨_, υ, _, hadd, by rw [Store.copySave, if_neg hnil, hυ], hext', rfl, Iff.rfl, rfl, rfl, ?_⟩
    exact le_of_eq htime.symm

/-- **A domain that has none.** -/
theorem send_new (hl : Listed s.store.toHeap l) (hh : s.store.Hashed l)
    (hzero : s.store.h_allocated = 0 → l = [] ∧ s.store.hcount = 0) (hm : Mirrors s.store l m)
    (hlist : (c.is_tlsadomain.any fun f => !f q.domain) = false)
    (hw : (c.is_white.any fun f => f q.domain) = false) (ht : Timely c s.store q)
    (hf : s.store.find q.domain = none) (hadd : k ≠ .q → AddsWell c s k q) :
    ∃ s', send_response c k q s = .ok (s', (m.first k q).2) ∧
      Matches s'.store (m.first k q).1 ∧ (k = .q → s'.store = s.store) := by
  have hlookup : s.store.search_record c q.now q.domain = .ok (s.store, none, RECORD_NEW) := by
    rw [search_record_eq hl hh ht hw (.inl hf), Store.lookup, hf]
  by_cases hk : k = .q
  · refine ⟨s, ?_, ?_, fun _ => rfl⟩
    · simp only [send_response, hlist, Bool.false_eq_true, if_false, hlookup, bind, Except.bind,
        if_true, respondNew, hk, sendData_none, printData, Cache.first]
    · rw [Cache.first, if_pos hk]
      exact ⟨l, hl, hh, hzero, hm⟩
  · have hwell := hadd hk
    have hsave := hwell.saved hk
    have hstate : newState k q = (q.report k).status := by
      cases k <;> rfl
    obtain ⟨σ, υ, e, hadd', hυ, hext', hd, hag⟩ := hwell.added hl hk
    have hfits : s.store.Fits c ((s.store.vals l).map Entry.domain ++ [e.domain]) e.domain := by
      have := hwell.fits
      rw [Store.Fits, length_dedup_keys hh] at this
      rw [hd]
      exact this
    obtain ⟨σ', hσ', hs, hh', -, hsize⟩ := hext'.create_hash hh (fun h0 => (hzero h0).1) hfits
    have hdata := sendData_eq (k := k) hext'.new hag.datalen hag.data
    have hprint := printData_eq (c := c) hext'.new hag.datalen
    refine ⟨⟨σ', (q.report k).data⟩, ?_, ?_, fun h => absurd h hk⟩
    · simp only [send_response, hlist, Bool.false_eq_true, if_false, hlookup, bind, Except.bind,
        if_true, respondNew, hk, hsave, hstate, hadd', hυ, hdata, hprint, hσ']
      rw [Cache.first, if_neg hk]
      cases k with
      | q => exact absurd rfl hk
      | S | F => simp [Report.sent, Request.report]
      | D | E => simp [okFirst]
    · rw [Cache.first, if_neg hk]
      have hset : (if k = .S ∨ k = .F then (m.set q.domain (q.report k), [[1, (q.report k).status]])
          else (m.set q.domain (q.report k),
            okFirst (q.report k).status :: (q.report k).sent k)).1
          = m.set q.domain (q.report k) := by
        split <;> rfl
      rw [hset, ← hd]
      refine Extended.matches hzero hm hext' hs hh' (hd ▸ not_known hh hf) hag ?_
      by_cases hmod : s.store.hcount % c.hash_size = 0
      · rw [if_pos hmod] at hsize
        rw [hsize.1]
        exact Or.inl (Nat.succ_ne_zero _)
      · rw [if_neg hmod] at hsize
        exact Or.inr ⟨hsize.1, fun h0 => hmod (by rw [h0, Nat.zero_mod])⟩

/-! ## Runs -/

/-- A `q` is for a domain without a record, if it is for one that is looked up. -/
def Quiet (c : Conf) (s : Server) (q : Request) : Prop :=
  Kind.ofByte q.qmr = some .q → q.domain ≠ [] → c.consults q.domain = true →
    s.store.find q.domain = none

/-- **The request is answered from the cache**, with one status of two bytes. -/
def Right (c : Conf) (t : Server × Cache) (q : Request) : Prop :=
  ∃ s', serve c q t.1 = .ok (s', (t.2.answer c q).2) ∧
    ∀ k, Kind.ofByte q.qmr = some k → q.domain ≠ [] → ∃ status rest,
      (t.2.answer c q).2 = status :: rest ∧ status.length = 2 ∧ (k ≠ .E → rest = [])

/-- A `q` leaves the store as it is. -/
def Unchanged (c : Conf) (t : Server × Cache) (q : Request) : Prop :=
  Kind.ofByte q.qmr = some .q → ∀ s' resp, serve c q t.1 = .ok (s', resp) → s'.store = t.1.store

/-- The status is the first of what is answered. -/
theorem answer_status (m : Cache) (hk : Kind.ofByte q.qmr = some k) (hd : q.domain ≠ []) :
    ∃ status rest, (m.answer c q).2 = status :: rest ∧ status.length = 2 ∧
      (k ≠ .E → rest = []) := by
  have hsent : ∀ r : Report, k ≠ .E → r.sent k = [] := fun r hne => if_neg hne
  simp only [Cache.answer, hk, hd, if_false]
  split
  · exact ⟨_, [], rfl, rfl, fun _ => rfl⟩
  split
  · exact ⟨_, [], rfl, rfl, fun _ => rfl⟩
  cases m.recent c q.now q.domain with
  | none =>
      simp only [Cache.first]
      split
      · exact ⟨_, [], rfl, rfl, fun _ => rfl⟩
      split
      · exact ⟨_, [], rfl, rfl, fun _ => rfl⟩
      · exact ⟨_, _, rfl, rfl, hsent _⟩
  | some r =>
      refine ⟨_, _, rfl, ?_, hsent _⟩
      cases k with
      | E | D =>
          simp only [Report.reply]
          split <;> rfl
      | q | S | F => rfl

/-- A domain that no DANE record is looked up for: the store is not asked. -/
theorem serve_aside {k : Kind} (m : Cache) (hk : Kind.ofByte q.qmr = some k) (hd : q.domain ≠ [])
    (hno : c.consults q.domain = false)
    (hwhite : (c.is_white.any fun f => f q.domain) = true →
      (c.is_tlsadomain.any fun f => !f q.domain) = false → k ≠ .S ∧ k ≠ .F) :
    serve c q s = .ok (s, (m.answer c q).2) ∧ (m.answer c q).1 = m := by
  cases hlist : (c.is_tlsadomain.any fun f => !f q.domain) with
  | true =>
      simp only [serve, send_response, Cache.answer, hk, hd, hlist, if_true, if_false, and_self]
  | false =>
      have hw : (c.is_white.any fun f => f q.domain) = true := by
        simpa [Conf.consults, hlist] using hno
      have hsearch : s.store.search_record c q.now q.domain = .ok (s.store, none, RECORD_WHITE) := by
        rw [Store.search_record, hw]
        rfl
      have hresp : respondOk k RECORD_WHITE none s = .ok (s, [1, RECORD_WHITE]) := by
        cases k with
        | S => exact absurd rfl (hwhite hw hlist).1
        | F => exact absurd rfl (hwhite hw hlist).2
        | q | D | E => rfl
      have hWhiteNew : RECORD_WHITE ≠ RECORD_NEW := by decide
      have hWhiteOld : RECORD_WHITE ≠ RECORD_OLD := by decide
      simp only [serve, send_response, Cache.answer, hk, hd, hlist, hw, if_true, if_false,
        Bool.false_eq_true, hsearch, bind, Except.bind, hWhiteNew, hWhiteOld, hresp, sendData_none,
        printData, and_self]

/-- The store is asked, and answers from what it has of the domain. -/
theorem serve_consulted {k : Kind} (h : Matches s.store m) (hf : Fair c (s, m) q)
    (hk : Kind.ofByte q.qmr = some k) (hd : q.domain ≠ []) (hyes : c.consults q.domain = true) :
    ∃ s', serve c q s = .ok (s', (m.answer c q).2) ∧ Matches s'.store (m.answer c q).1 ∧
      (k = .q → (s'.store = s.store ↔ Quiet c s q)) := by
  have hlist : (c.is_tlsadomain.any fun f => !f q.domain) = false := by
    simpa using (Bool.and_eq_true_iff.mp hyes).1
  have hw : (c.is_white.any fun f => f q.domain) = false := by
    simpa using (Bool.and_eq_true_iff.mp hyes).2
  obtain ⟨ht, hadd, hver⟩ := (hf k hk hd hlist).2 hyes
  obtain ⟨l, hl, hh, hzero, hm⟩ := h
  have hans : m.answer c q = match m.recent c q.now q.domain with
      | none => m.first k q
      | some r => m.again k q r := by
    simp only [Cache.answer, hk, hd, hlist, hw, if_false, Bool.false_eq_true]
  have hserve : serve c q s = send_response c k q s := by
    simp only [serve, hk, hd, if_false]
  rw [hserve]
  cases hfind : s.store.find q.domain with
  | none =>
      -- nothing is known of the domain
      have hnone : m.recent c q.now q.domain = none := by
        rw [Cache.recent, hm.of_find_none hh hfind]
        rfl
      rw [hans, hnone]
      obtain ⟨s', hs', hm', hq⟩ := send_new hl hh hzero hm hlist hw ht hfind (hadd hfind)
      exact ⟨s', hs', hm', fun hkq => ⟨fun _ _ _ _ => hfind, fun _ => hq hkq⟩⟩
  | some a =>
      obtain ⟨ha, e, r, he, -, hr, hag⟩ := hm.of_find_some hh hfind
      obtain ⟨hage, hwell⟩ := hver a hfind e he
      rw [hans]
      by_cases hyoung : Young c q e
      · obtain ⟨r', s', hrec, hs', hm', hne⟩ := send_known (k := k) hl hh hzero hm hlist hw ht hfind
          he hyoung fun hde hst => hwell hde (.inl hst)
        rw [hrec]
        refine ⟨s', hs', hm', fun hkq => ⟨fun heq => absurd heq hne, fun hquiet' => ?_⟩⟩
        have := hquiet' (by rw [hk, hkq]) hd hyes
        rw [hfind] at this
        cases this
      · -- its record is too old, and the request brings a new one
        have hnew : Renewed c (s, m) k q e := hage.resolve_left hyoung
        obtain ⟨s', hs', hm'⟩ := send_renewed hl hh hzero hm hlist hw ht hfind he hyoung hnew
          (hwell hnew.kind (.inr hyoung))
        rw [answer_renewed ⟨r, hr, hag.status⟩ hnew]
        refine ⟨s', hs', hm', fun hkq => ?_⟩
        rcases hnew.kind with hk' | hk'
        · rw [hk'] at hkq
          cases hkq
        · rw [hk'] at hkq
          cases hkq

/-- **What a fair step does.** -/
theorem serve_fair (h : Matches s.store m) (hf : Fair c (s, m) q) :
    ∃ s', serve c q s = .ok (s', (m.answer c q).2) ∧ Matches s'.store (m.answer c q).1 ∧
      (Kind.ofByte q.qmr = some .q → (s'.store = s.store ↔ Quiet c s q)) := by
  cases hk : Kind.ofByte q.qmr with
  | none =>
      refine ⟨s, ?_, ?_, fun hq => nomatch hq⟩
      · simp only [serve, Cache.answer, hk]
      · simpa only [Cache.answer, hk] using h
  | some k =>
      simp only [Option.some.injEq]
      by_cases hd : q.domain = []
      · refine ⟨s, ?_, ?_, fun _ => ⟨fun _ _ hne => absurd hd hne, fun _ => rfl⟩⟩
        · simp only [serve, Cache.answer, hk, hd, if_true]
        · simpa only [Cache.answer, hk, hd, if_true] using h
      · cases hyes : c.consults q.domain with
        | true => exact serve_consulted h hf hk hd hyes
        | false =>
            obtain ⟨hserve, hm⟩ := serve_aside (s := s) m hk hd hyes
              fun hw hlist => (hf k hk hd hlist).1 hw
            refine ⟨s, hserve, hm.symm ▸ h, fun _ => ⟨fun _ _ _ hc => ?_, fun _ => rfl⟩⟩
            rw [hyes] at hc
            cases hc

/-- The daemon, and the cache beside it. -/
def answering (c : Conf) : Machine (Server × Cache) Request where
  init t := t = ({}, fun _ => none)
  step t q := (serve c q t.1).toOption.map fun p => (p.1, (t.2.answer c q).1)

theorem answering_step {t u : Server × Cache} (h : (answering c).step t q = some u) :
    ∃ s' resp, serve c q t.1 = .ok (s', resp) ∧ u = (s', (t.2.answer c q).1) := by
  obtain ⟨⟨s', resp⟩, hs, rfl⟩ := Option.map_eq_some_iff.mp h
  refine ⟨s', resp, ?_, rfl⟩
  cases hr : serve c q t.1 with
  | error e =>
      rw [hr] at hs
      cases hs
  | ok p =>
      rw [hr] at hs
      rw [Option.some.inj hs]

/-- **The DANE cache answers each domain from its own record** in every run whose steps are fair,
and no `q` of it changes the store exactly as long as every `q` is for a domain without a record. -/
theorem right_unchanged_iff_quiet {qs : List Request}
    (hf : (answering c).Meets (Fair c) ({}, fun _ => none) qs) :
    (answering c).Meets (Right c) ({}, fun _ => none) qs ∧
      ((answering c).Meets (Unchanged c) ({}, fun _ => none) qs ↔
        (answering c).Meets (fun t => Quiet c t.1) ({}, fun _ => none) qs) := by
  have hstep : ∀ t q u, Matches t.1.store t.2 → Fair c t q → (answering c).step t q = some u →
      Matches u.1.store u.2 := by
    rintro ⟨s, m⟩ q u hm hfair hs
    obtain ⟨s', hs', hm', -⟩ := serve_fair hm hfair
    obtain ⟨v, resp, hv, rfl⟩ := answering_step hs
    rw [hs', Except.ok.injEq, Prod.mk.injEq] at hv
    rw [← hv.1]
    exact hm'
  constructor
  · refine (Machine.meets_congr (I := fun t => Matches t.1.store t.2) (Q := fun _ _ => True) hstep
      ?_ matches_empty hf).mpr (Machine.meets_true qs _)
    rintro ⟨s, m⟩ q hm hfair
    obtain ⟨s', hs', -, -⟩ := serve_fair hm hfair
    exact iff_true_intro ⟨s', hs', fun k hk hd => answer_status m hk hd⟩
  · refine Machine.meets_congr (I := fun t => Matches t.1.store t.2) hstep ?_ matches_empty hf
    rintro ⟨s, m⟩ q hm hfair
    obtain ⟨s', hs', -, hq⟩ := serve_fair hm hfair
    constructor
    · intro hkeep hkq
      exact (hq hkq).mp (hkeep hkq s' _ hs') hkq
    · intro hquiet hkq u resp hu
      rw [hs', Except.ok.injEq, Prod.mk.injEq] at hu
      rw [← hu.1]
      exact (hq hkq).mpr hquiet

/-- A request about a domain, for which `TLSA` data are found. -/
def plainRequest (qmr : Byte) (domain : Bytes) (now : Int) : Request :=
  { qmr := qmr, domain := domain, now := now, added := now, dane := (RECORD_OK, asc "TLSA")
    mem := zeroed }

/-- Two domains are verified; one that has no record is asked for, and the first is verified again
when its record is too old. -/
def plainRequests : List Request :=
  [plainRequest 69 (asc "a") 1000, plainRequest 68 (asc "b") 1050, plainRequest 113 (asc "c") 1060,
    plainRequest 69 (asc "a") 1110]

theorem right_unchanged_iff_quiet_renewed :
    (answering plainConf).Meets (Right plainConf) ({}, fun _ => none) plainRequests ∧
      ((answering plainConf).Meets (Unchanged plainConf) ({}, fun _ => none) plainRequests ↔
        (answering plainConf).Meets (fun t => Quiet plainConf t.1) ({}, fun _ => none)
          plainRequests) :=
  right_unchanged_iff_quiet (by decide +kernel)

/-- After one domain was verified, a success is reported for another, and its data are those of
the first. -/
theorem other_data_not_right :
    ¬ (answering plainConf).Meets (Right plainConf) ({}, fun _ => none)
      ([plainRequest 68 (asc "a") 1000, plainRequest 83 (asc "b") 1010] ++
        [plainRequest 69 (asc "b") 1020]) := by
  intro hall
  have hrun : ((answering plainConf).exec ({}, fun _ => none)
      [plainRequest 68 (asc "a") 1000, plainRequest 83 (asc "b") 1010]).map
        (fun t => ((serve plainConf (plainRequest 69 (asc "b") 1020) t.1).toOption.map Prod.snd,
          (t.2.answer plainConf (plainRequest 69 (asc "b") 1020)).2))
      = some (some [[1, RECORD_OK], asc "TLSA"], [[1, RECORD_OK], []]) := by
    decide +kernel
  obtain ⟨t, ht, hans⟩ := Option.map_eq_some_iff.mp hrun
  obtain ⟨⟨s', hs', -⟩, -⟩ := (Machine.meets_append.mp hall).2 t ht
  rw [hs', Prod.mk.injEq] at hans
  simp only [Except.toOption, Option.map_some, Option.some.injEq] at hans
  rw [hans.2] at hans
  exact absurd hans.1 (by decide)

end IndimailMta.Daned
