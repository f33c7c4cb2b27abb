import IndimailMta.Daned.Context
import IndimailMta.Daned.Hash
import IndimailMta.Lib.Run

/-!
# The DANE store over expiry and restart

`Model` is what the store is for: a list of records, to which records are added, and from which
those go that are expired. `Kept` says that the store is well linked and holds these records. A
step keeps the store so if it meets `Sound`, which names the ways the code leaves it: the link
of a new record that nobody assigns, the end of the list going away, a hash table without room,
data or domains with a newline, and a context file that was not written.
-/

namespace IndimailMta.Daned

open IndimailMta Links Lines Run

/-! ## The model -/

/-- What a record says, and what a restart keeps of it. -/
structure Record where
  domain : Bytes
  status : Byte
  timestamp : Int
  data : Bytes
  datalen : Int
  deriving DecidableEq, Repr

def Entry.record (e : Entry) : Record := ⟨e.domain, e.status, e.timestamp, e.data.getD [], e.datalen⟩

/-- The record is not older than `timeout`. -/
def Record.unexpired (c : Conf) (now : Int) (r : Record) : Bool := now - c.timeout ≤ r.timestamp

/-- The records of the store, and those of the context file. -/
structure Model where
  records : List Record := []
  saved : List Record := []
  deriving DecidableEq, Repr

/-- The records that are in the file after a save: without a record there is no save. -/
def Model.save (c : Conf) (now : Int) (m : Model) : List Record :=
  if m.records = [] then m.saved else m.records.filter (Record.unexpired c now)

def Model.step (c : Conf) (m : Model) : Label → Model
  | .add domain status save now mem =>
      let datalen := if save = [] then mem.val.datalen else save.length
      { m with records := m.records ++ [⟨domain, status, now, save, datalen⟩] }
  | .expire now => { m with records := m.records.filter (Record.unexpired c now) }
  | .rehash => m
  | .restart saved now _ =>
      { records := (m.records.filter (Record.unexpired c saved)).filter (Record.unexpired c now)
        saved := m.save c saved }

/-! ## When a step is sound -/

/-- A new table has room for some domains. -/
def NewTable (c : Conf) (ds : List Bytes) : Prop :=
  125 * c.hash_size < 2147483648 ∧ ds.dedup.length ≤ c.room (125 * c.hash_size / 100)

/-- How often a table is made while records of these domains are hashed one after the other:
when the number of domains so far is a multiple of `hash_size`. -/
def tables (hash_size : Nat) (ds : List Bytes) : Nat :=
  (List.range ds.length).countP fun i => (ds.take i).dedup.length % hash_size = 0

/-- The line of a record gives it back: it has no newline of its own, and its data are there. -/
structure Record.Plain (r : Record) : Prop where
  domain : (10 : Byte) ∉ r.domain ∧ (0 : Byte) ∉ r.domain
  status : r.status ≠ 10
  data : (10 : Byte) ∉ r.data
  datalen : r.datalen = r.data.length ∧ r.data.length < 2 ^ 31

/-- A time whose difference from `timeout` is a `time_t`. -/
def InRange (c : Conf) (now : Int) : Prop :=
  -2 ^ 63 ≤ now - c.timeout ∧ now - c.timeout < 2 ^ 63

instance (c : Conf) (ds : List Bytes) : Decidable (NewTable c ds) :=
  inferInstanceAs (Decidable (_ ∧ _))

instance (r : Record) : Decidable r.Plain :=
  decidable_of_iff ((10 ∉ r.domain ∧ 0 ∉ r.domain) ∧ r.status ≠ 10 ∧ 10 ∉ r.data ∧
      r.datalen = r.data.length ∧ r.data.length < 2 ^ 31)
    ⟨fun h => ⟨h.1, h.2.1, h.2.2.1, h.2.2.2⟩, fun h => ⟨h.domain, h.status, h.data, h.datalen⟩⟩

instance (c : Conf) (now : Int) : Decidable (InRange c now) :=
  inferInstanceAs (Decidable (_ ∧ _))

/-- The restart finds what there is to be kept. -/
structure Restarts (c : Conf) (m : Model) (saved now : Int) (mem : Addr → Node Entry) : Prop where
  clock : ((c.timeout : Int) ≤ saved ∧ saved < 2 ^ 63) ∧ (c.timeout : Int) ≤ now ∧ now < 2 ^ 63
  times : ∀ r ∈ m.records ++ m.saved, 0 ≤ r.timestamp ∧ r.timestamp < 2 ^ 63
  plain : ∀ r ∈ m.save c saved, r.Plain
  /-- A file that an earlier save left has nothing that would come back. -/
  stale : m.records = [] → ∀ r ∈ m.saved, r.unexpired c now = false
  /-- What expires before the file is read is left out only if that is logged. -/
  logged : ∀ r ∈ m.save c saved, r.unexpired c now = false → 1 < c.verbose
  memory : ∀ i, 0 < i → i < ((m.save c saved).filter (Record.unexpired c now)).length →
    (mem i).next = none
  room : 125 * c.hash_size *
    tables c.hash_size (((m.save c saved).filter (Record.unexpired c now)).map Record.domain)
      < 2 ^ 31

instance (c : Conf) (m : Model) (saved now : Int) (mem : Addr → Node Entry) :
    Decidable (Restarts c m saved now mem) :=
  decidable_of_iff (_ ∧ _ ∧ _ ∧ _ ∧ _ ∧
      (∀ i < ((m.save c saved).filter (Record.unexpired c now)).length, 0 < i →
        (mem i).next = none) ∧ _)
    ⟨fun h => ⟨h.1, h.2.1, h.2.2.1, h.2.2.2.1, h.2.2.2.2.1,
      fun i hi hlt => h.2.2.2.2.2.1 i hlt hi, h.2.2.2.2.2.2⟩,
      fun h => ⟨h.clock, h.times, h.plain, h.stale, h.logged, fun i hlt hi => h.memory i hi hlt,
        h.room⟩⟩

/-- The step is none of those that leave the store ill formed. -/
def Sound (c : Conf) (s : System × Model) : Label → Prop
  | .add domain _ _ _ mem =>
      (s.2.records ≠ [] → mem.next = none) ∧
        s.1.store.Fits c (s.2.records.map Record.domain ++ [domain]) domain
  | .expire now =>
      InRange c now ∧
        (∀ r ∈ s.2.records.head?, r.unexpired c now) ∧
        (∀ r ∈ s.2.records.getLast?, r.unexpired c now) ∧
        NewTable c ((s.2.records.filter (Record.unexpired c now)).map Record.domain)
  | .rehash => NewTable c (s.2.records.map Record.domain)
  | .restart saved now mem => Restarts c s.2 saved now mem

instance (c : Conf) (s : System × Model) (x : Label) : Decidable (Sound c s x) := by
  cases x <;> unfold Sound <;> infer_instance

/-! ## What is kept -/

/-- **The store is well formed and holds these records**: they are listed from `head` to `tail`,
`dane_count` is their number, and an entry of the hash points to a record of its domain. -/
def Kept (σ : Store) (rs : List Record) : Prop :=
  ∃ l, Listed σ.toHeap l ∧ (σ.vals l).map Entry.record = rs ∧ σ.dane_count = rs.length ∧
    ∀ e ∈ σ.table, e.2 ∈ l ∧ σ.domainOf e.2 = some e.1

/-- `Kept`, with what keeps it: all records are in the hash. -/
def Holds (σ : Store) (rs : List Record) : Prop :=
  ∃ l, Listed σ.toHeap l ∧ (σ.vals l).map Entry.record = rs ∧ σ.dane_count = rs.length ∧
    σ.Hashed l ∧ (σ.h_allocated = 0 → l = [] ∧ σ.hcount = 0)

theorem Holds.kept {σ : Store} {rs : List Record} (h : Holds σ rs) : Kept σ rs := by
  obtain ⟨l, hl, hrs, hc, hh, -⟩ := h
  exact ⟨l, hl, hrs, hc, hh.entry⟩

variable {c : Conf} {nm : Numerals} {σ : Store} {rs : List Record} {m : Model}

theorem holds_empty : Holds {} [] :=
  ⟨[], listed_empty, rfl, rfl, Store.hashed_nil rfl, fun _ => ⟨rfl, rfl⟩⟩

theorem map_record_domain (es : List Entry) :
    (es.map Entry.record).map Record.domain = es.map Entry.domain := by
  rw [List.map_map]
  rfl

/-- What is written of a record whose data are there. -/
theorem writeData_eq {e : Entry} (h : e.datalen = (e.data.getD []).length) :
    writeData e = .ok (some (e.data.getD [])) := by
  rw [writeData]
  cases hd : e.data with
  | none =>
      rw [hd] at h
      have h0 : e.datalen = 0 := h
      rw [if_pos h0]
      rfl
  | some d =>
      rw [hd] at h
      have hlen : e.datalen = d.length := h
      by_cases h0 : e.datalen = 0
      · have hnil : d = [] := List.length_eq_zero_iff.mp (by omega)
        rw [if_pos h0, hnil]
        rfl
      · have htake : d.take e.datalen.toNat = d := List.take_of_length_le (by omega)
        have hok : 0 ≤ e.datalen ∧ e.datalen ≤ d.length := by omega
        rw [if_neg h0]
        show (if 0 ≤ e.datalen ∧ e.datalen ≤ d.length then _ else _) = _
        rw [if_pos hok, htake]
        rfl

/-! ### Times -/

theorem time_t_eq {x : Int} (h : -2 ^ 63 ≤ x) (h' : x < 2 ^ 63) : time_t x = x := by
  rw [time_t]
  split <;> omega

theorem unsignedLong_eq {x : Int} (h : 0 ≤ x) (h' : x < 2 ^ 63) : (unsignedLong x : Int) = x := by
  rw [unsignedLong]
  omega

theorem alive_eq {now : Int} (h : InRange c now) (e : Entry) :
    e.alive c now = e.record.unexpired c now := by
  rw [Entry.alive, Conf.start, time_t_eq h.1 h.2]
  rfl

theorem lt_horizon {t ts : Int} (h : (c.timeout : Int) ≤ t) (h' : t < 2 ^ 63) (hts : 0 ≤ ts)
    (hts' : ts < 2 ^ 63) : unsignedLong ts < c.horizon t ↔ ts < t - c.timeout := by
  have h1 := unsignedLong_eq hts hts'
  have h2 : (c.horizon t : Int) = t - c.timeout := by
    rw [Conf.horizon]
    exact unsignedLong_eq (by omega) (by omega)
  omega

/-! ### Adding, expiring, hashing -/

theorem nil_of_records {l : List Addr} (hl : Listed σ.toHeap l)
    (hrs : (σ.vals l).map Entry.record = rs) : l = [] ↔ rs = [] := by
  have hlen := hl.length_vals (m := l) fun _ ha => ha
  rw [← hrs, List.map_eq_nil_iff, ← List.length_eq_zero_iff, ← List.length_eq_zero_iff, hlen]

/-- A record that was linked and filled is hashed. -/
theorem Extended.holds {l : List Addr} {τ : Store} {a : Addr} {e : Entry}
    (h : σ.Extended τ l a e) (hrs : (σ.vals l).map Entry.record = rs)
    (hc : σ.dane_count = rs.length) (hh : σ.Hashed l)
    (hzero : σ.h_allocated = 0 → l = [] ∧ σ.hcount = 0)
    (hfits : σ.Fits c (rs.map Record.domain ++ [e.domain]) e.domain) :
    ∃ σ', τ.create_hash c (some a) = .ok σ' ∧ Holds σ' (rs ++ [e.record]) ∧
      σ'.fresh = σ.fresh + 1 ∧ (σ.hcount = σ.table.length → σ'.hcount = σ'.table.length) ∧
      (if σ.hcount % c.hash_size = 0 then
        σ'.h_allocated = σ.h_allocated + 1 ∧
          σ'.size = c.room (125 * c.hash_size * (σ.h_allocated + 1) / 100)
      else σ'.h_allocated = σ.h_allocated ∧ σ'.size = σ.size) := by
  have hds : (σ.vals l).map Entry.domain = rs.map Record.domain := by
    rw [← hrs, map_record_domain]
  obtain ⟨σ', hσ', hs, hh', hhc, hsize⟩ :=
    h.create_hash hh (fun h0 => (hzero h0).1) (by rw [hds]; exact hfits)
  refine ⟨σ', hσ', ⟨l ++ [a], ?_, ?_, ?_, hh', ?_⟩, ?_, hhc, hsize⟩
  · rw [hs.heap]
    exact h.listed
  · rw [hs.heap, h.vals, List.map_append, hrs]
    rfl
  · rw [hs.count, h.count, hc, List.length_append, List.length_singleton]
    rfl
  · intro h0
    by_cases hm : σ.hcount % c.hash_size = 0
    · rw [if_pos hm] at hsize
      omega
    · rw [if_neg hm] at hsize
      rw [(hzero (hsize.1.symm.trans h0)).2, Nat.zero_mod] at hm
      exact absurd rfl hm
  · rw [hs.heap]
    exact h.fresh

/-- **A record is added.** -/
theorem add_holds (h : Holds σ rs) {domain : Bytes} (status : Byte) (save : Bytes) (now : Int)
    {mem : Node Entry} (hnext : rs ≠ [] → mem.next = none)
    (hfits : σ.Fits c (rs.map Record.domain ++ [domain]) domain) :
    ∃ τ υ σ', σ.add_record mem now domain status = .ok (σ.fresh, τ) ∧
      τ.copySave save (some σ.fresh) = .ok υ ∧ υ.create_hash c (some σ.fresh) = .ok σ' ∧
      Holds σ' (rs ++ [⟨domain, status, now, save,
        if save = [] then mem.val.datalen else save.length⟩]) := by
  obtain ⟨l, hl, hrs, hc, hh, hzero⟩ := h
  have hnext' : l ≠ [] → mem.next = none := fun hne =>
    hnext fun hnil => hne ((nil_of_records hl hrs).mpr hnil)
  obtain ⟨τ, hτ, hext⟩ := Store.link_extended hl
    { mem with
      val :=
        { mem.val with
          domain := domain, data := none, timestamp := now, attempts := 1, status := status } }
    hnext'
  have hadd : σ.add_record mem now domain status
      = .ok (σ.fresh, { τ with dane_count := τ.dane_count + 1 }) := by
    rw [Store.add_record, hτ]
    rfl
  by_cases hs : save = []
  · obtain ⟨σ', hσ', hk, -⟩ := Extended.holds hext hrs hc hh hzero hfits
    refine ⟨_, _, σ', hadd, by rw [Store.copySave, if_pos hs], hσ', ?_⟩
    rw [if_pos hs, hs]
    exact hk
  · obtain ⟨υ, hυ, hext'⟩ := hext.assign fun e =>
      { e with data := some save, datalen := save.length }
    obtain ⟨σ', hσ', hk, -⟩ := Extended.holds hext' hrs hc hh hzero hfits
    refine ⟨_, υ, σ', hadd, by rw [Store.copySave, if_neg hs, hυ], hσ', ?_⟩
    rw [if_neg hs]
    exact hk

/-- **Records are expired.** -/
theorem expire_holds (h : Holds σ rs) {now : Int} (ht : InRange c now)
    (hhead : ∀ r ∈ rs.head?, r.unexpired c now) (hlast : ∀ r ∈ rs.getLast?, r.unexpired c now)
    (hroom : NewTable c ((rs.filter (Record.unexpired c now)).map Record.domain)) :
    ∃ σ', σ.expire_records c now = .ok σ' ∧ Holds σ' (rs.filter (Record.unexpired c now)) := by
  obtain ⟨l, hl, rfl, hc, hh, hzero⟩ := h
  have hmap : ((σ.vals l).filter (Entry.alive c now)).map Entry.record
      = ((σ.vals l).map Entry.record).filter (Record.unexpired c now) := by
    rw [List.filter_map]
    congr 2
    funext e
    exact alive_eq ht e
  have hat : ∀ {a : Addr} {n : Node Entry}, σ.cells a = some n →
      n.val.record.unexpired c now = true → σ.aliveAt c now a = true := by
    intro a n hn hu
    rw [Store.aliveAt, Heap.valOf, hn]
    exact (alive_eq ht n.val).trans hu
  have hends : (∀ a ∈ l.head?, σ.aliveAt c now a) ∧ ∀ a ∈ l.getLast?, σ.aliveAt c now a := by
    constructor
    · intro a ha
      obtain ⟨m, rfl⟩ : ∃ m, l = a :: m := List.head?_eq_some_iff.mp ha
      obtain ⟨n, hn⟩ := hl.get List.mem_cons_self
      refine hat hn (hhead n.val.record ?_)
      rw [Heap.vals_cons hn]
      rfl
    · intro a ha
      obtain ⟨m, rfl⟩ : ∃ m, l = m ++ [a] := List.getLast?_eq_some_iff.mp ha
      obtain ⟨n, hn⟩ := hl.get (a := a) (by simp)
      refine hat hn (hlast n.val.record ?_)
      rw [Heap.vals_append, Heap.vals_cons hn, Heap.vals_nil, List.map_append]
      simp
  have hds : (Store.domains σ (l.filter (σ.aliveAt c now)))
      = ((((σ.vals l).map Entry.record).filter (Record.unexpired c now)).map
          Record.domain).dedup := by
    rw [Store.domains, Store.vals_filter, ← hmap, map_record_domain]
  obtain ⟨σ', hσ', hl', hv, hcount, hh', h1⟩ := Store.expire_records_listed (c := c) (t := now)
    hl hends hroom.1 (by rw [hds]; exact hroom.2)
  refine ⟨σ', hσ', _, hl', by rw [hv, hmap], ?_, hh', ?_⟩
  · have hlen := hl.length_vals (m := l) fun _ ha => ha
    have hlen' := hl'.length_vals (m := l.filter (σ.aliveAt c now)) fun _ ha => ha
    rw [← hmap, ← hv, List.length_map, hlen', hcount, hc, List.length_map, hlen]
    omega
  · intro h0
    rw [h1] at h0
    cases h0

/-- **The hash is created again.** -/
theorem rehash_holds (h : Holds σ rs) (hroom : NewTable c (rs.map Record.domain)) :
    ∃ σ', σ.create_hash c none = .ok σ' ∧ Holds σ' rs := by
  obtain ⟨l, hl, rfl, hc, hh, hzero⟩ := h
  rw [map_record_domain] at hroom
  obtain ⟨σ', hσ', hs, hh', h1⟩ := Store.create_hash_all hl hroom.1 hroom.2
  refine ⟨σ', hσ', l, hs.heap ▸ hl, ?_, hs.count.trans hc, hh', ?_⟩
  · rw [hs.heap]
  · intro h0
    rw [h1] at h0
    cases h0

end IndimailMta.Daned
