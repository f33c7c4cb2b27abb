import IndimailMta.Daned.Keeps
import Mathlib.Tactic.Ring

/-!
# Save and load

The context file is the lines of the records that were saved (`recordLine`), and loading it
adds these records one by one. `Loading` is what holds of the store meanwhile: its table counts
the domains so far, and is large enough.
-/

namespace IndimailMta.Daned

open IndimailMta Links Lines Run

variable {c : Conf} {nm : Numerals} {σ : Store} {rs : List Record} {m : Model} {r : Record}

/-! ## The file -/

/-- The line of a record, without its newline. -/
def recordLine (nm : Numerals) (r : Record) : Bytes :=
  r.domain ++ 0 :: r.status :: 0 :: (nm.fmtUlong (unsignedLong r.timestamp) ++
    0 :: (nm.fmtUlong (unsignedLong r.datalen) ++ 0 :: r.data))

def fileOf (nm : Numerals) (rs : List Record) : Bytes := rs.flatMap fun r => recordLine nm r ++ [10]

theorem newline_notMem_fmt (n : Nat) : (10 : Byte) ∉ nm.fmtUlong n :=
  fun h => absurd (nm.fmt_isDigit n 10 h) (by decide)

theorem Record.Plain.newline_notMem (h : r.Plain) : (10 : Byte) ∉ recordLine nm r := by
  simp only [recordLine, List.mem_append, List.mem_cons, not_or]
  refine ⟨h.domain.1, by decide, Ne.symm h.status, by decide, newline_notMem_fmt _, by decide,
    newline_notMem_fmt _, by decide, h.data⟩

/-- What is written of a plain record. -/
theorem writeData_plain {e : Entry} (h : e.record.Plain) :
    writeData e = .ok (some e.record.data) :=
  writeData_eq h.datalen.1

/-- The loop writes the lines of the records that are not expired. -/
theorem saveLoop_eq {now : Int} {P S : List Addr} {k : Nat} (hl : Listed σ.toHeap (P ++ S))
    (hk : S.length ≤ k) (hnow : (c.timeout : Int) ≤ now) (hnow' : now < 2 ^ 63)
    (ht : ∀ e ∈ σ.vals S, 0 ≤ e.timestamp ∧ e.timestamp < 2 ^ 63)
    (hp : ∀ r ∈ ((σ.vals S).map Entry.record).filter (Record.unexpired c now), r.Plain) :
    saveLoop c nm now σ k S.head?
      = .ok (fileOf nm (((σ.vals S).map Entry.record).filter (Record.unexpired c now))) := by
  induction S generalizing P k with
  | nil => cases k <;> rfl
  | cons a S ih =>
      obtain ⟨k, rfl⟩ : ∃ j, k = j + 1 := ⟨k - 1, by simp only [List.length_cons] at hk; omega⟩
      obtain ⟨v, hn⟩ := hl.node
      rw [Heap.vals_cons hn] at ht hp ⊢
      have hrest := ih (P := P ++ [a]) (k := k) (by simpa using hl) (by simpa using hk)
        fun e he => ht e (List.mem_cons_of_mem _ he)
      have hlt := lt_horizon hnow hnow' (ht v List.mem_cons_self).1 (ht v List.mem_cons_self).2
      rw [List.head?_cons, saveLoop, Heap.read_eq hn, List.map_cons]
      rw [List.map_cons] at hp
      show (if unsignedLong v.timestamp < c.horizon now then saveLoop c nm now σ k S.head?
        else _) = _
      by_cases hex : unsignedLong v.timestamp < c.horizon now
      · have hu : ¬ (v.record.unexpired c now = true) := by
          rw [Record.unexpired, decide_eq_true_eq]
          have hlt := hlt.mp hex
          show ¬ (now - c.timeout ≤ v.timestamp)
          omega
        rw [List.filter_cons_of_neg hu] at hp ⊢
        rw [if_pos hex]
        exact hrest hp
      · have hu : v.record.unexpired c now = true := by
          rw [Record.unexpired, decide_eq_true_eq]
          show now - c.timeout ≤ v.timestamp
          have hge : ¬ (v.timestamp < now - c.timeout) := fun h => hex (hlt.mpr h)
          omega
        rw [List.filter_cons_of_pos hu] at hp ⊢
        rw [if_neg hex, writeData_plain (hp _ List.mem_cons_self)]
        show (do
          let rest ← saveLoop c nm now σ k S.head?
          Except.ok (contextHead nm v ++ v.record.data ++ 10 :: rest)) = _
        rw [hrest fun r hr => hp r (List.mem_cons_of_mem _ hr)]
        simp [bind, Except.bind, fileOf, recordLine, contextHead, Entry.record]

/-- **The file after a save.** -/
theorem save_context_eq {l : List Addr} {now : Int} (hl : Listed σ.toHeap l)
    (hrs : (σ.vals l).map Entry.record = m.records) (hc : σ.dane_count = m.records.length)
    (hnow : (c.timeout : Int) ≤ now ∧ now < 2 ^ 63)
    (ht : ∀ r ∈ m.records, 0 ≤ r.timestamp ∧ r.timestamp < 2 ^ 63)
    (hp : ∀ r ∈ m.save c now, r.Plain) :
    save_context c nm now σ (fileOf nm m.saved) = .ok (fileOf nm (m.save c now)) := by
  rw [save_context, Model.save]
  rw [Model.save] at hp
  by_cases hnil : m.records = []
  · rw [if_pos hnil, if_pos]
    rw [hc, hnil]
    rfl
  · rw [if_neg hnil] at hp ⊢
    have hpos : σ.dane_count ≠ 0 := by
      rw [hc]
      have := List.length_pos_iff.mpr hnil
      omega
    rw [if_neg hpos, hl.head, ← hrs]
    refine saveLoop_eq (P := []) hl hl.length_le hnow.1 hnow.2 ?_ (by rw [hrs]; exact hp)
    intro e he
    exact ht e.record (hrs ▸ List.mem_map_of_mem he)

/-- **A line is taken apart.** -/
theorem parseLine_eq (h : r.Plain) (ht : 0 ≤ r.timestamp ∧ r.timestamp < 2 ^ 63) :
    parseLine nm (recordLine nm r ++ [10])
      = .ok ⟨r.domain, r.status, r.timestamp,
          nm.fmtUlong (unsignedLong r.datalen) ++ 0 :: (r.data ++ [10, 0])⟩ := by
  have hline : recordLine nm r ++ [10] ++ [0]
      = r.domain ++ 0 :: (r.status :: 0 :: (nm.fmtUlong (unsignedLong r.timestamp) ++
          0 :: (nm.fmtUlong (unsignedLong r.datalen) ++ 0 :: (r.data ++ [10, 0])))) := by
    simp [recordLine]
  have hscan := nm.scan_fmt (unsignedLong r.timestamp) []
    (by have := unsignedLong_eq ht.1 ht.2; omega) (by simp)
  rw [List.append_nil] at hscan
  have hts : time_t ((unsignedLong r.timestamp : Nat) : Int) = r.timestamp := by
    rw [unsignedLong_eq ht.1 ht.2]
    exact time_t_eq (by omega) ht.2
  simp only [parseLine, hline, string, field_append h.domain.2, bind, Except.bind,
    field_append (nm.nul_notMem_fmt _), hscan, hts]

/-! ## The tables that are made -/

theorem tables_snoc (hs : Nat) (ds : List Bytes) (d : Bytes) :
    tables hs (ds ++ [d]) = tables hs ds + if ds.dedup.length % hs = 0 then 1 else 0 := by
  rw [tables, List.length_append, List.length_singleton, List.range_succ, List.countP_append,
    List.countP_singleton, List.take_left]
  congr 1
  · apply List.countP_congr
    intro i hi
    rw [List.take_append_of_le_length (Nat.le_of_lt (List.mem_range.mp hi))]
  · simp

theorem tables_le (hs : Nat) (ds es : List Bytes) : tables hs ds ≤ tables hs (ds ++ es) := by
  induction es using List.reverseRecOn with
  | nil => rw [List.append_nil]
  | append_singleton es e ih =>
      rw [← List.append_assoc, tables_snoc]
      exact Nat.le_add_right_of_le ih

theorem length_dedup_snoc (ds : List Bytes) (d : Bytes) :
    (ds ++ [d]).dedup.length ≤ ds.dedup.length + 1 := by
  have hsub : (ds ++ [d]).dedup ⊆ ds.dedup ++ [d] := by
    intro x hx
    simpa using hx
  have hlen := (List.subperm_of_subset (List.nodup_dedup _) hsub).length_le
  simpa using hlen

theorem Holds.length_table (h : Holds σ rs) :
    σ.table.length = (rs.map Record.domain).dedup.length := by
  obtain ⟨l, -, rfl, -, hh, -⟩ := h
  rw [hh.length_eq, map_record_domain]
  rfl

/-- The store while the file is loaded, after the records `rs`. -/
structure Loading (c : Conf) (σ : Store) (rs : List Record) : Prop where
  holds : Holds σ rs
  fresh : σ.fresh = rs.length
  hcount : σ.hcount = σ.table.length
  allocated : σ.h_allocated = tables c.hash_size (rs.map Record.domain)
  enough : σ.hcount ≤ c.hash_size * σ.h_allocated
  size : σ.h_allocated ≠ 0 → c.hash_size * σ.h_allocated ≤ σ.size

theorem loading_empty : Loading c {} [] :=
  ⟨holds_empty, rfl, rfl, rfl, Nat.le_refl 0, fun h => absurd rfl h⟩

/-- The next record fits, if the tables that are made stay small enough for an `int`. -/
theorem Loading.fits (h : Loading c σ rs) {d : Bytes} {ds : List Bytes}
    (hint : 125 * c.hash_size * tables c.hash_size (rs.map Record.domain ++ d :: ds) < 2 ^ 31) :
    σ.Fits c (rs.map Record.domain ++ [d]) d := by
  rw [Store.Fits]
  have hsnoc := tables_snoc c.hash_size (rs.map Record.domain) d
  have hle := tables_le c.hash_size (rs.map Record.domain ++ [d]) ds
  rw [List.append_assoc, List.singleton_append] at hle
  have hroom := c.le_room (125 * c.hash_size * (σ.h_allocated + 1) / 100)
  by_cases hm : σ.hcount % c.hash_size = 0
  · rw [if_pos hm]
    have hm' : (rs.map Record.domain).dedup.length % c.hash_size = 0 := by
      rw [← h.holds.length_table, ← h.hcount]
      exact hm
    rw [if_pos hm', ← h.allocated] at hsnoc
    rw [hsnoc] at hle
    constructor
    · have := Nat.mul_le_mul_left (125 * c.hash_size) hle
      omega
    · have hlen := length_dedup_snoc (rs.map Record.domain) d
      have h1 := h.enough
      rw [h.hcount, h.holds.length_table] at h1
      have h2 : 125 * c.hash_size * (σ.h_allocated + 1)
          = 125 * (c.hash_size * σ.h_allocated + c.hash_size) := by ring
      have h3 := c.hash_size_pos
      rw [h2] at hroom ⊢
      omega
  · rw [if_neg hm]
    right
    have hne : σ.h_allocated ≠ 0 := by
      intro h0
      have h1 := h.enough
      rw [h0, Nat.mul_zero, Nat.le_zero] at h1
      exact hm (by rw [h1, Nat.zero_mod])
    have h1 := h.enough
    have h2 := h.size hne
    have h3 : σ.hcount ≠ c.hash_size * σ.h_allocated := by
      intro heq
      rw [heq, Nat.mul_mod_right] at hm
      exact hm rfl
    rw [← h.hcount]
    omega

/-- **One record is loaded.** -/
theorem loadRecord_loading (h : Loading c σ rs) (hp : r.Plain) {mem : Addr → Node Entry}
    (hnext : rs ≠ [] → (mem rs.length).next = none) {ds : List Bytes}
    (hint : 125 * c.hash_size * tables c.hash_size (rs.map Record.domain ++ r.domain :: ds)
      < 2 ^ 31) :
    ∃ σ', loadRecord c nm mem ⟨r.domain, r.status, r.timestamp,
        nm.fmtUlong (unsignedLong r.datalen) ++ 0 :: (r.data ++ [10, 0])⟩ σ = .ok σ' ∧
      Loading c σ' (rs ++ [r]) := by
  have hfits := h.fits hint
  obtain ⟨l, hl, hrs, hc, hh, hzero⟩ := h.holds
  have hnext' : l ≠ [] → (mem σ.fresh).next = none := by
    intro hne
    rw [h.fresh]
    exact hnext fun hnil => hne ((nil_of_records hl hrs).mpr hnil)
  obtain ⟨τ, hτ, hext⟩ := Store.link_extended hl
    { mem σ.fresh with val := { (mem σ.fresh).val with timestamp := r.timestamp } } hnext'
  obtain ⟨τ₁, hτ₁, hext₁⟩ := hext.assign fun e => { e with datalen := r.datalen }
  obtain ⟨τ₂, hτ₂, hext₂⟩ := hext₁.assign fun e => { e with data := some r.data }
  obtain ⟨τ₃, hτ₃, hext₃⟩ := hext₂.assign fun e =>
    { e with domain := r.domain, status := r.status }
  obtain ⟨σ', hσ', hk, hf, hhc, hsize⟩ := Extended.holds hext₃ hrs hc hh hzero hfits
  obtain ⟨hlen, hlt⟩ := hp.datalen
  have hscan : int32 ((nm.scanUlong (nm.fmtUlong (unsignedLong r.datalen))).2 : Nat) = r.datalen := by
    have hul : unsignedLong r.datalen = r.data.length := by
      have := unsignedLong_eq (x := r.datalen) (by omega) (by omega)
      omega
    have hs := nm.scan_fmt r.data.length [] (by omega) (by simp)
    rw [List.append_nil] at hs
    rw [hul, hs, int32]
    split <;> omega
  replace hk : Holds σ' (rs ++ [r]) := hk
  have hkeys := hk.length_table
  rw [List.map_append, List.map_singleton] at hkeys
  have hsnoc := tables_snoc c.hash_size (rs.map Record.domain) r.domain
  rw [← h.holds.length_table, ← h.hcount, ← h.allocated] at hsnoc
  have hdedup := length_dedup_snoc (rs.map Record.domain) r.domain
  have hcount' := hhc h.hcount
  have henough := h.enough
  rw [← h.holds.length_table, ← h.hcount] at hdedup
  refine ⟨σ', ?_, ⟨hk, ?_, hcount', ?_, ?_, ?_⟩⟩
  · rw [loadRecord]
    simp only [hτ, string, field_append (nm.nul_notMem_fmt _), bind, Except.bind, hscan, hτ₁]
    have h1 : ¬ r.datalen < 0 := by omega
    have h2 : ¬ (((r.data ++ [10, 0]).length : Int) < r.datalen) := by
      rw [List.length_append]
      omega
    have h3 : (r.data ++ [10, 0]).take r.datalen.toNat = r.data := by
      rw [hlen, Int.toNat_natCast, List.take_left]
    rw [if_neg h1, if_neg h2, h3]
    simp only [hτ₂, hτ₃]
    exact hσ'
  · rw [hf, h.fresh, List.length_append, List.length_singleton]
  · rw [List.map_append, List.map_singleton, hsnoc]
    by_cases hm : σ.hcount % c.hash_size = 0
    · rw [if_pos hm] at hsize ⊢
      exact hsize.1
    · rw [if_neg hm] at hsize ⊢
      exact hsize.1
  · by_cases hm : σ.hcount % c.hash_size = 0
    · rw [if_pos hm] at hsize
      have hpos := c.hash_size_pos
      rw [hcount', hkeys, hsize.1, Nat.mul_succ]
      omega
    · rw [if_neg hm] at hsize
      have hne : σ.hcount ≠ c.hash_size * σ.h_allocated := by
        intro heq
        rw [heq, Nat.mul_mod_right] at hm
        exact hm rfl
      rw [hcount', hkeys, hsize.1]
      omega
  · intro h0
    by_cases hm : σ.hcount % c.hash_size = 0
    · rw [if_pos hm] at hsize
      have hroom := c.le_room (125 * c.hash_size * (σ.h_allocated + 1) / 100)
      have h2 : 125 * c.hash_size * (σ.h_allocated + 1)
          = 125 * (c.hash_size * (σ.h_allocated + 1)) := by ring
      rw [hsize.1, hsize.2]
      omega
    · rw [if_neg hm] at hsize
      rw [hsize.1] at h0 ⊢
      rw [hsize.2]
      exact h.size h0

/-- **The file is loaded.** -/
theorem loadLoop_loading {now : Int} {mem : Addr → Node Entry} {out : List Record}
    (h : Loading c σ rs) (hnow : (c.timeout : Int) ≤ now ∧ now < 2 ^ 63)
    (hp : ∀ r ∈ out, r.Plain) (ht : ∀ r ∈ out, 0 ≤ r.timestamp ∧ r.timestamp < 2 ^ 63)
    (hlog : ∀ r ∈ out, r.unexpired c now = false → 1 < c.verbose)
    (hmem : ∀ i, 0 < i → i < (rs ++ out.filter (Record.unexpired c now)).length →
      (mem i).next = none)
    (hint : 125 * c.hash_size * tables c.hash_size
      ((rs ++ out.filter (Record.unexpired c now)).map Record.domain) < 2 ^ 31) :
    ∃ σ', loadLoop c nm now mem (out.map fun r => recordLine nm r ++ [10]) σ = .ok σ' ∧
      Loading c σ' (rs ++ out.filter (Record.unexpired c now)) := by
  induction out generalizing σ rs with
  | nil => exact ⟨σ, rfl, by rwa [List.filter_nil, List.append_nil]⟩
  | cons r out ih =>
      have htr := ht r List.mem_cons_self
      have hlt := lt_horizon hnow.1 hnow.2 htr.1 htr.2
      have hp' : ∀ x ∈ out, x.Plain := fun x hx => hp x (List.mem_cons_of_mem _ hx)
      have ht' : ∀ x ∈ out, 0 ≤ x.timestamp ∧ x.timestamp < 2 ^ 63 :=
        fun x hx => ht x (List.mem_cons_of_mem _ hx)
      have hlog' : ∀ x ∈ out, x.unexpired c now = false → 1 < c.verbose :=
        fun x hx => hlog x (List.mem_cons_of_mem _ hx)
      rw [List.map_cons, loadLoop, parseLine_eq (hp r List.mem_cons_self) htr]
      show ∃ σ', (if 1 < c.verbose ∧ unsignedLong r.timestamp < c.horizon now then
          loadLoop c nm now mem _ σ
        else do
          let σ ← loadRecord c nm mem _ σ
          loadLoop c nm now mem _ σ) = _ ∧ _
      cases hu : r.unexpired c now with
      | false =>
          have hex : unsignedLong r.timestamp < c.horizon now := by
            rw [Record.unexpired, decide_eq_false_iff_not] at hu
            exact hlt.mpr (by omega)
          rw [List.filter_cons_of_neg (by simp [hu])] at hmem hint ⊢
          rw [if_pos ⟨hlog r List.mem_cons_self hu, hex⟩]
          exact ih h hp' ht' hlog' hmem hint
      | true =>
          have hex : ¬ unsignedLong r.timestamp < c.horizon now := by
            rw [Record.unexpired, decide_eq_true_eq] at hu
            intro hlt'
            have := hlt.mp hlt'
            omega
          rw [List.filter_cons_of_pos hu] at hmem hint ⊢
          rw [List.map_append, List.map_cons] at hint
          obtain ⟨τ, hτ, hload⟩ := loadRecord_loading h (hp r List.mem_cons_self)
            (fun hne => hmem rs.length (List.length_pos_iff.mpr hne) (by simp)) hint
          rw [if_neg fun hboth => hex hboth.2]
          have hcons : rs ++ r :: out.filter (Record.unexpired c now)
              = rs ++ [r] ++ out.filter (Record.unexpired c now) := by simp
          rw [hcons] at hmem ⊢
          obtain ⟨σ', hσ', hk⟩ := ih hload hp' ht' hlog' hmem (by
            rw [List.map_append, List.map_append, List.map_singleton, List.append_assoc]
            exact hint)
          refine ⟨σ', ?_, hk⟩
          rw [hτ]
          exact hσ'

/-! ## Runs -/

/-- What a run keeps: the store holds the records, and the file has the lines of those that
were saved. -/
structure Good (nm : Numerals) (s : System) (m : Model) : Prop where
  holds : Holds s.store m.records
  file : s.file = fileOf nm m.saved

theorem mem_save {saved : Int} (h : r ∈ m.save c saved) : r ∈ m.records ++ m.saved := by
  rw [Model.save] at h
  split at h
  · exact List.mem_append_right _ h
  · exact List.mem_append_left _ (List.mem_filter.mp h).1

/-- **A restart.** -/
theorem restart_good {s : System} (h : Good nm s m) {saved now : Int} {mem : Addr → Node Entry}
    (hr : Restarts c m saved now mem) :
    ∃ s', step c nm s (.restart saved now mem) = .ok s' ∧
      Good nm s' (m.step c (.restart saved now mem)) := by
  obtain ⟨l, hl, hrs, hc, -, -⟩ := h.holds
  have hsave : save_context c nm saved s.store (fileOf nm m.saved)
      = .ok (fileOf nm (m.save c saved)) :=
    save_context_eq hl hrs hc hr.clock.1
      (fun r hr' => hr.times r (List.mem_append_left _ hr')) hr.plain
  have hlines : lines 10 (fileOf nm (m.save c saved))
      = (m.save c saved).map fun r => recordLine nm r ++ [10] :=
    lines_flatMap fun r hr' => (hr.plain r hr').newline_notMem
  obtain ⟨σ', hσ', hload⟩ : ∃ σ', loadLoop c nm now mem
        ((m.save c saved).map fun r => recordLine nm r ++ [10]) {} = .ok σ' ∧
      Loading c σ' ([] ++ (m.save c saved).filter (Record.unexpired c now)) :=
    loadLoop_loading loading_empty hr.clock.2 hr.plain
      (fun r hr' => hr.times r (mem_save hr')) hr.logged hr.memory hr.room
  refine ⟨⟨σ', fileOf nm (m.save c saved)⟩, ?_, ?_, rfl⟩
  · rw [step, h.file, hsave]
    show (do
      let σ ← load_context c nm now mem (fileOf nm (m.save c saved))
      Except.ok (⟨σ, fileOf nm (m.save c saved)⟩ : System)) = _
    rw [load_context, hlines, hσ']
    rfl
  · have hholds := hload.holds
    rw [List.nil_append] at hholds
    show Holds σ' ((m.records.filter _).filter _)
    rw [Model.save] at hholds
    split at hholds
    · rename_i hnil
      have hnone : m.saved.filter (Record.unexpired c now) = [] := by
        rw [List.filter_eq_nil_iff]
        intro r hr'
        rw [hr.stale hnil r hr']
        decide
      rw [hnone] at hholds
      rw [hnil]
      exact hholds
    · exact hholds

/-- **What a sound step does.** -/
theorem step_good {s : System} (h : Good nm s m) {x : Label} (hs : Sound c (s, m) x) :
    ∃ s', step c nm s x = .ok s' ∧ Good nm s' (m.step c x) := by
  cases x with
  | add domain status save now mem =>
      obtain ⟨τ, υ, σ', h1, h2, h3, hk⟩ :=
        add_holds h.holds status save now hs.1 hs.2
      refine ⟨{ s with store := σ' }, ?_, hk, h.file⟩
      simp only [step, h1, h2, h3, bind, Except.bind]
  | expire now =>
      obtain ⟨ht, hhead, hlast, hroom⟩ := hs
      obtain ⟨σ', h1, hk⟩ := expire_holds h.holds ht hhead hlast hroom
      refine ⟨{ s with store := σ' }, ?_, hk, h.file⟩
      simp only [step, h1, bind, Except.bind]
  | rehash =>
      obtain ⟨σ', h1, hk⟩ := rehash_holds h.holds hs
      refine ⟨{ s with store := σ' }, ?_, hk, h.file⟩
      simp only [step, h1, bind, Except.bind]
  | restart saved now mem => exact restart_good h hs

/-- The daemon and the model beside it. -/
def machine (c : Conf) (nm : Numerals) : Machine (System × Model) Label where
  init s := s = ({}, {})
  step s x := (step c nm s.1 x).toOption.map fun s' => (s', s.2.step c x)

theorem machine_step {s t : System × Model} {x : Label} (h : (machine c nm).step s x = some t) :
    ∃ u, step c nm s.1 x = .ok u ∧ t = (u, s.2.step c x) := by
  obtain ⟨u, hu, rfl⟩ := Option.map_eq_some_iff.mp h
  refine ⟨u, ?_, rfl⟩
  cases hs : step c nm s.1 x with
  | error e =>
      rw [hs] at hu
      cases hu
  | ok v =>
      rw [hs] at hu
      rw [Option.some.inj hu]

/-- The model goes its own way beside the daemon. -/
theorem machine_model {ls : List Label} {s t : System} {k : Model}
    (he : (machine c nm).exec (s, m) ls = some (t, k)) : k = ls.foldl (Model.step c) m := by
  induction ls generalizing s m with
  | nil =>
      simp only [Machine.exec_nil, Option.some.injEq, Prod.mk.injEq] at he
      exact he.2.symm
  | cons x ls ih =>
      obtain ⟨u, hu, he'⟩ := Machine.exec_cons_eq_some.mp he
      obtain ⟨s', -, rfl⟩ := machine_step hu
      exact ih he'

/-- **The store survives expiry and restart in every run whose steps are sound**: no step of it
fails, and in every state the list is well linked and holds the records of the model, `tail` is
its last element, `dane_count` its length, and an entry of the hash points to a record of its
domain. -/
theorem kept_of_sound {ls : List Label} (hm : (machine c nm).Meets (Sound c) ({}, {}) ls) :
    ∃ s m, (machine c nm).exec ({}, {}) ls = some (s, m) ∧ m = ls.foldl (Model.step c) {} ∧
      Kept s.store m.records := by
  have hrun := Machine.exec_progress (M := machine c nm) (C := Sound c)
    (I := fun s => Good nm s.1 s.2) ?_ (s := ({}, {})) ⟨holds_empty, rfl⟩ hm
  · obtain ⟨⟨s, m⟩, hrun, hgood⟩ := hrun
    exact ⟨s, m, hrun, machine_model hrun, hgood.holds.kept⟩
  · rintro ⟨s, m⟩ x hgood hs
    obtain ⟨s', hstep, hgood'⟩ := step_good hgood hs
    refine ⟨(s', m.step c x), ?_, hgood'⟩
    simp only [machine, hstep, Except.toOption, Option.map_some]

/-! ### Two runs -/

def plainConf : Conf :=
  { timeout := 100, fr_int := 300, hash_size := 4, verbose := 0, room := id
    is_white := none, is_tlsadomain := none
    fr_int_pos := by decide, hash_size_pos := by decide, le_room := fun n => Nat.le_refl n }

/-- Memory that was not used before. -/
def zeroed : Node Entry := ⟨⟨[], none, 0, 0, 0, 0⟩, none, none⟩

/-- The clock is set back when the second of three domains is added. -/
def threeRun : List Label :=
  [.add (asc "a") RECORD_OK (asc "TLSA") 1050 zeroed, .add (asc "b") RECORD_OK (asc "T") 1000 zeroed,
    .add (asc "c") RECORD_NOVRFY [] 1060 zeroed, .expire 1120, .restart 1120 1130 fun _ => zeroed]

/-- Only its record expires, and the other two are there after a restart. -/
theorem kept_of_sound_restart :
    threeRun.foldl (Model.step plainConf) {} =
      ⟨[⟨asc "a", RECORD_OK, 1050, asc "TLSA", 4⟩, ⟨asc "c", RECORD_NOVRFY, 1060, [], 0⟩],
        [⟨asc "a", RECORD_OK, 1050, asc "TLSA", 4⟩, ⟨asc "c", RECORD_NOVRFY, 1060, [], 0⟩]⟩ ∧
    ∃ s m, (machine plainConf decimal).exec ({}, {}) threeRun = some (s, m) ∧
      m = threeRun.foldl (Model.step plainConf) {} ∧ Kept s.store m.records :=
  ⟨by decide +kernel, kept_of_sound (by decide +kernel)⟩

/-- The only record expires, and the program follows a null pointer; data with a newline are
cut off when they are loaded, and the program reads past the line. -/
theorem not_kept_expired_newline :
    stopped ([Label.add (asc "d") RECORD_OK (asc "TLSA") 1000 zeroed, .expire 1200].foldlM
      (step plainConf decimal) {}) = some .null ∧
    stopped ([Label.add (asc "d") RECORD_OK [65, 10, 66, 67, 68] 1000 zeroed,
      .restart 1010 1020 fun _ => zeroed].foldlM (step plainConf decimal) {}) = some .overread := by
  decide +kernel

end IndimailMta.Daned
