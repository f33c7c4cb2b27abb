import IndimailMta.Daned.Store
import Mathlib.Data.List.Dedup

/-!
# The list and the table of the DANE cache

What each function of the store does to a well linked list and to a table whose entries point
into it. `Hashed σ P`: the table has one entry for each domain of the records of `P`, and it
points to one of them of that domain. While `create_hash` goes through the list, `P` are the
records it has gone through.
-/

namespace IndimailMta.Daned

open IndimailMta Links

/-- The record is not expired. -/
def Entry.alive (c : Conf) (now : Int) (e : Entry) : Bool := c.start now ≤ e.timestamp

namespace Store

variable {σ σ' τ : Store} {l P S : List Addr} {a : Addr} {c : Conf}

def domainOf (σ : Store) (a : Addr) : Option Bytes := (σ.valOf a).map Entry.domain

/-- The domains of some records, each once. -/
def domains (σ : Store) (l : List Addr) : List Bytes := ((σ.vals l).map Entry.domain).dedup

theorem domainOf_eq {n : Node Entry} (h : σ.cells a = some n) :
    σ.domainOf a = some n.val.domain := by
  simp [domainOf, Heap.valOf, h]

theorem mem_domains {d : Bytes} : d ∈ σ.domains l ↔ ∃ a ∈ l, σ.domainOf a = some d := by
  rw [domains, List.mem_dedup, List.mem_map]
  constructor
  · rintro ⟨e, he, rfl⟩
    obtain ⟨a, ha, hv⟩ := Heap.mem_vals.mp he
    exact ⟨a, ha, by rw [domainOf, hv]; rfl⟩
  · rintro ⟨a, ha, hd⟩
    obtain ⟨e, he, hd⟩ := Option.map_eq_some_iff.mp hd
    exact ⟨e, Heap.mem_vals.mpr ⟨a, ha, he⟩, hd⟩

theorem modify_eq {n : Node Entry} (h : σ.cells a = some n) (f : Node Entry → Node Entry) :
    σ.modify (some a) f = .ok { σ with toHeap := σ.set a (some (f n)) } := by
  rw [modify, Heap.modify_eq h]
  rfl

theorem assign_eq {n : Node Entry} (h : σ.cells a = some n) (f : Entry → Entry) :
    σ.assign (some a) f = .ok { σ with toHeap := σ.set a (some { n with val := f n.val }) } :=
  modify_eq h _

/-! ## The table -/

/-- Two stores that differ in the table only. -/
structure SameRecords (σ σ' : Store) : Prop where
  heap : σ'.toHeap = σ.toHeap
  count : σ'.dane_count = σ.dane_count

theorem SameRecords.refl (σ : Store) : SameRecords σ σ := ⟨rfl, rfl⟩

theorem SameRecords.trans (h : SameRecords σ τ) (h' : SameRecords τ σ') : SameRecords σ σ' :=
  ⟨h'.heap.trans h.heap, h'.count.trans h.count⟩

/-- The table is that of the records of `P`. -/
structure Hashed (σ : Store) (P : List Addr) : Prop where
  entry : ∀ e ∈ σ.table, e.2 ∈ P ∧ σ.domainOf e.2 = some e.1
  keys : (σ.table.map Prod.fst).Nodup
  all : ∀ a ∈ P, ∃ e ∈ σ.table, σ.domainOf a = some e.1

theorem hashed_nil (h : σ.table = []) : Hashed σ [] := by
  constructor <;> simp [h]

theorem find_eq_none {d : Bytes} : σ.find d = none ↔ ∀ e ∈ σ.table, e.1 ≠ d := by
  simp [find]

theorem find_eq_some {d : Bytes} (h : σ.find d = some a) : (d, a) ∈ σ.table := by
  obtain ⟨e, he, rfl⟩ := Option.map_eq_some_iff.mp h
  have hd := List.find?_some he
  simp only [decide_eq_true_eq] at hd
  rw [← hd]
  exact List.mem_of_find?_eq_some he

/-- The entry of a domain is the only one. -/
theorem Hashed.find_of_mem (h : Hashed σ P) {d : Bytes} (hm : (d, a) ∈ σ.table) :
    σ.find d = some a := by
  cases hf : σ.find d with
  | none => exact absurd rfl (find_eq_none.mp hf _ hm)
  | some b =>
      have hb := find_eq_some hf
      have heq := List.inj_on_of_nodup_map h.keys hb hm rfl
      rw [(Prod.mk.inj heq).2]

/-- A domain is found exactly where there is a record of it. -/
theorem Hashed.find_isSome (h : Hashed σ P) {d : Bytes} :
    (σ.find d).isSome ↔ ∃ a ∈ P, σ.domainOf a = some d := by
  constructor
  · intro hs
    obtain ⟨a, ha⟩ := Option.isSome_iff_exists.mp hs
    exact ⟨a, h.entry _ (find_eq_some ha)⟩
  · rintro ⟨a, ha, hd⟩
    obtain ⟨e, he, hde⟩ := h.all a ha
    rw [hd, Option.some.injEq] at hde
    subst hde
    rw [h.find_of_mem (a := e.2) he]
    rfl

/-- The entries are for the domains. -/
theorem Hashed.mem_keys (h : Hashed σ P) {d : Bytes} :
    d ∈ σ.table.map Prod.fst ↔ d ∈ σ.domains P := by
  rw [mem_domains, List.mem_map]
  constructor
  · rintro ⟨e, he, rfl⟩
    exact ⟨e.2, h.entry e he⟩
  · rintro ⟨a, ha, hd⟩
    obtain ⟨e, he, hde⟩ := h.all a ha
    rw [hd, Option.some.injEq] at hde
    exact ⟨e, he, hde.symm⟩

/-- There are as many entries as domains. -/
theorem Hashed.length_eq (h : Hashed σ P) : σ.table.length = (σ.domains P).length := by
  have hperm := (List.perm_ext_iff_of_nodup h.keys (List.nodup_dedup _)).mpr
    fun _ => h.mem_keys
  rw [← List.length_map (f := Prod.fst), hperm.length_eq]
  rfl

theorem Hashed.congr (h : Hashed σ P) (ht : σ'.table = σ.table)
    (hd : ∀ a ∈ P, σ'.domainOf a = σ.domainOf a) : Hashed σ' P where
  entry e he := by
    rw [ht] at he
    exact ⟨(h.entry e he).1, (hd _ (h.entry e he).1).trans (h.entry e he).2⟩
  keys := ht ▸ h.keys
  all a ha := by
    rw [ht, hd a ha]
    exact h.all a ha

/-- What the loop of `create_hash` does besides: it counts the entries it makes. -/
structure Filled (σ σ' : Store) : Prop extends SameRecords σ σ' where
  size : σ'.size = σ.size
  allocated : σ'.h_allocated = σ.h_allocated
  hcount : σ'.hcount + σ.table.length = σ.hcount + σ'.table.length

/-- **One record is entered.** -/
theorem addEntry_hashed (h : Hashed σ P) {n : Node Entry} (hn : σ.cells a = some n)
    (hroom : σ.find n.val.domain ≠ none ∨ σ.table.length < σ.size) :
    ∃ σ', σ.addEntry a = .ok σ' ∧ Filled σ σ' ∧ Hashed σ' (P ++ [a]) := by
  have hdom := domainOf_eq hn
  cases hf : σ.find n.val.domain with
  | some b =>
      refine ⟨σ, ?_, ⟨.refl σ, rfl, rfl, rfl⟩, ?_, h.keys, ?_⟩
      · simp only [addEntry, Heap.read_eq hn, bind, Except.bind, hf]
      · intro e he
        exact ⟨List.mem_append_left _ (h.entry e he).1, (h.entry e he).2⟩
      · intro x hx
        rcases List.mem_append.mp hx with hx | hx
        · exact h.all x hx
        · rw [List.mem_singleton.mp hx]
          exact ⟨_, find_eq_some hf, hdom⟩
  | none =>
      have hlt : σ.table.length < σ.size := hroom.resolve_left fun hne => hne hf
      let σ' : Store :=
        { σ with table := σ.table ++ [(n.val.domain, a)], hcount := σ.hcount + 1 }
      refine ⟨σ', ?_, ⟨⟨rfl, rfl⟩, rfl, rfl, ?_⟩, ?_, ?_, ?_⟩
      · simp only [addEntry, Heap.read_eq hn, bind, Except.bind, hf, hlt, if_true]
        rfl
      · show σ.hcount + 1 + σ.table.length = σ.hcount + (σ.table ++ [_]).length
        rw [List.length_append, List.length_singleton]
        omega
      · intro e he
        rcases List.mem_append.mp he with he | he
        · exact ⟨List.mem_append_left _ (h.entry e he).1, (h.entry e he).2⟩
        · rw [List.mem_singleton.mp he]
          exact ⟨by simp, hdom⟩
      · show ((σ.table ++ [(n.val.domain, a)]).map Prod.fst).Nodup
        rw [List.map_append, List.nodup_append]
        refine ⟨h.keys, by simp, ?_⟩
        rintro x hx y hy rfl
        obtain ⟨e, he, hex⟩ := List.mem_map.mp hx
        refine find_eq_none.mp hf e he ?_
        simpa [hex] using hy
      · intro x hx
        rcases List.mem_append.mp hx with hx | hx
        · obtain ⟨e, he, hxe⟩ := h.all x hx
          exact ⟨e, List.mem_append_left _ he, hxe⟩
        · rw [List.mem_singleton.mp hx]
          exact ⟨(n.val.domain, a), List.mem_append_right _ (List.mem_singleton_self _), hdom⟩

theorem Filled.trans (h : Filled σ τ) (h' : Filled τ σ') : Filled σ σ' := by
  refine ⟨h.toSameRecords.trans h'.toSameRecords, h'.size.trans h.size,
    h'.allocated.trans h.allocated, ?_⟩
  have h1 := h.hcount
  have h2 := h'.hcount
  omega

/-- There is room for a record that is not in the table. -/
theorem Hashed.room (h : Hashed σ P) (hP : ∀ b ∈ P, b ∈ l) (ha : a ∈ l) {n : Node Entry}
    (hn : σ.cells a = some n) (hs : (σ.domains l).length ≤ σ.size) :
    σ.find n.val.domain ≠ none ∨ σ.table.length < σ.size := by
  by_cases hf : σ.find n.val.domain = none
  · right
    have hnot : n.val.domain ∉ σ.domains P := by
      intro hd
      have hsome := h.find_isSome.mpr (mem_domains.mp hd)
      rw [hf] at hsome
      cases hsome
    have hsub : n.val.domain :: σ.domains P ⊆ σ.domains l := by
      intro d hd
      rcases List.mem_cons.mp hd with rfl | hd
      · exact mem_domains.mpr ⟨a, ha, domainOf_eq hn⟩
      · obtain ⟨b, hb, hbd⟩ := mem_domains.mp hd
        exact mem_domains.mpr ⟨b, hP b hb, hbd⟩
    have hnodup := List.nodup_cons.mpr ⟨hnot, List.nodup_dedup ((σ.vals P).map Entry.domain)⟩
    have hlen := (List.subperm_of_subset hnodup hsub).length_le
    rw [List.length_cons] at hlen
    rw [h.length_eq]
    exact Nat.lt_of_lt_of_le hlen hs
  · exact Or.inl hf

/-- **The records that were not gone through yet are entered.** -/
theorem addEntries_hashed {k : Nat} (hl : Listed σ.toHeap l) (h : Hashed σ P) (hs : l = P ++ S)
    (hk : S.length ≤ k) (hroom : (σ.domains l).length ≤ σ.size) :
    ∃ σ', addEntries k S.head? σ = .ok σ' ∧ Filled σ σ' ∧ Hashed σ' l := by
  induction S generalizing P σ k with
  | nil =>
      refine ⟨σ, ?_, ⟨.refl σ, rfl, rfl, rfl⟩, ?_⟩
      · cases k <;> rfl
      · rwa [hs, List.append_nil]
  | cons a S ih =>
      obtain ⟨k, rfl⟩ : ∃ j, k = j + 1 := ⟨k - 1, by simp only [List.length_cons] at hk; omega⟩
      have ha : a ∈ l := by rw [hs]; simp
      obtain ⟨v, hn⟩ := Listed.node (l := P) (m := S) (a := a) (hs ▸ hl)
      have hP : ∀ b ∈ P, b ∈ l := fun b hb => by rw [hs]; exact List.mem_append_left _ hb
      obtain ⟨τ, hτ, hf, hh⟩ := addEntry_hashed h hn (h.room hP ha hn hroom)
      have hnτ : τ.cells a = some ⟨v, P.reverse.head?, S.head?⟩ := by rw [hf.heap, hn]
      obtain ⟨σ', hσ', hf', hh'⟩ := ih (P := P ++ [a]) (k := k) (hf.heap ▸ hl) hh
        (by rw [hs, List.append_assoc]; rfl) (by simpa using hk)
        (by rw [hf.size, domains, hf.heap]; exact hroom)
      refine ⟨σ', ?_, hf.trans hf', hh'⟩
      rw [List.head?_cons, addEntries, hτ]
      show (do
        let n ← τ.read (some a)
        addEntries k n.next τ) = _
      rw [Heap.read_eq hnτ]
      exact hσ'

/-- A table for all records. -/
theorem fill_all (hl : Listed σ.toHeap l) (ht : σ.table = [])
    (hroom : (σ.domains l).length ≤ σ.size) :
    ∃ σ', σ.fill none = .ok σ' ∧ Filled σ σ' ∧ Hashed σ' l := by
  obtain ⟨σ', hσ', hf, hh⟩ := addEntries_hashed hl (hashed_nil ht) rfl hl.length_le hroom
  refine ⟨σ', ?_, hf, hh⟩
  rw [fill, hl.head]
  exact hσ'

/-- **`create_hash` for all records**, as after an expiry: there must be room for their domains
in a table of the first size. -/
theorem create_hash_all (hl : Listed σ.toHeap l) (hint : 125 * c.hash_size < 2147483648)
    (hroom : (σ.domains l).length ≤ c.room (125 * c.hash_size / 100)) :
    ∃ σ', σ.create_hash c none = .ok σ' ∧ SameRecords σ σ' ∧ Hashed σ' l ∧ σ'.h_allocated = 1 := by
  let τ : Store :=
    { σ with
      table := [], hcount := 0, h_allocated := 1, size := c.room (125 * c.hash_size / 100) }
  obtain ⟨σ', hσ', hf, hh⟩ := fill_all (σ := τ) hl rfl hroom
  refine ⟨σ', ?_, ⟨hf.heap, hf.count⟩, hh, hf.allocated⟩
  have hint' : 125 * c.hash_size * (0 + 1) < 2147483648 := by omega
  simp only [create_hash, if_true, Nat.zero_mod, hcreate, if_pos hint']
  have hsize : 125 * c.hash_size * (0 + 1) / 100 = 125 * c.hash_size / 100 := by
    rw [Nat.zero_add, Nat.mul_one]
  rw [hsize]
  exact hσ'

/-- The hash has room for one more record, of a domain `d`, where `ds` are the domains of all:
in the table it has, or in the larger one it makes when the count of entries is a multiple of
`hash_size`. -/
def Fits (c : Conf) (σ : Store) (ds : List Bytes) (d : Bytes) : Prop :=
  if σ.hcount % c.hash_size = 0 then
    125 * c.hash_size * (σ.h_allocated + 1) < 2147483648 ∧
      ds.dedup.length ≤ c.room (125 * c.hash_size * (σ.h_allocated + 1) / 100)
  else σ.find d ≠ none ∨ σ.table.length < σ.size

instance (c : Conf) (σ : Store) (ds : List Bytes) (d : Bytes) : Decidable (Fits c σ ds d) := by
  unfold Fits
  infer_instance

/-- **`create_hash` for the last record**, where the others are in the table. -/
theorem create_hash_one (hl : Listed σ.toHeap (P ++ [a])) (h : Hashed σ P) {n : Node Entry}
    (hn : σ.cells a = some n) (hzero : σ.h_allocated = 0 → P = [])
    (hfits : Fits c σ ((σ.vals (P ++ [a])).map Entry.domain) n.val.domain) :
    ∃ σ', σ.create_hash c (some a) = .ok σ' ∧ SameRecords σ σ' ∧ Hashed σ' (P ++ [a]) ∧
      (σ.hcount = σ.table.length → σ'.hcount = σ'.table.length) ∧
      (if σ.hcount % c.hash_size = 0 then
        σ'.h_allocated = σ.h_allocated + 1 ∧
          σ'.size = c.room (125 * c.hash_size * (σ.h_allocated + 1) / 100)
      else σ'.h_allocated = σ.h_allocated ∧ σ'.size = σ.size) := by
  rw [Fits] at hfits
  by_cases hm : σ.hcount % c.hash_size = 0
  · rw [if_pos hm] at hfits
    simp only [if_pos hm]
    obtain ⟨hint, hroom⟩ := hfits
    let τ : Store :=
      { σ with
        table := [], hcount := if σ.h_allocated = 0 then σ.hcount else 0
        h_allocated := σ.h_allocated + 1
        size := c.room (125 * c.hash_size * (σ.h_allocated + 1) / 100) }
    have hrun : σ.create_hash c (some a)
        = τ.fill (if σ.h_allocated = 0 then some a else none) := by
      simp only [create_hash, reduceCtorEq, if_false, hm, if_true, hcreate, if_pos hint]
      rfl
    by_cases h0 : σ.h_allocated = 0
    · have hP := hzero h0
      subst hP
      have htab : σ.table = [] := by
        cases ht : σ.table with
        | nil => rfl
        | cons e es => exact absurd (h.entry e (by simp [ht])).1 List.not_mem_nil
      have hone : τ.table.length < τ.size := by
        have hd : σ.vals ([] ++ [a]) = [n.val] := by
          rw [List.nil_append, Heap.vals_cons hn]
          rfl
        rw [hd] at hroom
        exact hroom
      obtain ⟨σ', hσ', hf, hh⟩ := addEntry_hashed (σ := τ) (hashed_nil rfl) hn (Or.inr hone)
      refine ⟨σ', ?_, ⟨hf.heap, hf.count⟩, hh, ?_, hf.allocated, hf.size⟩
      · rw [hrun, if_pos h0]
        exact hσ'
      · intro hc
        have h1 := hf.hcount
        have h2 : τ.hcount = σ.hcount := if_pos h0
        rw [h2, hc, htab] at h1
        simpa [τ] using h1
    · obtain ⟨σ', hσ', hf, hh⟩ := fill_all (σ := τ) hl rfl hroom
      refine ⟨σ', ?_, ⟨hf.heap, hf.count⟩, hh, ?_, hf.allocated, hf.size⟩
      · rw [hrun, if_neg h0]
        exact hσ'
      · intro _
        have h1 := hf.hcount
        have h2 : τ.hcount = 0 := if_neg h0
        rw [h2] at h1
        simpa [τ] using h1
  · rw [if_neg hm] at hfits
    simp only [if_neg hm]
    have hrun : σ.create_hash c (some a) = σ.addEntry a := by
      simp only [create_hash, reduceCtorEq, if_false, hm]
      rfl
    obtain ⟨σ', hσ', hf, hh⟩ := addEntry_hashed h hn hfits
    refine ⟨σ', hrun.trans hσ', hf.toSameRecords, hh, ?_, hf.allocated, hf.size⟩
    intro hc
    have h1 := hf.hcount
    omega

/-! ## The list -/

/-- Two stores that differ in the list only. -/
structure SameTable (σ σ' : Store) : Prop where
  count : σ'.dane_count = σ.dane_count
  table : σ'.table = σ.table
  size : σ'.size = σ.size
  hcount : σ'.hcount = σ.hcount
  allocated : σ'.h_allocated = σ.h_allocated

theorem SameTable.trans (h : SameTable σ τ) (h' : SameTable τ σ') : SameTable σ σ' :=
  ⟨h'.count.trans h.count, h'.table.trans h.table, h'.size.trans h.size,
    h'.hcount.trans h.hcount, h'.allocated.trans h.allocated⟩

theorem sameTable_heap (σ : Store) (h : Heap Entry) : SameTable σ { σ with toHeap := h } :=
  ⟨rfl, rfl, rfl, rfl, rfl⟩

/-- **A record at the end of the list**: where it is not the first, what was in the memory of
`next` must be a null pointer. -/
theorem link_listed (hl : Listed σ.toHeap l) (n : Node Entry) (hnext : l ≠ [] → n.next = none) :
    ∃ σ', σ.link n = .ok (σ.fresh, σ') ∧ Listed σ'.toHeap (l ++ [σ.fresh]) ∧
      (∀ a ∈ l, σ'.valOf a = σ.valOf a) ∧ σ'.valOf σ.fresh = some n.val ∧
      SameTable σ σ' ∧ σ'.fresh = σ.fresh + 1 := by
  rcases List.eq_nil_or_concat l with rfl | ⟨m, b, rfl⟩
  · have hhead : σ.head = none := hl.head_eq_none.mpr rfl
    let h : Heap Entry :=
      { σ.malloc ⟨n.val, none, none⟩ with head := some σ.fresh, tail := some σ.fresh }
    refine ⟨{ σ with toHeap := h }, ?_, hl.first n.val, ?_, ?_, sameTable_heap σ h, rfl⟩
    · rw [link, if_pos hhead]
    · intro a ha
      cases ha
    · simp [h, Heap.valOf, Heap.malloc]
  · rw [List.concat_eq_append] at hl ⊢
    obtain ⟨v, hv⟩ := hl.node
    have hhead : σ.head ≠ none := by
      rw [Ne, hl.head_eq_none]
      simp
    have htail : σ.tail = some b := by
      rw [hl.tail]
      simp
    have hn : ({ n with prev := σ.tail } : Node Entry) = ⟨n.val, some b, none⟩ := by
      rw [htail, ← hnext (by simp)]
    have hb : (σ.malloc ⟨n.val, some b, none⟩).cells b = some ⟨v, m.reverse.head?, none⟩ := by
      have hne : b ≠ σ.fresh := by
        rintro rfl
        exact hl.fresh_notMem (by simp)
      simpa [Heap.malloc, Heap.set, hne] using hv
    let h : Heap Entry :=
      { (σ.malloc ⟨n.val, some b, none⟩).set b
          (some ⟨v, m.reverse.head?, some σ.fresh⟩) with tail := some σ.fresh }
    refine ⟨{ σ with toHeap := h }, ?_, hl.snoc hv n.val, ?_, ?_, sameTable_heap σ h, rfl⟩
    · rw [link, if_neg hhead, hn, htail, Heap.modify_eq hb]
      rfl
    · intro a ha
      have hne : a ≠ σ.fresh := by
        rintro rfl
        exact hl.fresh_notMem ha
      by_cases hab : a = b
      · subst hab
        simp [h, Heap.valOf, hv]
      · simp [h, Heap.valOf, Heap.malloc, Heap.set, hne, hab]
    · have hne : σ.fresh ≠ b := by
        rintro rfl
        exact hl.fresh_notMem (by simp)
      simp [h, Heap.valOf, Heap.malloc, Heap.set, hne]

/-- **Fields of a record are assigned.** -/
theorem assign_listed (hl : Listed σ.toHeap l) {e : Entry} (ha : σ.valOf a = some e)
    (f : Entry → Entry) :
    ∃ σ', σ.assign (some a) f = .ok σ' ∧ Listed σ'.toHeap l ∧
      (∀ b, b ≠ a → σ'.valOf b = σ.valOf b) ∧ σ'.valOf a = some (f e) ∧
      SameTable σ σ' ∧ σ'.fresh = σ.fresh := by
  obtain ⟨n, hn, rfl⟩ := Option.map_eq_some_iff.mp ha
  refine ⟨_, assign_eq hn f, hl.set_val hn (f n.val), ?_, ?_, sameTable_heap σ _, rfl⟩
  · intro b hb
    simp [Heap.valOf, Heap.set, hb]
  · simp [Heap.valOf]

/-- The list of `σ` with one more record, not yet in the table. -/
structure Extended (σ τ : Store) (l : List Addr) (a : Addr) (e : Entry) : Prop where
  listed : Listed τ.toHeap (l ++ [a])
  old : ∀ x ∈ l, τ.valOf x = σ.valOf x
  new : τ.valOf a = some e
  fresh : τ.fresh = σ.fresh + 1
  count : τ.dane_count = σ.dane_count + 1
  table : τ.table = σ.table
  size : τ.size = σ.size
  hcount : τ.hcount = σ.hcount
  allocated : τ.h_allocated = σ.h_allocated

namespace Extended

variable {e : Entry}

/-- Fields of the new record are assigned. -/
theorem assign (h : Extended σ τ l a e) (f : Entry → Entry) :
    ∃ τ', τ.assign (some a) f = .ok τ' ∧ Extended σ τ' l a (f e) := by
  obtain ⟨τ', hτ, hl, hv, ha, hs, hf⟩ := assign_listed h.listed h.new f
  refine ⟨τ', hτ, ?_⟩
  constructor
  · exact hl
  · intro x hx
    rw [hv x, h.old x hx]
    rintro rfl
    exact (List.nodup_append.mp h.listed.nodup).2.2 x hx x List.mem_cons_self rfl
  · exact ha
  · exact hf.trans h.fresh
  · exact hs.count.trans h.count
  · exact hs.table.trans h.table
  · exact hs.size.trans h.size
  · exact hs.hcount.trans h.hcount
  · exact hs.allocated.trans h.allocated

/-- What the records hold. -/
theorem vals (h : Extended σ τ l a e) : τ.vals (l ++ [a]) = σ.vals l ++ [e] := by
  rw [Heap.vals_append, Heap.vals_congr h.old]
  simp [Heap.vals, h.new]

/-- **The new record is hashed.** -/
theorem create_hash (h : Extended σ τ l a e) (hh : Hashed σ l) (hzero : σ.h_allocated = 0 → l = [])
    (hfits : Fits c σ ((σ.vals l).map Entry.domain ++ [e.domain]) e.domain) :
    ∃ σ', τ.create_hash c (some a) = .ok σ' ∧ SameRecords τ σ' ∧ Hashed σ' (l ++ [a]) ∧
      (σ.hcount = σ.table.length → σ'.hcount = σ'.table.length) ∧
      (if σ.hcount % c.hash_size = 0 then
        σ'.h_allocated = σ.h_allocated + 1 ∧
          σ'.size = c.room (125 * c.hash_size * (σ.h_allocated + 1) / 100)
      else σ'.h_allocated = σ.h_allocated ∧ σ'.size = σ.size) := by
  obtain ⟨n, hn, rfl⟩ := Option.map_eq_some_iff.mp h.new
  have hhτ : Hashed τ l := hh.congr h.table fun x hx => by rw [domainOf, h.old x hx, domainOf]
  have hfind : τ.find n.val.domain = σ.find n.val.domain := by rw [find, h.table, find]
  have hfitsτ : Fits c τ ((τ.vals (l ++ [a])).map Entry.domain) n.val.domain := by
    rw [h.vals, List.map_append, List.map_singleton, Fits, h.hcount, h.allocated, h.table, h.size,
      hfind]
    exact hfits
  obtain ⟨σ', hσ', hs, hh', hcount, hsize⟩ :=
    create_hash_one h.listed hhτ hn (h.allocated ▸ hzero) hfitsτ
  refine ⟨σ', hσ', hs, hh', ?_, ?_⟩
  · rw [← h.hcount, ← h.table]
    exact hcount
  · simpa only [h.hcount, h.allocated, h.size] using hsize

end Extended

/-- `link`, and the count. -/
theorem link_extended (hl : Listed σ.toHeap l) (n : Node Entry) (hnext : l ≠ [] → n.next = none) :
    ∃ τ, σ.link n = .ok (σ.fresh, τ) ∧
      Extended σ { τ with dane_count := τ.dane_count + 1 } l σ.fresh n.val := by
  obtain ⟨τ, hτ, hlτ, hold, hnew, hs, hf⟩ := link_listed hl n hnext
  refine ⟨τ, hτ, hlτ, hold, hnew, hf, ?_, hs.table, hs.size, hs.hcount, hs.allocated⟩
  show τ.dane_count + 1 = _
  rw [hs.count]

/-! ## Expiry -/

/-- A record between two others that is expired is taken out. -/
theorem removeRecord_inner {b d : Addr} {m : List Addr}
    (hl : Listed σ.toHeap (P ++ b :: a :: d :: m)) :
    ∃ σ', σ.removeRecord a = .ok σ' ∧ Listed σ'.toHeap (P ++ b :: d :: m) ∧
      (∀ x, x ≠ a → σ'.valOf x = σ.valOf x) ∧ σ'.dane_count = σ.dane_count - 1 ∧
      σ'.fresh = σ.fresh := by
  obtain ⟨n, hn⟩ := hl.get (a := a) (by simp)
  have hhead : some a ≠ σ.head := by
    have hnd := hl.nodup
    rw [hl.head]
    cases P with
    | nil =>
        rintro heq
        simp only [List.nil_append, List.head?_cons, Option.some.injEq] at heq
        subst heq
        simp at hnd
    | cons x P =>
        rintro heq
        simp only [List.cons_append, List.head?_cons, Option.some.injEq] at heq
        subst heq
        simp at hnd
  obtain ⟨h, hu, hl', hv, hf⟩ := hl.unlink
  refine ⟨{ σ with toHeap := h, dane_count := σ.dane_count - 1 }, ?_, hl', hv, rfl, hf⟩
  rw [removeRecord, Heap.read_eq hn]
  show (do
    let τ ← if some a = σ.head then _ else Except.ok { σ with dane_count := σ.dane_count - 1 }
    let h ← τ.toHeap.unlink a
    Except.ok ({ τ with toHeap := h } : Store)) = _
  rw [if_neg hhead]
  show (do
    let h ← σ.toHeap.unlink a
    Except.ok _) = _
  rw [hu]
  rfl

/-- The record at an address is not expired. -/
def aliveAt (c : Conf) (now : Int) (σ : Store) (a : Addr) : Bool := (σ.valOf a).any (Entry.alive c now)

theorem vals_filter (now : Int) (l : List Addr) :
    σ.vals (l.filter (σ.aliveAt c now)) = (σ.vals l).filter (Entry.alive c now) := by
  induction l with
  | nil => rfl
  | cons a l ih =>
      have hvals : ∀ m, σ.vals (a :: m) = (σ.valOf a).toList ++ σ.vals m := by
        intro m
        rw [← List.singleton_append, Heap.vals_append]
        cases hv : σ.valOf a with
        | none => simp [Heap.vals, hv]
        | some e => simp [Heap.vals, hv]
      rw [hvals, List.filter_append, ← ih, List.filter_cons, aliveAt]
      cases hv : σ.valOf a with
      | none => rfl
      | some e =>
          cases he : e.alive c now with
          | false => simp [he]
          | true => simp [he, hvals, hv]

/-- **The loop behind a record that stays**, where the last one stays as well. -/
theorem expireLoop_listed {now : Int} {b : Addr} {k : Nat}
    (hl : Listed σ.toHeap (P ++ b :: S)) (hk : S.length ≤ k)
    (hlast : ∀ a ∈ S.getLast?, σ.aliveAt c now a) :
    ∃ σ', expireLoop c now k S.head? σ = .ok σ' ∧
      Listed σ'.toHeap (P ++ b :: S.filter (σ.aliveAt c now)) ∧
      (∀ x ∈ P ++ b :: S.filter (σ.aliveAt c now), σ'.valOf x = σ.valOf x) ∧
      σ'.dane_count = σ.dane_count - S.length + (S.filter (σ.aliveAt c now)).length := by
  induction S generalizing P b σ k with
  | nil =>
      refine ⟨σ, ?_, hl, fun _ _ => rfl, by simp⟩
      cases k <;> rfl
  | cons a S ih =>
      obtain ⟨k, rfl⟩ : ∃ j, k = j + 1 := ⟨k - 1, by simp only [List.length_cons] at hk; omega⟩
      obtain ⟨v, hn⟩ := Listed.node (l := P ++ [b]) (m := S) (a := a) (by simpa using hl)
      have hat : σ.aliveAt c now a = decide (c.start now ≤ v.timestamp) := by
        simp [aliveAt, Heap.valOf, hn, Entry.alive]
      have hk' : S.length ≤ k := by simpa using hk
      rw [List.head?_cons, expireLoop, Heap.read_eq hn]
      by_cases halive : c.start now ≤ v.timestamp
      · have hlast' : ∀ x ∈ S.getLast?, σ.aliveAt c now x := by
          intro x hx
          refine hlast x ?_
          rw [List.getLast?_cons, Option.mem_def.mp hx]
          rfl
        obtain ⟨σ', hr, hl', hv, hc⟩ := ih (P := P ++ [b]) (b := a) (k := k)
          (by simpa using hl) hk' hlast'
        -- the record stays, and is the one before the next
        rw [List.filter_cons_of_pos (by rw [hat]; exact decide_eq_true halive)]
        refine ⟨σ', ?_, by simpa using hl', by simpa using hv, ?_⟩
        · show (if c.start now ≤ v.timestamp then expireLoop c now k S.head? σ else _) = _
          rw [if_pos halive]
          exact hr
        · rw [hc, List.length_cons, List.length_cons]
          omega
      · -- the record goes; the last one is alive, so there is one behind it
        obtain ⟨d, m, rfl⟩ : ∃ d m, S = d :: m := by
          cases S with
          | nil =>
              have := hlast a rfl
              rw [hat, decide_eq_true_eq] at this
              exact absurd this halive
          | cons d m => exact ⟨d, m, rfl⟩
        obtain ⟨τ, hτ, hlτ, hvτ, hcτ, -⟩ := removeRecord_inner hl
        have hnot : a ∉ d :: m := by
          have hnd := (List.nodup_append.mp hl.nodup).2.1
          exact (List.nodup_cons.mp (List.nodup_cons.mp hnd).2).1
        have hsame : ∀ x ∈ d :: m, τ.aliveAt c now x = σ.aliveAt c now x := by
          intro x hx
          rw [aliveAt, hvτ x (fun hxa => hnot (hxa ▸ hx)), aliveAt]
        have hfilter : (d :: m).filter (τ.aliveAt c now) = (d :: m).filter (σ.aliveAt c now) :=
          List.filter_congr hsame
        have hlast' : ∀ x ∈ (d :: m).getLast?, τ.aliveAt c now x := by
          intro x hx
          rw [hsame x (List.mem_of_getLast? hx)]
          exact hlast x hx
        obtain ⟨σ', hr, hl', hv, hc⟩ := ih (P := P) (b := b) (k := k) hlτ hk' hlast'
        rw [hfilter] at hl' hv hc
        rw [List.filter_cons_of_neg (by rw [hat, decide_eq_true_eq]; exact halive)]
        refine ⟨σ', ?_, hl', ?_, ?_⟩
        · show (if c.start now ≤ v.timestamp then _
            else do
              let σ ← σ.removeRecord a
              expireLoop c now k (d :: m).head? σ) = _
          rw [if_neg halive, hτ]
          exact hr
        · intro x hx
          rw [hv x hx, hvτ x]
          rintro rfl
          have hnd := hl.nodup
          rcases List.mem_append.mp hx with hx | hx
          · exact (List.nodup_append.mp hnd).2.2 x hx x (by simp) rfl
          · rcases List.mem_cons.mp hx with rfl | hx
            · simp [List.nodup_append] at hnd
            · exact hnot (List.mem_filter.mp hx).1
        · simp only [hc, hcτ, List.length_cons]
          omega

/-- **`expire_records`, where the first and the last record stay**: the others that are expired
go, and there is a new table. -/
theorem expire_records_listed {t : Int} (hl : Listed σ.toHeap l)
    (hends : (∀ a ∈ l.head?, σ.aliveAt c t a) ∧ ∀ a ∈ l.getLast?, σ.aliveAt c t a)
    (hint : 125 * c.hash_size < 2147483648)
    (hroom : (σ.domains (l.filter (σ.aliveAt c t))).length ≤ c.room (125 * c.hash_size / 100)) :
    ∃ σ', σ.expire_records c t = .ok σ' ∧
      Listed σ'.toHeap (l.filter (σ.aliveAt c t)) ∧
      σ'.vals (l.filter (σ.aliveAt c t)) = (σ.vals l).filter (Entry.alive c t) ∧
      σ'.dane_count = σ.dane_count - l.length + (l.filter (σ.aliveAt c t)).length ∧
      Hashed σ' (l.filter (σ.aliveAt c t)) ∧ σ'.h_allocated = 1 := by
  have hloop : ∃ τ, expireLoop c t σ.fresh σ.head σ = .ok τ ∧
      Listed τ.toHeap (l.filter (σ.aliveAt c t)) ∧
      (∀ x ∈ l.filter (σ.aliveAt c t), τ.valOf x = σ.valOf x) ∧
      τ.dane_count = σ.dane_count - l.length + (l.filter (σ.aliveAt c t)).length := by
    cases l with
    | nil =>
        refine ⟨σ, ?_, hl, fun _ _ => rfl, by simp⟩
        rw [hl.head]
        cases σ.fresh <;> rfl
    | cons b S =>
        have hb := hends.1 b rfl
        obtain ⟨k, hk⟩ := Nat.exists_eq_add_one_of_ne_zero
          (Nat.pos_iff_ne_zero.mp (Nat.zero_lt_of_lt (hl.lt b List.mem_cons_self)))
        have hlen := hl.length_le
        obtain ⟨v, hn⟩ := Listed.node (l := []) (m := S) (a := b) hl
        have hlast : ∀ a ∈ S.getLast?, σ.aliveAt c t a := by
          intro x hx
          refine hends.2 x ?_
          rw [List.getLast?_cons, Option.mem_def.mp hx]
          rfl
        obtain ⟨τ, hr, hlτ, hv, hc⟩ := expireLoop_listed (P := []) (k := k) hl
          (by rw [List.length_cons, hk] at hlen; omega) hlast
        rw [List.filter_cons_of_pos hb]
        refine ⟨τ, ?_, hlτ, hv, ?_⟩
        · have halive : c.start t ≤ v.timestamp := by
            simpa [aliveAt, Heap.valOf, hn, Entry.alive] using hb
          rw [hk, hl.head, List.head?_cons, expireLoop, Heap.read_eq hn]
          show (if c.start t ≤ v.timestamp then expireLoop c t k S.head? σ else _) = _
          rw [if_pos halive]
          exact hr
        · rw [hc, List.length_cons, List.length_cons]
          omega
  obtain ⟨τ, hτ, hlτ, hvτ, hcτ⟩ := hloop
  have hvals : τ.vals (l.filter (σ.aliveAt c t)) = σ.vals (l.filter (σ.aliveAt c t)) :=
    Heap.vals_congr hvτ
  obtain ⟨σ', hσ', hs, hh, h1⟩ := create_hash_all (c := c) hlτ hint
    (by rw [domains, hvals]; exact hroom)
  refine ⟨σ', ?_, hs.heap ▸ hlτ, ?_, hs.count.trans hcτ, hh, h1⟩
  · rw [expire_records, hτ]
    exact hσ'
  · rw [hs.heap, hvals, vals_filter]

end Store

end IndimailMta.Daned
