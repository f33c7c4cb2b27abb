import Mathlib.Data.List.Nodup
import Mathlib.Data.List.Range
import Mathlib.Data.Finset.Card
import Mathlib.Data.Finset.Range

/-!
# Linked lists in a heap

A heap of nodes with two links, and pointers to a first and a last one. An access fails
(`Stop`) where the pointer is null or the node was freed; an address is given out once.

A link is a field of the nodes, seen as a function: `link a` is the pointer in that field of
the node at `a`, `none` where there is no node. `Path link q l` says that the nodes of `l` are
linked in this order and the last one to `q`. A list that is linked both ways (`Listed`) is a
path of `next` and, read backwards, a path of `prev`; what unlinks a node or appends one is
then one lemma for both directions.
-/

namespace IndimailMta.Links

abbrev Addr := Nat

/-- A pointer; `none` is the null pointer. -/
abbrev Ptr := Option Addr

/-! ## Paths -/

section Paths

variable {link link' : Addr → Option Ptr} {q : Ptr} {l m : List Addr} {a b : Addr}

/-- The nodes of `l` are linked in this order, and the last one to `q`. -/
def Path (link : Addr → Option Ptr) (q : Ptr) : List Addr → Prop
  | [] => True
  | a :: rest => link a = some (rest.head?.or q) ∧ Path link q rest

@[simp] theorem path_nil : Path link q [] := trivial

theorem path_cons : Path link q (a :: l) ↔ link a = some (l.head?.or q) ∧ Path link q l := Iff.rfl

@[simp] theorem path_singleton : Path link q [a] ↔ link a = some q := by
  simp [path_cons]

/-- Paths read only the links of their nodes. -/
theorem Path.congr (h : Path link q l) (hl : ∀ a ∈ l, link' a = link a) : Path link' q l := by
  induction l with
  | nil => trivial
  | cons a rest ih =>
      constructor
      · rw [hl a List.mem_cons_self]
        exact h.1
      · exact ih h.2 fun b hb => hl b (List.mem_cons_of_mem _ hb)

/-- A path is cut anywhere. -/
theorem path_append : Path link q (l ++ m) ↔ Path link (m.head?.or q) l ∧ Path link q m := by
  induction l with
  | nil => simp
  | cons a rest ih =>
      rw [List.cons_append, path_cons, path_cons, ih, List.head?_append, Option.or_assoc, and_assoc]

/-- A node of a path is linked to the one after it. -/
theorem Path.get (h : Path link q (l ++ a :: m)) : link a = some (m.head?.or q) :=
  (path_append.mp h).2.1

/-- The node before a node is linked past it. -/
theorem Path.unlink (h : Path link q (l ++ b :: a :: m)) (hb : link' b = some (m.head?.or q))
    (hl : ∀ c ∈ l ++ m, link' c = link c) : Path link' q (l ++ b :: m) := by
  obtain ⟨h1, -, -, h4⟩ := path_append.mp h
  rw [path_append]
  refine ⟨?_, hb, h4.congr fun c hc => hl c (List.mem_append_right _ hc)⟩
  exact h1.congr fun c hc => hl c (List.mem_append_left _ hc)

/-- A node is appended. -/
theorem Path.snoc (h : Path link none (l ++ [b])) (hb : link' b = some (some a))
    (ha : link' a = some none) (hl : ∀ c ∈ l, link' c = link c) :
    Path link' none (l ++ [b] ++ [a]) := by
  rw [path_append] at h ⊢
  rw [path_append]
  refine ⟨⟨?_, ?_⟩, ?_⟩
  · exact h.1.congr hl
  · simpa using hb
  · simpa using ha

/-- Nodes below an address are not more than that address. -/
theorem length_le_of_lt {n : Nat} (hn : l.Nodup) (hl : ∀ a ∈ l, a < n) : l.length ≤ n := by
  have hsub : l.toFinset ⊆ Finset.range n := by
    intro a ha
    rw [Finset.mem_range]
    exact hl a (List.mem_toFinset.mp ha)
  have hcard := Finset.card_le_card hsub
  rwa [List.toFinset_card_of_nodup hn, Finset.card_range] at hcard

end Paths

/-! ## Heaps -/

/-- What stops a program: it follows a null pointer, uses what was freed, reads or writes past
an object, has no memory, or goes round in a list without an end. -/
inductive Stop
  | null
  | freed
  | overread
  | overflow
  | nomem
  | endless
  deriving DecidableEq, Repr

/-- What a computation stopped on. -/
def stopped {β : Type} : Except Stop β → Option Stop
  | .error e => some e
  | .ok _ => none

structure Node (α : Type) where
  val : α
  prev : Ptr
  next : Ptr
  deriving DecidableEq, Repr

structure Heap (α : Type) where
  cells : Addr → Option (Node α) := fun _ => none
  fresh : Addr := 0
  head : Ptr := none
  tail : Ptr := none

variable {α : Type} {h h' : Heap α} {l m : List Addr} {a b : Addr} {n : Node α}

namespace Heap

/-- The node a pointer points to. -/
def read (h : Heap α) (p : Ptr) : Except Stop (Node α) :=
  match p with
  | none => .error .null
  | some a =>
      match h.cells a with
      | none => .error .freed
      | some n => .ok n

/-- The heap with another node at an address. -/
def set (h : Heap α) (a : Addr) (n : Option (Node α)) : Heap α :=
  { h with cells := fun b => if b = a then n else h.cells b }

/-- Fields of the node a pointer points to are assigned. -/
def modify (h : Heap α) (p : Ptr) (f : Node α → Node α) : Except Stop (Heap α) :=
  match p with
  | none => .error .null
  | some a =>
      match h.cells a with
      | none => .error .freed
      | some n => .ok (h.set a (some (f n)))

/-- A new node, with what is in its memory. -/
def malloc (h : Heap α) (n : Node α) : Heap α :=
  { h.set h.fresh (some n) with fresh := h.fresh + 1 }

/-- A node is taken out between its two neighbours, and freed. -/
def unlink (h : Heap α) (a : Addr) : Except Stop (Heap α) := do
  let n ← h.read (some a)
  let h ← h.modify n.prev fun m => { m with next := n.next }
  let h ← h.modify n.next fun m => { m with prev := n.prev }
  .ok (h.set a none)

def valOf (h : Heap α) (a : Addr) : Option α := (h.cells a).map Node.val
def nextOf (h : Heap α) (a : Addr) : Option Ptr := (h.cells a).map Node.next
def prevOf (h : Heap α) (a : Addr) : Option Ptr := (h.cells a).map Node.prev

/-- What the nodes of a list hold. -/
def vals (h : Heap α) (l : List Addr) : List α := l.filterMap h.valOf

@[simp] theorem set_cells_self (n : Option (Node α)) : (h.set a n).cells a = n := by
  simp [set]

theorem set_cells_ne (n : Option (Node α)) (hb : b ≠ a) : (h.set a n).cells b = h.cells b := by
  simp [set, hb]

@[simp] theorem set_head (n : Option (Node α)) : (h.set a n).head = h.head := rfl
@[simp] theorem set_tail (n : Option (Node α)) : (h.set a n).tail = h.tail := rfl
@[simp] theorem set_fresh (n : Option (Node α)) : (h.set a n).fresh = h.fresh := rfl

theorem read_eq (hn : h.cells a = some n) : h.read (some a) = .ok n := by
  simp only [read, hn]

theorem modify_eq (hn : h.cells a = some n) (f : Node α → Node α) :
    h.modify (some a) f = .ok (h.set a (some (f n))) := by
  simp only [modify, hn]

@[simp] theorem vals_nil : h.vals [] = [] := rfl

@[simp] theorem vals_append : h.vals (l ++ m) = h.vals l ++ h.vals m := List.filterMap_append ..

theorem vals_cons (hn : h.cells a = some n) : h.vals (a :: l) = n.val :: h.vals l := by
  simp [vals, valOf, hn]

/-- Values are read only where the nodes are. -/
theorem vals_congr (hl : ∀ a ∈ l, h'.valOf a = h.valOf a) : h'.vals l = h.vals l :=
  List.filterMap_congr hl

theorem mem_vals {v : α} : v ∈ h.vals l ↔ ∃ a ∈ l, h.valOf a = some v := by
  simp [vals]

end Heap

/-! ## Lists -/

/-- The nodes of the heap are those of `l`, from its head to its tail, linked both ways. -/
structure Listed (h : Heap α) (l : List Addr) : Prop where
  nodup : l.Nodup
  alive : ∀ a, (h.cells a).isSome ↔ a ∈ l
  lt : ∀ a ∈ l, a < h.fresh
  head : h.head = l.head?
  tail : h.tail = l.reverse.head?
  next : Path h.nextOf none l
  prev : Path h.prevOf none l.reverse

theorem listed_empty : Listed ({} : Heap α) [] := by
  constructor <;> simp

namespace Listed

theorem get (hl : Listed h l) (ha : a ∈ l) : ∃ n, h.cells a = some n :=
  Option.isSome_iff_exists.mp ((hl.alive a).mpr ha)

theorem cells_none (hl : Listed h l) (ha : a ∉ l) : h.cells a = none :=
  Option.not_isSome_iff_eq_none.mp fun hs => ha ((hl.alive a).mp hs)

theorem fresh_notMem (hl : Listed h l) : h.fresh ∉ l :=
  fun hf => Nat.lt_irrefl _ (hl.lt _ hf)

theorem length_le (hl : Listed h l) : l.length ≤ h.fresh := length_le_of_lt hl.nodup hl.lt

theorem head_eq_none (hl : Listed h l) : h.head = none ↔ l = [] := by
  rw [hl.head, List.head?_eq_none_iff]

/-- The node at a place of the list, with its links. -/
theorem node (hl : Listed h (l ++ a :: m)) :
    ∃ v, h.cells a = some ⟨v, l.reverse.head?, m.head?⟩ := by
  obtain ⟨n, hn⟩ := hl.get (a := a) (by simp)
  have hprev : Path h.prevOf none (m.reverse ++ a :: l.reverse) := by
    simpa using hl.prev
  have h1 := hl.next.get
  have h2 := hprev.get
  simp only [Heap.nextOf, Heap.prevOf, hn, Option.map_some, Option.or_none,
    Option.some.injEq] at h1 h2
  exact ⟨n.val, by rw [hn, ← h1, ← h2]⟩

/-- As many values as nodes. -/
theorem length_vals (hl : Listed h l) (hm : ∀ a ∈ m, a ∈ l) : (h.vals m).length = m.length := by
  induction m with
  | nil => rfl
  | cons a m ih =>
      obtain ⟨n, hn⟩ := hl.get (hm a List.mem_cons_self)
      rw [Heap.vals_cons hn, List.length_cons, List.length_cons,
        ih fun b hb => hm b (List.mem_cons_of_mem _ hb)]

/-- A list is kept where the addresses and the links are. -/
theorem of_same (hl : Listed h l) (hsome : ∀ a, (h'.cells a).isSome = (h.cells a).isSome)
    (hnext : ∀ a ∈ l, h'.nextOf a = h.nextOf a) (hprev : ∀ a ∈ l, h'.prevOf a = h.prevOf a)
    (hfresh : h'.fresh = h.fresh) (hhead : h'.head = h.head) (htail : h'.tail = h.tail) :
    Listed h' l where
  nodup := hl.nodup
  alive a := by rw [hsome, hl.alive]
  lt a ha := hfresh ▸ hl.lt a ha
  head := hhead.trans hl.head
  tail := htail.trans hl.tail
  next := hl.next.congr hnext
  prev := hl.prev.congr fun a ha => hprev a (List.mem_reverse.mp ha)

/-- The value of a node is assigned. -/
theorem set_val (hl : Listed h l) (hn : h.cells a = some n) (v : α) :
    Listed (h.set a (some { n with val := v })) l := by
  refine hl.of_same ?_ ?_ ?_ rfl rfl rfl
  · intro b
    by_cases hb : b = a
    · subst hb
      simp [hn]
    · rw [Heap.set_cells_ne _ hb]
  · intro b _
    by_cases hb : b = a
    · subst hb
      simp [Heap.nextOf, hn]
    · rw [Heap.nextOf, Heap.set_cells_ne _ hb, Heap.nextOf]
  · intro b _
    by_cases hb : b = a
    · subst hb
      simp [Heap.prevOf, hn]
    · rw [Heap.prevOf, Heap.set_cells_ne _ hb, Heap.prevOf]

/-- A first node. -/
theorem first (hl : Listed h []) (v : α) :
    Listed { h.malloc ⟨v, none, none⟩ with head := some h.fresh, tail := some h.fresh }
      [h.fresh] where
  nodup := List.nodup_singleton _
  alive a := by
    by_cases ha : a = h.fresh
    · simp [Heap.malloc, Heap.set, ha]
    · simp [Heap.malloc, Heap.set, ha, hl.cells_none]
  lt a ha := by
    rw [List.mem_singleton.mp ha]
    exact Nat.lt_succ_self _
  head := rfl
  tail := rfl
  next := by simp [Heap.nextOf, Heap.malloc]
  prev := by simp [Heap.prevOf, Heap.malloc]

/-- A node after the last one. -/
theorem snoc (hl : Listed h (l ++ [b])) (hb : h.cells b = some n) (v : α) :
    Listed { (h.malloc ⟨v, some b, none⟩).set b (some { n with next := some h.fresh }) with
      tail := some h.fresh } (l ++ [b] ++ [h.fresh]) := by
  have hne : b ≠ h.fresh := by
    rintro rfl
    exact hl.fresh_notMem (by simp)
  have hnot : ∀ a ∈ l ++ [b], a ≠ h.fresh := by
    rintro a ha rfl
    exact hl.fresh_notMem ha
  have hcells : ∀ a, a ≠ h.fresh → a ≠ b →
      ((h.malloc ⟨v, some b, none⟩).set b (some { n with next := some h.fresh })).cells a
        = h.cells a := by
    intro a h1 h2
    simp [Heap.malloc, Heap.set, h1, h2]
  constructor
  · rw [List.nodup_append]
    refine ⟨hl.nodup, List.nodup_singleton _, ?_⟩
    rintro a ha c hc rfl
    exact hnot a ha (List.mem_singleton.mp hc)
  · intro a
    rw [List.mem_append, List.mem_singleton]
    by_cases h1 : a = h.fresh
    · subst h1
      simp [Heap.malloc, Heap.set, hne.symm]
    by_cases h2 : a = b
    · subst h2
      simp [Heap.malloc, Heap.set]
    · show (((h.malloc ⟨v, some b, none⟩).set b _).cells a).isSome ↔ _
      rw [hcells a h1 h2, hl.alive a]
      simp [h1]
  · intro a ha
    show a < h.fresh + 1
    rcases List.mem_append.mp ha with ha | ha
    · exact Nat.lt_succ_of_lt (hl.lt a ha)
    · rw [List.mem_singleton.mp ha]
      exact Nat.lt_succ_self _
  · show h.head = _
    rw [hl.head, List.head?_append, List.head?_append, List.head?_append]
    cases l <;> rfl
  · simp
  · refine hl.next.snoc ?_ ?_ ?_
    · simp [Heap.nextOf, Heap.malloc]
    · simp [Heap.nextOf, Heap.malloc, Heap.set, hne.symm]
    · intro a ha
      have h1 : a ≠ h.fresh := hnot a (List.mem_append_left _ ha)
      have h2 : a ≠ b := by
        rintro rfl
        exact (List.nodup_append.mp hl.nodup).2.2 a ha a List.mem_cons_self rfl
      show (((h.malloc ⟨v, some b, none⟩).set b _).cells a).map _ = _
      rw [hcells a h1 h2, Heap.nextOf]
  · rw [List.reverse_append, List.reverse_singleton, List.singleton_append, path_cons]
    constructor
    · simp [Heap.prevOf, Heap.malloc, Heap.set, hne.symm]
    · refine hl.prev.congr fun a ha => ?_
      have h1 := hnot a (List.mem_reverse.mp ha)
      by_cases h2 : a = b
      · subst h2
        simp [Heap.prevOf, hb]
      · show (((h.malloc ⟨v, some b, none⟩).set b _).cells a).map _ = _
        rw [hcells a h1 h2, Heap.prevOf]

/-- The list without a node, where the links of its neighbours go past it. -/
theorem past {c : Addr} (hl : Listed h (l ++ b :: a :: c :: m)) (ha : h'.cells a = none)
    (hsome : ∀ d, d ≠ a → (h'.cells d).isSome = (h.cells d).isSome)
    (hb : h'.nextOf b = some (some c)) (hc : h'.prevOf c = some (some b))
    (hnext : ∀ d, d ≠ a → d ≠ b → h'.nextOf d = h.nextOf d)
    (hprev : ∀ d, d ≠ a → d ≠ c → h'.prevOf d = h.prevOf d)
    (hfresh : h'.fresh = h.fresh) (hhead : h'.head = h.head) (htail : h'.tail = h.tail) :
    Listed h' (l ++ b :: c :: m) := by
  obtain ⟨hln, hn, hdis⟩ := List.nodup_append.mp hl.nodup
  simp only [List.nodup_cons, List.mem_cons, not_or] at hn hdis
  obtain ⟨⟨hba, hbc, hbm⟩, ⟨hac, ham⟩, hcm, hmn⟩ := hn
  constructor
  · rw [List.nodup_append]
    refine ⟨hln, ?_, ?_⟩
    · simp only [List.nodup_cons, List.mem_cons, not_or]
      exact ⟨⟨hbc, hbm⟩, hcm, hmn⟩
    · intro x hx y hy
      rcases List.mem_cons.mp hy with hy | hy
      · exact hdis x hx y (Or.inl hy)
      · exact hdis x hx y (Or.inr (Or.inr (List.mem_cons.mp hy)))
  · intro d
    by_cases hda : d = a
    · subst hda
      rw [ha]
      have hd : d ∉ l := fun hd => hdis d hd d (Or.inr (Or.inl rfl)) rfl
      simp [hd, Ne.symm hba, hac, ham]
    · rw [hsome d hda, hl.alive d]
      simp [hda]
  · intro d hd
    rw [hfresh]
    refine hl.lt d ?_
    simp only [List.mem_append, List.mem_cons] at hd ⊢
    tauto
  · rw [hhead, hl.head]
    cases l <;> rfl
  · rw [htail, hl.tail]
    cases hm : m.reverse <;> simp [hm]
  · -- forwards
    refine hl.next.unlink hb ?_
    intro d hd
    apply hnext d
    · rintro rfl
      rcases List.mem_append.mp hd with hd | hd
      · exact hdis d hd d (Or.inr (Or.inl rfl)) rfl
      · exact (List.mem_cons.mp hd).elim hac ham
    · rintro rfl
      rcases List.mem_append.mp hd with hd | hd
      · exact hdis d hd d (Or.inl rfl) rfl
      · exact (List.mem_cons.mp hd).elim hbc hbm
  · -- and backwards, along the reversed list
    have hp := hl.prev
    rw [show (l ++ b :: a :: c :: m).reverse = m.reverse ++ c :: a :: b :: l.reverse by simp] at hp
    rw [show (l ++ b :: c :: m).reverse = m.reverse ++ c :: b :: l.reverse by simp]
    refine hp.unlink hc ?_
    intro d hd
    simp only [List.mem_append, List.mem_reverse, List.mem_cons] at hd
    apply hprev d
    · rintro rfl
      rcases hd with hd | hd | hd
      · exact ham hd
      · exact hba hd.symm
      · exact hdis d hd d (Or.inr (Or.inl rfl)) rfl
    · rintro rfl
      rcases hd with hd | hd | hd
      · exact hcm hd
      · exact hbc hd.symm
      · exact hdis d hd d (Or.inr (Or.inr (Or.inl rfl))) rfl

/-- **A node between two others is taken out**, and the others keep their values. -/
theorem unlink {c : Addr} (hl : Listed h (l ++ b :: a :: c :: m)) :
    ∃ h', h.unlink a = .ok h' ∧ Listed h' (l ++ b :: c :: m) ∧
      (∀ d, d ≠ a → h'.valOf d = h.valOf d) ∧ h'.fresh = h.fresh := by
  have hn := (List.nodup_append.mp hl.nodup).2.1
  simp only [List.nodup_cons, List.mem_cons, not_or] at hn
  obtain ⟨⟨hba, hbc, -⟩, ⟨hac, -⟩, -⟩ := hn
  obtain ⟨va, hca⟩ := Listed.node (l := l ++ [b]) (m := c :: m) (a := a) (by simpa using hl)
  obtain ⟨vb, hcb⟩ := hl.node
  obtain ⟨vc, hcc⟩ := Listed.node (l := l ++ [b, a]) (m := m) (a := c) (by simpa using hl)
  simp only [List.reverse_append, List.reverse_cons, List.reverse_nil, List.nil_append,
    List.head?_cons, List.cons_append] at hca hcb hcc
  let h1 := h.set b (some ⟨vb, l.reverse.head?, some c⟩)
  let h2 := h1.set c (some ⟨vc, some b, m.head?⟩)
  have hc1 : h1.cells c = some ⟨vc, some a, m.head?⟩ := by
    rw [Heap.set_cells_ne _ (Ne.symm hbc), hcc]
  have hcb2 : (h2.set a none).cells b = some ⟨vb, l.reverse.head?, some c⟩ := by
    rw [Heap.set_cells_ne _ hba, Heap.set_cells_ne _ hbc, Heap.set_cells_self]
  have hcc2 : (h2.set a none).cells c = some ⟨vc, some b, m.head?⟩ := by
    rw [Heap.set_cells_ne _ (Ne.symm hac), Heap.set_cells_self]
  have hcells : ∀ d, d ≠ a → d ≠ b → d ≠ c → (h2.set a none).cells d = h.cells d := by
    intro d h1 h2 h3
    rw [Heap.set_cells_ne _ h1, Heap.set_cells_ne _ h3, Heap.set_cells_ne _ h2]
  -- what a field of the other nodes is, in one place for all three fields
  have hfield : ∀ {β : Type} (f : Node α → β) (d : Addr), d ≠ a →
      (d = b → f ⟨vb, l.reverse.head?, some c⟩ = f ⟨vb, l.reverse.head?, some a⟩) →
      (d = c → f ⟨vc, some b, m.head?⟩ = f ⟨vc, some a, m.head?⟩) →
      ((h2.set a none).cells d).map f = (h.cells d).map f := by
    intro β f d hda hfb hfc
    by_cases hdb : d = b
    · rw [hdb, hcb2, hcb, Option.map_some, hfb hdb]
      rfl
    by_cases hdc : d = c
    · rw [hdc, hcc2, hcc, Option.map_some, hfc hdc]
      rfl
    · rw [hcells d hda hdb hdc]
  refine ⟨h2.set a none, ?_, ?_, ?_, rfl⟩
  · rw [Heap.unlink, Heap.read_eq hca]
    show (do
      let h ← h.modify (some b) fun m => { m with next := some c }
      let h ← h.modify (some c) fun m => { m with prev := some b }
      Except.ok (h.set a none)) = _
    rw [Heap.modify_eq hcb]
    show (do
      let h ← h1.modify (some c) fun m => { m with prev := some b }
      Except.ok (h.set a none)) = _
    rw [Heap.modify_eq hc1]
    rfl
  · refine hl.past (Heap.set_cells_self _) ?_ ?_ ?_ ?_ ?_ rfl rfl rfl
    · intro d hda
      have hu := hfield (fun _ => ()) d hda (fun _ => rfl) (fun _ => rfl)
      rw [← Option.isSome_map (f := fun _ => ()), hu, Option.isSome_map]
    · rw [Heap.nextOf, hcb2]
      rfl
    · rw [Heap.prevOf, hcc2]
      rfl
    · intro d hda hdb
      exact hfield Node.next d hda (fun hd => absurd hd hdb) (fun _ => rfl)
    · intro d hda hdc
      exact hfield Node.prev d hda (fun _ => rfl) (fun hd => absurd hd hdc)
  · intro d hda
    exact hfield Node.val d hda (fun _ => rfl) (fun _ => rfl)

end Listed

end IndimailMta.Links
