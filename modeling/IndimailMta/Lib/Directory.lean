import Mathlib.Logic.Function.Basic
import Mathlib.Data.List.Nodup
import Mathlib.Data.List.Count

/-!
# A directory with links

A directory gives numbers to names, and a number stands for a file; a file that has no name is gone.

Where no file has two names (`Flat`), a directory is a map from names to files, and what is done to it
is an update of that map. A link gives a file a second name (`Twins`), until one of them is removed.
-/

namespace IndimailMta.Directories

/-- The names, in the order in which they are listed, their numbers and the files. -/
structure Dir (P F : Type) where
  names : List P
  ino : P → Option Nat
  node : Nat → F
  next : Nat
  nodup : names.Nodup
  mem_names : ∀ n, n ∈ names ↔ ino n ≠ none
  lt_next : ∀ n i, ino n = some i → i < next

namespace Dir

section Names

variable {P F : Type} (d : Dir P F)

/-- The file of a name. -/
def file (n : P) : Option F := (d.ino n).map d.node

/-- How many names a file has. -/
def nlink (i : Nat) : Nat := d.names.countP fun n => d.ino n = some i

/-- There are no names; `f` stands for the files that are not there. -/
def empty (f : F) : Dir P F where
  names := []
  ino _ := none
  node _ := f
  next := 0
  nodup := List.nodup_nil
  mem_names _ := iff_of_false List.not_mem_nil fun h => h rfl
  lt_next _ _ h := absurd h (Option.some_ne_none _).symm

/-- What every file holds is changed. -/
def change (f : Nat → F → F) : Dir P F := { d with node := fun i => f i (d.node i) }

/-- What one file holds is changed. -/
def modify (i : Nat) (f : F → F) : Dir P F := d.change fun j x => if j = i then f x else x

/-- No file has two names. -/
def Flat : Prop := ∀ m n i, d.ino m = some i → d.ino n = some i → m = n

/-- `a` and `b` are names of one file, and no other file has two names. -/
structure Twins (a b : P) : Prop where
  ne : a ≠ b
  same : d.ino a = d.ino b
  there : d.ino a ≠ none
  only : ∀ m n i, d.ino m = some i → d.ino n = some i → m = n ∨ m = a ∧ n = b ∨ m = b ∧ n = a

variable {d} {a b m n : P} {i : Nat} {x : F}

theorem file_eq_none : d.file n = none ↔ d.ino n = none := Option.map_eq_none_iff

theorem file_of_ino (h : d.ino n = some i) : d.file n = some (d.node i) := by
  rw [file, h, Option.map_some]

theorem exists_ino (h : d.file n = some x) : ∃ i, d.ino n = some i ∧ d.node i = x :=
  Option.map_eq_some_iff.mp h

theorem mem_names_iff : n ∈ d.names ↔ d.file n ≠ none := by
  rw [Ne, file_eq_none]
  exact d.mem_names n

theorem mem_names_of_ino (h : d.ino n = some i) : n ∈ d.names :=
  (d.mem_names n).mpr (by rw [h]; exact Option.some_ne_none i)

theorem ino_ne_next (d : Dir P F) (n : P) : d.ino n ≠ some d.next := fun h =>
  absurd (d.lt_next n d.next h) (Nat.lt_irrefl _)

theorem file_change (f : Nat → F → F) (n : P) :
    (d.change f).file n = (d.ino n).map fun i => f i (d.node i) := rfl

@[simp] theorem node_modify_self (i : Nat) (f : F → F) : (d.modify i f).node i = f (d.node i) := if_pos rfl

theorem flat_empty (f : F) : (empty f : Dir P F).Flat := fun _ _ _ h =>
  absurd h (Option.some_ne_none _).symm

theorem Flat.change (h : d.Flat) (f : Nat → F → F) : (d.change f).Flat := h

theorem Twins.change (h : d.Twins a b) (f : Nat → F → F) : (d.change f).Twins a b :=
  ⟨h.ne, h.same, h.there, h.only⟩

theorem Twins.file (h : d.Twins a b) : d.file a = d.file b := by
  rw [Dir.file, Dir.file, h.same]

theorem Twins.nlink (h : d.Twins a b) (ha : d.ino a = some i) : d.nlink i ≠ 1 := by
  have hb : d.ino b = some i := h.same ▸ ha
  intro hone
  rw [Dir.nlink, List.countP_eq_length_filter, List.length_eq_one_iff] at hone
  obtain ⟨c, hc⟩ := hone
  have hin : ∀ n, d.ino n = some i → n = c := by
    intro n hn
    rw [← List.mem_singleton, ← hc, List.mem_filter]
    exact ⟨mem_names_of_ino hn, decide_eq_true hn⟩
  exact h.ne ((hin a ha).trans (hin b hb).symm)

end Names

/-! ## What is done to names -/

section Updates

variable {P F : Type} [DecidableEq P] (d : Dir P F)

def unlink (a : P) : Dir P F where
  names := d.names.filter (· ≠ a)
  ino := Function.update d.ino a none
  node := d.node
  next := d.next
  nodup := d.nodup.filter _
  mem_names n := by
    by_cases h : n = a
    · simp [h]
    · simp [h, d.mem_names n]
  lt_next n i h := by
    by_cases hn : n = a
    · simp [hn] at h
    · rw [Function.update_of_ne hn] at h
      exact d.lt_next n i h

/-- `b` is a name for the file `i`, and not for any other. -/
def put (b : P) (i : Nat) : Dir P F where
  names := d.names.filter (· ≠ b) ++ [b]
  ino := Function.update d.ino b (some i)
  node := d.node
  next := max d.next (i + 1)
  nodup := by
    rw [List.nodup_append]
    refine ⟨d.nodup.filter _, List.nodup_singleton b, ?_⟩
    rintro n hn m hm rfl
    rw [List.mem_singleton.mp hm] at hn
    simp at hn
  mem_names n := by
    by_cases h : n = b
    · simp [h]
    · simp [h, d.mem_names n]
  lt_next n j h := by
    by_cases hn : n = b
    · rw [hn, Function.update_self] at h
      cases h
      exact Nat.le_max_right _ _
    · rw [Function.update_of_ne hn] at h
      exact Nat.lt_of_lt_of_le (d.lt_next n j h) (Nat.le_max_left _ _)

/-- A second name, if it is free. -/
def link (a b : P) : Option (Dir P F) :=
  match d.ino a with
  | none => none
  | some i => if d.ino b = none then some (d.put b i) else none

/-- Two names of one file are left as they are. -/
def rename (a b : P) : Option (Dir P F) :=
  match d.ino a with
  | none => none
  | some i => if d.ino b = some i then some d else some ((d.unlink a).put b i)

/-- A file for `n`, if there is none. -/
def create (n : P) (f : F) : Dir P F :=
  if d.ino n = none then (d.modify d.next fun _ => f).put n d.next else d

variable {d} {a b c m n : P} {i j : Nat} {x : F}

@[simp] theorem ino_unlink_self : (d.unlink a).ino a = none := Function.update_self _ _ _

theorem ino_unlink_ne (h : n ≠ a) : (d.unlink a).ino n = d.ino n := Function.update_of_ne h _ _

@[simp] theorem ino_put_self : (d.put b i).ino b = some i := Function.update_self _ _ _

theorem ino_put_ne (h : n ≠ b) : (d.put b i).ino n = d.ino n := Function.update_of_ne h _ _

theorem of_ino_unlink (h : (d.unlink a).ino n = some i) : n ≠ a ∧ d.ino n = some i := by
  by_cases hn : n = a
  · rw [hn, ino_unlink_self] at h
    cases h
  · rw [ino_unlink_ne hn] at h
    exact ⟨hn, h⟩

theorem of_ino_put (h : (d.put b i).ino n = some j) : n = b ∧ i = j ∨ n ≠ b ∧ d.ino n = some j := by
  by_cases hn : n = b
  · rw [hn, ino_put_self, Option.some_inj] at h
    exact .inl ⟨hn, h⟩
  · rw [ino_put_ne hn] at h
    exact .inr ⟨hn, h⟩

theorem file_unlink (a : P) : (d.unlink a).file = Function.update d.file a none := by
  funext n
  by_cases h : n = a
  · rw [h, Function.update_self, file_eq_none, ino_unlink_self]
  · rw [Function.update_of_ne h, file, ino_unlink_ne h]
    rfl

theorem file_put (b : P) (i : Nat) :
    (d.put b i).file = Function.update d.file b (some (d.node i)) := by
  funext n
  by_cases h : n = b
  · rw [h, Function.update_self, file_of_ino ino_put_self]
    rfl
  · rw [Function.update_of_ne h, file, ino_put_ne h]
    rfl

/-! ## No file has two names -/

theorem Flat.unlink (h : d.Flat) (a : P) : (d.unlink a).Flat := fun m n i hm hn =>
  h m n i (of_ino_unlink hm).2 (of_ino_unlink hn).2

theorem Flat.put (h : d.Flat) (hi : ∀ n, d.ino n ≠ some i) (b : P) : (d.put b i).Flat := by
  intro m n j hm hn
  rcases of_ino_put hm with ⟨hmb, rfl⟩ | ⟨-, hm⟩
  · rcases of_ino_put hn with ⟨hnb, -⟩ | ⟨-, hn⟩
    · rw [hmb, hnb]
    · exact absurd hn (hi n)
  · rcases of_ino_put hn with ⟨-, rfl⟩ | ⟨-, hn⟩
    · exact absurd hm (hi m)
    · exact h m n j hm hn

theorem Flat.create (h : d.Flat) (n : P) (x : F) : (d.create n x).Flat := by
  rw [Dir.create]
  split
  · exact Flat.put (Flat.change h _) (ino_ne_next d) n
  · exact h

/-- **A file is changed** under its only name. -/
theorem file_modify (h : d.Flat) (hn : d.ino n = some i) (f : F → F) :
    (d.modify i f).file = Function.update d.file n (some (f (d.node i))) := by
  funext m
  rw [modify, file_change]
  by_cases hm : m = n
  · rw [hm, hn, Function.update_self, Option.map_some, if_pos rfl]
  · rw [Function.update_of_ne hm, file]
    cases hj : d.ino m with
    | none => rfl
    | some j =>
        have hji : j ≠ i := by
          rintro rfl
          exact hm (h m n j hj hn)
        rw [Option.map_some, Option.map_some, if_neg hji]

theorem file_modify_of_file (h : d.Flat) (hi : d.ino n = some i) (hn : d.file n = some x) (f : F → F) :
    (d.modify i f).file = Function.update d.file n (some (f x)) := by
  rw [file_of_ino hi, Option.some_inj] at hn
  rw [file_modify h hi, hn]

theorem file_create (hn : d.file n = none) (x : F) :
    (d.create n x).file = Function.update d.file n (some x) := by
  rw [create, if_pos (file_eq_none.mp hn), file_put]
  funext m
  by_cases hm : m = n
  · rw [hm, Function.update_self, Function.update_self, node_modify_self]
  · rw [Function.update_of_ne hm, Function.update_of_ne hm, modify, file_change, file]
    cases hj : d.ino m with
    | none => rfl
    | some j =>
        have hlt : j ≠ d.next := Nat.ne_of_lt (d.lt_next m j hj)
        rw [Option.map_some, Option.map_some, if_neg hlt]

theorem create_of_file (hn : d.file n = some x) (y : F) : d.create n y = d := by
  obtain ⟨i, hi, -⟩ := exists_ino hn
  exact if_neg (by rw [hi]; exact Option.some_ne_none i)

/-- **A file is opened**, and made if it is not there. -/
theorem create_flat (h : d.Flat) (n : P) (x : F) :
    ∃ i, (d.create n x).ino n = some i ∧ (d.create n x).Flat ∧
      (d.create n x).file = Function.update d.file n (some ((d.file n).getD x)) ∧
      ∀ m, m ≠ n → (d.create n x).ino m = d.ino m := by
  cases hn : d.file n with
  | none =>
      refine ⟨d.next, ?_, h.create n x, file_create hn x, fun m hm => ?_⟩
      · rw [create, if_pos (file_eq_none.mp hn), ino_put_self]
      · rw [create, if_pos (file_eq_none.mp hn), ino_put_ne hm]
        rfl
  | some y =>
      obtain ⟨i, hi, -⟩ := exists_ino hn
      rw [create_of_file hn, Option.getD_some]
      refine ⟨i, hi, h, ?_, fun _ _ => rfl⟩
      rw [← hn, Function.update_eq_self]

theorem rename_flat (h : d.Flat) (ha : d.file a = some x) (hne : a ≠ b) :
    ∃ e, d.rename a b = some e ∧ e.Flat ∧
      e.file = Function.update (Function.update d.file a none) b (some x) ∧
      ∀ n, n ≠ a → n ≠ b → e.ino n = d.ino n := by
  obtain ⟨i, hi, rfl⟩ := exists_ino ha
  have hb : d.ino b ≠ some i := fun hb => hne (h a b i hi hb)
  refine ⟨(d.unlink a).put b i, ?_, ?_, ?_, fun n hna hnb => ?_⟩
  · rw [rename, hi]
    exact if_neg hb
  · refine (h.unlink a).put (fun n hn => ?_) b
    obtain ⟨hna, hn⟩ := of_ino_unlink hn
    exact hna (h n a i hn hi)
  · rw [file_put, file_unlink]
    rfl
  · rw [ino_put_ne hnb, ino_unlink_ne hna]

theorem nlink_flat (h : d.Flat) (hn : d.ino n = some i) : d.nlink i = 1 := by
  have hcount : d.nlink i = d.names.count n := by
    rw [nlink, List.count]
    refine List.countP_congr fun m _ => ?_
    rw [decide_eq_true_iff, beq_iff_eq]
    constructor
    · intro hm
      exact h m n i hm hn
    · rintro rfl
      exact hn
  rw [hcount]
  exact List.count_eq_one_of_mem d.nodup (mem_names_of_ino hn)

/-! ## One file has two names -/

/-- **A link** gives a file its second name. -/
theorem link_flat (h : d.Flat) (ha : d.file a = some x) (hb : d.file b = none) :
    ∃ e, d.link a b = some e ∧ e.Twins a b ∧ e.file = Function.update d.file b (some x) ∧
      ∀ n, n ≠ b → e.ino n = d.ino n := by
  obtain ⟨i, hi, rfl⟩ := exists_ino ha
  have hb' := file_eq_none.mp hb
  have hne : a ≠ b := by
    rintro rfl
    rw [hi] at hb'
    cases hb'
  refine ⟨d.put b i, ?_, ⟨hne, ?_, ?_, ?_⟩, file_put b i, fun n hn => ino_put_ne hn⟩
  · rw [link, hi]
    exact if_pos hb'
  · rw [ino_put_ne hne, ino_put_self, hi]
  · rw [ino_put_ne hne, hi]
    exact Option.some_ne_none i
  · intro m n j hm hn
    rcases of_ino_put hm with ⟨hmb, rfl⟩ | ⟨-, hm⟩
    · rcases of_ino_put hn with ⟨hnb, -⟩ | ⟨-, hn⟩
      · exact .inl (hmb.trans hnb.symm)
      · exact .inr (.inr ⟨hmb, h n a i hn hi⟩)
    · rcases of_ino_put hn with ⟨hnb, rfl⟩ | ⟨-, hn⟩
      · exact .inr (.inl ⟨h m a i hm hi, hnb⟩)
      · exact .inl (h m n j hm hn)

theorem Twins.unlink (h : d.Twins a b) (ha : a ≠ c) (hb : b ≠ c) : (d.unlink c).Twins a b := by
  refine ⟨h.ne, ?_, ?_, fun m n i hm hn => ?_⟩
  · rw [ino_unlink_ne ha, ino_unlink_ne hb, h.same]
  · rw [ino_unlink_ne ha]
    exact h.there
  · exact h.only m n i (of_ino_unlink hm).2 (of_ino_unlink hn).2

/-- One of the names is removed. -/
theorem Twins.flat (h : d.Twins a b) : (d.unlink a).Flat := by
  intro m n i hm hn
  obtain ⟨hma, hm⟩ := of_ino_unlink hm
  obtain ⟨hna, hn⟩ := of_ino_unlink hn
  rcases h.only m n i hm hn with h | ⟨h, -⟩ | ⟨-, h⟩
  · exact h
  · exact absurd h hma
  · exact absurd h hna

end Updates

end Dir

end IndimailMta.Directories
