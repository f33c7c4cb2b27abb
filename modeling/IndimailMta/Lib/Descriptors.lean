import Mathlib.Data.List.Nodup
import Mathlib.Data.List.Perm.Subperm
import Mathlib.Data.List.Range

/-!
# The descriptor table of a process

A process holds files open under small numbers. A file that is opened gets the lowest number
that is free, and a number that is closed is free again: a program that closes a number it no
longer holds closes whatever was opened under that number since.
-/

namespace IndimailMta.Descriptors

/-- The open descriptors, each with what it is open on. -/
abbrev Table (φ : Type*) := List (Nat × φ)

variable {φ : Type*} {t : Table φ} {f : φ} {n : Nat}

def numbers (t : Table φ) : List Nat := t.map Prod.fst

/-- The lowest number that is free. -/
def lowest (t : Table φ) : Nat :=
  ((List.range (t.length + 1)).find? fun n => n ∉ numbers t).getD 0

/-- Open a file. -/
def openOn (t : Table φ) (f : φ) : Table φ := (lowest t, f) :: t

/-- Close a number. -/
def close (t : Table φ) (n : Nat) : Table φ := t.filter fun e => e.1 ≠ n

/-- The file is held open under some number. -/
def Holds (t : Table φ) (f : φ) : Prop := ∃ n, (n, f) ∈ t

theorem exists_free (t : Table φ) : ∃ n ∈ List.range (t.length + 1), n ∉ numbers t := by
  by_contra hall
  push Not at hall
  have hle := (List.subperm_of_subset List.nodup_range hall).length_le
  rw [List.length_range, numbers, List.length_map] at hle
  omega

/-- **A new descriptor has a number of its own.** -/
theorem lowest_free (t : Table φ) : lowest t ∉ numbers t := by
  obtain ⟨n, hn, hfree⟩ := exists_free t
  cases hfind : (List.range (t.length + 1)).find? fun n => n ∉ numbers t with
  | none =>
      have hno := List.find?_eq_none.mp hfind n hn
      simp only [decide_eq_true_eq, not_not] at hno
      exact absurd hno hfree
  | some k =>
      have hk := List.find?_some hfind
      simp only [decide_eq_true_eq] at hk
      rw [lowest, hfind]
      exact hk

theorem mem_openOn {e : Nat × φ} : e ∈ openOn t f ↔ e = (lowest t, f) ∨ e ∈ t :=
  List.mem_cons

theorem mem_close {e : Nat × φ} : e ∈ close t n ↔ e ∈ t ∧ e.1 ≠ n := by
  rw [close, List.mem_filter, decide_eq_true_iff]

theorem mem_numbers {e : Nat × φ} (h : e ∈ t) : e.1 ∈ numbers t := List.mem_map_of_mem h

theorem nodup_openOn (h : (numbers t).Nodup) : (numbers (openOn t f)).Nodup :=
  List.nodup_cons.mpr ⟨lowest_free t, h⟩

theorem nodup_close (h : (numbers t).Nodup) : (numbers (close t n)).Nodup :=
  h.sublist (List.filter_sublist.map _)

/-- A number is open on one file. -/
theorem eq_of_mem {f' : φ} (h : (numbers t).Nodup) (hf : (n, f) ∈ t) (hf' : (n, f') ∈ t) :
    f = f' := by
  induction t with
  | nil => cases hf
  | cons e t ih =>
      obtain ⟨hn, ht⟩ := List.nodup_cons.mp h
      rcases List.mem_cons.mp hf with rfl | hm
      · rcases List.mem_cons.mp hf' with heq | hm'
        · exact (Prod.mk.inj heq).2.symm
        · exact absurd (mem_numbers hm') hn
      · rcases List.mem_cons.mp hf' with rfl | hm'
        · exact absurd (mem_numbers hm) hn
        · exact ih ht hm hm'

end IndimailMta.Descriptors
