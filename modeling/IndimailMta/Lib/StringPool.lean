import Mathlib.Data.List.Basic

/-!
# Texts in a pool

A pool holds texts, each with a mark that ends it, and a text is known by its offset. A pool only
grows at its end, so a text stays where it is. When it has too many texts that nobody knows any
more, those that are known are put into a new pool, each under a new offset.
-/

namespace IndimailMta.StringPool

variable {α : Type} {z : α} {pool pool' s t u : List α} {off : Nat}

/-- A text is put behind the others. -/
def add (z : α) (pool t : List α) : List α := pool ++ t ++ [z]

/-- A text begins at the offset, and ends inside of the pool. -/
def Held (z : α) (pool : List α) (off : Nat) : Prop := z ∈ pool.drop off

theorem Held.lt (h : Held z pool off) : off < pool.length := by
  by_contra hle
  rw [Held, List.drop_eq_nil_of_le (Nat.le_of_not_lt hle)] at h
  exact List.not_mem_nil h

theorem prefix_add (z : α) (pool t : List α) : pool <+: add z pool t :=
  ⟨t ++ [z], by rw [add, List.append_assoc]⟩

theorem held_add (z : α) (pool t : List α) : Held z (add z pool t) pool.length := by
  rw [Held, add, List.append_assoc, List.drop_left]
  exact List.mem_append_right t List.mem_cons_self

/-- A pool that grows still holds what it held. -/
theorem Held.mono (h : Held z pool off) (hle : pool <+: pool') : Held z pool' off := by
  obtain ⟨u, rfl⟩ := hle
  rw [Held, List.drop_append_of_le_length (Nat.le_of_lt h.lt)]
  exact List.mem_append_left u h

section Text

variable [DecidableEq α]

/-- The text at an offset. -/
def text (z : α) (pool : List α) (off : Nat) : List α := (pool.drop off).takeWhile (· ≠ z)

theorem notMem_text (z : α) (pool : List α) (off : Nat) : z ∉ text z pool off := by
  intro h
  simpa using List.all_eq_true.mp List.all_takeWhile z h

/-- A text ends at its mark. -/
theorem takeWhile_mark (h : z ∉ t) (u : List α) : (t ++ z :: u).takeWhile (· ≠ z) = t := by
  have ht : ∀ x ∈ t, decide (x ≠ z) = true := by
    rintro x hx
    exact decide_eq_true fun hz => h (hz ▸ hx)
  rw [List.takeWhile_append_of_pos ht]
  simp

theorem takeWhile_append (h : z ∈ s) (u : List α) :
    (s ++ u).takeWhile (· ≠ z) = s.takeWhile (· ≠ z) := by
  obtain ⟨a, b, rfl, ha⟩ := List.eq_append_cons_of_mem h
  rw [List.append_assoc, List.cons_append, takeWhile_mark ha, takeWhile_mark ha]

/-- A pool that grows has the same texts. -/
theorem Held.text_eq (h : Held z pool off) (hle : pool <+: pool') :
    text z pool' off = text z pool off := by
  obtain ⟨u, rfl⟩ := hle
  rw [text, text, List.drop_append_of_le_length (Nat.le_of_lt h.lt)]
  exact takeWhile_append h u

/-- **A text is found where it was put**, whatever is put behind it. -/
theorem text_of_add (h : z ∉ t) (hle : add z pool t <+: pool') : text z pool' pool.length = t := by
  rw [(held_add z pool t).text_eq hle, text, add, List.append_assoc, List.drop_left]
  exact takeWhile_mark h []

end Text

end IndimailMta.StringPool
