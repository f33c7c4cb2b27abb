import IndimailMta.Lib.SwapRemove

/-!
# Tables with keys

A table is an array whose entries have keys. An entry is searched for from the front, replaced where
it is or put behind the others, and removed by moving the last entry to its place.
-/

namespace IndimailMta.Keyed

open SwapRemove

variable {α β κ : Type} [DecidableEq κ] {key : α → κ} {l : List α} {x y : α} {k k' : κ} {i : Nat}

/-- The place of an entry. -/
def find (key : α → κ) (k : κ) (l : List α) : Option Nat := l.findIdx? fun x => key x = k

/-- The entry with a key. -/
def get (key : α → κ) (k : κ) (l : List α) : Option α := (find key k l).bind fun i => l[i]?

/-- The table with `x` in the place of the entry that has its key. -/
def put (key : α → κ) (x : α) (l : List α) : List α :=
  match find key (key x) l with
  | some i => l.set i x
  | none => l ++ [x]

/-- The table without the entry. -/
def kill (key : α → κ) (k : κ) (l : List α) : List α :=
  match find key k l with
  | some i => swapRemove l i
  | none => l

/-- The table with another entry of the same key. -/
def update (key : α → κ) (k : κ) (f : α → α) (l : List α) : List α :=
  match find key k l with
  | some i => l.modify i f
  | none => l

/-! ## What is found -/

theorem find_some (h : find key k l = some i) : ∃ x, l[i]? = some x ∧ key x = k := by
  obtain ⟨hi, hk, -⟩ := List.findIdx?_eq_some_iff_getElem.mp h
  exact ⟨l[i], List.getElem?_eq_getElem hi, of_decide_eq_true hk⟩

theorem find_eq_none_iff : find key k l = none ↔ k ∉ l.map key := by
  rw [find, List.findIdx?_eq_none_iff]
  simp [List.mem_map]

theorem get_of_find (h : find key k l = some i) : get key k l = l[i]? := by
  rw [get, h]
  rfl

theorem get_eq_getD [Inhabited α] (h : find key k l = some i) :
    get key k l = some (l.getD i default) := by
  obtain ⟨x, hx, -⟩ := find_some h
  rw [get_of_find h, List.getD_eq_getElem?_getD, hx]
  rfl

theorem get_some (h : get key k l = some x) : x ∈ l ∧ key x = k := by
  obtain ⟨i, hi, hx⟩ := Option.bind_eq_some_iff.mp h
  obtain ⟨y, hy, hk⟩ := find_some hi
  obtain rfl : y = x := Option.some.inj (hy.symm.trans hx)
  exact ⟨List.mem_of_getElem? hy, hk⟩

theorem get_eq_none_iff : get key k l = none ↔ k ∉ l.map key := by
  rw [← find_eq_none_iff, get]
  cases h : find key k l with
  | none => simp
  | some i =>
      obtain ⟨x, hx, -⟩ := find_some h
      simp [hx]

theorem put_of_notMem (h : key x ∉ l.map key) : put key x l = l ++ [x] := by
  rw [put, find_eq_none_iff.mpr h]

theorem kill_of_notMem (h : k ∉ l.map key) : kill key k l = l := by
  rw [kill, find_eq_none_iff.mpr h]

/-- The entry that was put last is changed. -/
theorem update_concat {f : α → α} (h : key x ∉ l.map key) :
    update key (key x) f (l ++ [x]) = l ++ [f x] := by
  have hfind : find key (key x) (l ++ [x]) = some l.length := by
    rw [find, List.findIdx?_append]
    rw [← find_eq_none_iff, find] at h
    simp [h, List.findIdx?_cons]
  have hx : (l ++ [x])[l.length]? = some x := List.getElem?_concat_length
  have hset : (l ++ [x]).set l.length (f x) = l ++ [f x] := by
    rw [List.set_append_right _ _ (Nat.le_refl _), Nat.sub_self, List.set_cons_zero]
  rw [update, hfind]
  dsimp only
  rw [List.modify_eq_set_getElem?, hx]
  exact hset

/-! ## Keys -/

omit [DecidableEq κ] in
theorem map_key_set (hx : l[i]? = some x) {y : α} (hy : key y = key x) :
    (l.set i y).map key = l.map key := by
  apply List.ext_getElem?
  intro j
  rw [List.getElem?_map, List.getElem?_map]
  by_cases hj : i = j
  · subst hj
    rw [List.getElem?_set_self (List.getElem?_eq_some_iff.mp hx).1, hx]
    exact congrArg some hy
  · rw [List.getElem?_set_ne hj]

theorem map_key_put (key : α → κ) (x : α) (l : List α) :
    (put key x l).map key = if key x ∈ l.map key then l.map key else l.map key ++ [key x] := by
  rw [put]
  cases h : find key (key x) l with
  | none =>
      have hnot := find_eq_none_iff.mp h
      rw [if_neg hnot, List.map_append]
      rfl
  | some i =>
      obtain ⟨y, hy, hkey⟩ := find_some h
      have hmem : key x ∈ l.map key := hkey ▸ List.mem_map_of_mem (List.mem_of_getElem? hy)
      rw [if_pos hmem]
      exact map_key_set hy hkey.symm

theorem mem_keys_put : k ∈ (put key x l).map key ↔ k = key x ∨ k ∈ l.map key := by
  rw [map_key_put]
  split
  · rename_i h
    constructor
    · exact .inr
    · rintro (rfl | hk)
      · exact h
      · exact hk
  · rw [List.mem_append, List.mem_singleton, or_comm]

theorem nodup_put (x : α) (h : (l.map key).Nodup) : ((put key x l).map key).Nodup := by
  rw [map_key_put]
  split
  · exact h
  · rename_i hnot
    exact List.nodup_append.mpr ⟨h, List.pairwise_singleton _ _, fun a ha b hb hab =>
      hnot (List.mem_singleton.mp hb ▸ hab ▸ ha)⟩

/-- What is killed, and what is left. -/
theorem kill_perm (h : k ∈ l.map key) : ∃ x, key x = k ∧ (x :: kill key k l).Perm l := by
  rw [kill]
  cases hf : find key k l with
  | none => exact absurd h (find_eq_none_iff.mp hf)
  | some i =>
      obtain ⟨x, hx, hkey⟩ := find_some hf
      exact ⟨x, hkey, swapRemove_perm hx⟩

theorem mem_of_mem_kill (h : x ∈ kill key k l) : x ∈ l := by
  by_cases hk : k ∈ l.map key
  · obtain ⟨y, -, hperm⟩ := kill_perm hk
    exact hperm.mem_iff.mp (List.mem_cons_of_mem y h)
  · rwa [kill_of_notMem hk] at h

theorem nodup_kill (k : κ) (h : (l.map key).Nodup) : ((kill key k l).map key).Nodup := by
  by_cases hk : k ∈ l.map key
  · obtain ⟨y, -, hperm⟩ := kill_perm hk
    exact (List.nodup_cons.mp ((hperm.map key).nodup_iff.mpr h)).2
  · rwa [kill_of_notMem hk]

/-- Where the keys differ, the entry that is killed was the only one. -/
theorem mem_keys_kill (h : (l.map key).Nodup) :
    k' ∈ (kill key k l).map key ↔ k' ∈ l.map key ∧ k' ≠ k := by
  by_cases hk : k ∈ l.map key
  · obtain ⟨y, rfl, hperm⟩ := kill_perm hk
    have hkeys := hperm.map key
    have hnot := (List.nodup_cons.mp (hkeys.nodup_iff.mpr h)).1
    rw [← hkeys.mem_iff, List.map_cons, List.mem_cons]
    constructor
    · exact fun hmem => ⟨.inr hmem, fun he => hnot (he ▸ hmem)⟩
    · exact fun hmem => hmem.1.resolve_left hmem.2
  · rw [kill_of_notMem hk]
    exact ⟨fun hmem => ⟨hmem, fun he => hk (he ▸ hmem)⟩, And.left⟩

theorem mem_put (h : x ∈ put key y l) : x = y ∨ x ∈ l := by
  rw [put] at h
  cases hf : find key (key y) l with
  | none =>
      rw [hf] at h
      rcases List.mem_append.mp h with h | h
      · exact .inr h
      · exact .inl (List.mem_singleton.mp h)
  | some i =>
      rw [hf] at h
      rcases List.mem_or_eq_of_mem_set h with h | h
      · exact .inr h
      · exact .inl h

theorem mem_update {f : α → α} (h : x ∈ update key k f l) : x ∈ l ∨ ∃ y ∈ l, x = f y := by
  rw [update] at h
  cases hf : find key k l with
  | none =>
      rw [hf] at h
      exact .inl h
  | some i =>
      rw [hf] at h
      obtain ⟨y, hy, -⟩ := find_some hf
      dsimp only at h
      rw [List.modify_eq_set_getElem?, hy] at h
      rcases List.mem_or_eq_of_mem_set h with h | h
      · exact .inl h
      · exact .inr ⟨y, List.mem_of_getElem? hy, h⟩

theorem map_key_update {f : α → α} (hf : ∀ x, key (f x) = key x) :
    (update key k f l).map key = l.map key := by
  rw [update]
  cases h : find key k l with
  | none => rfl
  | some i =>
      obtain ⟨y, hy, -⟩ := find_some h
      dsimp only
      rw [List.modify_eq_set_getElem?, hy]
      exact map_key_set hy (hf y)

/-! ## Entries that are read -/

section Map

variable (key : α → κ) (key' : β → κ) (g : α → β)

theorem find_map (hg : ∀ x, key' (g x) = key x) : find key' k (l.map g) = find key k l := by
  rw [find, find, List.findIdx?_map]
  simp [Function.comp_def, hg]

/-- What is found depends on the keys. -/
theorem find_congr {l' : List α} (h : l'.map key = l.map key) : find key k l' = find key k l := by
  rw [← find_map key id key fun _ => rfl, ← find_map key id key fun _ => rfl, h]

theorem get_map (hg : ∀ x, key' (g x) = key x) : get key' k (l.map g) = (get key k l).map g := by
  rw [get, get, find_map key key' g hg]
  cases find key k l with
  | none => rfl
  | some i => exact List.getElem?_map

theorem map_put (hg : ∀ x, key' (g x) = key x) :
    (put key x l).map g = put key' (g x) (l.map g) := by
  rw [put, put, hg, find_map key key' g hg]
  cases find key (key x) l with
  | none => exact List.map_append
  | some i => exact List.map_set

theorem map_kill (hg : ∀ x, key' (g x) = key x) :
    (kill key k l).map g = kill key' k (l.map g) := by
  rw [kill, kill, find_map key key' g hg]
  cases find key k l with
  | none => rfl
  | some i => exact map_swapRemove g l i

theorem map_update {f : α → α} {f' : β → β} (hg : ∀ x, key' (g x) = key x)
    (hf : ∀ x, g (f x) = f' (g x)) : (update key k f l).map g = update key' k f' (l.map g) := by
  rw [update, update, find_map key key' g hg]
  cases find key k l with
  | none => rfl
  | some i =>
      apply List.ext_getElem?
      intro j
      by_cases hj : i = j
      · subst hj
        cases hx : l[i]? with
        | none => simp [hx]
        | some x => simp [hx, hf]
      · simp [hj]

end Map

end IndimailMta.Keyed
