import Mathlib.Data.List.Basic

/-!
# Lines and fields

A text is cut into lines, each with the newline that ends it, and a line into fields, each
without the mark that ends it. The last line of a text may be without its newline.
-/

namespace IndimailMta.Lines

variable {α : Type} [DecidableEq α] {nl z : α} {s t : List α}

/-- The lines of a text. -/
def lines (nl : α) : List α → List (List α)
  | [] => []
  | b :: rest =>
      if b = nl then [b] :: lines nl rest
      else
        match lines nl rest with
        | [] => [[b]]
        | l :: ls => (b :: l) :: ls

@[simp] theorem lines_nil : lines nl [] = [] := rfl

/-- A line is cut off. -/
theorem lines_append (h : nl ∉ s) : lines nl (s ++ nl :: t) = (s ++ [nl]) :: lines nl t := by
  induction s with
  | nil => simp [lines]
  | cons b s ih =>
      simp only [List.mem_cons, not_or] at h
      rw [List.cons_append, lines, if_neg (Ne.symm h.1), ih h.2, List.cons_append]

/-- A text that was put together from lines. -/
theorem lines_flatMap {β : Type} {f : β → List α} {xs : List β} (h : ∀ x ∈ xs, nl ∉ f x) :
    lines nl (xs.flatMap fun x => f x ++ [nl]) = xs.map fun x => f x ++ [nl] := by
  induction xs with
  | nil => rfl
  | cons x xs ih =>
      rw [List.flatMap_cons, List.append_assoc, List.singleton_append,
        lines_append (h x List.mem_cons_self), ih fun y hy => h y (List.mem_cons_of_mem _ hy),
        List.map_cons]

theorem ne_nil_of_mem_lines {l : List α} (h : l ∈ lines nl s) : l ≠ [] := by
  induction s generalizing l with
  | nil => exact absurd h List.not_mem_nil
  | cons b s ih =>
      rw [lines] at h
      split at h
      · rcases List.mem_cons.mp h with rfl | h
        · exact List.cons_ne_nil _ _
        · exact ih h
      · cases hl : lines nl s with
        | nil =>
            rw [hl] at h
            rw [List.mem_singleton.mp h]
            exact List.cons_ne_nil _ _
        | cons m ms =>
            rw [hl] at h ih
            rcases List.mem_cons.mp h with rfl | h
            · exact List.cons_ne_nil _ _
            · exact ih (List.mem_cons_of_mem m h)

/-- The first field of a text, and what is after its mark. -/
def field (z : α) : List α → Option (List α × List α)
  | [] => none
  | b :: rest =>
      if b = z then some ([], rest) else (field z rest).map fun p => (b :: p.1, p.2)

/-- A field is cut off. -/
theorem field_append (h : z ∉ s) : field z (s ++ z :: t) = some (s, t) := by
  induction s with
  | nil => simp [field]
  | cons b s ih =>
      simp only [List.mem_cons, not_or] at h
      rw [List.cons_append, field, if_neg (Ne.symm h.1), ih h.2]
      rfl

/-! ## All fields of a text -/

/-- The fields of a text that have their mark; what is after the last mark is none. -/
def fields (z : α) : List α → List (List α)
  | [] => []
  | b :: rest =>
      if b = z then [] :: fields z rest
      else
        match fields z rest with
        | [] => []
        | l :: ls => (b :: l) :: ls

@[simp] theorem fields_nil : fields z [] = [] := rfl

@[simp] theorem fields_mark : fields z (z :: t) = [] :: fields z t := by
  rw [fields, if_pos rfl]

theorem fields_eq_nil (h : z ∉ s) : fields z s = [] := by
  induction s with
  | nil => rfl
  | cons b s ih =>
      simp only [List.mem_cons, not_or] at h
      rw [fields, if_neg (Ne.symm h.1), ih h.2]

theorem fields_append (h : z ∉ s) : fields z (s ++ z :: t) = s :: fields z t := by
  induction s with
  | nil => exact fields_mark
  | cons b s ih =>
      simp only [List.mem_cons, not_or] at h
      rw [List.cons_append, fields, if_neg (Ne.symm h.1), ih h.2]

/-- A text whose last field has its mark is put together from its fields. -/
theorem flatMap_fields (s : List α) :
    ((fields z (s ++ [z])).flatMap fun x => x ++ [z]) = s ++ [z] := by
  induction s with
  | nil => simp
  | cons b s ih =>
      rw [List.cons_append, fields]
      by_cases hb : b = z
      · rw [if_pos hb, List.flatMap_cons, ih, hb]
        rfl
      · rw [if_neg hb]
        cases hf : fields z (s ++ [z]) with
        | nil =>
            rw [hf] at ih
            simp at ih
        | cons x xs =>
            rw [hf] at ih
            rw [List.flatMap_cons] at ih ⊢
            rw [← ih]
            rfl

/-- A text whose last line has its newline: the lines without it are the fields. -/
theorem map_dropLast_lines (s : List α) :
    (lines z (s ++ [z])).map List.dropLast = fields z (s ++ [z]) := by
  induction s with
  | nil => simp [lines, fields]
  | cons b s ih =>
      rw [List.cons_append, lines, fields]
      by_cases hb : b = z
      · rw [if_pos hb, if_pos hb, List.map_cons, ih]
        rfl
      · rw [if_neg hb, if_neg hb, ← ih]
        cases hl : lines z (s ++ [z]) with
        | nil =>
            have hput := flatMap_fields (z := z) s
            rw [← ih, hl] at hput
            simp at hput
        | cons l ls =>
            have hne : l ≠ [] := ne_nil_of_mem_lines (hl ▸ List.mem_cons_self)
            rw [List.map_cons, List.map_cons, List.dropLast_cons_of_ne_nil hne]

theorem mem_of_mem_fields {x : List α} {b : α} (h : x ∈ fields z s) (hb : b ∈ x) : b ∈ s := by
  induction s generalizing x with
  | nil => exact absurd h List.not_mem_nil
  | cons c s ih =>
      rw [fields] at h
      split at h
      · rcases List.mem_cons.mp h with rfl | h
        · exact absurd hb List.not_mem_nil
        · exact List.mem_cons_of_mem c (ih h hb)
      · cases hf : fields z s with
        | nil =>
            rw [hf] at h
            exact absurd h List.not_mem_nil
        | cons l ls =>
            rw [hf] at h ih
            rcases List.mem_cons.mp h with rfl | h
            · rcases List.mem_cons.mp hb with rfl | hb
              · exact List.mem_cons_self
              · exact List.mem_cons_of_mem c (ih List.mem_cons_self hb)
            · exact List.mem_cons_of_mem c (ih (List.mem_cons_of_mem l h) hb)

theorem notMem_of_mem_fields {x : List α} (h : x ∈ fields z s) : z ∉ x := by
  induction s generalizing x with
  | nil => exact absurd h List.not_mem_nil
  | cons b s ih =>
      rw [fields] at h
      split at h
      · rcases List.mem_cons.mp h with rfl | h
        · exact List.not_mem_nil
        · exact ih h
      · rename_i hb
        cases hf : fields z s with
        | nil =>
            rw [hf] at h
            exact absurd h List.not_mem_nil
        | cons l ls =>
            rw [hf] at h ih
            rcases List.mem_cons.mp h with rfl | h
            · rw [List.mem_cons, not_or]
              exact ⟨Ne.symm hb, ih List.mem_cons_self⟩
            · exact ih (List.mem_cons_of_mem l h)

/-! ## What is after the last mark -/

/-- What is after the last mark. -/
def rest (z : α) : List α → List α
  | [] => []
  | b :: t => if b = z ∨ z ∈ t then rest z t else b :: t

theorem rest_append (h : z ∉ s) : rest z (s ++ z :: t) = rest z t := by
  induction s with
  | nil => rw [List.nil_append, rest, if_pos (.inl rfl)]
  | cons b s ih =>
      rw [List.mem_cons, not_or] at h
      rw [List.cons_append, rest, if_pos (.inr (List.mem_append_right s List.mem_cons_self)), ih h.2]

theorem rest_of_notMem (h : z ∉ s) : rest z s = s := by
  cases s with
  | nil => rfl
  | cons b s =>
      rw [List.mem_cons, not_or] at h
      rw [rest, if_neg]
      rintro (hb | hs)
      · exact h.1 hb.symm
      · exact h.2 hs

/-- **A text is cut anywhere**: the field in which it is cut goes on. -/
theorem fields_append_rest (s t : List α) :
    fields z (s ++ t) = fields z s ++ fields z (rest z s ++ t) ∧
      rest z (s ++ t) = rest z (rest z s ++ t) := by
  induction s with
  | nil => exact ⟨rfl, rfl⟩
  | cons b s ih =>
      obtain ⟨hf, hr⟩ := ih
      by_cases hb : b = z
      · subst hb
        rw [List.cons_append, fields_mark, fields_mark, rest, if_pos (.inl rfl), rest,
          if_pos (.inl rfl), hf, hr]
        exact ⟨rfl, rfl⟩
      · by_cases hs : z ∈ s
        · have hst : z ∈ s ++ t := List.mem_append_left t hs
          rw [List.cons_append, rest, if_pos (.inr hs), rest, if_pos (.inr hst)]
          refine ⟨?_, hr⟩
          rw [fields, if_neg hb, hf, fields, if_neg hb]
          cases hfs : fields z s with
          | nil =>
              obtain ⟨u, v, rfl, hu⟩ := List.eq_append_cons_of_mem hs
              rw [fields_append hu] at hfs
              cases hfs
          | cons x xs => rfl
        · have hnone : z ∉ b :: s := by
            rw [List.mem_cons, not_or]
            exact ⟨Ne.symm hb, hs⟩
          rw [rest_of_notMem hnone, fields_eq_nil hnone, List.nil_append]
          exact ⟨rfl, rfl⟩

/-- Fields that are put in front of a text. -/
theorem fields_flatMap_append {β : Type} {f : β → List α} {xs : List β} (h : ∀ x ∈ xs, z ∉ f x) :
    fields z ((xs.flatMap fun x => f x ++ [z]) ++ t) = xs.map f ++ fields z t := by
  induction xs with
  | nil => rfl
  | cons x xs ih =>
      have hrest := ih fun y hy => h y (List.mem_cons_of_mem _ hy)
      rw [List.flatMap_cons, List.append_assoc, List.append_assoc, List.singleton_append,
        fields_append (h x List.mem_cons_self), hrest]
      rfl

end IndimailMta.Lines
