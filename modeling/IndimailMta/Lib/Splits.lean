import Mathlib.Data.List.DropRight

/-!
# Parts between separators

A list is cut at the elements that satisfy a predicate, and its parts are joined by one separator.
The last part is what follows the last of these elements. The parts that are not empty are the words
of the list, and what is between them are runs of separators.
-/

namespace IndimailMta.Lib.Splits

variable {α : Type*} {p : α → Bool}

theorem intercalate_concat {sep l : List α} {ls : List (List α)} (h : ls ≠ []) :
    sep.intercalate (ls ++ [l]) = sep.intercalate ls ++ sep ++ l := by
  induction ls with
  | nil => exact (h rfl).elim
  | cons k ls ih =>
      by_cases hls : ls = []
      · rw [hls]
        simp [List.intercalate]
      · rw [List.cons_append, List.intercalate_cons_of_ne_nil (by simp), ih hls,
          List.intercalate_cons_of_ne_nil hls]
        simp only [List.append_assoc]

/-- The parts, in reverse order. -/
theorem intercalate_reverse_concat {sep l : List α} {ls : List (List α)} (h : ls ≠ []) :
    sep.intercalate (ls ++ [l]).reverse = l ++ sep ++ sep.intercalate ls.reverse := by
  have hne : ls.reverse ≠ [] := by simpa using h
  rw [List.reverse_append, List.reverse_singleton, List.singleton_append,
    List.intercalate_cons_of_ne_nil hne]

/-- No separator but the last: the parts of what is in front of it, and what is behind it. -/
theorem splitOnP_concat {w part : List α} {d : α} (hd : p d = true)
    (hpart : ∀ x ∈ part, p x = false) :
    (w ++ d :: part).splitOnP p = w.splitOnP p ++ [part] := by
  rw [List.splitOnP_append_cons _ _ hd, List.splitOnP_eq_singleton hpart]

/-- To replace the separators is to join the parts. -/
theorem map_replace (p : α → Bool) (c : α) (v : List α) :
    v.map (fun x => if p x then c else x) = [c].intercalate (v.splitOnP p) := by
  induction v with
  | nil => simp
  | cons x v ih =>
      have hne := List.splitOnP_ne_nil p v
      rw [List.map_cons, List.splitOnP_cons_eq_if_modifyHead, ih]
      by_cases hx : p x = true
      · rw [if_pos hx, if_pos hx, List.intercalate_cons_of_ne_nil hne]
        simp
      · rw [if_neg hx, if_neg hx]
        obtain ⟨k, ls, hls⟩ := List.exists_cons_of_ne_nil hne
        rw [hls, List.modifyHead_cons]
        cases ls <;> simp [List.intercalate]

/-- A list without separators is a part. -/
theorem map_replace_eq {c : α} {v : List α} (h : ∀ x ∈ v, p x = false) :
    v.map (fun x => if p x then c else x) = v := by
  rw [map_replace, List.splitOnP_eq_singleton h, List.intercalate_singleton]

/-- Nothing changes where every separator is `c` already. -/
theorem map_replace_eq_self_iff {c : α} {v : List α} :
    v.map (fun x => if p x then c else x) = v ↔ ∀ x ∈ v, p x = true → x = c := by
  induction v with
  | nil => simp
  | cons x v ih =>
      rw [List.map_cons, List.cons.injEq, ih, List.forall_mem_cons]
      by_cases hx : p x = true
      · rw [if_pos hx]
        exact and_congr_left' ⟨fun h _ => h.symm, fun h => (h hx).symm⟩
      · simp [hx]

/-! ## Runs -/

/-- A run ends at the first element that is not in it. -/
theorem takeWhile_stop {x y : List α} (hx : ∀ a ∈ x, p a = true) (hy : y.head?.any p = false) :
    (x ++ y).takeWhile p = x := by
  rw [List.takeWhile_append_of_pos hx]
  cases y with
  | nil => rw [List.takeWhile_nil, List.append_nil]
  | cons a y =>
      have ha : ¬ p a = true := by simpa using hy
      rw [List.takeWhile_cons_of_neg ha, List.append_nil]

theorem dropWhile_stop {x y : List α} (hx : ∀ a ∈ x, p a = true) (hy : y.head?.any p = false) :
    (x ++ y).dropWhile p = y := by
  rw [List.dropWhile_append_of_pos hx]
  cases y with
  | nil => rfl
  | cons a y =>
      have ha : ¬ p a = true := by simpa using hy
      exact List.dropWhile_cons_of_neg ha

/-- A list is cut at the first element of a kind in one way. -/
theorem cut_unique [DecidableEq α] {c : α} {u u' v v' : List α} (hu : c ∉ u) (hu' : c ∉ u')
    (h : u ++ c :: v = u' ++ c :: v') : u = u' ∧ v = v' := by
  have htake : ∀ {u v : List α}, c ∉ u → (u ++ c :: v).takeWhile (fun a => decide (a ≠ c)) = u :=
    fun hu => takeWhile_stop (fun a ha => decide_eq_true fun h => hu (h ▸ ha)) (by simp)
  have huu : u = u' := by rw [← htake hu, h, htake hu']
  subst huu
  exact ⟨rfl, (List.cons.inj (List.append_cancel_left h)).2⟩

theorem rdropWhile_stop {x y : List α} (hx : x.getLast?.any p = false) (hy : ∀ a ∈ y, p a = true) :
    (x ++ y).rdropWhile p = x := by
  rw [List.rdropWhile, List.reverse_append, dropWhile_stop, List.reverse_reverse]
  · exact fun a h => hy a (List.mem_reverse.mp h)
  · rw [List.head?_reverse]
    exact hx

theorem head_dropWhile (p : α → Bool) (s : List α) : (s.dropWhile p).head?.any p = false := by
  have h := List.head?_dropWhile_not p s
  cases hs : (s.dropWhile p).head? with
  | none => rfl
  | some a =>
      rw [hs] at h
      simpa using h

theorem getLast_rdropWhile (p : α → Bool) (s : List α) :
    (s.rdropWhile p).getLast?.any p = false := by
  rw [List.rdropWhile, List.getLast?_reverse]
  exact head_dropWhile p _

/-! ## Words -/

/-- The parts that are not empty. -/
def words (p : α → Bool) (s : List α) : List (List α) := (s.splitOnP p).filter fun w => !w.isEmpty

variable {a b : α} {s : List α}

@[simp] theorem words_nil : words p [] = [] := rfl

theorem words_cons_of_sep (h : p a = true) (s : List α) : words p (a :: s) = words p s := by
  rw [words, List.splitOnP_cons_eq_if_modifyHead, if_pos h]
  rfl

/-- A word that is over. -/
theorem words_cons_stop (ha : p a = false) (hs : s.head?.any (fun b => !p b) = false) :
    words p (a :: s) = [a] :: words p s := by
  rw [words, List.splitOnP_cons_eq_if_modifyHead, ha, if_neg Bool.false_ne_true]
  cases s with
  | nil => rfl
  | cons b s =>
      have hb : p b = true := by simpa using hs
      rw [words_cons_of_sep hb, words, List.splitOnP_cons_eq_if_modifyHead, if_pos hb]
      rfl

/-- A word that goes on. -/
theorem words_cons_go (ha : p a = false) (hb : p b = false) (s : List α) :
    ∃ w ws, words p (b :: s) = w :: ws ∧ words p (a :: b :: s) = (a :: w) :: ws := by
  obtain ⟨k, ls, hls⟩ := List.exists_cons_of_ne_nil (List.splitOnP_ne_nil p s)
  refine ⟨b :: k, ls.filter fun w => !w.isEmpty, ?_, ?_⟩
  · rw [words, List.splitOnP_cons_eq_if_modifyHead, hb, if_neg Bool.false_ne_true, hls]
    rfl
  · rw [words, List.splitOnP_cons_eq_if_modifyHead, ha, if_neg Bool.false_ne_true,
      List.splitOnP_cons_eq_if_modifyHead, hb, if_neg Bool.false_ne_true, hls]
    rfl

/-- A word in front. -/
theorem words_append_stop {x : List α} (hne : x ≠ []) (hx : ∀ a ∈ x, p a = false)
    (hs : s.head?.any (fun b => !p b) = false) : words p (x ++ s) = x :: words p s := by
  induction x with
  | nil => exact absurd rfl hne
  | cons a x ih =>
      have ha := hx a List.mem_cons_self
      cases x with
      | nil => exact words_cons_stop ha hs
      | cons b x =>
          have hb := hx b (List.mem_cons_of_mem a List.mem_cons_self)
          obtain ⟨w, ws, hbs, habs⟩ := words_cons_go ha hb (x ++ s)
          have hword := ih (List.cons_ne_nil b x) fun c hc => hx c (List.mem_cons_of_mem a hc)
          rw [List.cons_append, hbs] at hword
          obtain ⟨rfl, rfl⟩ := List.cons.inj hword
          exact habs

theorem mem_words {w : List α} (h : w ∈ words p s) : w ≠ [] ∧ ∀ a ∈ w, p a = false := by
  induction s generalizing w with
  | nil => exact absurd h List.not_mem_nil
  | cons a s ih =>
      cases ha : p a with
      | true =>
          rw [words_cons_of_sep ha] at h
          exact ih h
      | false =>
          by_cases hs : s.head?.any (fun b => !p b) = false
          · rw [words_cons_stop ha hs] at h
            rcases List.mem_cons.mp h with rfl | h
            · exact ⟨List.cons_ne_nil _ _, fun b hb => List.mem_singleton.mp hb ▸ ha⟩
            · exact ih h
          · cases s with
            | nil => exact absurd rfl hs
            | cons b s =>
                obtain ⟨v, ws, hb, hab⟩ := words_cons_go ha (by simpa using hs) s
                rw [hab] at h
                rw [hb] at ih
                rcases List.mem_cons.mp h with rfl | h
                · refine ⟨List.cons_ne_nil _ _, fun c hc => ?_⟩
                  rcases List.mem_cons.mp hc with rfl | hc
                  · exact ha
                  · exact (ih List.mem_cons_self).2 c hc
                · exact ih (List.mem_cons_of_mem _ h)

theorem mem_of_mem_words {w : List α} (h : w ∈ words p s) : ∀ a ∈ w, a ∈ s := by
  induction s generalizing w with
  | nil => exact absurd h List.not_mem_nil
  | cons a s ih =>
      cases ha : p a with
      | true =>
          rw [words_cons_of_sep ha] at h
          exact fun c hc => List.mem_cons_of_mem a (ih h c hc)
      | false =>
          by_cases hs : s.head?.any (fun b => !p b) = false
          · rw [words_cons_stop ha hs] at h
            rcases List.mem_cons.mp h with rfl | h
            · exact fun c hc => List.mem_singleton.mp hc ▸ List.mem_cons_self
            · exact fun c hc => List.mem_cons_of_mem a (ih h c hc)
          · cases s with
            | nil => exact absurd rfl hs
            | cons b s =>
                obtain ⟨v, ws, hb, hab⟩ := words_cons_go ha (by simpa using hs) s
                rw [hab] at h
                rw [hb] at ih
                rcases List.mem_cons.mp h with rfl | h
                · intro c hc
                  rcases List.mem_cons.mp hc with rfl | hc
                  · exact List.mem_cons_self
                  · exact List.mem_cons_of_mem a (ih List.mem_cons_self c hc)
                · exact fun c hc => List.mem_cons_of_mem a (ih (List.mem_cons_of_mem _ h) c hc)

theorem words_append_of_sep {x : List α} (h : ∀ a ∈ x, p a = true) (s : List α) :
    words p (x ++ s) = words p s := by
  induction x with
  | nil => rfl
  | cons a x ih =>
      rw [List.cons_append, words_cons_of_sep (h a List.mem_cons_self),
        ih fun b hb => h b (List.mem_cons_of_mem a hb)]

/-- Words are known from the text that is made of them with separators between. -/
theorem intercalate_inj [DecidableEq α] {c : α} {ws vs : List (List α)}
    (hws : ∀ w ∈ ws, w ≠ [] ∧ c ∉ w) (hvs : ∀ w ∈ vs, w ≠ [] ∧ c ∉ w)
    (h : [c].intercalate ws = [c].intercalate vs) : ws = vs := by
  have hnil : ∀ us : List (List α), (∀ w ∈ us, w ≠ [] ∧ c ∉ w) → [c].intercalate us = [] → us = [] := by
    intro us hus hempty
    cases us with
    | nil => rfl
    | cons u us =>
        have hsplit := List.splitOn_intercalate c (fun w hw => (hus w hw).2) (List.cons_ne_nil u us)
        rw [hempty, List.splitOn_nil] at hsplit
        exact absurd (List.cons.inj hsplit).1.symm (hus u List.mem_cons_self).1
  by_cases hne : ws = []
  · rw [hne] at h ⊢
    exact (hnil vs hvs h.symm).symm
  · have hne' : vs ≠ [] := fun hv => hne (hnil ws hws (by rw [h, hv]; rfl))
    rw [← List.splitOn_intercalate c (fun w hw => (hws w hw).2) hne, h,
      List.splitOn_intercalate c (fun w hw => (hvs w hw).2) hne']

end IndimailMta.Lib.Splits
