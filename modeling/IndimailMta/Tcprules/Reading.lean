import Mathlib.Data.List.Forall2
import IndimailMta.Lib.Splits
import IndimailMta.Tcprules.Manual

/-!
# A text is read in one way

The grammar of a line is not ambiguous: the address ends at the first colon that `allow` or `deny`
follows, an instruction at the next comma outside its quotes, and a range has one dash between two
numbers. So a text has its rules, and no others.
-/

namespace IndimailMta.Tcprules

open IndimailMta Lines Lib.Splits

variable {sc : Scanners} {a a' x line text : Bytes} {i i' : Instructions}

/-! ## Instructions -/

theorem OpsText.head {ops : List Op} (h : OpsText ops x) : x = [] ∨ x.head? = some 44 := by
  cases h with
  | nil => exact Or.inl rfl
  | cons h hr =>
      right
      cases h <;> rfl

/-- A setting has its `=` before a comma, a removal has none there. -/
theorem set_ne_unset {var var' more rest : Bytes} (hvar : 61 ∉ var ∧ 44 ∉ var)
    (hvar' : 61 ∉ var' ∧ 44 ∉ var') (hrest : rest = [] ∨ rest.head? = some 44) :
    var ++ 61 :: more ≠ 33 :: var' ++ rest := by
  intro h
  have hmark : ∀ b : Byte, decide (b ≠ 61 ∧ b ≠ 44) = true ↔ b ≠ 61 ∧ b ≠ 44 :=
    fun b => decide_eq_true_iff
  have hleft := @dropWhile_stop _ (fun b : Byte => decide (b ≠ 61 ∧ b ≠ 44)) var (61 :: more)
    (fun b hb => (hmark b).mpr ⟨fun h => hvar.1 (h ▸ hb), fun h => hvar.2 (h ▸ hb)⟩) (by simp)
  have hright := @dropWhile_stop _ (fun b : Byte => decide (b ≠ 61 ∧ b ≠ 44)) (33 :: var') rest
    (by
      intro b hb
      rw [hmark]
      rcases List.mem_cons.mp hb with rfl | hb
      · exact ⟨by decide, by decide⟩
      · exact ⟨fun h => hvar'.1 (h ▸ hb), fun h => hvar'.2 (h ▸ hb)⟩)
    (by rcases hrest with rfl | hrest <;> simp [*])
  rw [h, hright] at hleft
  rcases hrest with rfl | hrest
  · cases hleft
  · rw [hleft] at hrest
    exact absurd (Option.some.inj hrest) (by decide)

/-- The first instruction, and what is behind it. -/
theorem opText_unique {op op' : Op} {t t' rest rest' : Bytes} (h : OpText op t)
    (h' : OpText op' t') (hrest : rest = [] ∨ rest.head? = some 44)
    (hrest' : rest' = [] ∨ rest'.head? = some 44) (heq : t ++ rest = t' ++ rest') :
    op = op' ∧ rest = rest' := by
  cases h with
  | @set var value q hvar hq =>
      cases h' with
      | @set var' value' q' hvar' hq' =>
          have hcut : var ++ 61 :: (q :: (value ++ q :: rest)) =
              var' ++ 61 :: (q' :: (value' ++ q' :: rest')) := by
            simpa using heq
          obtain ⟨rfl, htail⟩ := cut_unique hvar.1 hvar'.1 hcut
          obtain ⟨rfl, htail⟩ := List.cons.inj htail
          obtain ⟨rfl, rfl⟩ := cut_unique hq hq' htail
          exact ⟨rfl, rfl⟩
      | @unset var' hne hvar' =>
          have hcut : var ++ 61 :: (q :: (value ++ q :: rest)) = 33 :: var' ++ rest' := by
            simpa using heq
          exact absurd hcut (set_ne_unset hvar hvar' hrest')
  | @unset var hne hvar =>
      cases h' with
      | @set var' value' q' hvar' hq' =>
          have hcut : var' ++ 61 :: (q' :: (value' ++ q' :: rest')) = 33 :: var ++ rest := by
            simpa using heq.symm
          exact absurd hcut (set_ne_unset hvar' hvar hrest)
      | @unset var' hne' hvar' =>
          have hcut : var ++ rest = var' ++ rest' := by
            simpa using heq
          have hname : ∀ {v r : Bytes}, 61 ∉ v ∧ 44 ∉ v → r = [] ∨ r.head? = some 44 →
              (v ++ r).takeWhile (fun b => decide (b ≠ 44)) = v := by
            intro v r hv hr
            apply takeWhile_stop
            · exact fun b hb => decide_eq_true fun h => hv.2 (h ▸ hb)
            · rcases hr with rfl | hr <;> simp [*]
          have hvv : var = var' := by
            rw [← hname hvar hrest, hcut, hname hvar' hrest']
          subst hvv
          exact ⟨rfl, List.append_cancel_left hcut⟩

theorem opsText_unique {ops ops' : List Op} (h : OpsText ops x) (h' : OpsText ops' x) :
    ops = ops' := by
  induction h generalizing ops' with
  | nil =>
      generalize hx : ([] : Bytes) = y at h'
      cases h' with
      | nil => rfl
      | cons hop hr =>
          cases hop <;> simp at hx
  | @cons op ops t rest hop hr ih =>
      generalize hx : t ++ rest = y at h'
      cases h' with
      | nil => cases hop <;> simp at hx
      | @cons op' ops' t' rest' hop' hr' =>
          obtain ⟨rfl, rfl⟩ := opText_unique hop hop' hr.head hr'.head hx
          rw [ih hr']

/-! ## Lines -/

/-- `allow` or `deny`. -/
def verb (i : Instructions) : Bytes := if i.deny then deny else allow

theorem verbAt_verb (i : Instructions) (t : Bytes) : verbAt (verb i ++ t) = true := by
  rw [verbAt, verb, Bool.or_eq_true, List.isPrefixOf_iff_prefix, List.isPrefixOf_iff_prefix]
  split
  · exact Or.inl (List.prefix_append _ _)
  · exact Or.inr (List.prefix_append _ _)

theorem verbAt_of_eq {t s : Bytes} (h : verb i ++ t = s) : verbAt s = true := h ▸ verbAt_verb i t

theorem verb_unique {t t' : Bytes} (h : verb i ++ t = verb i' ++ t') :
    i.deny = i'.deny ∧ t = t' := by
  have hhead : (verb i ++ t).head? = (verb i' ++ t').head? := congrArg List.head? h
  rw [verb, verb] at h hhead
  cases hd : i.deny <;> cases hd' : i'.deny <;> rw [hd, hd'] at h hhead
  · exact ⟨rfl, List.append_cancel_left h⟩
  · exact absurd (Option.some.inj hhead) (by decide)
  · exact absurd (Option.some.inj hhead) (by decide)
  · exact ⟨rfl, List.append_cancel_left h⟩

theorem lineText_unique (h : LineText a i x) (h' : LineText a' i' x) : a = a' ∧ i = i' := by
  obtain ⟨t, ht, hx, hfirst⟩ := h
  obtain ⟨t', ht', hx', hfirst'⟩ := h'
  have heq : a ++ 58 :: (verb i ++ t) = a' ++ 58 :: (verb i' ++ t') := hx.symm.trans hx'
  have haa : a = a' := by
    rcases List.append_eq_append_iff.mp heq with ⟨w, hw, hrest⟩ | ⟨w, hw, hrest⟩
    · cases w with
      | nil => rw [hw, List.append_nil]
      | cons c q =>
          -- the second address would go on behind a colon that is followed by a verb
          obtain ⟨rfl, hq⟩ := List.cons.inj hrest
          have hno : verbAt (q ++ 58 :: (verb i' ++ t')) = false := hfirst' a q hw
          have hyes : verbAt (q ++ 58 :: (verb i' ++ t')) = true := verbAt_of_eq hq
          rw [hyes] at hno
          cases hno
    · cases w with
      | nil => rw [hw, List.append_nil]
      | cons c q =>
          obtain ⟨rfl, hq⟩ := List.cons.inj hrest
          have hno : verbAt (q ++ 58 :: (verb i ++ t)) = false := hfirst a' q hw
          have hyes : verbAt (q ++ 58 :: (verb i ++ t)) = true := verbAt_of_eq hq
          rw [hyes] at hno
          cases hno
  subst haa
  obtain ⟨-, hverb⟩ := List.cons.inj (List.append_cancel_left heq)
  obtain ⟨hdeny, rfl⟩ := verb_unique hverb
  refine ⟨rfl, ?_⟩
  cases i
  cases i'
  rw [Instructions.mk.injEq]
  exact ⟨hdeny, opsText_unique ht ht'⟩

/-! ## Ranges -/

theorem isRange_unique {pre lo hi post pre' lo' hi' post' : Bytes} (h : IsRange a pre lo hi post)
    (h' : IsRange a pre' lo' hi' post') : pre = pre' ∧ lo = lo' ∧ hi = hi' ∧ post = post' := by
  have hdash : ∀ {pre lo hi post : Bytes}, IsRange a pre lo hi post → 45 ∉ pre ++ lo := by
    intro pre lo hi post h hin
    rcases List.mem_append.mp hin with hin | hin
    · exact h.pre_eq.1 hin
    · exact absurd (h.lo_digits 45 hin) (by decide)
  have hleft : ∀ {pre lo hi post : Bytes}, IsRange a pre lo hi post →
      (pre ++ lo).rdropWhile isDigit = pre := by
    intro pre lo hi post h
    apply rdropWhile_stop
    · rcases h.pre_eq.2 with rfl | hdot
      · rfl
      · rw [hdot]
        rfl
    · exact h.lo_digits
  have hright : ∀ {pre lo hi post : Bytes}, IsRange a pre lo hi post →
      (hi ++ post).takeWhile isDigit = hi := by
    intro pre lo hi post h
    apply takeWhile_stop h.hi_digits
    rcases h.post_eq with rfl | hdot
    · rfl
    · rw [hdot]
      rfl
  have hcut : ∀ {pre lo hi post : Bytes}, IsRange a pre lo hi post →
      a = (pre ++ lo) ++ 45 :: (hi ++ post) := by
    intro pre lo hi post h
    rw [h.eq]
    simp
  obtain ⟨hl, hr⟩ := cut_unique (hdash h) (hdash h') ((hcut h).symm.trans (hcut h'))
  have hpre : pre = pre' := by rw [← hleft h, hl, hleft h']
  have hhi : hi = hi' := by rw [← hright h, hr, hright h']
  subst hpre hhi
  exact ⟨rfl, List.append_cancel_left hl, rfl, List.append_cancel_left hr⟩

theorem addresses_unique {as as' : List Bytes} (h : Addresses sc a as) (h' : Addresses sc a as') :
    as = as' := by
  have hno : ∀ {pre lo hi post : Bytes}, IsRange a pre lo hi post →
      ¬ (61 ∈ a ∨ 64 ∈ a ∨ 45 ∉ a) := by
    rintro pre lo hi post hr (h | h | h)
    · exact hr.plain.1 h
    · exact hr.plain.2 h
    · rw [hr.eq] at h
      simp at h
  cases h with
  | one h =>
      cases h' with
      | one _ => rfl
      | range hr => exact absurd h (hno hr)
  | range hr =>
      cases h' with
      | one h => exact absurd h (hno hr)
      | range hr' =>
          obtain ⟨rfl, rfl, rfl, rfl⟩ := isRange_unique hr hr'
          rfl

/-! ## Texts -/

theorem lineRules_unique {rs rs' : List Rule} (h : LineRules sc line rs)
    (h' : LineRules sc line rs') : rs = rs' := by
  obtain ⟨a, i, as, hline, has, rfl⟩ := h
  obtain ⟨a', i', as', hline', has', rfl⟩ := h'
  obtain ⟨rfl, rfl⟩ := lineText_unique hline hline'
  rw [addresses_unique has has']

/-- **The rules of a text.** -/
theorem reads_unique {rs rs' : List Rule} (h : Reads sc text rs) (h' : Reads sc text rs') :
    rs = rs' := by
  obtain ⟨rss, hrss, rfl⟩ := h
  obtain ⟨rss', hrss', rfl⟩ := h'
  have hone : Relator.RightUnique fun line rs => LineRules sc line rs ∧ rs ≠ [] :=
    fun _ _ _ h h' => lineRules_unique h.1 h'.1
  rw [hone.forall₂ hrss hrss']

end IndimailMta.Tcprules
