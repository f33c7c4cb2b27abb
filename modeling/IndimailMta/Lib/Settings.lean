import Mathlib.Data.List.Basic

/-!
# Settings

A list of settings, each of a key and the value that it is given: of the settings of one key the
last one counts, and a key that is not set keeps what it had. Settings that are put in front of
others make no difference for a key that is set again, and else exactly if the last of them is the
value that was there.
-/

namespace IndimailMta.Settings

variable {K V : Type}

/-- The keys that are set. -/
def keys (l : List (K × V)) : List K := l.map Prod.fst

variable [DecidableEq K] {k : K} {v : V} {l m : List (K × V)}

/-- The value that counts. -/
def lastSet (k : K) : List (K × V) → Option V
  | [] => none
  | s :: l => (lastSet k l).or (if s.1 = k then some s.2 else none)

@[simp] theorem lastSet_nil : lastSet k ([] : List (K × V)) = none := rfl

theorem lastSet_append (l m : List (K × V)) :
    lastSet k (l ++ m) = (lastSet k m).or (lastSet k l) := by
  induction l with
  | nil => rw [List.nil_append, lastSet_nil, Option.or_none]
  | cons s l ih => rw [List.cons_append, lastSet, ih, lastSet, Option.or_assoc]

theorem lastSet_eq_none_iff : lastSet k l = none ↔ k ∉ keys l := by
  induction l with
  | nil => simp [keys]
  | cons s l ih =>
      rw [lastSet, Option.or_eq_none_iff, ih, keys, keys, List.map_cons, List.mem_cons, not_or]
      by_cases hs : s.1 = k
      · simp [hs]
      · simp [hs, Ne.symm hs]

/-- The value of a key after the settings `l` and then `m`. -/
theorem getD_append (l m : List (K × V)) (v : V) :
    (lastSet k (l ++ m)).getD v = (lastSet k m).getD ((lastSet k l).getD v) := by
  rw [lastSet_append]
  cases lastSet k m <;> rfl

/-- **Settings that make no difference.** -/
theorem getD_append_eq_iff : (lastSet k (l ++ m)).getD v = (lastSet k m).getD v ↔
    (k ∈ keys l → k ∈ keys m ∨ lastSet k l = some v) := by
  rw [getD_append]
  cases hm : lastSet k m with
  | some w =>
      have hin : k ∈ keys m := by
        by_contra hout
        rw [lastSet_eq_none_iff.mpr hout] at hm
        cases hm
      exact iff_of_true rfl fun _ => Or.inl hin
  | none =>
      have hout : k ∉ keys m := lastSet_eq_none_iff.mp hm
      cases hl : lastSet k l with
      | none => exact iff_of_true rfl fun hin => absurd hin (lastSet_eq_none_iff.mp hl)
      | some w =>
          have hin : k ∈ keys l := by
            by_contra hnot
            rw [lastSet_eq_none_iff.mpr hnot] at hl
            cases hl
          constructor
          · rintro h -
            exact Or.inr (congrArg some h)
          · intro h
            rcases h hin with h | h
            · exact absurd h hout
            · exact Option.some.inj h

end IndimailMta.Settings
