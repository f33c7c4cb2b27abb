import Mathlib.Data.List.Basic

/-!
# Runs of a state machine

A program that is driven from outside (by reports, by signals, by the answers of
system calls) is a machine whose step consumes one label. This module has the
run of such a machine over a list of labels, and the one induction every safety
result of the development is an instance of: what a step preserves, a run
preserves.

A step may be conditioned. `Meets cond s ls` says that every step of the run of
`ls` from `s` was taken in a state and with a label that meet `cond`; a result
that needs the condition is stated about the runs that meet it, and a result
that does not takes the condition to be `True`.
-/

namespace IndimailMta.Run

variable {σ ℓ : Type*}

/-- A machine: the states it may start in, and the effect of one label. A label
that is not possible in a state has no effect to give (`none`). -/
structure Machine (σ ℓ : Type*) where
  init : σ → Prop
  step : σ → ℓ → Option σ

namespace Machine

/-- The state after a list of labels, if every one of them was possible. -/
def exec (M : Machine σ ℓ) : σ → List ℓ → Option σ
  | s, [] => some s
  | s, l :: ls => (M.step s l).bind fun s' => M.exec s' ls

/-- Every step of the run of `ls` from `s` meets `cond`. -/
def Meets (M : Machine σ ℓ) (cond : σ → ℓ → Prop) : σ → List ℓ → Prop
  | _, [] => True
  | s, l :: ls => cond s l ∧ ∀ s', M.step s l = some s' → M.Meets cond s' ls

variable {M : Machine σ ℓ} {C : σ → ℓ → Prop} {I : σ → Prop}

@[simp] theorem exec_nil (s : σ) : M.exec s [] = some s := rfl

theorem exec_cons (s : σ) (l : ℓ) (ls : List ℓ) :
    M.exec s (l :: ls) = (M.step s l).bind fun s' => M.exec s' ls := rfl

theorem exec_cons_eq_some {s t : σ} {l : ℓ} {ls : List ℓ} :
    M.exec s (l :: ls) = some t ↔ ∃ s', M.step s l = some s' ∧ M.exec s' ls = some t := by
  rw [exec_cons, Option.bind_eq_some_iff]

theorem meets_append {ls ks : List ℓ} {s : σ} :
    M.Meets C s (ls ++ ks) ↔
      M.Meets C s ls ∧ ∀ s', M.exec s ls = some s' → M.Meets C s' ks := by
  induction ls generalizing s with
  | nil => simp [Meets]
  | cons l ls ih =>
      simp only [List.cons_append, Meets, exec_cons_eq_some, ih]
      constructor
      · rintro ⟨hc, h⟩
        exact ⟨⟨hc, fun s' hs => (h s' hs).1⟩,
          fun t ⟨s', hs, ht⟩ => (h s' hs).2 t ht⟩
      · rintro ⟨⟨hc, h⟩, hk⟩
        exact ⟨hc, fun s' hs => ⟨h s' hs, fun t ht => hk t ⟨s', hs, ht⟩⟩⟩

theorem meets_true (ls : List ℓ) (s : σ) : M.Meets (fun _ _ => True) s ls := by
  induction ls generalizing s with
  | nil => exact trivial
  | cons l ls ih => exact ⟨trivial, fun s' _ => ih s'⟩

/-- Where the condition can be decided, whether a run meets it is computed along the run. -/
instance decidableMeets (M : Machine σ ℓ) (C : σ → ℓ → Prop) [∀ s l, Decidable (C s l)] :
    ∀ s ls, Decidable (M.Meets C s ls)
  | _, [] => isTrue trivial
  | s, l :: ls =>
      match hs : M.step s l with
      | none => decidable_of_iff (C s l) ⟨fun h => ⟨h, by simp [hs]⟩, fun h => h.1⟩
      | some s' =>
          have := decidableMeets M C s' ls
          decidable_of_iff (C s l ∧ M.Meets C s' ls)
            ⟨fun h => ⟨h.1, by simpa [hs] using h.2⟩, fun h => ⟨h.1, h.2 s' hs⟩⟩

/-- **The invariant rule.** What holds where a run starts, and is preserved by
every step that meets the condition, holds where the run ends. -/
theorem exec_invariant
    (hstep : ∀ s l s', I s → C s l → M.step s l = some s' → I s') :
    ∀ {ls : List ℓ} {s t : σ}, I s → M.Meets C s ls →
      M.exec s ls = some t → I t
  | [], s, t, hi, _, he => by
      simp only [exec_nil, Option.some.injEq] at he
      exact he ▸ hi
  | l :: ls, s, t, hi, hm, he => by
      obtain ⟨s', hs, ht⟩ := exec_cons_eq_some.mp he
      exact exec_invariant hstep (hstep s l s' hi hm.1 hs) (hm.2 s' hs) ht

/-- The invariant rule for a machine whose steps are unconditioned. -/
theorem exec_invariant_of_step (hstep : ∀ s l s', I s → M.step s l = some s' → I s')
    {ls : List ℓ} {s t : σ} (hi : I s) (he : M.exec s ls = some t) : I t :=
  exec_invariant (C := fun _ _ => True) (fun s l s' h _ => hstep s l s' h) hi
    (meets_true ls s) he

/-- Two properties of steps that agree under an invariant hold of the same runs. -/
theorem meets_congr {P Q : σ → ℓ → Prop}
    (hstep : ∀ s l s', I s → C s l → M.step s l = some s' → I s')
    (hiff : ∀ s l, I s → C s l → (P s l ↔ Q s l)) {ls : List ℓ} {s : σ} (hi : I s)
    (hm : M.Meets C s ls) : M.Meets P s ls ↔ M.Meets Q s ls := by
  induction ls generalizing s with
  | nil => exact Iff.rfl
  | cons l ls ih =>
      have hrest : ∀ s', M.step s l = some s' → (M.Meets P s' ls ↔ M.Meets Q s' ls) :=
        fun s' hs => ih (hstep s l s' hi hm.1 hs) (hm.2 s' hs)
      constructor
      · rintro ⟨hp, h⟩
        exact ⟨(hiff s l hi hm.1).mp hp, fun s' hs => (hrest s' hs).mp (h s' hs)⟩
      · rintro ⟨hq, h⟩
        exact ⟨(hiff s l hi hm.1).mpr hq, fun s' hs => (hrest s' hs).mpr (h s' hs)⟩

/-- Two properties of steps that agree under an invariant, where a step with the property keeps the
invariant: a run has both or none. -/
theorem meets_iff_of_keeps {P Q : σ → ℓ → Prop}
    (hstep : ∀ s l s', I s → P s l → M.step s l = some s' → I s')
    (hiff : ∀ s l, I s → (P s l ↔ Q s l)) {ls : List ℓ} {s : σ} (hi : I s) :
    M.Meets P s ls ↔ M.Meets Q s ls := by
  induction ls generalizing s with
  | nil => exact Iff.rfl
  | cons l ls ih =>
      constructor
      · rintro ⟨hp, h⟩
        exact ⟨(hiff s l hi).mp hp, fun s' hs => (ih (hstep s l s' hi hp hs)).mp (h s' hs)⟩
      · rintro ⟨hq, h⟩
        have hp := (hiff s l hi).mpr hq
        exact ⟨hp, fun s' hs => (ih (hstep s l s' hi hp hs)).mpr (h s' hs)⟩

/-- **The progress rule.** Where every step that meets the condition is possible and preserves
the invariant, a run whose steps meet it is possible, and ends in the invariant. -/
theorem exec_progress (hstep : ∀ s l, I s → C s l → ∃ s', M.step s l = some s' ∧ I s')
    {ls : List ℓ} {s : σ} (hi : I s) (hm : M.Meets C s ls) : ∃ t, M.exec s ls = some t ∧ I t := by
  induction ls generalizing s with
  | nil => exact ⟨s, exec_nil s, hi⟩
  | cons l ls ih =>
      obtain ⟨s', hs, hi'⟩ := hstep s l hi hm.1
      obtain ⟨t, ht, hit⟩ := ih hi' (hm.2 s' hs)
      exact ⟨t, exec_cons_eq_some.mpr ⟨s', hs, ht⟩, hit⟩

variable {ν : Type*}

/-- The machine that keeps a record of its run: `see` adds what a step shows. -/
def recorded (M : Machine σ ℓ) (see : ν → σ → ℓ → σ → ν) (v₀ : ν) : Machine (σ × ν) ℓ where
  init p := M.init p.1 ∧ p.2 = v₀
  step p l := (M.step p.1 l).map fun s' => (s', see p.2 p.1 l s')

theorem recorded_step {see : ν → σ → ℓ → σ → ν} {v₀ : ν} {p p' : σ × ν} {l : ℓ} :
    (M.recorded see v₀).step p l = some p' ↔
      M.step p.1 l = some p'.1 ∧ p'.2 = see p.2 p.1 l p'.1 := by
  simp only [recorded, Option.map_eq_some_iff]
  constructor
  · rintro ⟨s', hs, rfl⟩
    exact ⟨hs, rfl⟩
  · rintro ⟨hs, hv⟩
    exact ⟨p'.1, hs, by rw [← hv]⟩

end Machine

end IndimailMta.Run
