import Mathlib.Logic.Basic

/-!
# Programs that may exit

A program runs on a state and either returns a value or exits with a code; the
state it leaves is known either way. `Triple P m Q E` says what holds when `m`
returns (`Q`) and when it exits (`E`), for every start that meets `P`. The rules
are one for each way to build a program.
-/

namespace IndimailMta.Exits

/-- A program on states `σ` that returns an `α` or exits with an `ε`. -/
def Prog (σ ε α : Type) : Type := σ → Except ε α × σ

section Prog

variable {σ ε α β : Type}

/-- Leave the program. -/
def exit (e : ε) : Prog σ ε α := fun s => (.error e, s)

/-- Read the state. -/
def read : Prog σ ε σ := fun s => (.ok s, s)

/-- Change the state. -/
def update (f : σ → σ) : Prog σ ε Unit := fun s => (.ok (), f s)

instance : Monad (Prog σ ε) where
  pure a := fun s => (.ok a, s)
  bind m f := fun s =>
    match m s with
    | (.ok a, t) => f a t
    | (.error e, t) => (.error e, t)

/-- Run `m` if `c` holds. -/
def when (c : Prop) [Decidable c] (m : Prog σ ε Unit) : Prog σ ε Unit := if c then m else pure ()

theorem run_bind_ok {m : Prog σ ε α} {f : α → Prog σ ε β} {s t : σ} {a : α}
    (h : m s = (.ok a, t)) : (m >>= f) s = f a t := by
  simp only [bind, h]

theorem run_bind_exit {m : Prog σ ε α} {f : α → Prog σ ε β} {s t : σ} {e : ε}
    (h : m s = (.error e, t)) : (m >>= f) s = (.error e, t) := by
  simp only [bind, h]

/-- Two programs agree if their beginnings do, and they agree from where these end. -/
theorem run_bind_congr {m m' : Prog σ ε α} {f g : α → Prog σ ε β} {s : σ} (heq : m s = m' s)
    (h : ∀ a t, m s = (.ok a, t) → f a t = g a t) : (m >>= f) s = (m' >>= g) s := by
  cases hm : m s with
  | mk r t =>
      rw [hm] at heq
      cases r with
      | ok a => rw [run_bind_ok hm, run_bind_ok heq.symm, h a t hm]
      | error e => rw [run_bind_exit hm, run_bind_exit heq.symm]

/-- From a start that meets `P`, a run of `m` that returns ends in `Q`, and one that exits
ends in `E`. -/
def Triple (P : σ → Prop) (m : Prog σ ε α) (Q : α → σ → Prop) (E : ε → σ → Prop) : Prop :=
  ∀ s, P s → match m s with
    | (.ok a, t) => Q a t
    | (.error e, t) => E e t

/-- `I` holds throughout, and `E` where the program exits. -/
abbrev Keeps (I : σ → Prop) (E : ε → σ → Prop) (m : Prog σ ε α) : Prop :=
  Triple I m (fun _ => I) E

end Prog

/-! ## Rules -/

section Rules

variable {σ ε α β : Type} {P P' : σ → Prop} {Q Q' : α → σ → Prop} {R : β → σ → Prop}
  {E : ε → σ → Prop} {m : Prog σ ε α} {f : α → Prog σ ε β}

theorem Triple.ok (h : Triple P m Q E) {s t : σ} {a : α} (hs : P s) (hm : m s = (.ok a, t)) :
    Q a t := by
  have hrun := h s hs
  rwa [hm] at hrun

theorem Triple.exited (h : Triple P m Q E) {s t : σ} {e : ε} (hs : P s)
    (hm : m s = (.error e, t)) : E e t := by
  have hrun := h s hs
  rwa [hm] at hrun

/-- The same, with what is known about the beginning. -/
theorem Triple.bind_congr {m' : Prog σ ε α} {f g : α → Prog σ ε β} {s : σ} (hm : Triple P m Q E)
    (hs : P s) (heq : m s = m' s) (h : ∀ a t, Q a t → f a t = g a t) : (m >>= f) s = (m' >>= g) s :=
  run_bind_congr heq fun a t ht => h a t (hm.ok hs ht)

theorem triple_pure {a : α} (h : ∀ s, P s → Q a s) : Triple P (pure a) Q E := h

theorem triple_exit {e : ε} (h : ∀ s, P s → E e s) :
    Triple P (exit e : Prog σ ε α) Q E := h

theorem triple_read {Q : σ → σ → Prop} (h : ∀ s, P s → Q s s) : Triple P read Q E := h

/-- The value read is the state. -/
theorem triple_get : Triple P read (fun a s => P s ∧ a = s) E :=
  triple_read fun _ h => ⟨h, rfl⟩

theorem triple_update {g : σ → σ} {Q : Unit → σ → Prop} (h : ∀ s, P s → Q () (g s)) :
    Triple P (update g) Q E := h

theorem triple_bind (hm : Triple P m Q E) (hf : ∀ a, Triple (Q a) (f a) R E) :
    Triple P (m >>= f) R E := by
  intro s hs
  have hrun := hm s hs
  cases hms : m s with
  | mk r t =>
      rw [hms] at hrun
      cases r with
      | ok a =>
          rw [run_bind_ok hms]
          exact hf a t hrun
      | error e =>
          rw [run_bind_exit hms]
          exact hrun

theorem triple_weaken (h : Triple P m Q E) (hP : ∀ s, P' s → P s) (hQ : ∀ a s, Q a s → Q' a s) :
    Triple P' m Q' E := by
  intro s hs
  have hrun := h s (hP s hs)
  cases hms : m s with
  | mk r t =>
      rw [hms] at hrun
      cases r with
      | ok a => exact hQ a t hrun
      | error e => exact hrun

/-- A program that always returns meets any condition on exits. -/
theorem triple_no_exit (h : Triple P m Q fun _ _ => False) : Triple P m Q E := by
  intro s hs
  have hrun := h s hs
  cases hms : m s with
  | mk r t =>
      rw [hms] at hrun
      cases r with
      | ok a => exact hrun
      | error e => exact absurd hrun not_false

/-- A fact about values may be used apart from the state. -/
theorem triple_fact {φ : Prop} (h : φ → Triple P m Q E) : Triple (fun s => P s ∧ φ) m Q E :=
  fun s hs => h hs.2 s hs.1

theorem triple_ite {c : Prop} [Decidable c] {m' : Prog σ ε α} (ht : c → Triple P m Q E)
    (hf : ¬ c → Triple P m' Q E) : Triple P (if c then m else m') Q E := by
  split
  · rename_i h
    exact ht h
  · rename_i h
    exact hf h

theorem triple_when {c : Prop} [Decidable c] {m : Prog σ ε Unit} {Q : Unit → σ → Prop}
    (ht : c → Triple P m Q E) (hf : ∀ s, ¬ c → P s → Q () s) : Triple P (when c m) Q E :=
  triple_ite ht fun hc => triple_pure fun s hs => hf s hc hs

/-- A conditional part that keeps `I` whenever it runs. -/
theorem keeps_when {c : Prop} [Decidable c] {I : σ → Prop} {m : Prog σ ε Unit}
    (h : c → Keeps I E m) : Keeps I E (when c m) :=
  triple_when h fun _ _ hs => hs

end Rules

end IndimailMta.Exits
