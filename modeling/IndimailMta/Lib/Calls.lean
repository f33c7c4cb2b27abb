import IndimailMta.Lib.Exits

/-!
# Programs that are killed

A program makes calls that change a state, and it may be killed before any of them. How many calls it
gets is a number beside the state. `Works any n P m Q K` says that `m`, from a state that meets `P`, leaves
`Q`, or `K` if it is killed, so that `K` has to follow from what holds before each call; and that it makes
no more than `n` calls, if `any` does not say that it may take any time.
-/

namespace IndimailMta.Calls

open Exits

/-- A program on states `σ` that may be killed, and how many calls it makes until then. -/
abbrev Task (σ α : Type) : Type := Prog (σ × Nat) Unit α

section Tasks

variable {σ α : Type}

/-- One call. -/
def call (f : σ → α × σ) : Task σ α
  | (s, 0) => (.error (), s, 0)
  | (s, t + 1) => (.ok (f s).1, (f s).2, t)

/-- A call for what it does. -/
def perform (f : σ → σ) : Task σ Unit := call fun s => ((), f s)

/-- A call for what it tells. -/
def ask (f : σ → α) : Task σ α := call fun s => (f s, s)

/-- What the program knows by itself. -/
def look (f : σ → α) : Task σ α := fun s => (.ok (f s.1), s)

/-- What the program keeps for itself. -/
def assign (f : σ → σ) : Task σ Unit := fun s => (.ok (), f s.1, s.2)

def turns (body : Task σ Bool) : Nat → Task σ Unit
  | 0 => exit ()
  | n + 1 => do if ← body then pure () else turns body n

/-- The loop that ends when `body` says so. A loop that never ends is killed at last. -/
def until_ (body : Task σ Bool) : Task σ Unit := fun s => turns body (s.2 + 1) s

/-- From `P`, `m` leaves `Q`, or it is killed and leaves `K`. It takes at most `n` calls, and is not killed
if it gets them, or `any` holds. -/
def Works (any : Prop) (n : Nat) (P : σ → Prop) (m : Task σ α) (Q : α → σ → Prop) (K : σ → Prop) : Prop :=
  ∀ t, Triple (fun s => P s.1 ∧ s.2 = t) m (fun a s => Q a s.1 ∧ (any ∨ t ≤ s.2 + n)) fun _ s =>
    K s.1 ∧ (any ∨ t < n)

/-- `Works`, however long it takes. -/
abbrev Safe (P : σ → Prop) (m : Task σ α) (Q : α → σ → Prop) (K : σ → Prop) : Prop := Works True 0 P m Q K

end Tasks

/-! ## Rules -/

section Rules

variable {σ α β : Type} {any : Prop} {n k : Nat} {P P' : σ → Prop} {Q Q' : α → σ → Prop}
  {R : β → σ → Prop} {K K' : σ → Prop} {m m' : Task σ α} {f : α → Task σ β}

/-- What a task leaves in any case. -/
theorem Works.leaves (h : Works any n P m Q K) (hQ : ∀ a s, Q a s → K s) {s : σ} (hs : P s) (t : Nat) :
    K (m (s, t)).2.1 := by
  have hrun := h t (s, t) ⟨hs, rfl⟩
  cases hms : m (s, t) with
  | mk r u =>
      rw [hms] at hrun
      cases r with
      | ok a => exact hQ a _ hrun.1
      | error e => exact hrun.1

/-- What a task leaves that gets enough calls. -/
theorem Works.returns (h : Works False n P m Q K) {s : σ} {t : Nat} (hs : P s) (ht : n ≤ t) :
    ∃ a s' t', m (s, t) = (.ok a, s', t') ∧ Q a s' := by
  have hrun := h t (s, t) ⟨hs, rfl⟩
  cases hms : m (s, t) with
  | mk r u =>
      rw [hms] at hrun
      cases r with
      | ok a => exact ⟨a, u.1, u.2, rfl, hrun.1⟩
      | error e => exact absurd (hrun.2.resolve_left id) (Nat.not_lt.mpr ht)

theorem Works.weaken (h : Works any n P m Q K) (hn : any ∨ n ≤ k) (hP : ∀ s, P' s → P s)
    (hQ : ∀ a s, Q a s → Q' a s) (hK : ∀ s, K s → K' s) : Works any k P' m Q' K' := by
  intro t s hs
  have hrun := h t s ⟨hP _ hs.1, hs.2⟩
  cases hms : m s with
  | mk r u =>
      rw [hms] at hrun
      cases r with
      | ok a =>
          exact ⟨hQ _ _ hrun.1, hn.elim .inl fun hn =>
            hrun.2.imp_right fun h => Nat.le_trans h (Nat.add_le_add_left hn _)⟩
      | error e =>
          exact ⟨hK _ hrun.1, hn.elim .inl fun hn => hrun.2.imp_right fun h => Nat.lt_of_lt_of_le h hn⟩

theorem Works.safe (h : Works True n P m Q K) : Safe P m Q K :=
  h.weaken (.inl trivial) (fun _ h => h) (fun _ _ h => h) fun _ h => h

theorem works_pure {a : α} (h : ∀ s, P s → Q a s) : Works any n P (pure a) Q K :=
  fun _ => triple_pure fun _ hs => ⟨h _ hs.1, .inr (Nat.le_trans (Nat.le_of_eq hs.2.symm) (Nat.le_add_right _ n))⟩

/-- The program is killed here. -/
theorem works_exit (h : ∀ s, P s → K s ∧ any) : Works any n P (exit () : Task σ α) Q K :=
  fun _ => triple_exit fun _ hs => ⟨(h _ hs.1).1, .inl (h _ hs.1).2⟩

theorem works_look {g : σ → α} (h : ∀ s, P s → Q (g s) s) : Works any 0 P (look g) Q K :=
  fun _ _ hs => ⟨h _ hs.1, .inr (Nat.le_of_eq hs.2.symm)⟩

theorem works_assign {g : σ → σ} {Q : Unit → σ → Prop} (h : ∀ s, P s → Q () (g s)) :
    Works any 0 P (assign g) Q K := fun _ _ hs => ⟨h _ hs.1, .inr (Nat.le_of_eq hs.2.symm)⟩

/-- What holds before a call holds if the program is killed. -/
theorem works_call {g : σ → α × σ} (hK : ∀ s, P s → K s) (h : ∀ s, P s → Q (g s).1 (g s).2) :
    Works any 1 P (call g) Q K := by
  rintro t ⟨s, u⟩ ⟨hs, rfl⟩
  cases u with
  | zero => exact ⟨hK s hs, .inr Nat.one_pos⟩
  | succ u => exact ⟨h s hs, .inr (Nat.le_refl _)⟩

theorem works_perform {g : σ → σ} {Q : Unit → σ → Prop} (hK : ∀ s, P s → K s) (h : ∀ s, P s → Q () (g s)) :
    Works any 1 P (perform g) Q K := works_call hK h

theorem works_ask {g : σ → α} (hK : ∀ s, P s → K s) (h : ∀ s, P s → Q (g s) s) :
    Works any 1 P (ask g) Q K := works_call hK h

theorem works_bind (hm : Works any n P m Q K) (hf : ∀ a, Works any k (Q a) (f a) R K) :
    Works any (n + k) P (m >>= f) R K := by
  intro t
  refine triple_bind (Q := fun a s => Q a s.1 ∧ (any ∨ t ≤ s.2 + n)) ?_ fun a => ?_
  · intro s hs
    have hrun := hm t s hs
    cases hms : m s with
    | mk r u =>
        rw [hms] at hrun
        cases r with
        | ok a => exact hrun
        | error e => exact ⟨hrun.1, hrun.2.imp_right fun h => Nat.lt_of_lt_of_le h (Nat.le_add_right n k)⟩
  · intro s hs
    have hrun := hf a s.2 s ⟨hs.1, rfl⟩
    have hle := hs.2
    cases hfs : f a s with
    | mk r u =>
        rw [hfs] at hrun
        cases r with
        | ok b => exact ⟨hrun.1, hle.elim .inl fun hle => hrun.2.imp_right fun h => by omega⟩
        | error e => exact ⟨hrun.1, hle.elim .inl fun hle => hrun.2.imp_right fun h => by omega⟩

/-- The end of a task may be cut off. -/
theorem task_assoc {γ : Type} (m : Task σ α) (f : α → Task σ β) (g : β → Task σ γ) :
    (m >>= fun a => f a >>= g) = m >>= f >>= g := by
  funext s
  cases hm : m s with
  | mk r u =>
      cases r with
      | ok a =>
          rw [run_bind_ok hm]
          cases hf : f a u with
          | mk r v =>
              cases r with
              | ok b => rw [run_bind_ok hf, run_bind_ok ((run_bind_ok hm).trans hf)]
              | error e => rw [run_bind_exit hf, run_bind_exit ((run_bind_ok hm).trans hf)]
      | error e => rw [run_bind_exit hm, run_bind_exit (run_bind_exit hm)]

theorem safe_bind (hm : Safe P m Q K) (hf : ∀ a, Safe (Q a) (f a) R K) : Safe P (m >>= f) R K :=
  works_bind hm hf

theorem works_ite {c : Prop} [Decidable c] (ht : c → Works any n P m Q K)
    (hf : ¬ c → Works any n P m' Q K) : Works any n P (if c then m else m') Q K := by
  by_cases h : c
  · rw [if_pos h]
    exact ht h
  · rw [if_neg h]
    exact hf h

/-- A fact about values may be used apart from the state. -/
theorem works_fact {φ : Prop} (h : φ → Works any n P m Q K) : Works any n (fun s => P s ∧ φ) m Q K :=
  fun t s hs => h hs.1.2 t s ⟨hs.1.1, hs.2⟩

theorem works_then_pure {b : β} (h : Works any n P m (fun _ => R b) K) :
    Works any n P (m >>= fun _ => pure b) R K := by
  rw [← Nat.add_zero n]
  exact works_bind h fun _ => works_pure fun _ hs => hs

/-- The program goes on with what it is told. -/
theorem works_ask_bind {g : σ → α} (hK : ∀ s, P s → K s)
    (hf : ∀ a, Works any k (fun s => P s ∧ g s = a) (f a) R K) : Works any (k + 1) P (ask g >>= f) R K := by
  rw [Nat.add_comm]
  exact works_bind (Q := fun a s => P s ∧ g s = a) (works_ask hK fun _ hs => ⟨hs, rfl⟩) hf

theorem works_look_bind {g : σ → α} (hf : ∀ a, Works any k (fun s => P s ∧ g s = a) (f a) R K) :
    Works any k P (look g >>= f) R K := by
  rw [← Nat.zero_add k]
  exact works_bind (Q := fun a s => P s ∧ g s = a) (works_look fun _ hs => ⟨hs, rfl⟩) hf

/-- What the program is told is known. -/
theorem works_ask_eq {g : σ → α} {v : α} (hK : ∀ s, P s → K s) (hg : ∀ s, P s → g s = v)
    (hf : Works any k P (f v) R K) : Works any (k + 1) P (ask g >>= f) R K := by
  refine works_ask_bind hK fun a => ?_
  rintro t s ⟨⟨hs, rfl⟩, ht⟩
  rw [hg s.1 hs]
  exact hf t s ⟨hs, ht⟩

theorem works_exists {ι : Type} {P : ι → σ → Prop} (h : ∀ i, Works any n (P i) m Q K) :
    Works any n (fun s => ∃ i, P i s) m Q K := by
  rintro t s ⟨⟨i, hi⟩, ht⟩
  exact h i t s ⟨hi, ht⟩

/-- The turns of a loop, if the measure is `k` at first. -/
theorem turns_works {I : Nat → σ → Prop} {body : Task σ Bool} {Q : σ → Prop}
    (hbody : ∀ k, Works any n (I k) body (fun b s => if b = true then Q s else ∃ j < k, I j s) K)
    (hK : ∀ k s, I k s → K s) (fuel k : Nat) (s : σ × Nat) (hs : I k s.1) :
    match turns body fuel s with
    | (.ok _, u) => Q u.1 ∧ (any ∨ s.2 ≤ u.2 + (k + 1) * n)
    | (.error _, u) => K u.1 ∧ (any ∨ s.2 < (k + 1) * n ∨ fuel ≤ k) := by
  induction fuel generalizing k s with
  | zero => exact ⟨hK k s.1 hs, .inr (.inr (Nat.zero_le k))⟩
  | succ fuel ih =>
      have hone : n ≤ (k + 1) * n := Nat.le_mul_of_pos_left n (Nat.succ_pos k)
      have hrun := hbody k s.2 s ⟨hs, rfl⟩
      rw [turns]
      cases hb : body s with
      | mk r u =>
          rw [hb] at hrun
          cases r with
          | error e =>
              rw [run_bind_exit hb]
              exact ⟨hrun.1, hrun.2.imp_right fun h => .inl (Nat.lt_of_lt_of_le h hone)⟩
          | ok b =>
              rw [run_bind_ok hb]
              cases b with
              | true =>
                  exact ⟨hrun.1, hrun.2.imp_right fun h => Nat.le_trans h (Nat.add_le_add_left hone _)⟩
              | false =>
                  obtain ⟨⟨j, hj, hI⟩, hle⟩ := hrun
                  have hmore : (j + 1) * n + n ≤ (k + 1) * n := by
                    rw [← Nat.succ_mul]
                    exact Nat.mul_le_mul_right n (Nat.succ_le_succ hj)
                  have hrest := ih j u hI
                  rw [if_neg Bool.false_ne_true]
                  cases ht : turns body fuel u with
                  | mk r v =>
                      rw [ht] at hrest
                      cases r with
                      | ok a => exact ⟨hrest.1, hle.elim .inl fun hle => hrest.2.imp_right fun h => by omega⟩
                      | error e =>
                          refine ⟨hrest.1, hle.elim .inl fun hle =>
                            hrest.2.imp_right fun h => h.imp (fun h => ?_) fun h => ?_⟩
                          · omega
                          · exact Nat.le_trans (Nat.succ_le_succ h) hj

/-- **A loop ends** whose turns each make a measure smaller. -/
theorem works_until {I : Nat → σ → Prop} {body : Task σ Bool} {Q : Unit → σ → Prop} (hn : 0 < n)
    (hbody : ∀ k, Works any n (I k) body (fun b s => if b = true then Q () s else ∃ j < k, I j s) K)
    (hK : ∀ k s, I k s → K s) (k : Nat) : Works any ((k + 1) * n) (I k) (until_ body) Q K := by
  rintro t s ⟨hs, rfl⟩
  have hrun := turns_works hbody hK (s.2 + 1) k s hs
  rw [until_]
  cases ht : turns body (s.2 + 1) s with
  | mk r u =>
      rw [ht] at hrun
      cases r with
      | ok a => exact hrun
      | error e =>
          refine ⟨hrun.1, hrun.2.imp_right fun h => h.elim id fun h => ?_⟩
          have hle : k + 1 ≤ (k + 1) * n := Nat.le_mul_of_pos_right _ hn
          omega

/-- A loop that ends with its first turn. -/
theorem works_once {body : Task σ Bool} {Q : Unit → σ → Prop} (hn : 0 < n)
    (hbody : Works any n P body (fun b s => b = true ∧ Q () s) K) (hK : ∀ s, P s → K s) :
    Works any n P (until_ body) Q K := by
  have h := @works_until σ any n K (fun k s => k = 0 ∧ P s) body Q hn (fun k => ?_)
    (fun k s hs => hK s hs.2) 0
  · rw [Nat.zero_add, Nat.one_mul] at h
    exact h.weaken (.inr (Nat.le_refl n)) (fun s hs => ⟨rfl, hs⟩) (fun _ _ h => h) fun _ h => h
  · refine hbody.weaken (.inr (Nat.le_refl n)) (fun s hs => hs.2) (fun b s hs => ?_) fun _ h => h
    rw [if_pos hs.1]
    exact hs.2

end Rules

end IndimailMta.Calls
