import Mathlib.Data.List.Basic

/-!
# Readers that keep state between reads

A daemon that reads a pipe gets its input in chunks whose boundaries mean
nothing: it looks at one symbol at a time, keeps what it has of an unfinished
record, and hands on every record it completes. A `Transducer` is that reader:
one step takes a symbol and yields the records the symbol completed.

Two facts carry every proof about such a reader. How the input was cut into
chunks does not matter (`feedChunks_eq_feed`). And a stream that is a
concatenation of encodings is read record by record, provided that one encoding
read from a resting state yields its records and ends in a resting state
(`feed_flatMap`).
-/

namespace IndimailMta.Transducer

variable {σ α β γ : Type*}

/-- Read one list of symbols: the state left behind, and the records completed. -/
def feed (step : σ → α → σ × List β) : σ → List α → σ × List β
  | s, [] => (s, [])
  | s, a :: as =>
      let r := step s a
      let q := feed step r.1 as
      (q.1, r.2 ++ q.2)

/-- Read one chunk after the other. -/
def feedChunks (step : σ → α → σ × List β) : σ → List (List α) → σ × List β
  | s, [] => (s, [])
  | s, c :: cs =>
      let r := feed step s c
      let q := feedChunks step r.1 cs
      (q.1, r.2 ++ q.2)

variable {f : σ → α → σ × List β}

@[simp] theorem feed_nil (s : σ) : feed f s [] = (s, []) := rfl

theorem feed_cons (s : σ) (a : α) (as : List α) :
    feed f s (a :: as) =
      ((feed f (f s a).1 as).1, (f s a).2 ++ (feed f (f s a).1 as).2) := rfl

theorem feed_append (s : σ) (as bs : List α) :
    feed f s (as ++ bs) =
      ((feed f (feed f s as).1 bs).1,
        (feed f s as).2 ++ (feed f (feed f s as).1 bs).2) := by
  induction as generalizing s with
  | nil => simp
  | cons a as ih => simp only [List.cons_append, feed_cons, ih, List.append_assoc]

/-- Reading one list after the other. -/
theorem feed_seq {s s₁ s₂ : σ} {as bs : List α} {r₁ r₂ : List β}
    (h₁ : feed f s as = (s₁, r₁)) (h₂ : feed f s₁ bs = (s₂, r₂)) :
    feed f s (as ++ bs) = (s₂, r₁ ++ r₂) := by
  rw [feed_append, h₁, h₂]

/-- **Chunk boundaries are invisible.** -/
theorem feedChunks_eq_feed (s : σ) (cs : List (List α)) :
    feedChunks f s cs = feed f s cs.flatten := by
  induction cs generalizing s with
  | nil => rfl
  | cons c cs ih => simp only [feedChunks, List.flatten_cons, feed_append, ih]

/-- Symbols that complete nothing. `open' pre` is the state after the symbols
`pre` of an unfinished record; if each further symbol of a kind only extends
`pre`, so does a list of them. -/
theorem feed_unfinished {P : α → Prop} {open' : List α → σ}
    (h : ∀ pre a, P a → f (open' pre) a = (open' (pre ++ [a]), [])) :
    ∀ (as pre : List α), (∀ a ∈ as, P a) →
      feed f (open' pre) as = (open' (pre ++ as), [])
  | [], pre, _ => by rw [feed_nil, List.append_nil]
  | a :: as, pre, hP => by
      rw [feed_cons, h pre a (hP a List.mem_cons_self),
        feed_unfinished h as (pre ++ [a]) fun b hb => hP b (List.mem_cons_of_mem a hb)]
      simp

/-- A text of symbols that complete nothing, and the symbol that ends it. -/
theorem feed_terminated {P : α → Prop} (open' : List α → σ) {e : List α → σ × List β}
    {t : α} (h : ∀ pre a, P a → f (open' pre) a = (open' (pre ++ [a]), []))
    (ht : ∀ pre, f (open' pre) t = e pre) {as : List α} (hP : ∀ a ∈ as, P a) :
    feed f (open' []) (as ++ [t]) = e as := by
  rw [feed_append, feed_unfinished h as [] hP]
  simp only [List.nil_append, feed_cons, feed_nil, List.append_nil, ht]

/-- **The record rule.** Let every encoding, read in a resting state, yield its
records and leave the reader resting. Then a concatenation of encodings yields
the concatenation of their records. -/
theorem feed_flatMap {R : σ → Prop} {enc : γ → List α} {g : γ → List β}
    {xs : List γ}
    (h : ∀ x ∈ xs, ∀ s, R s →
      R (feed f s (enc x)).1 ∧ (feed f s (enc x)).2 = g x) :
    ∀ s, R s → R (feed f s (xs.flatMap enc)).1 ∧
      (feed f s (xs.flatMap enc)).2 = xs.flatMap g := by
  induction xs with
  | nil => exact fun s hs => ⟨hs, rfl⟩
  | cons x xs ih =>
      intro s hs
      obtain ⟨hr, hx⟩ := h x List.mem_cons_self s hs
      obtain ⟨hr', hxs⟩ := ih (fun y hy => h y (List.mem_cons_of_mem x hy)) _ hr
      simp only [List.flatMap_cons, feed_append]
      exact ⟨hr', by rw [hx, hxs]⟩

/-- The record rule where every encoding yields one record. -/
theorem feed_flatMap_map {R : σ → Prop} {enc : γ → List α} {dec : γ → β} {xs : List γ}
    (h : ∀ x ∈ xs, ∀ s, R s →
      R (feed f s (enc x)).1 ∧ (feed f s (enc x)).2 = [dec x])
    {s : σ} (hs : R s) : (feed f s (xs.flatMap enc)).2 = xs.map dec := by
  rw [(feed_flatMap (g := fun x => [dec x]) h s hs).2, List.map_eq_flatMap]

/-! ## States -/

section State

variable {τ : Type*} {g : τ → α → τ × List β}

/-- **The simulation rule.** Two readers whose steps keep a relation between their states, and yield
the same, yield the same of every list. -/
theorem feed_simulates {R : σ → τ → Prop}
    (h : ∀ s t a, R s t → R (f s a).1 (g t a).1 ∧ (f s a).2 = (g t a).2) :
    ∀ (as : List α) {s : σ} {t : τ}, R s t →
      R (feed f s as).1 (feed g t as).1 ∧ (feed f s as).2 = (feed g t as).2
  | [], _, _, hst => ⟨hst, rfl⟩
  | a :: as, s, t, hst => by
      obtain ⟨hr, hy⟩ := h s t a hst
      obtain ⟨hr', hy'⟩ := feed_simulates h as hr
      rw [feed_cons, feed_cons]
      exact ⟨hr', by rw [hy, hy']⟩

/-- **The invariant rule**, for lists of symbols of a kind. -/
theorem feed_invariant {I : σ → Prop} {P : α → Prop} (h : ∀ s a, I s → P a → I (f s a).1) :
    ∀ (as : List α) {s : σ}, I s → (∀ a ∈ as, P a) → I (feed f s as).1
  | [], _, hs, _ => hs
  | a :: as, _, hs, hP => by
      rw [feed_cons]
      exact feed_invariant h as (h _ a hs (hP a List.mem_cons_self))
        fun b hb => hP b (List.mem_cons_of_mem a hb)

/-- **The since rule.** What a symbol adds and another one takes away is there at the end if it was
there and nothing took it away, or if a symbol added it and none behind it took it away. -/
theorem feed_since {I P : σ → Prop} {A D : α → Prop} (hI : ∀ s a, I s → I (f s a).1)
    (h : ∀ s a, I s → (P (f s a).1 ↔ A a ∨ (P s ∧ ¬ D a))) :
    ∀ (as : List α) {s : σ}, I s → (P (feed f s as).1 ↔
      (P s ∧ ∀ a ∈ as, ¬ D a) ∨
        ∃ pre a post, as = pre ++ a :: post ∧ A a ∧ ∀ b ∈ post, ¬ D b) := by
  intro as
  induction as with
  | nil =>
      intro s _
      simp
  | cons a as ih =>
      intro s hs
      rw [feed_cons, ih (hI s a hs), h s a hs]
      constructor
      · rintro (⟨ha | ⟨hP, hD⟩, hrest⟩ | ⟨pre, b, post, rfl, hb, hpost⟩)
        · exact .inr ⟨[], a, as, rfl, ha, hrest⟩
        · exact .inl ⟨hP, List.forall_mem_cons.mpr ⟨hD, hrest⟩⟩
        · exact .inr ⟨a :: pre, b, post, rfl, hb, hpost⟩
      · rintro (⟨hP, hall⟩ | ⟨pre, b, post, heq, hb, hpost⟩)
        · obtain ⟨hD, hrest⟩ := List.forall_mem_cons.mp hall
          exact .inl ⟨.inr ⟨hP, hD⟩, hrest⟩
        · cases pre with
          | nil =>
              obtain ⟨rfl, rfl⟩ := List.cons_eq_cons.mp heq
              exact .inl ⟨.inl hb, hpost⟩
          | cons c pre =>
              obtain ⟨rfl, rfl⟩ := List.cons_eq_cons.mp heq
              exact .inr ⟨pre, b, post, rfl, hb, hpost⟩

/-- **The restart rule.** Where a text brings the reader from one state to another and yields
nothing, a reading that is broken off in the second and taken up in the first, behind that text,
yields what is left. -/
theorem feed_restart {s₀ s : σ} {dump : List α} (h : feed f s₀ dump = (s, [])) (as : List α) :
    feed f s₀ (dump ++ as) = feed f s as := by
  rw [feed_append, h, List.nil_append]

end State

end IndimailMta.Transducer
