import Mathlib.Data.List.Basic

/-!
# Output streams

A buffered output stream takes bytes and passes them to a descriptor now and then.
`held` is everything it took since it was set up, `sent` what has reached the
descriptor. A call that fails lost something: what can still be sent is then a
proper prefix of what was asked for. Nothing else about buffer sizes or about the
writes that are made is assumed.
-/

namespace IndimailMta.Output

/-- An output stream of `β`s; the state includes how the writes to come will go. -/
structure OutStream (β : Type) where
  State : Type
  /-- Set the stream up for a descriptor. -/
  fdbuf : State → State
  put : State → List β → Bool × State
  flush : State → Bool × State
  sent : State → List β
  held : State → List β
  sent_fdbuf : ∀ s, sent (fdbuf s) = []
  held_fdbuf : ∀ s, held (fdbuf s) = []
  sent_le : ∀ s, sent s <+: held s
  held_put : ∀ s b, (put s b).1 = true → held (put s b).2 = held s ++ b
  put_fails : ∀ s b, (put s b).1 = false →
    held (put s b).2 <+: held s ++ b ∧ held (put s b).2 ≠ held s ++ b
  sent_flush : ∀ s, (flush s).1 = true → sent (flush s).2 = held s
  flush_fails : ∀ s, (flush s).1 = false → sent (flush s).2 <+: held s ∧ sent (flush s).2 ≠ held s

/-! ## A buffer of a fixed size -/

section Buffered

variable {β : Type}

/-- A buffer over a descriptor; `faults` says of each write to come after how many elements it
fails, if it fails. -/
structure Buffer (β : Type) where
  buf : List β := []
  sent : List β := []
  faults : List (Option Nat) := []

/-- Write all of `b`. -/
def Buffer.allwrite (s : Buffer β) (b : List β) : Bool × Buffer β :=
  match s.faults with
  | [] => (true, { s with sent := s.sent ++ b })
  | none :: rest => (true, { s with sent := s.sent ++ b, faults := rest })
  | some k :: rest =>
      (decide (b.length ≤ k), { s with sent := s.sent ++ b.take k, faults := rest })

/-- Write what the buffer has; it is empty then, whether or not this works. -/
def Buffer.flush (s : Buffer β) : Bool × Buffer β :=
  if s.buf = [] then (true, s) else { s with buf := [] }.allwrite s.buf

/-- Take `b`, behind a flush if it does not fit. -/
def Buffer.put (size : Nat) (s : Buffer β) (b : List β) : Bool × Buffer β :=
  if s.buf.length + b.length ≤ size then (true, { s with buf := s.buf ++ b })
  else
    match s.flush with
    | (false, t) => (false, t)
    | (true, t) =>
        if b.length ≤ size then (true, { t with buf := b }) else t.allwrite b

theorem Buffer.allwrite_buf (s : Buffer β) (b : List β) : (s.allwrite b).2.buf = s.buf := by
  unfold allwrite
  split <;> rfl

theorem Buffer.allwrite_ok (s : Buffer β) (b : List β) (h : (s.allwrite b).1 = true) :
    (s.allwrite b).2.sent = s.sent ++ b := by
  unfold allwrite at h ⊢
  split
  · rfl
  · rfl
  · rename_i hf
    rw [hf] at h
    rw [List.take_of_length_le (by simpa using h)]

theorem Buffer.allwrite_fails (s : Buffer β) (b : List β) (h : (s.allwrite b).1 = false) :
    (s.allwrite b).2.sent <+: s.sent ++ b ∧ (s.allwrite b).2.sent ≠ s.sent ++ b := by
  unfold allwrite at h ⊢
  split
  · rename_i hf
    simp [hf] at h
  · rename_i hf
    simp [hf] at h
  · rename_i k rest hf
    have hk : k < b.length := by simpa [hf] using h
    refine ⟨(List.prefix_append_right_inj _).mpr (List.take_prefix k b), fun he => ?_⟩
    have hlen := congrArg List.length (List.append_cancel_left he)
    rw [List.length_take] at hlen
    omega

theorem Buffer.flush_buf (s : Buffer β) : (s.flush).2.buf = [] := by
  unfold flush
  split
  · assumption
  · exact allwrite_buf _ _

theorem Buffer.flush_ok (s : Buffer β) (h : s.flush.1 = true) :
    s.flush.2.sent = s.sent ++ s.buf := by
  unfold flush at h ⊢
  split
  · rename_i hb
    simp [hb]
  · rename_i hb
    rw [if_neg hb] at h
    exact allwrite_ok _ _ h

theorem Buffer.flush_fails (s : Buffer β) (h : s.flush.1 = false) :
    s.flush.2.sent <+: s.sent ++ s.buf ∧ s.flush.2.sent ≠ s.sent ++ s.buf := by
  unfold flush at h ⊢
  split
  · rename_i hb
    simp [hb] at h
  · rename_i hb
    rw [if_neg hb] at h
    exact allwrite_fails _ _ h

/-- **A buffer of a fixed size is an output stream.** -/
def buffered (β : Type) (size : Nat) : OutStream β where
  State := Buffer β
  fdbuf s := { faults := s.faults }
  put := Buffer.put size
  flush := Buffer.flush
  sent s := s.sent
  held s := s.sent ++ s.buf
  sent_fdbuf := fun _ => rfl
  held_fdbuf := fun _ => rfl
  sent_le := fun s => List.prefix_append s.sent s.buf
  held_put := by
    intro s b h
    unfold Buffer.put at h ⊢
    split
    · rw [List.append_assoc]
    rename_i hfit
    rw [if_neg hfit] at h
    have hok := s.flush_ok
    have hbuf := s.flush_buf
    cases hf : s.flush with
    | mk r t =>
        rw [hf] at h hok hbuf
        cases r with
        | false => simp at h
        | true =>
            have hsent := hok rfl
            simp only at h hbuf hsent ⊢
            split
            · rw [hsent]
            · rename_i hbig
              rw [if_neg hbig] at h
              rw [t.allwrite_ok b h, t.allwrite_buf, hbuf, hsent, List.append_nil]
  put_fails := by
    intro s b h
    unfold Buffer.put at h ⊢
    split
    · rename_i hfit
      simp [hfit] at h
    rename_i hfit
    rw [if_neg hfit] at h
    have hok := s.flush_ok
    have hbuf := s.flush_buf
    have hfails := s.flush_fails
    cases hf : s.flush with
    | mk r t =>
        rw [hf] at h hok hbuf hfails
        cases r with
        | false =>
            obtain ⟨hle, hne⟩ := hfails rfl
            simp only at hle hne hbuf ⊢
            rw [hbuf, List.append_nil]
            refine ⟨hle.trans (List.prefix_append _ _), fun he => hne ?_⟩
            rw [he] at hle
            have hlen := hle.length_le
            have hb : b = [] := by
              rw [List.length_append] at hlen
              exact List.eq_nil_of_length_eq_zero (by omega)
            rw [he, hb, List.append_nil]
        | true =>
            have hsent := hok rfl
            simp only at h hbuf hsent ⊢
            split
            · rename_i hsmall
              simp [hsmall] at h
            · rename_i hbig
              rw [if_neg hbig] at h
              rw [t.allwrite_buf, hbuf, List.append_nil, ← hsent]
              exact t.allwrite_fails b h
  sent_flush := fun s h => s.flush_ok h
  flush_fails := fun s h => s.flush_fails h

end Buffered

end IndimailMta.Output
