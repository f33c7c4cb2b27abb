import Mathlib.Data.List.Basic

/-!
# Dialogues

A program that answers what it reads, and collects its answers in a buffer that is
written out before every read. An element of the input that a read had to be made
for is marked: the others came with the read before. So what the program has
answered may stay unsent as long as it finds input at hand.

A reader takes a `Port` and gives a result, or stops with a code. `Reads` says what
was read, `Ends` what every reader leaves of the output.
-/

namespace IndimailMta.Dialogue

variable {β : Type}

/-- What was written, and what still is in the buffer. -/
structure Out (β : Type) where
  held : List β := []
  sent : List β := []
  deriving DecidableEq, Repr

namespace Out

def flush (o : Out β) : Out β := ⟨[], o.sent ++ o.held⟩

/-- Everything that was put. -/
def all (o : Out β) : List β := o.sent ++ o.held

/-- Reading the marked elements `w`. -/
def read (o : Out β) (w : List (Bool × β)) : Out β := if w.any Prod.fst then o.flush else o

theorem flush_flush (o : Out β) : o.flush.flush = o.flush := by
  simp [flush]

theorem all_flush (o : Out β) : o.flush.all = o.all := by
  simp [flush, all]

theorem read_append (o : Out β) (w v : List (Bool × β)) : o.read (w ++ v) = (o.read w).read v := by
  simp only [read, List.any_append, Bool.or_eq_true]
  by_cases hw : w.any Prod.fst = true
  · by_cases hv : v.any Prod.fst = true
    · simp only [hw, hv, true_or, if_true, flush_flush]
    · simp [hw, hv]
  · simp only [hw, false_or, if_false, Bool.false_eq_true]

theorem all_read (o : Out β) (w : List (Bool × β)) : (o.read w).all = o.all := by
  unfold read
  split
  · exact all_flush o
  · rfl

/-- After a read, either all is sent or nothing had to be read for it. -/
theorem held_read (o : Out β) (w : List (Bool × β)) :
    (o.read w).held = [] ↔ o.held = [] ∨ ∃ b ∈ w, b.1 = true := by
  unfold read
  by_cases hw : w.any Prod.fst = true
  · rw [if_pos hw]
    exact iff_of_true rfl (.inr (List.any_eq_true.mp hw))
  · rw [if_neg hw]
    have hnone : ¬ ∃ b ∈ w, b.1 = true := fun h => hw (List.any_eq_true.mpr h)
    simp [hnone]

end Out

/-- A buffer of `size` elements: what `put` sends of the held elements and the new ones, and what
it holds then. New elements that do not fit in an empty buffer are not held. -/
structure Buffering (β : Type) where
  size : Nat
  put : List β → List β → List β × List β
  put_append : ∀ held data, (put held data).1 ++ (put held data).2 = held ++ data
  put_held : ∀ held data, data ≠ [] → ((put held data).2 = [] ↔ size < data.length)

def Out.put (B : Buffering β) (o : Out β) (data : List β) : Out β :=
  ⟨(B.put o.held data).2, o.sent ++ (B.put o.held data).1⟩

theorem Out.all_put (B : Buffering β) (o : Out β) (data : List β) :
    (o.put B data).all = o.all ++ data := by
  simp only [put, all, List.append_assoc, B.put_append]

/-- The texts `data`, one after the other. -/
def Out.puts (B : Buffering β) (o : Out β) (data : List (List β)) : Out β :=
  data.foldl (Out.put B) o

theorem Out.all_puts (B : Buffering β) (o : Out β) (data : List (List β)) :
    (o.puts B data).all = o.all ++ data.flatten := by
  induction data generalizing o with
  | nil => simp [puts]
  | cons d data ih =>
      have h := ih (o.put B d)
      rw [puts, List.foldl_cons, ← puts, h, all_put, List.flatten_cons, List.append_assoc]

/-- Whether something is held depends on the last text. -/
theorem Out.held_puts (B : Buffering β) (o : Out β) {data : List (List β)}
    (hdata : ∀ d ∈ data, d ≠ []) :
    (o.puts B data).held = [] ↔
      match data.getLast? with
      | none => o.held = []
      | some d => B.size < d.length := by
  rcases List.eq_nil_or_concat data with rfl | ⟨before, d, rfl⟩
  · rfl
  · rw [List.concat_eq_append] at hdata ⊢
    rw [puts, List.foldl_append, List.foldl_cons, List.foldl_nil, List.getLast?_concat]
    exact B.put_held _ d (hdata d (by simp))

/-- A buffer of `size` elements that is written out when the new ones do not fit. -/
def buffering (β : Type) (size : Nat) : Buffering β where
  size := size
  put held data :=
    if held.length + data.length ≤ size then ([], held ++ data)
    else if data.length ≤ size then (held, data)
    else (held ++ data, [])
  put_append := by
    intro held data
    by_cases hfit : held.length + data.length ≤ size
    · simp [hfit]
    by_cases hsmall : data.length ≤ size
    · simp [hfit, hsmall]
    · simp [hfit, hsmall]
  put_held := by
    intro held data hdata
    by_cases hfit : held.length + data.length ≤ size
    · simp only [hfit, if_true, List.append_eq_nil_iff, hdata, and_false, false_iff]
      omega
    by_cases hsmall : data.length ≤ size
    · simp only [hfit, hsmall, if_true, if_false, hdata, false_iff]
      omega
    · simp only [hfit, hsmall, if_false, true_iff]
      omega

/-! ## Rounds -/

/-- A round: what is read, and then put. -/
abbrev Round (β : Type) := List (Bool × β) × List (List β)

def Out.rounds (B : Buffering β) (o : Out β) (l : List (Round β)) : Out β :=
  l.foldl (fun o r => (o.read r.1).puts B r.2) o

theorem Out.rounds_cons (B : Buffering β) (o : Out β) (r : Round β) (l : List (Round β)) :
    o.rounds B (r :: l) = ((o.read r.1).puts B r.2).rounds B l := rfl

/-- Rounds put all they put. -/
theorem Out.all_rounds (B : Buffering β) (o : Out β) (l : List (Round β)) :
    (o.rounds B l).all = o.all ++ (l.flatMap Prod.snd).flatten := by
  induction l generalizing o with
  | nil => simp [rounds]
  | cons r l ih =>
      rw [rounds_cons, ih, all_puts, all_read, List.flatMap_cons, List.flatten_append,
        List.append_assoc]

/-- What is put last in the rounds `l`, and followed by reading `v`, is sent: it was too long for
the buffer, or a read had to be made behind it. -/
def LastSent (size : Nat) (l : List (Round β)) (v : List (Bool × β)) : Prop :=
  ∀ before r d after, l = before ++ r :: after → r.2.getLast? = some d →
    (∀ q ∈ after, q.2 = []) → size < d.length ∨ ∃ b ∈ after.flatMap Prod.fst ++ v, b.1 = true

theorem lastSent_cons {size : Nat} {r : Round β} {l : List (Round β)} {v : List (Bool × β)} :
    LastSent size (r :: l) v ↔
      LastSent size l v ∧ ∀ d, r.2.getLast? = some d → (∀ q ∈ l, q.2 = []) →
        size < d.length ∨ ∃ b ∈ l.flatMap Prod.fst ++ v, b.1 = true := by
  constructor
  · intro h
    refine ⟨?_, fun d hd hl => h [] r d l rfl hd hl⟩
    intro before q d after hl hd hafter
    exact h (r :: before) q d after (by rw [hl, List.cons_append]) hd hafter
  · rintro ⟨hl, hr⟩ before q d after heq hd hafter
    cases before with
    | nil =>
        obtain ⟨rfl, rfl⟩ := List.cons.inj heq
        exact hr d hd hafter
    | cons p before =>
        obtain ⟨-, rfl⟩ := List.cons.inj heq
        exact hl before q d after rfl hd hafter

/-- Nothing is held if what was put last is sent, and where nothing was put, if nothing was held
before or a read had to be made. -/
theorem Out.held_rounds (B : Buffering β) (o : Out β) {l : List (Round β)}
    (hl : ∀ r ∈ l, ∀ d ∈ r.2, d ≠ []) (v : List (Bool × β)) :
    ((o.rounds B l).read v).held = [] ↔
      LastSent B.size l v ∧ ((∀ r ∈ l, r.2 = []) → o.held = [] ∨
        ∃ b ∈ l.flatMap Prod.fst ++ v, b.1 = true) := by
  induction l generalizing o with
  | nil =>
      have hnone : LastSent B.size ([] : List (Round β)) v := by
        intro before r d after heq
        simp at heq
      simp [rounds, held_read, hnone]
  | cons r l ih =>
      have hputs := held_puts B (o.read r.1) (hl r List.mem_cons_self)
      rw [rounds_cons, ih _ fun q hq => hl q (List.mem_cons_of_mem r hq), lastSent_cons, hputs]
      cases hr : r.2.getLast? with
      | none =>
          have hempty : r.2 = [] := List.getLast?_eq_none_iff.mp hr
          simp only [hempty, reduceCtorEq, false_implies, implies_true, and_true, held_read,
            List.mem_cons, forall_eq_or_imp, true_and, List.flatMap_cons, List.append_assoc]
          refine and_congr_right fun _ => imp_congr_right fun _ => ?_
          simp only [List.mem_append, or_and_right, exists_or, or_assoc]
      | some d =>
          have hne : r.2 ≠ [] := by
            intro h
            rw [h] at hr
            cases hr
          simp only [Option.some.injEq, forall_eq', List.mem_cons, forall_eq_or_imp, hne,
            false_and, false_implies, and_true]

/-! ## Readers -/

/-- The input to come, and the output. -/
structure Port (β : Type) where
  input : List (Bool × β)
  out : Out β
  deriving DecidableEq, Repr

/-- The reads to come, with the elements of each; an empty one is the end. -/
def marked (reads : List (List β)) : List (Bool × β) :=
  reads.flatMap fun
    | [] => []
    | b :: bs => (true, b) :: bs.map (Prod.mk false)

/-- The elements, without the marks. -/
def text (w : List (Bool × β)) : List β := w.map Prod.snd

@[simp] theorem text_nil : text ([] : List (Bool × β)) = [] := rfl

@[simp] theorem text_cons (b : Bool × β) (w : List (Bool × β)) : text (b :: w) = b.2 :: text w :=
  rfl

@[simp] theorem text_append (w v : List (Bool × β)) : text (w ++ v) = text w ++ text v :=
  List.map_append

@[simp] theorem length_text (w : List (Bool × β)) : (text w).length = w.length := List.length_map _

theorem text_marked (reads : List (List β)) : text (marked reads) = reads.flatten := by
  induction reads with
  | nil => rfl
  | cons bs reads ih =>
      rw [List.flatten_cons, ← ih, marked, List.flatMap_cons, text_append, ← marked]
      congr 1
      cases bs with
      | nil => rfl
      | cons b bs => simp [text, Function.comp_def]

/-- A text split in two was read as two. -/
theorem text_eq_append {w : List (Bool × β)} {x y : List β} (h : text w = x ++ y) :
    ∃ u v, w = u ++ v ∧ text u = x ∧ text v = y := by
  obtain ⟨u, v, rfl, hu, hv⟩ := List.map_eq_append_iff.mp h
  exact ⟨u, v, rfl, hu, hv⟩

/-- `w` was read. -/
def Reads (s : Port β) (w : List (Bool × β)) (s' : Port β) : Prop :=
  s.input = w ++ s'.input ∧ s'.out = s.out.read w

theorem Reads.refl (s : Port β) : Reads s [] s := ⟨rfl, rfl⟩

theorem Reads.trans {s s' s'' : Port β} {w v : List (Bool × β)} (h : Reads s w s')
    (h' : Reads s' v s'') : Reads s (w ++ v) s'' :=
  ⟨by rw [h.1, h'.1, List.append_assoc], by rw [h'.2, h.2, Out.read_append]⟩

/-- What was read as a whole was read part by part. -/
theorem Reads.split {s s'' : Port β} {w v : List (Bool × β)} (h : Reads s (w ++ v) s'') :
    ∃ s', Reads s w s' ∧ Reads s' v s'' :=
  ⟨⟨v ++ s''.input, s.out.read w⟩, ⟨by rw [h.1, List.append_assoc], rfl⟩, rfl,
    by rw [h.2, Out.read_append]⟩

/-- One element, or the end: before the next read the output is written. -/
def get (s : Port β) : Except (Nat × Port β) (β × Port β) :=
  match s.input with
  | [] => .error (0, ⟨[], s.out.flush⟩)
  | b :: rest => .ok (b.2, ⟨rest, s.out.read [b]⟩)

theorem get_eq_ok {s s' : Port β} {b : β} :
    get s = .ok (b, s') ↔ ∃ w, Reads s w s' ∧ text w = [b] := by
  constructor
  · intro h
    unfold get at h
    split at h
    · cases h
    · rename_i c rest hs
      cases h
      exact ⟨[c], ⟨hs, rfl⟩, rfl⟩
  · rintro ⟨w, ⟨hinput, hout⟩, hw⟩
    obtain ⟨c, rfl, rfl⟩ := List.map_eq_singleton_iff.mp hw
    rcases s' with ⟨rest, out⟩
    obtain rfl : out = s.out.read [c] := hout
    rw [get, hinput]
    rfl

/-- How a reader ends: it has read something; and where it stops for want of input (code 0), the
output is written. -/
def Ends {α : Type} (s : Port β) : Except (Nat × Port β) (α × Port β) → Prop
  | .ok (_, s') => ∃ w, Reads s w s'
  | .error (code, s') => ∃ w, s.input = w ++ s'.input ∧
      s'.out = if code = 0 then s.out.flush else s.out.read w

theorem ends_get (s : Port β) : Ends s (get s) := by
  unfold get
  split
  · rename_i hs
    exact ⟨[], hs, rfl⟩
  · rename_i b rest hs
    exact ⟨[b], hs, rfl⟩

theorem Ends.ok {α : Type} (a : α) (s : Port β) :
    Ends s (.ok (a, s) : Except (Nat × Port β) (α × Port β)) :=
  ⟨[], Reads.refl s⟩

theorem Ends.throw {α : Type} {code : Nat} (hcode : code ≠ 0) (s : Port β) :
    Ends s (.error (code, s) : Except (Nat × Port β) (α × Port β)) :=
  ⟨[], rfl, by rw [if_neg hcode]; rfl⟩

/-- Behind something that was read. -/
theorem Ends.of_reads {α : Type} {s s' : Port β} {w : List (Bool × β)}
    {r : Except (Nat × Port β) (α × Port β)} (h : Reads s w s') (hr : Ends s' r) : Ends s r := by
  cases r with
  | ok p =>
      obtain ⟨v, hv⟩ := hr
      exact ⟨w ++ v, h.trans hv⟩
  | error e =>
      obtain ⟨v, hinput, hout⟩ := hr
      refine ⟨w ++ v, by rw [h.1, hinput, List.append_assoc], ?_⟩
      rw [hout, h.2]
      split
      · unfold Out.read
        split
        · rw [Out.flush_flush]
        · rfl
      · rw [Out.read_append]

/-- Readers one after the other. -/
theorem Ends.bind {α γ : Type} {s : Port β} {r : Except (Nat × Port β) (α × Port β)}
    {f : α × Port β → Except (Nat × Port β) (γ × Port β)} (hr : Ends s r)
    (hf : ∀ a s', r = .ok (a, s') → Ends s' (f (a, s'))) : Ends s (r >>= f) := by
  cases r with
  | error e => exact hr
  | ok p =>
      obtain ⟨w, hw⟩ := hr
      exact (hf p.1 p.2 rfl).of_reads hw

end IndimailMta.Dialogue
