import Mathlib.Data.List.Induction
import Mathlib.Data.List.Nodup
import IndimailMta.Base
import IndimailMta.Lib.Worklist

/-!
# Forwarding by a table

`fastforward` looks the recipient up in a table. What it finds is a list of entries: a program that
is run, a file with more entries, or an address, which is looked up itself. Pending entries are a
stack of texts in one buffer, and `done` has the entries that were taken from it, marks included.

The recipient is put into `done` without a mark.
-/

namespace IndimailMta.Fastforward

open IndimailMta Lib.Worklist

/-! ## The code -/

/-- The table, the files, the programs, and the options. A file has one of finitely many contents,
under as many names as there are; no content is one that cannot be read. A program is run after
others, and has an exit code for `fastforward` where it does not let it go on. -/
structure Site where
  cdb : List (Bytes × Bytes)
  contents : List Bytes
  file : Bytes → Option Bytes
  file_mem : ∀ fn c, file fn = some c → c ∈ contents
  program : List Bytes → Bytes → Option Nat
  flagdeliver : Bool
  flagpassthrough : Bool

/-- `sender`, `todo` and `forward`, `done` with its newest text first, and the programs that were
run. -/
structure State where
  sender : Bytes
  todo : Bytes
  forward : Bytes
  done : List Bytes
  programs : List Bytes
  deriving DecidableEq, Repr

variable (site : Site)

/-- The data of the first record under a key. -/
def cdb_seek (key : Bytes) : Option Bytes := (site.cdb.find? fun r => r.1 == key).map Prod.snd

/-- `findtarget`, and the data that `gettarget` reads where it has stopped. -/
def findtarget (flagwild : Bool) (mark : Byte) (addr : Bytes) : Option Bytes :=
  match cdb_seek site (caseLower (mark :: addr)) with
  | some data => some data
  | none =>
      let at_ := byteRchr addr 64
      if flagwild = false then none
      else if at_ = addr.length then none
      else
        match cdb_seek site (caseLower (mark :: addr.drop at_)) with
        | some data => some data
        | none => cdb_seek site (caseLower (mark :: addr.take (at_ + 1)))

/-- What a loop over `i` and `j` finds: the texts that end with a NUL. -/
def terminated : Bytes → Bytes → List Bytes
  | _, [] => []
  | text, b :: s => if b = 0 then text :: terminated [] s else terminated (text ++ [b]) s

/-- An entry of a file, or of data, that is pushed. -/
def isPushed (text : Bytes) : Bool :=
  text.head? == some 46 || text.head? == some 47 ||
    (text.head? == some 38 && decide (text.length < 900))

def push (st : State) (text : Bytes) : State := { st with todo := st.todo ++ text ++ [0] }

/-- The exit code, or what comes next. -/
def doprogram (st : State) (arg : Bytes) : Except Nat State :=
  if site.flagdeliver then
    match site.program st.programs arg with
    | some code => .error code
    | none => .ok { st with programs := arg :: st.programs }
  else .ok st

def dofile (st : State) (fn : Bytes) : Except Nat State :=
  match site.file fn with
  | none => .error 111
  | some mailinglist =>
      .ok ((terminated [] mailinglist).foldl (fun st text => if isPushed text then push st text else st)
        st)

/-- One text of `data`. -/
def datum (st : State) (text : Bytes) : Except Nat State :=
  if text.head? = some 124 ∨ text.head? = some 33 then doprogram site st text
  else if isPushed text then .ok (push st text)
  else .ok st

def dodata (st : State) (data : Bytes) : Except Nat State :=
  (terminated [] data).foldlM (datum site) st

def dorecip (st : State) (addr : Bytes) : Except Nat State :=
  match findtarget site false 63 addr, findtarget site false 58 addr with
  | none, some data => dodata site st data
  | _, _ => .ok { st with forward := st.forward ++ addr ++ [0] }

def doorigrecip (st : State) (addr : Bytes) : Except Nat State :=
  let st :=
    if st.sender ≠ [] ∧ st.sender ≠ asc "#@[]" then
      match findtarget site true 63 addr with
      | some data => { st with sender := data }
      | none => st
    else st
  match findtarget site true 58 addr with
  | none => .error (if site.flagpassthrough then 0 else 100)
  | some data => dodata site st data

/-- The loop over `i`: where the last text begins. -/
def lastText (s : Bytes) : Nat → Nat
  | 0 => 0
  | i + 1 => if s.getD i 0 ≠ 0 then lastText s i else i + 1

/-- One turn of the loop over `todo`. -/
def turn (st : State) : Except Nat State :=
  let i := lastText st.todo (st.todo.length - 1)
  let x := cstr (st.todo.drop i)
  let st := { st with todo := st.todo.take i }
  if x ∈ st.done then .ok st
  else
    let st := { st with done := x :: st.done }
    if x = [] then .ok st
    else if x.head? = some 46 ∨ x.head? = some 47 then dofile site st x
    else dorecip site st x.tail

/-- No value if it has not ended in so many turns. -/
def loop : Nat → State → Option (Except Nat State)
  | 0, _ => none
  | turns + 1, st =>
      if st.todo = [] then some (.ok st)
      else
        match turn site st with
        | .error code => some (.error code)
        | .ok st => loop turns st

/-- The loop over `forward`: the recipients in the order in which they are passed to `qmail_to`. -/
def recipients : Nat → Bytes → List Bytes
  | 0, _ => []
  | n + 1, forward =>
      if forward = [] then []
      else
        let i := lastText forward (forward.length - 1)
        cstr (forward.drop i) :: recipients n (forward.take i)

/-- `main`, up to the message: the sender and the recipients, or the exit code. -/
def main (turns : Nat) (sender recipient : Bytes) : Option (Except Nat (Bytes × List Bytes)) :=
  match doorigrecip site ⟨sender, [], [], [recipient], []⟩ recipient with
  | .error code => some (.error code)
  | .ok st =>
      (loop site turns st).map fun r =>
        r.map fun st => (st.sender, recipients st.forward.length st.forward)

/-! ## What is to be forwarded -/

/-- The entries of data or of a file. -/
def entries (data : Bytes) : List Bytes := (terminated [] data).filter isPushed

/-- An address without a `:` record, or with a `?` record. -/
def Forwards (addr : Bytes) : Prop :=
  findtarget site false 58 addr = none ∨ findtarget site false 63 addr ≠ none

instance (addr : Bytes) : Decidable (Forwards site addr) :=
  inferInstanceAs (Decidable (_ ∨ _))

/-- What an entry leads to. -/
def next (entry : Bytes) : List Bytes :=
  if entry.head? = some 46 ∨ entry.head? = some 47 then
    match site.file entry with
    | none => []
    | some c => entries c
  else if Forwards site entry.tail then []
  else
    match findtarget site false 58 entry.tail with
    | none => []
    | some data => entries data

/-- The entries of the recipient. -/
def first (recipient : Bytes) : List Bytes :=
  match findtarget site true 58 recipient with
  | none => []
  | some data => entries data

/-- The entry can be reached from the recipient. -/
def Reached (recipient entry : Bytes) : Prop :=
  Reach (next site) (fun _ => False) (first site recipient) entry

/-- It can be reached without an entry that is written as the recipient is. -/
def ReachedOtherwise (recipient entry : Bytes) : Prop :=
  Reach (next site) (· ∈ [recipient]) (first site recipient) entry

/-! ## Texts and stacks -/

section
variable {site} {s t u text data : Bytes} {ts : List Bytes} {st st' : State}

theorem nul_notMem_terminated (htext : 0 ∉ text) (ht : t ∈ terminated text s) : 0 ∉ t := by
  induction s generalizing text with
  | nil => cases ht
  | cons b s ih =>
      rw [terminated] at ht
      split_ifs at ht with hb
      · rcases List.mem_cons.mp ht with rfl | ht
        · exact htext
        · exact ih (by simp) ht
      · refine ih (fun h => ?_) ht
        rcases List.mem_append.mp h with h | h
        · exact htext h
        · exact hb (List.mem_singleton.mp h).symm

/-- An entry has no NUL, and a mark. -/
theorem mem_entries (ht : t ∈ entries data) : 0 ∉ t ∧ isPushed t = true := by
  obtain ⟨hmem, hpushed⟩ := List.mem_filter.mp ht
  exact ⟨nul_notMem_terminated (by simp) hmem, hpushed⟩

/-- Where the last text begins: behind the NUL in front of it. -/
theorem lastText_eq (ht : 0 ∉ t) (hu : ∀ x ∈ u.getLast?, x = 0) (rest : Bytes) :
    lastText (u ++ t ++ rest) (u.length + t.length) = u.length := by
  induction t using List.reverseRecOn generalizing rest with
  | nil =>
      rw [List.append_nil, List.length_nil, Nat.add_zero]
      rcases List.eq_nil_or_concat' u with rfl | ⟨v, b, rfl⟩
      · rfl
      · have hb : b = 0 := hu b (by rw [List.getLast?_concat]; rfl)
        rw [List.length_append, List.length_singleton, lastText, if_neg]
        rw [hb, List.append_assoc, List.singleton_append, getD_middle]
        exact not_not_intro rfl
  | append_singleton t b ih =>
      have hb : b ≠ 0 := fun h => ht (by rw [h]; simp)
      have hget : (u ++ (t ++ [b]) ++ rest).getD (u.length + t.length) 0 = b := by
        rw [← List.append_assoc, List.append_assoc (u ++ t), List.singleton_append,
          ← List.length_append, getD_middle]
      rw [List.length_append, List.length_singleton, ← Nat.add_assoc, lastText, hget, if_pos hb]
      have := ih (fun h => ht (List.mem_append_left _ h)) ([b] ++ rest)
      rwa [List.append_assoc, ← List.append_assoc t, ← List.append_assoc] at this

theorem nuls_concat (ts : List Bytes) (t : Bytes) : nuls (ts ++ [t]) = nuls ts ++ t ++ [0] := by
  rw [nuls_append, nuls_cons, nuls_nil]
  simp

theorem nuls_last (ts : List Bytes) : ∀ x ∈ (nuls ts).getLast?, x = 0 := by
  intro x hx
  rcases List.eq_nil_or_concat' ts with rfl | ⟨us, t, rfl⟩
  · cases hx
  · rw [nuls_concat, List.getLast?_concat] at hx
    exact (Option.some.inj hx).symm

/-- The last text of a stack, and what is in front of it. -/
theorem pop_eq (ht : 0 ∉ t) :
    (nuls (ts ++ [t])).take (lastText (nuls (ts ++ [t])) ((nuls (ts ++ [t])).length - 1)) =
        nuls ts ∧
      cstr ((nuls (ts ++ [t])).drop
        (lastText (nuls (ts ++ [t])) ((nuls (ts ++ [t])).length - 1))) = t := by
  have hlen : (nuls (ts ++ [t])).length - 1 = (nuls ts).length + t.length := by
    rw [nuls_concat, List.length_append, List.length_append, List.length_singleton,
      Nat.add_sub_cancel]
  rw [hlen, nuls_concat, lastText_eq ht (nuls_last ts), List.append_assoc, List.take_left,
    List.drop_left, cstr_append_nul ht]
  exact ⟨rfl, rfl⟩

/-- **The recipients**, from the last to the first. -/
theorem recipients_nuls {n : Nat} (hn : ts.length ≤ n) (hts : ∀ t ∈ ts, 0 ∉ t) :
    recipients n (nuls ts) = ts.reverse := by
  induction ts using List.reverseRecOn generalizing n with
  | nil => cases n <;> rfl
  | append_singleton ts t ih =>
      obtain ⟨n, rfl⟩ : ∃ k, n = k + 1 := ⟨n - 1, by
        rw [List.length_append, List.length_singleton] at hn
        omega⟩
      have hne : nuls (ts ++ [t]) ≠ [] := by
        rw [nuls_concat]
        simp
      obtain ⟨htake, hdrop⟩ := @pop_eq t ts (hts t (by simp))
      rw [recipients, if_neg hne]
      dsimp only
      rw [htake, hdrop, ih (by simpa using hn) fun x hx => hts x (List.mem_append_left _ hx),
        List.reverse_append]
      rfl

/-! ## What one entry does -/

/-- The rest of a state is as it was, and texts are pushed. -/
structure Pushes (st : State) (ts : List Bytes) (st' : State) : Prop where
  todo : st'.todo = st.todo ++ nuls ts
  done : st'.done = st.done
  forward : st'.forward = st.forward

theorem Pushes.nil (st : State) : Pushes st [] st where
  todo := by simp
  done := rfl
  forward := rfl

theorem Pushes.cons {st₁ st₂ : State} (h₁ : Pushes st ts st₁) {us : List Bytes}
    (h₂ : Pushes st₁ us st₂) : Pushes st (ts ++ us) st₂ where
  todo := by rw [h₂.todo, h₁.todo, nuls_append, List.append_assoc]
  done := h₂.done.trans h₁.done
  forward := h₂.forward.trans h₁.forward

theorem push_pushes (st : State) (t : Bytes) : Pushes st [t] (push st t) where
  todo := by
    rw [push, nuls_cons, nuls_nil]
    simp
  done := rfl
  forward := rfl

theorem datum_pushes (h : datum site st t = .ok st') : Pushes st ([t].filter isPushed) st' := by
  rw [datum] at h
  split_ifs at h with hprogram hpushed
  · have hno : isPushed t = false := by
      rw [isPushed]
      rcases hprogram with h | h <;> rw [h] <;> rfl
    rw [List.filter_cons_of_neg (by rw [hno]; decide), List.filter_nil]
    rw [doprogram] at h
    split_ifs at h
    · cases hcode : site.program st.programs t with
      | none =>
          rw [hcode] at h
          cases h
          exact ⟨by simp, rfl, rfl⟩
      | some code =>
          rw [hcode] at h
          cases h
    · cases h
      exact .nil _
  · cases h
    rw [List.filter_cons_of_pos hpushed, List.filter_nil]
    exact push_pushes _ _
  · cases h
    rw [List.filter_cons_of_neg hpushed, List.filter_nil]
    exact .nil _

theorem foldlM_pushes (h : ts.foldlM (datum site) st = .ok st') :
    Pushes st (ts.filter isPushed) st' := by
  induction ts generalizing st with
  | nil =>
      cases h
      exact .nil _
  | cons t ts ih =>
      rw [List.foldlM_cons] at h
      cases hdatum : datum site st t with
      | error code =>
          rw [hdatum] at h
          cases h
      | ok st₁ =>
          rw [hdatum] at h
          have := (datum_pushes hdatum).cons (ih h)
          rwa [← List.filter_append] at this

theorem dodata_pushes (h : dodata site st data = .ok st') : Pushes st (entries data) st' :=
  foldlM_pushes h

theorem foldl_pushes (ts : List Bytes) (st : State) :
    Pushes st (ts.filter isPushed)
      (ts.foldl (fun st text => if isPushed text then push st text else st) st) := by
  induction ts generalizing st with
  | nil => exact .nil _
  | cons t ts ih =>
      rw [List.foldl_cons]
      by_cases hpushed : isPushed t = true
      · rw [if_pos hpushed, List.filter_cons_of_pos hpushed]
        exact (push_pushes st t).cons (ih _)
      · rw [if_neg hpushed, List.filter_cons_of_neg hpushed]
        exact ih _

theorem dofile_pushes {fn : Bytes} (h : dofile site st fn = .ok st') :
    ∃ c, site.file fn = some c ∧ Pushes st (entries c) st' := by
  rw [dofile] at h
  cases hfile : site.file fn with
  | none =>
      rw [hfile] at h
      cases h
  | some c =>
      rw [hfile] at h
      cases h
      exact ⟨c, rfl, foldl_pushes _ _⟩

end

/-! ## The loop -/

/-- The address that an entry adds to `forward`. -/
def forwardOf (entry : Bytes) : Option Bytes :=
  if entry.head? = some 38 ∧ Forwards site entry.tail then some entry.tail else none

/-- The code's state is a state of the work: the stack is the buffer, and `forward` has what the
entries add that are done. -/
structure Sim (recipient : Bytes) (st : State) (s : Lib.Worklist.State Bytes) : Prop where
  todo : st.todo = nuls s.todo.reverse
  done : st.done = s.done
  texts : ∀ x ∈ s.todo, 0 ∉ x ∧ isPushed x = true
  forward : ∃ new, s.done = new ++ [recipient] ∧
    st.forward = nuls (new.filterMap (forwardOf site)).reverse ∧ ∀ x ∈ new, 0 ∉ x

section
variable {site} {recipient : Bytes} {st st' : State} {s : Lib.Worklist.State Bytes}

/-- What a turn does to an entry that is not done. -/
theorem visit_pushes {x : Bytes} (hx : isPushed x = true)
    (h : (if x = [] then .ok st
      else if x.head? = some 46 ∨ x.head? = some 47 then dofile site st x
      else dorecip site st x.tail) = Except.ok st') :
    st'.todo = st.todo ++ nuls (next site x) ∧ st'.done = st.done ∧
      st'.forward = st.forward ++ nuls (forwardOf site x).toList := by
  have hne : x ≠ [] := by
    rintro rfl
    cases hx
  rw [if_neg hne] at h
  rw [next, forwardOf]
  by_cases hfile : x.head? = some 46 ∨ x.head? = some 47
  · have hno : ¬ (x.head? = some 38 ∧ Forwards site x.tail) := by
      rintro ⟨h38, -⟩
      rw [h38] at hfile
      exact absurd hfile (by decide)
    rw [if_pos hfile] at h ⊢
    obtain ⟨c, hc, hpush⟩ := dofile_pushes h
    rw [hc, if_neg hno]
    exact ⟨hpush.todo, hpush.done, by simpa using hpush.forward⟩
  · have h38 : x.head? = some 38 := by
      rw [not_or] at hfile
      simp only [isPushed, Bool.or_eq_true, beq_iff_eq, Bool.and_eq_true] at hx
      exact (hx.resolve_left fun h => h.elim hfile.1 hfile.2).1
    rw [if_neg hfile] at h ⊢
    rw [dorecip] at h
    by_cases hforwards : Forwards site x.tail
    · have hst : st' = { st with forward := st.forward ++ x.tail ++ [0] } := by
        rcases hforwards with hnone | hsome
        · rw [hnone] at h
          cases hq : findtarget site false 63 x.tail <;> rw [hq] at h <;> cases h <;> rfl
        · obtain ⟨data, hdata⟩ := Option.ne_none_iff_exists'.mp hsome
          rw [hdata] at h
          cases h
          rfl
      rw [if_pos hforwards, if_pos ⟨h38, hforwards⟩, hst]
      simp
    · rw [if_neg hforwards, if_neg fun h => hforwards h.2]
      rw [Forwards, not_or, not_not] at hforwards
      obtain ⟨data, hdata⟩ := Option.ne_none_iff_exists'.mp hforwards.1
      rw [hforwards.2, hdata] at h
      rw [hdata]
      have hpush := dodata_pushes h
      exact ⟨hpush.todo, hpush.done, by simpa using hpush.forward⟩

theorem next_texts {x y : Bytes} (hy : y ∈ next site x) : 0 ∉ y ∧ isPushed y = true := by
  rw [next] at hy
  split_ifs at hy
  · cases hfile : site.file x with
    | none =>
        rw [hfile] at hy
        cases hy
    | some c =>
        rw [hfile] at hy
        exact mem_entries hy
  · cases hy
  · cases hdata : findtarget site false 58 x.tail with
    | none =>
        rw [hdata] at hy
        cases hy
    | some data =>
        rw [hdata] at hy
        exact mem_entries hy

/-- **One turn** that does not end the program is a step of the work. -/
theorem turn_sim (hs : Sim site recipient st s) (hne : st.todo ≠ [])
    (h : turn site st = .ok st') :
    ∃ s', Step (next site) s s' ∧ Sim site recipient st' s' := by
  obtain ⟨htodo, hdone, htexts, new, hnew, hforward, hnuls⟩ := hs
  obtain ⟨done, todo⟩ := s
  cases todo with
  | nil => exact (hne htodo).elim
  | cons x todo =>
      obtain ⟨hx0, hxp⟩ := htexts x List.mem_cons_self
      have htail : ∀ y ∈ todo, 0 ∉ y ∧ isPushed y = true := fun y hy =>
        htexts y (List.mem_cons_of_mem _ hy)
      obtain ⟨htake, hdrop⟩ := @pop_eq x todo.reverse hx0
      rw [List.reverse_cons] at htodo
      dsimp only at hdone hnew
      rw [turn, htodo] at h
      dsimp only at h
      rw [htake, hdrop, hdone] at h
      by_cases hxd : x ∈ done
      · rw [if_pos hxd] at h
        cases h
        exact ⟨_, .skip hxd, ⟨rfl, rfl, htail, new, hnew, hforward, hnuls⟩⟩
      · rw [if_neg hxd] at h
        obtain ⟨h1, h2, h3⟩ := visit_pushes hxp h
        refine ⟨_, .visit hxd, ⟨?_, ?_, ?_, x :: new, ?_, ?_, ?_⟩⟩
        · rw [h1, List.reverse_append, List.reverse_reverse, nuls_append]
        · rw [h2]
        · intro y hy
          rcases List.mem_append.mp hy with hy | hy
          · exact next_texts (List.mem_reverse.mp hy)
          · exact htail y hy
        · rw [hnew]
          rfl
        · rw [h3]
          dsimp only
          rw [hforward, ← nuls_append]
          cases hf : forwardOf site x with
          | none => rw [List.filterMap_cons_none hf, Option.toList_none, List.append_nil]
          | some addr =>
              rw [List.filterMap_cons_some hf, List.reverse_cons, Option.toList_some]
        · exact List.forall_mem_cons.mpr ⟨hx0, hnuls⟩

/-- **A run** of the loop that does not end the program is a run of the work. -/
theorem loop_sim {turns : Nat} (hs : Sim site recipient st s)
    (h : loop site turns st = some (.ok st')) :
    ∃ done, Relation.ReflTransGen (Step (next site)) s ⟨done, []⟩ ∧
      Sim site recipient st' ⟨done, []⟩ := by
  induction turns generalizing st s with
  | zero => cases h
  | succ turns ih =>
      rw [loop] at h
      by_cases hnil : st.todo = []
      · rw [if_pos hnil] at h
        cases h
        obtain ⟨done, todo⟩ := s
        have htodo : todo = [] := by
          have hlen := length_le_nuls todo.reverse
          rw [← hs.todo, hnil, List.length_reverse] at hlen
          exact List.eq_nil_of_length_eq_zero (Nat.le_zero.mp hlen)
        subst htodo
        exact ⟨done, .refl, hs⟩
      · rw [if_neg hnil] at h
        cases hturn : turn site st with
        | error code =>
            rw [hturn] at h
            cases h
        | ok st₁ =>
            rw [hturn] at h
            obtain ⟨s₁, hstep, hs₁⟩ := turn_sim hs hnil hturn
            obtain ⟨done, hrun, hsim⟩ := ih hs₁ h
            exact ⟨done, .head hstep hrun, hsim⟩

/-- **The loop ends**, if every run of the work does. -/
theorem loop_ends (hacc : Acc (fun a b => Step (next site) b a) s)
    (hs : Sim site recipient st s) : ∃ turns r, loop site turns st = some r := by
  induction hacc generalizing st with
  | intro s _ ih =>
      by_cases hnil : st.todo = []
      · exact ⟨1, .ok st, by rw [loop, if_pos hnil]⟩
      · cases hturn : turn site st with
        | error code => exact ⟨1, .error code, by rw [loop, if_neg hnil, hturn]⟩
        | ok st₁ =>
            obtain ⟨s₁, hstep, hs₁⟩ := turn_sim hs hnil hturn
            obtain ⟨turns, r, hloop⟩ := ih s₁ hstep hs₁
            exact ⟨turns + 1, r, by rw [loop, if_neg hnil, hturn]; exact hloop⟩

end

/-! ## Aliases -/

section
variable {site} {recipient : Bytes}

/-- Everything that is pushed is of the table or of a file. -/
def allEntries (site : Site) : List Bytes :=
  site.cdb.flatMap (fun r => entries r.2) ++ site.contents.flatMap entries

theorem cdb_seek_mem {key data : Bytes} (h : cdb_seek site key = some data) :
    ∃ r ∈ site.cdb, r.2 = data := by
  obtain ⟨r, hr, rfl⟩ := Option.map_eq_some_iff.mp h
  exact ⟨r, List.mem_of_find?_eq_some hr, rfl⟩

theorem findtarget_mem {flagwild : Bool} {mark : Byte} {addr data : Bytes}
    (h : findtarget site flagwild mark addr = some data) : ∃ r ∈ site.cdb, r.2 = data := by
  rw [findtarget] at h
  cases h1 : cdb_seek site (caseLower (mark :: addr)) with
  | some d =>
      rw [h1] at h
      cases h
      exact cdb_seek_mem h1
  | none =>
      rw [h1] at h
      dsimp only at h
      split_ifs at h
      cases h2 : cdb_seek site (caseLower (mark :: addr.drop (byteRchr addr 64))) with
      | some d =>
          rw [h2] at h
          cases h
          exact cdb_seek_mem h2
      | none =>
          rw [h2] at h
          exact cdb_seek_mem h

theorem entries_mem {flagwild : Bool} {mark : Byte} {addr data x : Bytes}
    (h : findtarget site flagwild mark addr = some data) (hx : x ∈ entries data) :
    x ∈ allEntries site := by
  obtain ⟨r, hr, rfl⟩ := findtarget_mem h
  exact List.mem_append_left _ (List.mem_flatMap.mpr ⟨r, hr, hx⟩)

theorem next_mem {x y : Bytes} (hy : y ∈ next site x) : y ∈ allEntries site := by
  rw [next] at hy
  split_ifs at hy
  · cases hfile : site.file x with
    | none =>
        rw [hfile] at hy
        cases hy
    | some c =>
        rw [hfile] at hy
        exact List.mem_append_right _ (List.mem_flatMap.mpr ⟨c, site.file_mem x c hfile, hy⟩)
  · cases hy
  · cases hdata : findtarget site false 58 x.tail with
    | none =>
        rw [hdata] at hy
        cases hy
    | some data =>
        rw [hdata] at hy
        exact entries_mem hdata hy

/-- The recipient is done, and its entries are pushed. -/
theorem doorigrecip_sim {sender : Bytes} {st : State}
    (h : doorigrecip site ⟨sender, [], [], [recipient], []⟩ recipient = .ok st) :
    Sim site recipient st ⟨[recipient], (first site recipient).reverse⟩ ∧
      ∀ x ∈ first site recipient, x ∈ allEntries site := by
  rw [doorigrecip] at h
  rw [first]
  cases hdata : findtarget site true 58 recipient with
  | none =>
      rw [hdata] at h
      cases h
  | some data =>
      rw [hdata] at h
      have hpush := dodata_pushes h
      refine ⟨⟨?_, ?_, fun x hx => mem_entries (List.mem_reverse.mp hx), [], rfl, ?_, by simp⟩,
        fun x hx => entries_mem hdata hx⟩
      · rw [hpush.todo, List.reverse_reverse]
        split_ifs
        · cases findtarget site true 63 recipient <;> rfl
        · rfl
      · rw [hpush.done]
        split_ifs
        · cases findtarget site true 63 recipient <;> rfl
        · rfl
      · rw [hpush.forward]
        split_ifs
        · cases findtarget site true 63 recipient <;> rfl
        · rfl

/-- An entry in `forward` is the address of one entry only. -/
theorem mem_forwardOf {entry addr : Bytes} :
    addr ∈ forwardOf site entry ↔ entry = 38 :: addr ∧ Forwards site addr := by
  rw [forwardOf, Option.mem_def, Option.ite_none_right_eq_some]
  constructor
  · rintro ⟨⟨h38, hf⟩, heq⟩
    obtain rfl := Option.some.inj heq
    exact ⟨(List.cons_head?_tail h38).symm, hf⟩
  · rintro ⟨rfl, hf⟩
    exact ⟨⟨rfl, hf⟩, rfl⟩

/-- What a run passes: the addresses that are reached without an entry that is written as the
recipient is, each once. -/
theorem main_recipients {turns : Nat} {sender sender' : Bytes} {rs : List Bytes}
    (h : main site turns sender recipient = some (.ok (sender', rs))) :
    rs.Nodup ∧ ∀ addr, addr ∈ rs ↔
      ReachedOtherwise site recipient (38 :: addr) ∧ Forwards site addr := by
  rw [main] at h
  cases horig : doorigrecip site ⟨sender, [], [], [recipient], []⟩ recipient with
  | error code =>
      rw [horig] at h
      cases h
  | ok st =>
      rw [horig] at h
      obtain ⟨r, hloop, hr⟩ := Option.map_eq_some_iff.mp h
      cases r with
      | error code => cases hr
      | ok st' =>
          cases hr
          obtain ⟨done, hrun, hsim⟩ := loop_sim (doorigrecip_sim horig).1 hloop
          obtain ⟨new, hdone, hnodup, hreach⟩ := done_iff_reach hrun
          obtain ⟨new', hnew', hforward, hnuls⟩ := hsim.forward
          obtain rfl : new' = new := List.append_cancel_right (hnew'.symm.trans hdone)
          have hrs : recipients st'.forward.length st'.forward =
              new'.filterMap (forwardOf site) := by
            have htexts : ∀ t ∈ (new'.filterMap (forwardOf site)).reverse, 0 ∉ t := by
              intro t ht
              obtain ⟨x, hx, hxt⟩ := List.mem_filterMap.mp (List.mem_reverse.mp ht)
              obtain ⟨rfl, -⟩ := mem_forwardOf.mp hxt
              exact fun h0 => hnuls _ hx (List.mem_cons_of_mem _ h0)
            rw [hforward, recipients_nuls (length_le_nuls _) htexts, List.reverse_reverse]
          have hrev : ∀ x, Reach (next site) (· ∈ [recipient]) (first site recipient).reverse x ↔
              ReachedOtherwise site recipient x := fun x => by
            simp only [ReachedOtherwise, Reach, List.mem_reverse]
          rw [hrs]
          refine ⟨List.Nodup.filterMap (fun x y addr hx hy => ?_) hnodup, fun addr => ?_⟩
          · rw [(mem_forwardOf.mp hx).1, (mem_forwardOf.mp hy).1]
          · rw [List.mem_filterMap]
            constructor
            · rintro ⟨x, hx, hxa⟩
              obtain ⟨rfl, hf⟩ := mem_forwardOf.mp hxa
              exact ⟨(hrev _).mp ((hreach _).mp hx), hf⟩
            · rintro ⟨hx, hf⟩
              exact ⟨_, (hreach _).mpr ((hrev _).mpr hx), mem_forwardOf.mpr ⟨rfl, hf⟩⟩

/-- **Expansion ends**, and passes exactly the addresses that are reached if and only if each of
them is reached without an entry that is written as the recipient is. -/
theorem expansion_exact_iff (site : Site) (sender recipient : Bytes) :
    (∃ turns r, main site turns sender recipient = some r) ∧
      ∀ turns sender' rs, main site turns sender recipient = some (.ok (sender', rs)) →
        ((rs.Nodup ∧ ∀ addr, addr ∈ rs ↔
            Reached site recipient (38 :: addr) ∧ Forwards site addr) ↔
          ∀ addr, Reached site recipient (38 :: addr) → Forwards site addr →
            ReachedOtherwise site recipient (38 :: addr)) := by
  refine ⟨?_, fun turns sender' rs h => ?_⟩
  · cases horig : doorigrecip site ⟨sender, [], [], [recipient], []⟩ recipient with
    | error code => exact ⟨0, .error code, by rw [main, horig]⟩
    | ok st =>
        obtain ⟨hsim, hall⟩ := doorigrecip_sim horig
        have hacc := @acc_step _ (next site) _ _ (fun _ _ y hy => next_mem hy)
          ⟨[recipient], (first site recipient).reverse⟩
          fun x hx => hall x (List.mem_reverse.mp hx)
        obtain ⟨turns, r, hloop⟩ := loop_ends hacc hsim
        refine ⟨turns, r.map fun st => (st.sender, recipients st.forward.length st.forward), ?_⟩
        rw [main, horig]
        dsimp only
        rw [hloop]
        rfl
  · obtain ⟨hnodup, hmem⟩ := main_recipients h
    have hmono : ∀ x, ReachedOtherwise site recipient x → Reached site recipient x :=
      fun x hx => hx.mono fun y hy => hy.elim
    constructor
    · rintro ⟨-, hexact⟩ addr hreached hf
      exact ((hmem addr).mp ((hexact addr).mpr ⟨hreached, hf⟩)).1
    · intro hcond
      refine ⟨hnodup, fun addr => (hmem addr).trans ⟨?_, ?_⟩⟩
      · rintro ⟨hx, hf⟩
        exact ⟨hmono _ hx, hf⟩
      · rintro ⟨hx, hf⟩
        exact ⟨hcond addr hx hf, hf⟩

/-- A recipient without a mark is no entry. -/
theorem reachedOtherwise_of_unmarked {x : Bytes} (hmark : isPushed recipient = false)
    (hx : Reached site recipient x) : ReachedOtherwise site recipient x := by
  have hne : ∀ y, isPushed y = true → ¬ y ∈ [recipient] := by
    intro y hy hmem
    rw [List.mem_singleton.mp hmem, hmark] at hy
    cases hy
  have hfirst : ∀ y ∈ first site recipient, isPushed y = true := by
    intro y hy
    rw [first] at hy
    cases hdata : findtarget site true 58 recipient with
    | none =>
        rw [hdata] at hy
        cases hy
    | some data =>
        rw [hdata] at hy
        exact (mem_entries hy).2
  refine hx.induct (fun s hs _ => .base hs (hne s (hfirst s hs))) fun a b ha hb _ => ?_
  exact ha.step hb (hne b (next_texts hb).2)

end

/-- An alias whose name is the entry for another address. -/
def ampersand : Site where
  cdb := [(asc ":&b@h", asc "&b@h" ++ [0])]
  contents := []
  file := fun _ => none
  file_mem := fun _ _ h => nomatch h
  program := fun _ _ => none
  flagdeliver := true
  flagpassthrough := false

/-- The address is not passed, and nothing is. -/
theorem entry_of_the_recipient_is_lost :
    main ampersand 9 (asc "a@h") (asc "&b@h") = some (.ok (asc "a@h", [])) ∧
      Reached ampersand (asc "&b@h") (38 :: asc "b@h") ∧ Forwards ampersand (asc "b@h") :=
  ⟨by decide +kernel, .base (by decide +kernel) not_false, by decide +kernel⟩

end IndimailMta.Fastforward
