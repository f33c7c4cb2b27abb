import IndimailMta.Base
import IndimailMta.Lib.Run

/-!
# The table of connection timeouts

`lock/tcpto` has 64 slots of 32 bytes. A failed connection is counted in the record of its
address, which is looked for from the first slot on; an address without a record takes a slot
that has no count, or the oldest. Addresses of both families are in one table, and one of IPv4
leaves the last twelve bytes of the slot as they were.

From the zeroed file on the table is a map with room for 64 addresses: no address ever has two
records.
-/

namespace IndimailMta.Tcpto

open IndimailMta Run

/-! ## Records -/

inductive Family where
  | inet
  | inet6
  deriving DecidableEq, Repr

/-- `AF_INET` and `AF_INET6`. -/
def Family.code : Family → Byte
  | .inet => 2
  | .inet6 => 10

/-- How many bytes an address has. -/
def Family.width : Family → Nat
  | .inet => 4
  | .inet6 => 16

/-- `struct ip_mx`, as far as it is looked at. -/
structure Partner where
  af : Family
  ip : Bytes
  width : ip.length = af.width
  deriving DecidableEq, Repr

/-- A slot of 32 bytes: `af` is at 0, `count` at 4, `when0` to `when3` at 8 to 11, and `addr` at
16. The other bytes stay zero. -/
structure Record where
  af : Byte := 0
  count : Byte := 0
  when0 : Byte := 0
  when1 : Byte := 0
  when2 : Byte := 0
  when3 : Byte := 0
  addr : Bytes := List.replicate 16 0
  deriving DecidableEq, Repr

/-- The time of a record, from its four bytes. -/
def Record.time (r : Record) : Nat :=
  ((r.when3.toNat * 256 + r.when2.toNat) * 256 + r.when1.toNat) * 256 + r.when0.toNat

/-- The time is put into a record. -/
def Record.stamp (r : Record) (now : Nat) : Record :=
  { r with
    when0 := charOf now, when1 := charOf (now / 256 : Nat),
    when2 := charOf (now / 256 / 256 : Nat), when3 := charOf (now / 256 / 256 / 256 : Nat) }

/-- The comparison of both searches. -/
def Record.carries (r : Record) (ix : Partner) : Bool :=
  ix.af.code = r.af && r.addr.take ix.af.width = ix.ip

/-- The slots of the file. -/
abbrev Table := List Record

/-- `tcpto_clean`: `TCPTO_BUFSIZ` bytes are zeroed. -/
def tcpto_clean : Table := List.replicate (2048 / 32) {}

/-! ## `tcpto` -/

def MIN_PENALTY : Int := 3600

/-- The time an address is left alone; `pid` is the process. -/
def backoff (min_backoff : Int) (pid : Nat) : Int :=
  if 0 < min_backoff then min_backoff + (((60 + pid % 32) * 64 : Nat) - MIN_PENALTY)
  else -min_backoff

/-- `tcpto`: what it returns, and `flagwasthere`. -/
def tcpto (t : Table) (ix : Partner) (min_backoff : Int) (pid now : Nat) : Bool × Bool :=
  match t.find? fun r => r.carries ix with
  | none => (false, false)
  | some r =>
      if 2 ≤ schar r.count then (decide ((now : Int) - r.time < backoff min_backoff pid), true)
      else (false, true)

/-! ## `tcpto_err` -/

/-- `if (++record[4] > 10) record[4] = 10`. -/
def countUp (count : Byte) : Byte :=
  if 10 < schar (charOf (schar count + 1)) then 10 else charOf (schar count + 1)

/-- The time with which a record competes for being the oldest. -/
def Record.age (r : Record) : Int := r.time + schar r.count * 1024

/-- The loop that looks for the oldest record: `i` is the next one, and `firstpos` comes with
`firstwhen`. -/
def oldestFrom : Table → Nat → Option (Nat × Int) → Option Nat
  | [], _, first => first.map Prod.fst
  | r :: rest, i, none => oldestFrom rest (i + 1) (some (i, r.age))
  | r :: rest, i, some (firstpos, firstwhen) =>
      if r.age < firstwhen then oldestFrom rest (i + 1) (some (i, r.age))
      else oldestFrom rest (i + 1) (some (firstpos, firstwhen))

/-- The slot for a new address. -/
def slotFor (t : Table) : Option Nat :=
  match t.findIdx? fun r => r.count = 0 with
  | some i => some i
  | none => oldestFrom t 0 none

/-- A record is written for a new address. -/
def Record.assign (r : Record) (ix : Partner) (now : Nat) : Record :=
  { r.stamp now with
    af := ix.af.code, addr := ix.ip ++ r.addr.drop ix.af.width, count := 1 }

/-- A failure of an address that has a record. -/
def failAgain (r : Record) (max_tolerance : Int) (now : Nat) : Record :=
  if r.count ≠ 0 ∧ (now : Int) < max_tolerance + r.time then r
  else { r with count := countUp r.count }.stamp now

/-- `tcpto_err`, and the table it leaves. -/
def tcpto_err (flagwasthere : Bool) (t : Table) (ix : Partner) (flagerr : Bool)
    (max_tolerance : Int) (now : Nat) : Table :=
  if !flagerr && !flagwasthere then t
  else
    match t.findIdx? fun r => r.carries ix with
    | some i =>
        t.modify i fun r =>
          if !flagerr then { r with count := 0 } else failAgain r max_tolerance now
    | none =>
        if !flagerr then t
        else
          match slotFor t with
          | some i => t.modify i fun r => r.assign ix now
          | none => t

/-! ## Runs -/

/-- A call of `tcpto_err`, by any process. -/
structure Call where
  flagwasthere : Bool
  ix : Partner
  flagerr : Bool
  max_tolerance : Int
  now : Nat
  deriving DecidableEq, Repr

def Call.apply (l : Call) (t : Table) : Table :=
  tcpto_err l.flagwasthere t l.ix l.flagerr l.max_tolerance l.now

def machine : Machine Table Call where
  init t := t = tcpto_clean
  step t l := some (l.apply t)

/-- At most one record carries an address. -/
def Unique (t : Table) : Prop :=
  ∀ (ix : Partner) (i j : Nat) (r s : Record), t[i]? = some r → t[j]? = some s →
    r.carries ix = true → s.carries ix = true → i = j

/-- At most one record has changed. -/
def OneChange (t t' : Table) : Prop :=
  t'.length = t.length ∧ ∃ i : Nat, ∀ j, j ≠ i → t'[j]? = t[j]?

/-- The slot is one without a count, or no slot is and none is older. -/
def Replaceable (t : Table) (r : Record) : Prop :=
  r.count = 0 ∨ (∀ s ∈ t, s.count ≠ 0) ∧
    ∀ s ∈ t, r.time + 1024 * r.count.toNat ≤ s.time + 1024 * s.count.toNat

/-- No count is above ten. -/
def Counted (t : Table) : Prop := ∀ r ∈ t, r.count.toNat ≤ 10

/-- An address came into the table, with one failure. -/
def Replaced (t t' : Table) (ix : Partner) (now : Nat) : Prop :=
  ∃ (i : Nat) (r r' : Record), t[i]? = some r ∧ Replaceable t r ∧ t'[i]? = some r' ∧
    r'.carries ix = true ∧ r'.count = 1 ∧ (now < 2 ^ 32 → r'.time = now)

variable {t : Table} {r : Record} {ix : Partner} {now : Nat}

/-! ## One record -/

theorem toNat_charOf (n : Nat) : (charOf n).toNat = n % 256 := by
  have h := uchar_charOf n
  simp only [uchar] at h
  omega

/-- Four bytes hold the time. -/
theorem time_stamp (r : Record) (now : Nat) : (r.stamp now).time = now % 2 ^ 32 := by
  simp only [Record.time, Record.stamp, toNat_charOf]
  omega

theorem Family.code_inj {a b : Family} (h : a.code = b.code) : a = b := by
  cases a <;> cases b <;> first | rfl | exact absurd h (by decide)

theorem carries_iff :
    r.carries ix = true ↔ ix.af.code = r.af ∧ r.addr.take ix.af.width = ix.ip := by
  rw [Record.carries, Bool.and_eq_true, decide_eq_true_eq, decide_eq_true_eq]

theorem assign_carries (r : Record) (ix : Partner) (now : Nat) :
    (r.assign ix now).carries ix = true := by
  rw [carries_iff]
  exact ⟨rfl, List.take_left' ix.width⟩

/-- A new record carries its own address only. -/
theorem eq_of_assign {ix' : Partner} (h : (r.assign ix now).carries ix' = true) : ix' = ix := by
  rw [carries_iff] at h
  obtain ⟨haf, hip⟩ := h
  have haf' : ix'.af = ix.af := Family.code_inj haf
  have hip' : (ix.ip ++ r.addr.drop ix.af.width).take ix'.af.width = ix'.ip := hip
  rw [haf', List.take_left' ix.width] at hip'
  cases ix'
  cases ix
  simp only at haf' hip'
  subst haf' hip'
  rfl

theorem failAgain_carries (max_tolerance : Int) :
    (failAgain r max_tolerance now).carries ix = r.carries ix := by
  rw [failAgain]
  split
  · rfl
  · rfl

theorem schar_of_le {b : Byte} (h : b.toNat ≤ 10) : schar b = b.toNat := by
  rw [schar, if_pos (by omega)]

theorem age_eq (h : r.count.toNat ≤ 10) : r.age = (r.time + 1024 * r.count.toNat : Nat) := by
  rw [Record.age, schar_of_le h]
  omega

theorem countUp_le {b : Byte} (h : b.toNat ≤ 10) : (countUp b).toNat ≤ 10 := by
  have hnext : (charOf (schar b + 1)).toNat = b.toNat + 1 := by
    rw [schar_of_le h, show ((b.toNat : Int) + 1) = ((b.toNat + 1 : Nat) : Int) by omega,
      toNat_charOf]
    omega
  rw [countUp]
  split
  · decide
  · rename_i hle
    rw [schar, hnext, if_pos (by omega)] at hle
    omega

theorem failAgain_count (max_tolerance : Int) (h : r.count.toNat ≤ 10) :
    (failAgain r max_tolerance now).count.toNat ≤ 10 := by
  rw [failAgain]
  split
  · exact h
  · exact countUp_le h

/-! ## The slot for a new address -/

theorem oldestFrom_some (t : Table) : ∀ (i fp : Nat) (fw : Int),
    ∃ k, oldestFrom t i (some (fp, fw)) = some k ∧
      (k = fp ∧ (∀ s ∈ t, fw ≤ s.age) ∨
        ∃ m r, k = i + m ∧ t[m]? = some r ∧ r.age ≤ fw ∧ ∀ s ∈ t, r.age ≤ s.age) := by
  induction t with
  | nil =>
      intro i fp fw
      exact ⟨fp, rfl, Or.inl ⟨rfl, fun s hs => absurd hs List.not_mem_nil⟩⟩
  | cons r rest ih =>
      intro i fp fw
      rw [oldestFrom]
      split
      · -- `r` is the oldest so far
        rename_i hlt
        obtain ⟨k, hk, ⟨rfl, hall⟩ | ⟨m, r', rfl, hr', hle, hall⟩⟩ := ih (i + 1) i r.age
        · refine ⟨_, hk, Or.inr ⟨0, r, rfl, rfl, Int.le_of_lt hlt, ?_⟩⟩
          intro s hs
          rcases List.mem_cons.mp hs with rfl | hs
          · exact Int.le_refl _
          · exact hall s hs
        · refine ⟨_, hk, Or.inr ⟨m + 1, r', by omega, hr', by omega, ?_⟩⟩
          intro s hs
          rcases List.mem_cons.mp hs with rfl | hs
          · exact hle
          · exact hall s hs
      · rename_i hge
        rw [Int.not_lt] at hge
        obtain ⟨k, hk, ⟨rfl, hall⟩ | ⟨m, r', rfl, hr', hle, hall⟩⟩ := ih (i + 1) fp fw
        · refine ⟨_, hk, Or.inl ⟨rfl, ?_⟩⟩
          intro s hs
          rcases List.mem_cons.mp hs with rfl | hs
          · exact hge
          · exact hall s hs
        · refine ⟨_, hk, Or.inr ⟨m + 1, r', by omega, hr', hle, ?_⟩⟩
          intro s hs
          rcases List.mem_cons.mp hs with rfl | hs
          · exact Int.le_trans hle hge
          · exact hall s hs

/-- A slot is found, and may be taken. -/
theorem slotFor_replaceable (h : t ≠ []) (hc : Counted t) :
    ∃ i r, slotFor t = some i ∧ t[i]? = some r ∧ Replaceable t r := by
  rw [slotFor]
  cases hf : t.findIdx? fun r => r.count = 0 with
  | some i =>
      obtain ⟨hi, hz, -⟩ := List.findIdx?_eq_some_iff_getElem.mp hf
      exact ⟨i, t[i], rfl, List.getElem?_eq_getElem hi, Or.inl (by simpa using hz)⟩
  | none =>
      have hnz : ∀ s ∈ t, s.count ≠ 0 := by
        intro s hs
        simpa using List.findIdx?_eq_none_iff.mp hf s hs
      have hage : ∀ {r s}, r ∈ t → s ∈ t → r.age ≤ s.age →
          r.time + 1024 * r.count.toNat ≤ s.time + 1024 * s.count.toNat := by
        intro r s hr hs hle
        rw [age_eq (hc r hr), age_eq (hc s hs)] at hle
        omega
      cases t with
      | nil => exact absurd rfl h
      | cons r rest =>
          -- the first slot is taken as the oldest before the others are looked at
          obtain ⟨k, hk, ⟨rfl, hall⟩ | ⟨m, r', rfl, hr', hle, hall⟩⟩ :=
            oldestFrom_some rest 1 0 r.age
          · refine ⟨0, r, hk, rfl, Or.inr ⟨hnz, fun s hs => ?_⟩⟩
            apply hage List.mem_cons_self hs
            rcases List.mem_cons.mp hs with rfl | hs
            · exact Int.le_refl _
            · exact hall s hs
          · have hmem : r' ∈ r :: rest := List.mem_cons_of_mem r (List.mem_of_getElem? hr')
            refine ⟨1 + m, r', hk, ?_, Or.inr ⟨hnz, fun s hs => ?_⟩⟩
            · rw [Nat.add_comm]
              exact hr'
            · apply hage hmem hs
              rcases List.mem_cons.mp hs with rfl | hs
              · exact hle
              · exact hall s hs

/-! ## The table -/

theorem oneChange_refl (t : Table) : OneChange t t := ⟨rfl, 0, fun _ _ => rfl⟩

theorem oneChange_modify (t : Table) (i : Nat) (f : Record → Record) :
    OneChange t (t.modify i f) := by
  refine ⟨List.length_modify .., i, ?_⟩
  intro j hj
  rw [List.getElem?_modify]
  simp [Ne.symm hj]

/-- A slot of a modified table. -/
theorem getElem?_of_modify {f : Record → Record} {i j : Nat} {s : Record}
    (h : (t.modify i f)[j]? = some s) : ∃ r, t[j]? = some r ∧ s = if i = j then f r else r := by
  rw [List.getElem?_modify, Option.map_eq_map, Option.map_eq_some_iff] at h
  obtain ⟨r, hr, rfl⟩ := h
  refine ⟨r, hr, ?_⟩
  split <;> rfl

theorem Unique.modify (h : Unique t) (i : Nat) {f : Record → Record}
    (hf : ∀ r ix, (f r).carries ix = r.carries ix) : Unique (t.modify i f) := by
  intro ix a b r s hr hs hrc hsc
  obtain ⟨r', hr', rfl⟩ := getElem?_of_modify hr
  obtain ⟨s', hs', rfl⟩ := getElem?_of_modify hs
  refine h ix a b r' s' hr' hs' ?_ ?_
  · split at hrc
    · rwa [hf] at hrc
    · exact hrc
  · split at hsc
    · rwa [hf] at hsc
    · exact hsc

theorem Unique.assign (h : Unique t) (hno : ∀ r ∈ t, r.carries ix = false) (i now : Nat) :
    Unique (t.modify i fun r => r.assign ix now) := by
  intro ix' a b r s hr hs hrc hsc
  obtain ⟨r', hr', rfl⟩ := getElem?_of_modify hr
  obtain ⟨s', hs', rfl⟩ := getElem?_of_modify hs
  -- the slot that was written carries `ix` alone, and no other slot carries it
  have hold : ∀ {q : Record}, q ∈ t → q.carries ix' = true → ix' ≠ ix := by
    rintro q hq hqc rfl
    rw [hno q hq] at hqc
    cases hqc
  split at hrc
  · rename_i ha
    split at hsc
    · rename_i hb
      exact ha.symm.trans hb
    · exact absurd (eq_of_assign hrc) (hold (List.mem_of_getElem? hs') hsc)
  · split at hsc
    · exact absurd (eq_of_assign hsc) (hold (List.mem_of_getElem? hr') hrc)
    · exact h ix' a b r' s' hr' hs' hrc hsc

theorem Counted.modify (h : Counted t) (i : Nat) {f : Record → Record}
    (hf : ∀ r : Record, r.count.toNat ≤ 10 → (f r).count.toNat ≤ 10) : Counted (t.modify i f) := by
  intro r hr
  obtain ⟨j, hj⟩ := List.mem_iff_getElem?.mp hr
  obtain ⟨r', hr', rfl⟩ := getElem?_of_modify hj
  have hle := h r' (List.mem_of_getElem? hr')
  split
  · exact hf r' hle
  · exact hle

/-! ## One call -/

/-- What a call does. -/
theorem apply_cases (l : Call) (t : Table) :
    l.apply t = t ∨
    (∃ i, l.apply t = t.modify i fun r =>
      if !l.flagerr then { r with count := 0 } else failAgain r l.max_tolerance l.now) ∨
    ((∀ r ∈ t, r.carries l.ix = false) ∧
      ∃ i, l.apply t = t.modify i fun r => r.assign l.ix l.now) := by
  rw [Call.apply, tcpto_err]
  split
  · exact Or.inl rfl
  · cases hf : t.findIdx? fun r => r.carries l.ix with
    | some i => exact Or.inr (Or.inl ⟨i, rfl⟩)
    | none =>
        simp only
        split
        · exact Or.inl rfl
        · cases hs : slotFor t with
          | some i =>
              refine Or.inr (Or.inr ⟨?_, i, rfl⟩)
              exact fun r hr => List.findIdx?_eq_none_iff.mp hf r hr
          | none => exact Or.inl rfl

theorem update_carries (l : Call) (r : Record) (ix : Partner) :
    (if !l.flagerr then { r with count := 0 } else failAgain r l.max_tolerance l.now).carries ix =
      r.carries ix := by
  split
  · rfl
  · exact failAgain_carries l.max_tolerance

theorem update_count (l : Call) (r : Record) (h : r.count.toNat ≤ 10) :
    (if !l.flagerr then { r with count := 0 }
      else failAgain r l.max_tolerance l.now).count.toNat ≤ 10 := by
  split
  · exact Nat.zero_le 10
  · exact failAgain_count l.max_tolerance h

/-- A call keeps the table a map. -/
theorem Unique.apply (h : Unique t) (l : Call) : Unique (l.apply t) := by
  rcases apply_cases l t with heq | ⟨i, heq⟩ | ⟨hno, i, heq⟩
  · rwa [heq]
  · rw [heq]
    exact h.modify i (update_carries l)
  · rw [heq]
    exact h.assign hno i l.now

theorem Counted.apply (h : Counted t) (l : Call) : Counted (l.apply t) := by
  rcases apply_cases l t with heq | ⟨i, heq⟩ | ⟨-, i, heq⟩
  · rwa [heq]
  · rw [heq]
    exact h.modify i (update_count l)
  · rw [heq]
    exact h.modify i fun r _ => show (1 : Byte).toNat ≤ 10 by decide

theorem apply_oneChange (l : Call) (t : Table) : OneChange t (l.apply t) := by
  rcases apply_cases l t with heq | ⟨i, heq⟩ | ⟨-, i, heq⟩
  · rw [heq]
    exact oneChange_refl t
  · rw [heq]
    exact oneChange_modify t i _
  · rw [heq]
    exact oneChange_modify t i _

theorem apply_length (l : Call) (t : Table) : (l.apply t).length = t.length :=
  (apply_oneChange l t).1

/-- A failure of an address without a record. -/
theorem apply_replaced {l : Call} (h : t ≠ []) (hc : Counted t) (hflag : l.flagerr = true)
    (hno : ∀ r ∈ t, r.carries l.ix = false) : Replaced t (l.apply t) l.ix l.now := by
  obtain ⟨i, r, hslot, hr, hrep⟩ := slotFor_replaceable h hc
  have hf : (t.findIdx? fun r => r.carries l.ix) = none := List.findIdx?_eq_none_iff.mpr hno
  have heq : l.apply t = t.modify i fun r => r.assign l.ix l.now := by
    rw [Call.apply, tcpto_err, hf, hslot, hflag]
    rfl
  refine ⟨i, r, r.assign l.ix l.now, hr, hrep, ?_, assign_carries r l.ix l.now, rfl, ?_⟩
  · rw [heq, List.getElem?_modify, hr]
    simp
  · intro hnow
    exact (time_stamp r l.now).trans (Nat.mod_eq_of_lt hnow)

/-- What `tcpto` looks at. -/
theorem tcpto_true {min_backoff : Int} {pid : Nat}
    (h : (tcpto t ix min_backoff pid now).1 = true) :
    ∃ r ∈ t, r.carries ix = true ∧ 2 ≤ schar r.count ∧
      (now : Int) - r.time < backoff min_backoff pid := by
  rw [tcpto] at h
  cases hf : t.find? fun r => r.carries ix with
  | none =>
      rw [hf] at h
      cases h
  | some r =>
      rw [hf] at h
      simp only at h
      split at h
      · rename_i hcount
        refine ⟨r, List.mem_of_find?_eq_some hf, ?_, hcount, of_decide_eq_true h⟩
        simpa using List.find?_some hf
      · cases h

/-! ## Every run -/

/-- What is to hold of a table, and of the next call. -/
structure BoundedMap (t : Table) : Prop where
  room : t.length = 64
  unique : Unique t
  fresh : ∀ l : Call, l.flagerr = true → (∀ r ∈ t, r.carries l.ix = false) →
    Replaced t (l.apply t) l.ix l.now
  change : ∀ l : Call, OneChange t (l.apply t)
  penalty : ∀ ix min_backoff pid now, (tcpto t ix min_backoff pid now).1 = true →
    ∃ r ∈ t, r.carries ix = true ∧ 2 ≤ r.count.toNat ∧
      (now : Int) - r.time < backoff min_backoff pid

/-- **The table is a bounded map** after any calls, by any processes at any times. -/
theorem table_boundedMap (ls : List Call) {t : Table}
    (h : machine.exec tcpto_clean ls = some t) : BoundedMap t := by
  have hstart : tcpto_clean.length = 64 ∧ Unique tcpto_clean ∧ Counted tcpto_clean := by
    refine ⟨rfl, ?_, ?_⟩
    · -- the family of a zeroed slot is neither of the two
      intro ix i j r s hr _ hrc _
      have hzero : r = {} := List.eq_of_mem_replicate (List.mem_of_getElem? hr)
      rw [hzero, carries_iff] at hrc
      cases hf : ix.af <;> rw [hf] at hrc <;> exact absurd hrc.1 (by decide)
    · intro r hr
      rw [List.eq_of_mem_replicate hr]
      exact Nat.zero_le 10
  obtain ⟨hlen, hunique, hcounted⟩ := Machine.exec_invariant_of_step (M := machine)
    (I := fun t => t.length = 64 ∧ Unique t ∧ Counted t)
    (by
      rintro t l t' ⟨hlen, hu, hc⟩ hs
      have hs' : l.apply t = t' := Option.some.inj hs
      rw [← hs']
      exact ⟨(apply_length l t).trans hlen, hu.apply l, hc.apply l⟩)
    hstart h
  constructor
  · exact hlen
  · exact hunique
  · intro l hflag hno
    apply apply_replaced _ hcounted hflag hno
    rintro rfl
    exact absurd hlen (by decide)
  · exact fun l => apply_oneChange l t
  · intro ix min_backoff pid now hp
    obtain ⟨r, hr, hcarries, hcount, hback⟩ := tcpto_true hp
    rw [schar_of_le (hcounted r hr)] at hcount
    exact ⟨r, hr, hcarries, by omega, hback⟩

/-- Two failures of one address, and one of an address of the other family. -/
def failures : List Call :=
  [⟨false, ⟨.inet, [192, 0, 2, 1], rfl⟩, true, 120, 1000⟩,
    ⟨false, ⟨.inet6, List.replicate 16 1, rfl⟩, true, 120, 1500⟩,
    ⟨false, ⟨.inet, [192, 0, 2, 1], rfl⟩, true, 120, 2000⟩]

theorem table_boundedMap_failures :
    BoundedMap (failures.foldl (fun t l => l.apply t) tcpto_clean) :=
  table_boundedMap failures rfl

end IndimailMta.Tcpto
