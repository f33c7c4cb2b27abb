import IndimailMta.Multilog.Disk
import Mathlib.Data.List.Perm.Basic
import Mathlib.Data.List.Induction

/-!
# The names of the old log files

An old log file is called by a time stamp and a code. The order of the names is the order of the stamps,
and `filesfit` removes the first one, in whatever order it is given the names.
-/

namespace IndimailMta.Multilog.Disk

open IndimailMta

/-! ## The order -/

theorem before_irrefl (s : Bytes) : before s s = false := by
  induction s with
  | nil => rfl
  | cons ch s ih =>
      rw [before, if_pos rfl]
      exact ih

theorem before_trans {s t u : Bytes} (h : before s t = true) (h' : before t u = true) :
    before s u = true := by
  induction s generalizing t u with
  | nil =>
      cases u with
      | nil => cases t <;> exact h'
      | cons z u => rfl
  | cons x s ih =>
      cases t with
      | nil => exact absurd h Bool.false_ne_true
      | cons y t =>
          cases u with
          | nil => exact absurd h' Bool.false_ne_true
          | cons z u =>
              rw [before] at h h' ⊢
              by_cases hxy : x = y
              · rw [if_pos hxy] at h
                by_cases hyz : y = z
                · rw [if_pos hyz] at h'
                  rw [if_pos (hxy.trans hyz)]
                  exact ih h h'
                · rw [if_neg hyz] at h'
                  rw [hxy, if_neg hyz]
                  exact h'
              · rw [if_neg hxy, decide_eq_true_iff] at h
                by_cases hyz : y = z
                · rw [← hyz, if_neg hxy]
                  exact decide_eq_true h
                · rw [if_neg hyz, decide_eq_true_iff] at h'
                  have hlt := Nat.lt_trans h h'
                  rw [if_neg (by rintro rfl; exact absurd hlt (Nat.lt_irrefl _))]
                  exact decide_eq_true hlt

/-- What is behind a stamp makes no difference. -/
theorem before_append {s t : Bytes} (h : s.length = t.length) (x : Bytes) : before (s ++ x) t = before s t := by
  induction s generalizing t with
  | nil =>
      rw [List.length_eq_zero_iff.mp h.symm]
      cases x <;> rfl
  | cons a s ih =>
      cases t with
      | nil => exact absurd h (Nat.succ_ne_zero _)
      | cons b t =>
          rw [List.cons_append, before, before, ih (Nat.succ.inj h)]

/-! ## Stamps -/

/-- A time stamp: `@` and 24 hexadecimal digits. -/
def IsStamp (s : Bytes) : Prop :=
  ∃ digits : Bytes, s = 64 :: digits ∧ digits.length = 24 ∧ ∀ ch ∈ digits, ch ∈ asc "0123456789abcdef"

theorem isStamp_iff (s : Bytes) :
    s.head? = some 64 ∧ s.tail.length = 24 ∧ (s.tail.all fun ch => ch ∈ asc "0123456789abcdef") = true ↔
      IsStamp s := by
  rw [List.all_eq_true]
  cases s with
  | nil =>
      refine iff_of_false (fun h => absurd h.1 (Option.some_ne_none _).symm) ?_
      rintro ⟨digits, hs, -⟩
      cases hs
  | cons ch digits =>
      constructor
      · rintro ⟨hch, hlen, hdigits⟩
        exact ⟨digits, congrArg (· :: digits) (Option.some.inj hch), hlen,
          fun x hx => of_decide_eq_true (hdigits x hx)⟩
      · rintro ⟨_, hs, hlen, hdigits⟩
        cases hs
        exact ⟨rfl, hlen, fun x hx => decide_eq_true (hdigits x hx)⟩

instance (s : Bytes) : Decidable (IsStamp s) := decidable_of_iff _ (isStamp_iff s)

/-- The name of an old log file. -/
def IsName (name : Bytes) : Prop := ∃ stamp code, name = stamp ++ [46, code] ∧ IsStamp stamp

/-- The stamp of a name. -/
def stampOf (name : Bytes) : Bytes := name.take 25

section Stamps

variable {s name : Bytes}

theorem IsStamp.length (h : IsStamp s) : s.length = 25 := by
  obtain ⟨digits, rfl, hlen, -⟩ := h
  rw [List.length_cons, hlen]

/-- `@z` is behind every stamp. -/
theorem IsStamp.before_last (h : IsStamp s) (x : Bytes) : before (s ++ x) (asc "@z") = true := by
  obtain ⟨digits, rfl, hlen, hdigits⟩ := h
  cases digits with
  | nil => cases hlen
  | cons ch digits =>
      have hlt : ∀ ch ∈ asc "0123456789abcdef", ch ≠ 122 ∧ ch.toNat < 122 := by decide +kernel
      obtain ⟨hne, hlt⟩ := hlt ch (hdigits ch List.mem_cons_self)
      have hat : before (64 :: ch :: digits ++ x) (asc "@z") =
          if ch = 122 then before (digits ++ x) [] else ch.toNat < 122 := rfl
      rw [hat, if_neg hne]
      exact decide_eq_true hlt

@[simp] theorem stampOf_append (h : IsStamp s) (x : Bytes) : stampOf (s ++ x) = s := by
  rw [stampOf, ← h.length, List.take_left]

theorem IsName.isOld (h : IsName name) : isOld name = true := by
  obtain ⟨stamp, code, rfl, digits, rfl, hlen, -⟩ := h
  rw [Disk.isOld, Bool.and_eq_true]
  refine ⟨rfl, decide_eq_true ?_⟩
  rw [List.length_append, List.length_cons, hlen]
  exact Nat.le_add_right 25 _

theorem IsName.stamp (h : IsName name) : IsStamp (stampOf name) := by
  obtain ⟨stamp, code, rfl, hstamp⟩ := h
  rw [stampOf_append hstamp]
  exact hstamp

/-- A name is before a stamp if its own stamp is. -/
theorem IsName.before (h : IsName name) (hs : IsStamp s) :
    before name s = before (stampOf name) s := by
  obtain ⟨stamp, code, rfl, hstamp⟩ := h
  rw [stampOf_append hstamp, before_append (hstamp.length.trans hs.length.symm)]

theorem IsName.before_last (h : IsName name) : Disk.before name (asc "@z") = true := by
  obtain ⟨stamp, code, rfl, hstamp⟩ := h
  exact hstamp.before_last _

end Stamps

/-! ## The first name -/

/-- The names are in order. -/
def InOrder (names : List Bytes) : Prop := names.Pairwise fun m n => before (stampOf m) (stampOf n) = true

section First

variable {name : Bytes} {names listed : List Bytes}

/-- What the loop of `filesfit` finds: the stamp of a name, with no stamp before it. -/
theorem smallest_spec (hnames : ∀ n ∈ names, IsName n) (hne : names ≠ []) :
    ∃ n ∈ names, smallest names = stampOf n ∧ ∀ m ∈ names, before (stampOf m) (stampOf n) = false := by
  induction names using List.reverseRecOn with
  | nil => exact absurd rfl hne
  | append_singleton names last ih =>
      have hlast := hnames last (List.mem_append_right _ (List.mem_singleton_self last))
      have hfold : smallest (names ++ [last]) =
          if before last (smallest names) then stampOf last else smallest names := by
        rw [smallest, List.foldl_append]
        rfl
      rw [hfold]
      by_cases hnil : names = []
      · subst hnil
        refine ⟨last, List.mem_singleton_self last, if_pos hlast.before_last, fun m hm => ?_⟩
        rw [List.mem_singleton.mp hm]
        exact before_irrefl _
      · obtain ⟨n, hn, heq, hleast⟩ := ih (fun n hn => hnames n (List.mem_append_left _ hn)) hnil
        have hname := hnames n (List.mem_append_left _ hn)
        rw [heq, hlast.before hname.stamp]
        by_cases hb : before (stampOf last) (stampOf n) = true
        · refine ⟨last, List.mem_append_right _ (List.mem_singleton_self last), if_pos hb, fun m hm => ?_⟩
          rcases List.mem_append.mp hm with hm | hm
          · rw [Bool.eq_false_iff]
            exact fun h => absurd (before_trans h hb) (by rw [hleast m hm]; exact Bool.false_ne_true)
          · rw [List.mem_singleton.mp hm]
            exact before_irrefl _
        · refine ⟨n, List.mem_append_left _ hn, if_neg hb, fun m hm => ?_⟩
          rcases List.mem_append.mp hm with hm | hm
          · exact hleast m hm
          · rw [List.mem_singleton.mp hm]
            exact Bool.eq_false_iff.mpr hb

/-- **The first name is found**, in whatever order the names are listed. -/
theorem find_smallest (hperm : listed.Perm (name :: names)) (horder : InOrder (name :: names))
    (hnames : ∀ n ∈ name :: names, IsName n) :
    listed.find? (fun n => (smallest listed).isPrefixOf n) = some name := by
  have hlater := (List.pairwise_cons.mp horder).1
  have hne : listed ≠ [] := fun h => absurd (h ▸ hperm) (List.not_perm_nil_cons _ _)
  obtain ⟨n, hn, heq, hleast⟩ := smallest_spec (fun n hn => hnames n (hperm.mem_iff.mp hn)) hne
  have hmem : name ∈ listed := hperm.mem_iff.mpr List.mem_cons_self
  have hfirst : n = name := by
    rcases List.mem_cons.mp (hperm.mem_iff.mp hn) with h | h
    · exact h
    · exact absurd (hlater n h) (by rw [hleast name hmem]; exact Bool.false_ne_true)
  rw [heq, hfirst]
  have hprefix : ∀ m ∈ listed, (stampOf name).isPrefixOf m = true → m = name := by
    intro m hm hp
    have hm' := hperm.mem_iff.mp hm
    have hstamp : stampOf m = stampOf name := by
      rw [stampOf, ← (hnames name List.mem_cons_self).stamp.length]
      exact (List.prefix_iff_eq_take.mp (List.isPrefixOf_iff_prefix.mp hp)).symm
    rcases List.mem_cons.mp hm' with h | h
    · exact h
    · have hb := hlater m h
      rw [hstamp, before_irrefl] at hb
      exact absurd hb Bool.false_ne_true
  obtain ⟨m, hm⟩ : ∃ m, listed.find? (fun n => (stampOf name).isPrefixOf n) = some m := by
    rw [← Option.isSome_iff_exists, List.find?_isSome]
    exact ⟨name, hmem, List.isPrefixOf_iff_prefix.mpr (List.take_prefix 25 name)⟩
  rw [hm, hprefix m (List.mem_of_find?_eq_some hm) (List.find?_some hm)]

end First

end IndimailMta.Multilog.Disk
