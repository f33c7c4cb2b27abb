import IndimailMta.Multilog.Old

/-!
# The old log files

A log is a list of segments. Some of the first ones are removed, and each of the others has an old log
file: those with the code `s` are whole, or what the processor made of a whole segment, and of those with
the code `u` the end may have been lost in an outage (`Filed`).
-/

namespace IndimailMta.Multilog.Disk

open IndimailMta Exits Calls Directories

/-! ## Segments and their files -/

/-- What is known of a log: what `s` files hold of segments, whether it is synced, whether there are no
outages, and how many old files it has at least when some are removed. -/
structure Terms where
  made : Bytes → Bytes → Prop
  synced : Prop
  calm : Prop
  least : Nat

namespace Terms

variable (T : Terms)

/-- A file that was made of the whole segment. -/
def Whole (seg : Bytes) (f : File) : Prop :=
  T.made seg f.text ∧ (T.synced → f.synced = f.text.length)

/-- A file that has the segment, or what an outage left of it. -/
def Part (seg : Bytes) (f : File) : Prop := f.text <+: seg ∧ (T.calm → f.text = seg)

/-- The file `f` with the name of an old log file has the segment `seg`. -/
def Stored (seg name : Bytes) (f : File) : Prop :=
  (∃ stamp, name = stamp ++ [46, 115]) ∧ T.Whole seg f ∨ (∃ stamp, name = stamp ++ [46, 117]) ∧ T.Part seg f

/-- The old log files are those with the names `names`, and have the segments `kept`. -/
structure Filed (kept names : List Bytes) (s : Site) : Prop where
  listed : ∀ n, isOld n = true → (s.dir.file n ≠ none ↔ n ∈ names)
  named : ∀ n ∈ names, IsName n
  order : InOrder names
  stored : List.Forall₂ (fun seg n => ∃ f, s.dir.file n = some f ∧ T.Stored seg n f) kept names

/-- The clock goes on. -/
structure Ahead (names : List Bytes) (clock : List Bytes) : Prop where
  stamps : ∀ c ∈ clock, IsStamp c
  order : clock.Pairwise fun a b => before a b = true
  later : ∀ n ∈ names, ∀ c ∈ clock, before (stampOf n) c = true

/-- The segments `all` are filed, but for some of the first ones. -/
def Archive (all : List Bytes) (s : Site) : Prop :=
  ∃ removed kept names, all = removed ++ kept ∧ (removed = [] ∨ T.least ≤ kept.length + 1) ∧
    T.Filed kept names s ∧ Ahead names s.clock

end Terms

theorem forall₂_of_mem {α β : Type} {r r' : α → β → Prop} {l : List α} {m : List β} (h : List.Forall₂ r l m)
    (himp : ∀ a, ∀ b ∈ m, r a b → r' a b) : List.Forall₂ r' l m := by
  induction h with
  | nil => exact .nil
  | cons hab _ ih =>
      exact .cons (himp _ _ List.mem_cons_self hab) (ih fun a b hb => himp a b (List.mem_cons_of_mem _ hb))

/-- How many old log files there are. -/
def Site.olds (s : Site) : Nat := (s.dir.names.filter isOld).length

namespace Terms

variable {T : Terms} {kept names all : List Bytes} {seg name c : Bytes} {clock : List Bytes} {f : File}
  {s s' : Site}

theorem Filed.congr (h : T.Filed kept names s) (hfile : ∀ n, isOld n = true → s'.dir.file n = s.dir.file n) :
    T.Filed kept names s' where
  listed n hn := by
    rw [hfile n hn]
    exact h.listed n hn
  named := h.named
  order := h.order
  stored := by
    refine forall₂_of_mem h.stored fun seg n hn hf => ?_
    rw [hfile n (h.named n hn).isOld]
    exact hf

theorem Archive.congr (h : T.Archive all s) (hfile : ∀ n, isOld n = true → s'.dir.file n = s.dir.file n)
    (hclock : s'.clock = s.clock) : T.Archive all s' := by
  obtain ⟨removed, kept, names, hall, hleast, hfiled, hahead⟩ := h
  exact ⟨removed, kept, names, hall, hleast, hfiled.congr hfile, hclock ▸ hahead⟩

theorem Filed.perm (h : T.Filed kept names s) : (s.dir.names.filter isOld).Perm names := by
  have hnodup : names.Nodup := h.order.imp fun {m n} hb heq => by
    rw [heq, before_irrefl] at hb
    exact absurd hb Bool.false_ne_true
  refine (List.perm_ext_iff_of_nodup (s.dir.nodup.filter _) hnodup).mpr fun n => ?_
  rw [List.mem_filter, Dir.mem_names_iff]
  constructor
  · rintro ⟨hn, hold⟩
    exact (h.listed n hold).mp hn
  · intro hn
    exact ⟨(h.listed n (h.named n hn).isOld).mpr hn, (h.named n hn).isOld⟩

theorem Filed.olds (h : T.Filed kept names s) : s.olds = names.length := h.perm.length_eq

theorem Filed.length (h : T.Filed kept names s) : kept.length = names.length := h.stored.length_eq

/-- A new name is free. -/
theorem Ahead.fresh (h : Ahead names (c :: clock)) (code : Byte) : c ++ [46, code] ∉ names := by
  intro hmem
  have hb := h.later _ hmem c List.mem_cons_self
  rw [stampOf_append (h.stamps c List.mem_cons_self), before_irrefl] at hb
  exact absurd hb Bool.false_ne_true

theorem Ahead.link (h : Ahead names (c :: clock)) (code : Byte) : Ahead (names ++ [c ++ [46, code]]) clock where
  stamps x hx := h.stamps x (List.mem_cons_of_mem c hx)
  order := (List.pairwise_cons.mp h.order).2
  later n hn x hx := by
    rcases List.mem_append.mp hn with hn | hn
    · exact h.later n hn x (List.mem_cons_of_mem c hx)
    · rw [List.mem_singleton.mp hn, stampOf_append (h.stamps c List.mem_cons_self)]
      exact (List.pairwise_cons.mp h.order).1 x hx

theorem Ahead.isName (h : Ahead names (c :: clock)) (code : Byte) : IsName (c ++ [46, code]) :=
  ⟨c, code, rfl, h.stamps c List.mem_cons_self⟩

/-- A segment is filed. -/
theorem Filed.link (h : T.Filed kept names s) (hahead : Ahead names (c :: clock)) {code : Byte}
    (hstored : T.Stored seg (c ++ [46, code]) f)
    (hfile : s'.dir.file = Function.update s.dir.file (c ++ [46, code]) (some f)) :
    T.Filed (kept ++ [seg]) (names ++ [c ++ [46, code]]) s' where
  listed n hn := by
    rw [hfile, List.mem_append, List.mem_singleton]
    by_cases hc : n = c ++ [46, code]
    · rw [hc, Function.update_self]
      exact iff_of_true (Option.some_ne_none f) (.inr rfl)
    · rw [Function.update_of_ne hc, h.listed n hn]
      exact (or_iff_left hc).symm
  named n hn := by
    rcases List.mem_append.mp hn with hn | hn
    · exact h.named n hn
    · rw [List.mem_singleton.mp hn]
      exact hahead.isName code
  order := by
    refine List.pairwise_append.mpr ⟨h.order, List.pairwise_singleton _ _, fun m hm n hn => ?_⟩
    rw [List.mem_singleton.mp hn, stampOf_append (hahead.stamps c List.mem_cons_self)]
    exact hahead.later m hm c List.mem_cons_self
  stored := by
    refine List.rel_append ?_ (.cons ⟨f, ?_, hstored⟩ .nil)
    · refine forall₂_of_mem h.stored fun seg n hn hf => ?_
      have hne : n ≠ c ++ [46, code] := by
        rintro rfl
        exact hahead.fresh code hn
      rw [hfile, Function.update_of_ne hne]
      exact hf
    · rw [hfile, Function.update_self]

/-- The first segment is removed. -/
theorem Filed.unlink (h : T.Filed (seg :: kept) (name :: names) s)
    (hfile : s'.dir.file = Function.update s.dir.file name none) : T.Filed kept names s' := by
  have hlater := (List.pairwise_cons.mp h.order).1
  have hne : ∀ n ∈ names, n ≠ name := by
    rintro n hn rfl
    have hb := hlater n hn
    rw [before_irrefl] at hb
    exact absurd hb Bool.false_ne_true
  have hstored := (List.forall₂_cons.mp h.stored).2
  refine ⟨fun n hn => ?_, fun n hn => h.named n (List.mem_cons_of_mem name hn),
    (List.pairwise_cons.mp h.order).2, ?_⟩
  · rw [hfile]
    by_cases heq : n = name
    · rw [heq, Function.update_self]
      exact iff_of_false (fun hn => hn rfl) fun hn => hne name hn rfl
    · rw [Function.update_of_ne heq, h.listed n hn, List.mem_cons, or_iff_right heq]
  · refine forall₂_of_mem hstored fun seg n hn hf => ?_
    rw [hfile, Function.update_of_ne (hne n hn)]
    exact hf

end Terms

end IndimailMta.Multilog.Disk
