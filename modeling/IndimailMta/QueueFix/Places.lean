import IndimailMta.Lib.Folds
import IndimailMta.QueueFix.Names

/-!
# Where the files go

A message is a file of `mess`, by its subdirectory and its name; its other files are those of the
other directories that have its name, in its subdirectory. `Misplaced` messages are renamed.
`DirInv fs₀ D d` says where the files of one directory are when the messages of `D` have been
renamed: at their new place, or beside it with `.tmp` where something stood there.

`Orderly` are the contents of which `fix_part` makes no mixture. A message that is renamed to a
name that a message not yet read still has is distinguished from it by that `.tmp` only; a file
the other message has not got goes straight to the name, and is taken for the other's when that
one is read.
-/

namespace IndimailMta.QueueFix

open IndimailMta Moves Run

variable {c : Conf} {nm : Numerals} {fs fs' fs₀ : Fs} {d : Dir} {i j : Nat} {y : Bytes}
  {f g : File} {D D' : Nat × Bytes → Prop} {t q : Place} {E : Place → Option File}

/-! ## Contents -/

/-- The name of the files that `clean_tmp` takes up. -/
def IsTmp (y : Bytes) : Prop := 4 < y.length ∧ y.drop (y.length - 4) = tmp

/-- A queue: all files are inside the first `split` subdirectories, none has `.tmp` or begins with
a dot, a message is one file in `mess`, with a number below `2 ^ 31`, and a file in a directory
without subdirectories is of one message at most. -/
structure Content (c : Conf) (fs : Fs) : Prop where
  inside : ∀ d s y, fs d (s, y) ≠ none → ∃ i, i < c.split ∧ s = c.slot d i
  dot : ∀ d s y, fs d (s, y) ≠ none → y.head? ≠ some 46
  tmp : ∀ d s y, fs d (s, y) ≠ none → ¬ IsTmp y
  ino : ∀ q f, fs .mess q = some f → f.ino < 2 ^ 31
  one : ∀ q q' f f', fs .mess q = some f → fs .mess q' = some f' → f.ino = f'.ino → q = q'
  common : ∀ d y i j, c.isSplit d = false → fs d (none, y) ≠ none →
    fs .mess (some i, y) ≠ none → fs .mess (some j, y) ≠ none → i = j

/-- The subdirectory of a file. -/
def Conf.home (c : Conf) (f : File) : Nat := f.ino % c.split

/-- The place a message's file in directory `d` belongs to. -/
def dest (c : Conf) (nm : Numerals) (d : Dir) (f : File) : Place :=
  (c.slot d (c.home f), nm.fmtUlong f.ino)

/-- The same with `.tmp`. -/
def aside (c : Conf) (nm : Numerals) (d : Dir) (f : File) : Place :=
  (c.slot d (c.home f), nm.fmtUlong f.ino ++ tmp)

/-- What is at `t` in directory `d` is of the message that has `f` in subdirectory `i`. -/
def Owns (c : Conf) (fs : Fs) (d : Dir) (t : Place) (i : Nat) (f : File) : Prop :=
  fs .mess (some i, t.2) = some f ∧ t.1 = c.slot d i

/-- The message is not where, or not named as, `fix_part` wants it. -/
def Misplaced (c : Conf) (nm : Numerals) (i : Nat) (y : Bytes) (f : File) : Prop :=
  ¬ (f.ino = unsignedLong (scanInt nm y) ∧ i = c.home f)

/-- **The queue is one that comes out right.** -/
structure Orderly (c : Conf) (nm : Numerals) (fs : Fs) : Prop where
  /-- A name that scans as the number of its file is that number. -/
  canonical : ∀ i y f, fs .mess (some i, y) = some f → ¬ Misplaced c nm i y f →
    y = nm.fmtUlong f.ino
  /-- Without big todo, no message whose name changes is in `todo` or `intd`. -/
  flat : ∀ d t i f, c.isSplit d = false → d ≠ .bounce → fs d t ≠ none → Owns c fs d t i f →
    t.2 = nm.fmtUlong f.ino
  /-- A message that has a name to which another one is renamed has all files the other has,
  unless its subdirectory is read before. -/
  follow : ∀ d t i f j h, fs d t ≠ none → Owns c fs d t i f → Misplaced c nm i t.2 f →
    Owns c fs d (dest c nm d f) j h → i ≤ j → fs d (dest c nm d f) ≠ none

/-! ### Numbers and names -/

theorem scanInt_fmt_append {n : Nat} (hn : n < 2 ^ 31) {rest : Bytes}
    (hr : ∀ b ∈ rest.head?, isDigit b = false) : scanInt nm (nm.fmtUlong n ++ rest) = n := by
  rw [scanInt, nm.scan_fmt n rest (by omega) hr, int32]
  split <;> omega

theorem scanInt_fmt {n : Nat} (hn : n < 2 ^ 31) : scanInt nm (nm.fmtUlong n) = n := by
  have := @scanInt_fmt_append nm _ hn [] (by simp)
  rwa [List.append_nil] at this

theorem scanInt_aside {n : Nat} (hn : n < 2 ^ 31) : scanInt nm (nm.fmtUlong n ++ tmp) = n := by
  apply scanInt_fmt_append hn
  intro b hb
  obtain rfl := Option.some.inj hb
  rfl

theorem fmt_injective {n m : Nat} (hn : n < 2 ^ 31) (hm : m < 2 ^ 31)
    (h : nm.fmtUlong n = nm.fmtUlong m) : n = m := by
  have h1 := @scanInt_fmt nm _ hn
  rw [h, scanInt_fmt hm] at h1
  omega

theorem unsignedLong_natCast {n : Nat} (hn : n < 2 ^ 31) : unsignedLong n = n := by
  rw [unsignedLong]
  omega

theorem isTmp_append {y : Bytes} (hy : y ≠ []) : IsTmp (y ++ tmp) := by
  have htmp : tmp.length = 4 := by decide
  have hpos := List.length_pos_iff.mpr hy
  have hlen : (y ++ tmp).length = y.length + 4 := by rw [List.length_append, htmp]
  refine ⟨by omega, ?_⟩
  rw [hlen, Nat.add_sub_cancel, List.drop_left]

theorem not_misplaced_dest (hf : f.ino < 2 ^ 31) :
    ¬ Misplaced c nm (c.home f) (nm.fmtUlong f.ino) f := by
  intro h
  exact h ⟨by rw [scanInt_fmt hf, unsignedLong_natCast hf], rfl⟩

theorem not_misplaced_aside (hf : f.ino < 2 ^ 31) :
    ¬ Misplaced c nm (c.home f) (nm.fmtUlong f.ino ++ tmp) f := by
  intro h
  exact h ⟨by rw [scanInt_aside hf, unsignedLong_natCast hf], rfl⟩

/-! ### Messages and their files -/

theorem Conf.slot_mess (c : Conf) (i : Nat) : c.slot .mess i = some i := by
  simp [Conf.slot, Conf.isSplit]

theorem Conf.home_lt (c : Conf) (f : File) : c.home f < c.split := Nat.mod_lt _ c.split_pos

theorem owns_mess (h : fs .mess (some i, y) = some f) : Owns c fs .mess (some i, y) i f :=
  ⟨h, (c.slot_mess i).symm⟩

/-- Every file of `mess` is of a message, its own. -/
theorem Content.owns_of_mess (hc : Content c fs) (ht : fs .mess t = some f) :
    ∃ i, t = (some i, t.2) ∧ Owns c fs .mess t i f := by
  obtain ⟨i, -, hs⟩ := hc.inside .mess t.1 t.2 (by rw [ht]; exact Option.some_ne_none f)
  rw [c.slot_mess] at hs
  have heq : t = (some i, t.2) := Prod.ext hs rfl
  refine ⟨i, heq, ?_, by rw [hs, c.slot_mess]⟩
  rw [← heq, ht]

/-- A file is of one message at most. -/
theorem Content.owner (hc : Content c fs) (ht : fs d t ≠ none) (hi : Owns c fs d t i f)
    (hj : Owns c fs d t j g) : i = j ∧ f = g := by
  have hij : i = j := by
    by_cases hd : c.isSplit d = true
    · have h := hi.2.symm.trans hj.2
      rw [Conf.slot, Conf.slot, if_pos hd, if_pos hd] at h
      exact Option.some.inj h
    · have hs : t.1 = none := by rw [hi.2, Conf.slot, if_neg hd]
      have heq : t = (none, t.2) := Prod.ext hs rfl
      exact hc.common d t.2 i j (by simpa using hd) (by rw [← heq]; exact ht)
        (by rw [hi.1]; exact Option.some_ne_none f) (by rw [hj.1]; exact Option.some_ne_none g)
  subst hij
  exact ⟨rfl, Option.some.inj (hi.1.symm.trans hj.1)⟩

/-- The number of a message is its own. -/
theorem Content.same (hc : Content c fs) {z : Bytes} (hf : fs .mess (some i, y) = some f)
    (hg : fs .mess (some j, z) = some g) (h : nm.fmtUlong f.ino = nm.fmtUlong g.ino) :
    i = j ∧ y = z := by
  have hino := fmt_injective (hc.ino _ f hf) (hc.ino _ g hg) h
  obtain ⟨h1, h2⟩ := Prod.mk.inj (hc.one _ _ f g hf hg hino)
  exact ⟨Option.some.inj h1, h2⟩

theorem Content.ne_tmp (hc : Content c fs) (ht : fs d t ≠ none) (n : Nat) :
    t.2 ≠ nm.fmtUlong n ++ QueueFix.tmp := by
  intro heq
  have := hc.tmp d t.1 t.2 ht
  rw [heq] at this
  exact this (isTmp_append (nm.fmt_ne_nil n))

/-- What is where it belongs is at the place it belongs to. -/
theorem Orderly.at_dest (ho : Orderly c nm fs) (hi : Owns c fs d t i f)
    (hm : ¬ Misplaced c nm i t.2 f) : t = dest c nm d f := by
  have hname := ho.canonical i t.2 f hi.1 hm
  have hhome : i = c.home f := (not_not.mp hm).2
  exact Prod.ext (by rw [hi.2, hhome, dest]) hname

/-! ## Renaming -/

/-- Where the file that was at `t` is, when the messages of `D` have been renamed. -/
inductive Where (c : Conf) (nm : Numerals) (fs₀ : Fs) (D : Nat × Bytes → Prop) (d : Dir)
    (t : Place) : Place → Prop
  | unmoved (h : ∀ i f, Owns c fs₀ d t i f → Misplaced c nm i t.2 f → ¬ D (i, t.2)) :
      Where c nm fs₀ D d t t
  | dest (i : Nat) (f : File) (ho : Owns c fs₀ d t i f) (hm : Misplaced c nm i t.2 f)
      (hD : D (i, t.2)) : Where c nm fs₀ D d t (dest c nm d f)
  | aside (i : Nat) (f : File) (ho : Owns c fs₀ d t i f) (hm : Misplaced c nm i t.2 f)
      (hD : D (i, t.2)) : Where c nm fs₀ D d t (aside c nm d f)

/-- The files of a directory, when the messages of `D` have been renamed. -/
def DirInv (c : Conf) (nm : Numerals) (fs₀ : Fs) (D : Nat × Bytes → Prop) (d : Dir)
    (E : Place → Option File) : Prop :=
  ∃ r, Moved (fs₀ d) E r ∧ ∀ t, fs₀ d t ≠ none → Where c nm fs₀ D d t (r t)

/-- Only which misplaced messages are in `D` matters. -/
theorem DirInv.congr (h : DirInv c nm fs₀ D d E)
    (hD : ∀ i y f, fs₀ .mess (some i, y) = some f → Misplaced c nm i y f →
      (D (i, y) ↔ D' (i, y))) : DirInv c nm fs₀ D' d E := by
  obtain ⟨r, hr, hw⟩ := h
  refine ⟨r, hr, ?_⟩
  intro t ht
  have hwt := hw t ht
  generalize r t = q at hwt ⊢
  cases hwt with
  | unmoved h => exact .unmoved fun i f ho hm => by rw [← hD i t.2 f ho.1 hm]; exact h i f ho hm
  | dest i f ho hm hin => exact .dest i f ho hm ((hD i t.2 f ho.1 hm).mp hin)
  | aside i f ho hm hin => exact .aside i f ho hm ((hD i t.2 f ho.1 hm).mp hin)

/-- Another message has been renamed. -/
def insertMsg (D : Nat × Bytes → Prop) (m : Nat × Bytes) : Nat × Bytes → Prop :=
  fun x => x = m ∨ D x

/-- A file that is not of the message is where it was. -/
theorem Where.other (hw : Where c nm fs₀ D d t q) (ht : t ≠ (c.slot d i, y)) :
    Where c nm fs₀ (insertMsg D (i, y)) d t q := by
  cases hw with
  | unmoved h =>
      refine .unmoved ?_
      intro j g ho hm hD
      rcases hD with heq | hD
      · obtain ⟨rfl, h2⟩ := Prod.mk.inj heq
        exact ht (Prod.ext ho.2 h2)
      · exact h j g ho hm hD
  | dest j g ho hm hD => exact .dest j g ho hm (Or.inr hD)
  | aside j g ho hm hD => exact .aside j g ho hm (Or.inr hD)

/-- A file of a message that was not renamed is at its place. -/
theorem Where.eq_of_not (hc : Content c fs₀) (ht : fs₀ d t ≠ none) (ho : Owns c fs₀ d t i f)
    (hD : ¬ D (i, t.2)) (hw : Where c nm fs₀ D d t q) : q = t := by
  cases hw with
  | unmoved h => rfl
  | dest j g hj hm hin => exact absurd ((hc.owner ht ho hj).1 ▸ hin) hD
  | aside j g hj hm hin => exact absurd ((hc.owner ht ho hj).1 ▸ hin) hD

/-! ### One directory -/

/-- Where a misplaced message has no file, no other one was moved to. -/
theorem empty_of_none (hc : Content c fs₀) (ho : Orderly c nm fs₀)
    (hf : fs₀ .mess (some i, y) = some f) (hle : ∀ m, D m → m.1 ≤ i)
    (hE : DirInv c nm fs₀ D d E) (hnone : fs₀ d (c.slot d i, y) = none) :
    E (c.slot d i, y) = none := by
  obtain ⟨r, hr, hw⟩ := hE
  by_contra hne
  obtain ⟨t, ht, hrt⟩ := hr.source hne
  have hwt := hw t ht
  rw [hrt] at hwt
  generalize hq : (c.slot d i, y) = q at hwt
  cases hwt with
  | unmoved h => exact ht (hq ▸ hnone)
  | dest j g hj hm hD =>
      -- the other message has a file here that this one has not
      have hown : Owns c fs₀ d (dest c nm d g) i f := by
        rw [← hq]
        exact ⟨hf, rfl⟩
      have := ho.follow d t j g i f ht hj hm hown (hle _ hD)
      rw [← hq] at this
      exact this hnone
  | aside j g hj hm hD =>
      have hm' : fs₀ .mess (some i, y) ≠ none := by rw [hf]; exact Option.some_ne_none f
      exact hc.ne_tmp hm' g.ino (congrArg Prod.snd hq)

/-- A file of the message goes to a free place. -/
theorem DirInv.move (hc : Content c fs₀) (ho : Orderly c nm fs₀)
    (hf : fs₀ .mess (some i, y) = some f) (hm : Misplaced c nm i y f) (hD : ¬ D (i, y))
    (hle : ∀ m, D m → m.1 ≤ i) (hE : DirInv c nm fs₀ D d E)
    (hb : q = dest c nm d f ∨ q = aside c nm d f) (hfree : E q = none) :
    DirInv c nm fs₀ (insertMsg D (i, y)) d (move E (c.slot d i, y) q) := by
  by_cases ht : fs₀ d (c.slot d i, y) = none
  · have hempty := empty_of_none hc ho hf hle hE ht
    obtain ⟨r, hr, hw⟩ := hE
    refine ⟨r, hr.move_none hempty, ?_⟩
    intro u hu
    exact (hw u hu).other fun heq => hu (heq ▸ ht)
  · obtain ⟨r, hr, hw⟩ := hE
    have hown : Owns c fs₀ d (c.slot d i, y) i f := ⟨hf, rfl⟩
    have hrt : r (c.slot d i, y) = (c.slot d i, y) := (hw _ ht).eq_of_not hc ht hown hD
    refine ⟨Function.update r (c.slot d i, y) q, ?_, ?_⟩
    · have := hr.move ht hfree
      rwa [hrt] at this
    · intro u hu
      by_cases hut : u = (c.slot d i, y)
      · subst hut
        rw [Function.update_self]
        rcases hb with rfl | rfl
        · exact .dest i f hown hm (Or.inl rfl)
        · exact .aside i f hown hm (Or.inl rfl)
      · rw [Function.update_of_ne hut]
        exact (hw u hu).other hut

/-- What a message has in a directory without subdirectories stays where it is. -/
theorem DirInv.flat (hc : Content c fs₀) (ho : Orderly c nm fs₀)
    (hf : fs₀ .mess (some i, y) = some f) (hm : Misplaced c nm i y f) (hD : ¬ D (i, y))
    (hd : c.isSplit d = false) (hb : d ≠ .bounce) (hE : DirInv c nm fs₀ D d E) :
    DirInv c nm fs₀ (insertMsg D (i, y)) d E := by
  obtain ⟨r, hr, hw⟩ := hE
  refine ⟨r, hr, ?_⟩
  intro u hu
  by_cases hut : u = (c.slot d i, y)
  · have hown : Owns c fs₀ d u i f := by
      rw [hut]
      exact ⟨hf, rfl⟩
    have hru : r u = u := (hw u hu).eq_of_not hc hu hown (by rw [hut]; exact hD)
    have hdest : u = dest c nm d f := by
      refine Prod.ext ?_ (ho.flat d u i f hd hb hu hown)
      rw [hown.2, dest, Conf.slot, Conf.slot, if_neg (by rw [hd]; exact Bool.false_ne_true),
        if_neg (by rw [hd]; exact Bool.false_ne_true)]
    rw [hru]
    have hwd : Where c nm fs₀ (insertMsg D (i, y)) d u (dest c nm d f) :=
      .dest i f hown (by rw [hut]; exact hm) (by rw [hut]; exact Or.inl rfl)
    rwa [← hdest] at hwd
  · exact (hw u hu).other hut

end IndimailMta.QueueFix
