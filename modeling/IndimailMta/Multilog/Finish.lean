import IndimailMta.Multilog.Archive

/-!
# A segment is filed

`finish` gives the file of a segment the name of an old log file, and takes its own name from it. If it
is killed, the segment is either filed or still there under the name that it had (`Holding`), and
`finish` may be called again.
-/

namespace IndimailMta.Multilog.Disk

open IndimailMta Exits Calls Directories

/-! ## A segment that is not filed yet -/

/-- The segments `all` are there: the file `x` has the last one, and it is not filed, or they are all filed,
though `x` may be another name for the last file. -/
inductive Holding (T : Terms) (x : Bytes) (good : Bytes → File → Prop) (all : List Bytes) (s : Site) : Prop where
  | gone (flat : s.dir.Flat) (file : s.dir.file x = none) (archive : T.Archive all s)
  | there (init : List Bytes) (seg : Bytes) (f : File) (flat : s.dir.Flat) (all_eq : all = init ++ [seg])
      (file : s.dir.file x = some f) (good : good seg f) (archive : T.Archive init s)
  | linked (o seg : Bytes) (f : File) (old : isOld o = true) (twins : s.dir.Twins x o)
      (file : s.dir.file x = some f) (good : good seg f) (archive : T.Archive all s)

/-- The segments `all` are filed, and `x` is gone. -/
structure Done (T : Terms) (x : Bytes) (all : List Bytes) (s : Site) : Prop where
  flat : s.dir.Flat
  file : s.dir.file x = none
  archive : T.Archive all s

/-- Only the old log files and `x` have changed. -/
structure Apart (x : Bytes) (s₀ s : Site) : Prop where
  ino : ∀ n, n ≠ x → isOld n = false → s.dir.ino n = s₀.dir.ino n
  file : ∀ n, n ≠ x → isOld n = false → s.dir.file n = s₀.dir.file n
  written : s.written = s₀.written
  fdcurrent : s.fdcurrent = s₀.fdcurrent
  runs : s.runs = s₀.runs

section Apart

variable {x o : Bytes} {s₀ s : Site} {dir : Dir Bytes File} {clock : List Bytes}

theorem Apart.refl (x : Bytes) (s : Site) : Apart x s s :=
  ⟨fun _ _ _ => rfl, fun _ _ _ => rfl, rfl, rfl, rfl⟩

/-- One name is changed. -/
theorem Apart.change (h : Apart x s₀ s) (ho : o = x ∨ isOld o = true)
    (hino : ∀ n, n ≠ o → dir.ino n = s.dir.ino n) (hfile : ∀ n, n ≠ o → dir.file n = s.dir.file n) :
    Apart x s₀ { s with dir := dir, clock := clock } := by
  have hne : ∀ n, n ≠ x → isOld n = false → n ≠ o := by
    rintro n hx hn rfl
    rcases ho with ho | ho
    · exact hx ho
    · exact absurd ho (by rw [hn]; exact Bool.false_ne_true)
  refine ⟨fun n hx hn => ?_, fun n hx hn => ?_, h.written, h.fdcurrent, h.runs⟩
  · exact (hino n (hne n hx hn)).trans (h.ino n hx hn)
  · exact (hfile n (hne n hx hn)).trans (h.file n hx hn)

theorem Apart.unlink (h : Apart x s₀ s) (ho : o = x ∨ isOld o = true) :
    Apart x s₀ { s with dir := s.dir.unlink o } := by
  refine h.change ho (fun n hn => Dir.ino_unlink_ne hn) fun n hn => ?_
  rw [Dir.file_unlink, Function.update_of_ne hn]

end Apart

/-! ## Number of old files -/

section Filesfit

variable {T : Terms} {any : Prop} {d : Cyclog} {x : Bytes} {all : List Bytes} {s₀ : Site}
  {good : Bytes → File → Prop} {n k : Nat}

/-- What is kept throughout `filesfit`, which reads no time stamps. -/
structure Fitting (T : Terms) (any : Prop) (x : Bytes) (all : List Bytes) (s₀ : Site) (n : Nat) (s : Site) :
    Prop where
  done : Done T x all s
  apart : Apart x s₀ s
  clock : any ∨ n ≤ s.clock.length

/-- The first of many files is removed. -/
theorem Fitting.unlink (sys : Listing) {s : Site} (h : Fitting T any x all s₀ n s) (hx : isOld x = false)
    (hnum : T.least ≤ d.num) (hmany : d.num ≤ s.olds) :
    ∃ name, ((sys.readdir s.dir.names).filter isOld).find?
        (fun n => (smallest ((sys.readdir s.dir.names).filter isOld)).isPrefixOf n) = some name ∧
      Fitting T any x all s₀ n { s with dir := s.dir.unlink name } ∧
      ({ s with dir := s.dir.unlink name } : Site).olds < s.olds := by
  obtain ⟨removed, kept, names, hall, hleast, hfiled, hahead⟩ := h.done.archive
  have hperm : ((sys.readdir s.dir.names).filter isOld).Perm names :=
    ((sys.perm s.dir.names).filter isOld).trans hfiled.perm
  have htwo := Nat.le_trans d.two_le_num hmany
  rw [hfiled.olds] at hmany htwo ⊢
  cases names with
  | nil => exact absurd htwo (by decide)
  | cons first names =>
      cases kept with
      | nil => exact absurd hfiled.length (Nat.succ_ne_zero _).symm
      | cons seg kept =>
          have hold := (hfiled.named first List.mem_cons_self).isOld
          have hnext : T.Filed kept names { s with dir := s.dir.unlink first } :=
            hfiled.unlink (Dir.file_unlink first)
          have hne : x ≠ first := by
            rintro rfl
            rw [hx] at hold
            exact absurd hold Bool.false_ne_true
          refine ⟨first, find_smallest hperm hfiled.order hfiled.named, ⟨⟨h.done.flat.unlink first, ?_, ?_⟩,
            h.apart.unlink (.inr hold), h.clock⟩, ?_⟩
          · rw [Dir.file_unlink, Function.update_of_ne hne]
            exact h.done.file
          · refine ⟨removed ++ [seg], kept, names, ?_, .inr ?_, hnext, ?_⟩
            · rw [hall, List.append_assoc]
              rfl
            · rw [hnext.length]
              exact Nat.le_trans hnum hmany
            · exact ⟨hahead.stamps, hahead.order, fun n hn => hahead.later n (List.mem_cons_of_mem _ hn)⟩
          · rw [hnext.olds]
            exact Nat.lt_succ_self _

/-- One turn: there are few files, or one is removed. -/
theorem filesfit_works (sys : Listing) (hx : isOld x = false) (hnum : T.least ≤ d.num) (k m : Nat) :
    Works any 2 (fun s => Fitting T any x all s₀ n s ∧ s.olds = k ∧ k ≤ m) (filesfit sys d)
      (fun b s => if b = true then Fitting T any x all s₀ n s ∧ s.olds < d.num ∧ s.olds ≤ m else
        ∃ j < k, Fitting T any x all s₀ n s ∧ s.olds = j ∧ j ≤ m)
      (fun s => Fitting T any x all s₀ n s) := by
  rw [filesfit]
  refine works_ask_bind (fun s hs => hs.1) fun names => ?_
  have hlen : ∀ s : Site, (sys.readdir s.dir.names).filter isOld = names → names.length = s.olds := by
    rintro s rfl
    exact ((sys.perm s.dir.names).filter isOld).length_eq
  refine works_ite (fun hfew => works_pure fun s hs => ?_) fun hmany => ?_
  · obtain ⟨⟨hfit, hk, hm⟩, hnames⟩ := hs
    rw [if_pos rfl]
    exact ⟨hfit, hlen s hnames ▸ hfew, hk ▸ hm⟩
  · cases hfind : names.find? (fun name => (smallest names).isPrefixOf name) with
    | none =>
        refine works_pure fun s hs => ?_
        obtain ⟨⟨hfit, -, -⟩, hnames⟩ := hs
        obtain ⟨name, hname, -⟩ := hfit.unlink sys hx hnum (hlen s hnames ▸ Nat.le_of_not_lt hmany)
        rw [hnames, hfind] at hname
        cases hname
    | some name =>
        refine works_then_pure (works_call (fun s hs => hs.1.1) fun s hs => ?_)
        obtain ⟨⟨hfit, hk, hm⟩, hnames⟩ := hs
        obtain ⟨first, hfirst, hfit, hless⟩ :=
          hfit.unlink sys hx hnum (hlen s hnames ▸ Nat.le_of_not_lt hmany)
        rw [hnames, hfind] at hfirst
        cases hfirst
        rw [if_neg Bool.false_ne_true]
        exact ⟨_, hk ▸ hless, hfit, rfl, Nat.le_trans (Nat.le_of_lt (hk ▸ hless)) hm⟩

/-- The loop of `finish` over `filesfit`. -/
theorem fits_works (sys : Listing) (hx : isOld x = false) (hnum : T.least ≤ d.num) (m : Nat) :
    Works any (2 * m + 2) (fun s => Fitting T any x all s₀ n s ∧ s.olds ≤ m) (until_ (filesfit sys d))
      (fun _ s => Fitting T any x all s₀ n s ∧ s.olds < d.num ∧ s.olds ≤ m)
      (fun s => Fitting T any x all s₀ n s) := by
  have hloop : ∀ k, Works any (2 * m + 2) (fun s => Fitting T any x all s₀ n s ∧ s.olds = k ∧ k ≤ m)
      (until_ (filesfit sys d)) (fun _ s => Fitting T any x all s₀ n s ∧ s.olds < d.num ∧ s.olds ≤ m)
      (fun s => Fitting T any x all s₀ n s) := by
    intro k
    by_cases hk : k ≤ m
    · refine (works_until Nat.two_pos (fun k => filesfit_works sys hx hnum k m) (fun k s hs => hs.1) k).weaken
        (.inr (by omega)) (fun _ h => h) (fun _ _ h => h) fun _ h => h
    · exact fun t s hs => absurd hs.1.2.2 hk
  exact (works_exists hloop).weaken (.inr (Nat.le_refl _)) (fun s hs => ⟨s.olds, hs.1, rfl, hs.2⟩)
    (fun _ _ h => h) fun _ h => h

end Filesfit

/-! ## Finish -/

section Finish

variable {T : Terms} {any : Prop} {d : Cyclog} {x : Bytes} {all : List Bytes} {s₀ : Site}
  {good : Bytes → File → Prop} {n : Nat} {code : Byte}

/-- The segment has its new name and still the old one. -/
structure Linked (T : Terms) (any : Prop) (x : Bytes) (good : Bytes → File → Prop) (all : List Bytes) (s₀ : Site)
    (n : Nat) (s : Site) : Prop where
  twins : ∃ o, isOld o = true ∧ s.dir.Twins x o
  here : ∃ seg f, s.dir.file x = some f ∧ good seg f
  archive : T.Archive all s
  apart : Apart x s₀ s
  clock : any ∨ n ≤ s.clock.length

theorem Terms.Archive.olds_congr {s s' : Site} (h : T.Archive all s)
    (hfile : ∀ n, isOld n = true → s'.dir.file n = s.dir.file n) : s'.olds = s.olds := by
  obtain ⟨removed, kept, names, -, -, hfiled, -⟩ := h
  rw [hfiled.olds, (hfiled.congr hfile).olds]

theorem file_unlink_old {s : Site} (hx : isOld x = false) (n : Bytes) (hn : isOld n = true) :
    (s.dir.unlink x).file n = s.dir.file n := by
  have hne : n ≠ x := by
    rintro rfl
    rw [hx] at hn
    exact absurd hn Bool.false_ne_true
  rw [Dir.file_unlink, Function.update_of_ne hne]

/-- The old name is taken away. -/
theorem unlink_works (hx : isOld x = false) (m : Nat) :
    Works any 1 (fun s => Linked T any x good all s₀ n s ∧ s.olds ≤ m) (until_ (unlink x))
      (fun _ s => Fitting T any x all s₀ n s ∧ s.olds ≤ m)
      (fun s => Linked T any x good all s₀ n s) := by
  refine works_once Nat.one_pos (works_call (fun s hs => hs.1) fun s hs => ?_) fun s hs => hs.1
  obtain ⟨⟨⟨o, ho, htwins⟩, -, harchive, hapart, hclock⟩, hm⟩ := hs
  have hfile := file_unlink_old (s := s) hx
  refine ⟨Option.isSome_iff_ne_none.mpr htwins.there, ⟨⟨htwins.flat, ?_, harchive.congr hfile rfl⟩,
    hapart.unlink (.inl rfl), hclock⟩, ?_⟩
  · rw [Dir.file_unlink, Function.update_self]
  · exact Nat.le_trans (Nat.le_of_eq (harchive.olds_congr hfile)) hm

/-- The new name is given. -/
theorem link_works (hgood : ∀ seg f stamp, good seg f → T.Stored seg (stamp ++ [46, code]) f)
    (init : List Bytes) (seg : Bytes) (f : File) (m : Nat) :
    Works any 1 (fun s => (s.dir.Flat ∧ s.dir.file x = some f ∧ good seg f ∧ T.Archive init s) ∧
        Apart x s₀ s ∧ s.olds ≤ m ∧ (any ∨ n + 1 ≤ s.clock.length))
      (until_ (linkStamp x code))
      (fun _ s => Linked T any x good (init ++ [seg]) s₀ n s ∧ s.olds ≤ m + 1)
      (fun s => (s.dir.Flat ∧ s.dir.file x = some f ∧ good seg f ∧ T.Archive init s) ∧ Apart x s₀ s) := by
  refine works_once Nat.one_pos ?_ fun s hs => ⟨hs.1, hs.2.1⟩
  rw [linkStamp]
  refine works_look_bind fun clock => ?_
  cases clock with
  | nil =>
      refine works_exit fun s hs => ?_
      obtain ⟨⟨hhere, hapart, -, hclock⟩, hnil⟩ := hs
      rw [hnil] at hclock
      exact ⟨⟨hhere, hapart⟩, hclock.resolve_right (Nat.not_succ_le_zero n)⟩
  | cons c clock =>
      refine works_call (fun s hs => ⟨hs.1.1, hs.1.2.1⟩) fun s hs => ?_
      obtain ⟨⟨⟨hflat, hfile, hseg, harchive⟩, hapart, hm, hclock⟩, hc⟩ := hs
      obtain ⟨removed, kept, names, hinit, hleast, hfiled, hahead⟩ := harchive
      rw [hc] at hahead hclock
      have hname := hahead.isName code
      have hfree : s.dir.file (c ++ [46, code]) = none := by
        by_contra h
        exact hahead.fresh code ((hfiled.listed _ hname.isOld).mp h)
      obtain ⟨e, hlink, htwins, hefile, heino⟩ := Dir.link_flat hflat hfile hfree
      have hnext : T.Filed (kept ++ [seg]) (names ++ [c ++ [46, code]]) { s with dir := e, clock := clock } :=
        hfiled.link hahead (hgood seg f c hseg) hefile
      rw [hlink]
      refine ⟨rfl, ⟨⟨_, hname.isOld, htwins⟩, ⟨seg, f, ?_, hseg⟩,
        ⟨removed, _, _, ?_, ?_, hnext, hahead.link code⟩, ?_, ?_⟩, ?_⟩
      · change e.file x = some f
        rw [hefile, Function.update_of_ne htwins.ne]
        exact hfile
      · rw [hinit, List.append_assoc]
      · refine hleast.imp_right fun h => ?_
        rw [List.length_append]
        exact Nat.le_trans h (Nat.succ_le_succ (Nat.le_add_right _ _))
      · refine hapart.change (.inr hname.isOld) heino fun n hn => ?_
        rw [hefile, Function.update_of_ne hn]
      · exact hclock.imp_right fun h => Nat.le_of_succ_le_succ h
      · have hold := hfiled.olds
        rw [hnext.olds, List.length_append, List.length_singleton]
        omega

/-- **A segment is filed**, and if `finish` is killed it is still there. -/
theorem finish_works (sys : Listing) (hx : isOld x = false) (hnum : T.least ≤ d.num)
    (hgood : ∀ seg f stamp, good seg f → T.Stored seg (stamp ++ [46, code]) f) (m : Nat) :
    Works any (2 * m + 7)
      (fun s => s = s₀ ∧ Holding T x good all s ∧ s.olds ≤ m ∧ (any ∨ n + 1 ≤ s.clock.length))
      (finish sys d x code)
      (fun _ s => Fitting T any x all s₀ n s ∧ (s₀.dir.file x = none ∨ s.olds < d.num) ∧ s.olds ≤ m + 1)
      (fun s => Holding T x good all s ∧ Apart x s₀ s) := by
  have hstart : ∀ s, (s = s₀ ∧ Holding T x good all s ∧ s.olds ≤ m ∧ (any ∨ n + 1 ≤ s.clock.length)) →
      Holding T x good all s ∧ Apart x s₀ s := by
    rintro s ⟨rfl, h, -, -⟩
    exact ⟨h, .refl x s⟩
  -- the calls after the link
  have hrest : Works any (2 * m + 5) (fun s => Linked T any x good all s₀ n s ∧ s.olds ≤ m + 1)
      (until_ (unlink x) >>= fun _ => until_ (filesfit sys d))
      (fun _ s => Fitting T any x all s₀ n s ∧ (s₀.dir.file x = none ∨ s.olds < d.num) ∧ s.olds ≤ m + 1)
      (fun s => Holding T x good all s ∧ Apart x s₀ s) := by
    refine (works_bind (K := fun s => Holding T x good all s ∧ Apart x s₀ s)
      ((unlink_works hx (m + 1)).weaken (.inr (Nat.le_refl _)) (fun _ h => h) (fun _ _ h => h) fun s h => ?_)
      fun _ => (fits_works sys hx hnum (m + 1)).weaken (.inr (Nat.le_refl _)) (fun _ h => h)
        (fun _ s h => ⟨h.1, .inr h.2.1, h.2.2⟩) fun s h => ?_).weaken (.inr (by omega)) (fun _ h => h)
        (fun _ _ h => h) fun _ h => h
    · obtain ⟨o, ho, htwins⟩ := h.twins
      obtain ⟨seg, f, hfile, hseg⟩ := h.here
      exact ⟨.linked o seg f ho htwins hfile hseg h.archive, h.apart⟩
    · exact ⟨.gone h.done.flat h.done.file h.done.archive, h.apart⟩
  intro t s hs
  obtain ⟨hs, ht⟩ := hs
  obtain ⟨hs₀, hhold, hm, hclock⟩ := hs
  have hP : ∀ u, u = s₀ → u = s₀ ∧ Holding T x good all u ∧ u.olds ≤ m ∧ (any ∨ n + 1 ≤ u.clock.length) := by
    rintro u rfl
    exact hs₀ ▸ ⟨rfl, hhold, hm, hclock⟩
  have hK := fun u hu => hstart u (hP u hu)
  rw [hs₀] at hhold hm hclock
  have hless : any ∨ n ≤ s₀.clock.length := hclock.imp_right Nat.le_of_succ_le
  suffices h : Works any (2 * m + 7) (fun s => s = s₀) (finish sys d x code)
      (fun _ s => Fitting T any x all s₀ n s ∧ (s₀.dir.file x = none ∨ s.olds < d.num) ∧ s.olds ≤ m + 1)
      (fun s => Holding T x good all s ∧ Apart x s₀ s) from h t s ⟨hs₀, ht⟩
  rw [finish]
  cases hhold with
  | gone flat file archive =>
      have hstat : ∀ u, u = s₀ → ((u.dir.ino x).map fun i => (u.dir.nlink i, u.dir.node i)) = none := by
        rintro u rfl
        rw [Dir.file_eq_none.mp file, Option.map_none]
      refine works_ask_eq (k := 2 * m + 6) hK hstat (works_pure fun u hu => ?_)
      rw [hu]
      exact ⟨⟨⟨flat, file, archive⟩, .refl x s₀, hless⟩, .inl file, Nat.le_succ_of_le hm⟩
  | there init seg f flat all_eq file seg_good archive =>
      obtain ⟨i, hi, hf⟩ := Dir.exists_ino file
      have hstat : ∀ u, u = s₀ → ((u.dir.ino x).map fun i => (u.dir.nlink i, u.dir.node i)) = some (1, f) := by
        rintro u rfl
        rw [hi, Option.map_some, Dir.nlink_flat flat hi, hf]
      refine works_ask_eq (k := 2 * m + 6) hK hstat ?_
      have hsum : 2 * m + 6 = 1 + (2 * m + 5) := by omega
      dsimp only
      rw [when, if_pos rfl, all_eq, hsum]
      rw [all_eq] at hrest
      have hlink := @link_works T any x s₀ good n code hgood init seg f m
      refine works_bind (hlink.weaken (.inr (Nat.le_refl _)) (fun u hu => ?_) (fun _ _ h => h) fun u hu => ?_)
        fun _ => hrest
      · rw [hu]
        exact ⟨⟨flat, file, seg_good, archive⟩, .refl x s₀, hm, hclock⟩
      · obtain ⟨⟨hflat, hfile, hseg, harchive⟩, hapart⟩ := hu
        exact ⟨.there init seg f hflat rfl hfile hseg harchive, hapart⟩
  | linked o seg f old twins file seg_good archive =>
      obtain ⟨i, hi⟩ := Option.ne_none_iff_exists'.mp twins.there
      have hstat : ∀ u, u = s₀ → ((u.dir.ino x).map fun i => (u.dir.nlink i, u.dir.node i)) =
          some (s₀.dir.nlink i, s₀.dir.node i) := by
        rintro u rfl
        rw [hi, Option.map_some]
      refine works_ask_eq (k := 2 * m + 6) hK hstat ?_
      dsimp only
      rw [when, if_neg (twins.nlink hi)]
      refine hrest.weaken (.inr (Nat.le_succ _)) (fun u hu => ?_) (fun _ _ h => h) fun _ h => h
      rw [hu]
      exact ⟨⟨⟨o, old, twins⟩, ⟨seg, f, file, seg_good⟩, archive, .refl x s₀, hless⟩, Nat.le_succ_of_le hm⟩

/-- How many old log files there are at most, how many time stamps there are to come, and what has been
written. -/
structure Means (any : Prop) (w : Bytes) (m n : Nat) (s : Site) : Prop where
  olds : s.olds ≤ m
  clock : any ∨ n ≤ s.clock.length
  written : s.written = w

/-- `finish`, from states in which it has something to do or nothing. -/
theorem finish_from (sys : Listing) (hx : isOld x = false) (hnum : T.least ≤ d.num)
    (hgood : ∀ seg f stamp, good seg f → T.Stored seg (stamp ++ [46, code]) f) {P Q K : Site → Prop}
    (hP : ∀ s, P s → Holding T x good all s) (hQ : ∀ s₀ s, P s₀ → Done T x all s → Apart x s₀ s → Q s)
    (hK : ∀ s₀ s, P s₀ → Holding T x good all s → Apart x s₀ s → K s) (w : Bytes) (m n : Nat) :
    Works any (2 * m + 7) (fun s => P s ∧ Means any w m (n + 1) s) (finish sys d x code)
      (fun _ s => Q s ∧ Means any w (m + 1) n s) K := by
  have hrun : ∀ s₀, Works any (2 * m + 7) (fun s => s = s₀ ∧ P s₀ ∧ Means any w m (n + 1) s₀)
      (finish sys d x code) (fun _ s => Q s ∧ Means any w (m + 1) n s) K := by
    intro s₀ t s hs
    obtain ⟨⟨rfl, hstart, hmeans⟩, ht⟩ := hs
    suffices h : Works any (2 * m + 7) (fun u => u = s.1) (finish sys d x code)
        (fun _ s => Q s ∧ Means any w (m + 1) n s) K from h t s ⟨rfl, ht⟩
    refine (@finish_works T any d x all s.1 good n code sys hx hnum hgood m).weaken (.inr (Nat.le_refl _))
      (fun u hu => ?_) (fun _ u hu => ?_) fun u hu => hK _ _ hstart hu.1 hu.2
    · rw [hu]
      exact ⟨rfl, hP _ hstart, hmeans.olds, hmeans.clock⟩
    · obtain ⟨⟨hdone, hapart, hclock⟩, -, holds⟩ := hu
      exact ⟨hQ _ _ hstart hdone hapart, holds, hclock, hapart.written.trans hmeans.written⟩
  exact (works_exists hrun).weaken (.inr (Nat.le_refl _)) (fun s hs => ⟨s, rfl, hs⟩) (fun _ _ h => h)
    fun _ h => h

theorem finish_safe (sys : Listing) (hx : isOld x = false) (hnum : T.least ≤ d.num)
    (hgood : ∀ seg f stamp, good seg f → T.Stored seg (stamp ++ [46, code]) f) {P Q K : Site → Prop}
    (hP : ∀ s, P s → Holding T x good all s) (hQ : ∀ s₀ s, P s₀ → Done T x all s → Apart x s₀ s → Q s)
    (hK : ∀ s₀ s, P s₀ → Holding T x good all s → Apart x s₀ s → K s) :
    Safe P (finish sys d x code) (fun _ => Q) K := by
  have hrun : ∀ i : Nat × Bytes, Safe (fun s => P s ∧ Means True i.2 i.1 1 s) (finish sys d x code)
      (fun _ => Q) K := fun i =>
    (finish_from sys hx hnum hgood hP hQ hK i.2 i.1 0).weaken (.inl trivial) (fun _ h => h) (fun _ _ h => h.1)
      fun _ h => h
  exact (works_exists hrun).weaken (.inl trivial)
    (fun s hs => ⟨(s.olds, s.written), hs, Nat.le_refl _, .inl trivial, rfl⟩) (fun _ _ h => h) fun _ h => h

/-- There is nothing to do. -/
theorem finish_nothing (sys : Listing) {P K : Site → Prop} (hP : ∀ s, P s → s.dir.file x = none)
    (hK : ∀ s, P s → K s) : Works any 1 P (finish sys d x code) (fun _ => P) K := by
  rw [finish]
  refine works_ask_eq (v := none) (k := 0) hK (fun s hs => ?_) (works_pure fun _ h => h)
  rw [Dir.file_eq_none.mp (hP s hs), Option.map_none]

end Finish

end IndimailMta.Multilog.Disk
