import IndimailMta.Multilog.Rotate

/-!
# A program starts

`restart` files what another program has left, or goes on with its `current` if it has quit. Wherever it
is killed, the next one can do the same.
-/

namespace IndimailMta.Multilog.Disk

open IndimailMta Exits Calls Directories

/-- The log is ready to be written. -/
def Live (T : Terms) (s : Site) : Prop := ∃ closed seg, Resting T closed seg s

section Restart

variable {T : Terms} {any : Prop} {d : Cyclog} {all closed : List Bytes} {q : Option Bytes} {w x n : Bytes}
  {good : Bytes → File → Prop} {m k fd : Nat} {f : File} {s : Site}

/-! ## What is left, without a name -/

theorem olds_unlink (hn : isOld n = false) : ({ s with dir := s.dir.unlink n } : Site).olds = s.olds := by
  have hfilter : (s.dir.names.filter (· ≠ n)).filter isOld = s.dir.names.filter isOld := by
    rw [List.filter_filter]
    refine List.filter_congr fun k _ => ?_
    by_cases hk : k = n
    · rw [hk, hn]
      rfl
    · rw [decide_eq_true hk, Bool.and_true]
  exact congrArg List.length hfilter

theorem Means.unlink (h : Means any w m k s) (hn : isOld n = false) :
    Means any w m k { s with dir := s.dir.unlink n } :=
  ⟨(olds_unlink hn).symm ▸ h.olds, h.clock, h.written⟩

theorem file_unlink_ne (hn : x ≠ n) : (s.dir.unlink n).file x = s.dir.file x := by
  rw [Dir.file_unlink, Function.update_of_ne hn]

theorem Terms.Archive.unlink (h : T.Archive all s) (hn : isOld n = false) :
    T.Archive all { s with dir := s.dir.unlink n } := h.congr (fun k hk => file_unlink_old hn k hk) rfl

theorem Holding.unlink (h : Holding T x good all s) (hn : isOld n = false) (hx : x ≠ n) :
    Holding T x good all { s with dir := s.dir.unlink n } := by
  cases h with
  | gone flat file archive =>
      exact .gone (flat.unlink n) ((file_unlink_ne hx).trans file) (archive.unlink hn)
  | there init seg f flat all_eq file seg_good archive =>
      exact .there init seg f (flat.unlink n) all_eq ((file_unlink_ne hx).trans file) seg_good (archive.unlink hn)
  | linked o seg f old twins file seg_good archive =>
      have ho : o ≠ n := by
        rintro rfl
        rw [hn] at old
        exact absurd old Bool.false_ne_true
      exact .linked o seg f old (twins.unlink hx ho) ((file_unlink_ne hx).trans file) seg_good (archive.unlink hn)

theorem Open.unlink (h : Open T q s) (hn : current ≠ n) : Open T q { s with dir := s.dir.unlink n } := by
  cases q with
  | none => exact (file_unlink_ne hn).trans h
  | some seg => exact h.imp fun f hf => hf.imp_left (file_unlink_ne hn).trans

/-- `previous` is to be filed. -/
structure First (T : Terms) (all : List Bytes) (q : Option Bytes) (s : Site) : Prop where
  holding : Holding T previous T.Part all s
  opened : Open T q s
  mode : ∀ f, s.dir.file processed = some f → f.executable = false
  written : s.written = all.flatten ++ q.getD []

/-- `processed` is to be filed in its place. -/
structure Instead (T : Terms) (all : List Bytes) (q : Option Bytes) (s : Site) : Prop where
  holding : Holding T processed T.Whole all s
  opened : Open T q s
  mode : ∃ f, s.dir.file processed = some f ∧ f.executable = true
  written : s.written = all.flatten ++ q.getD []

/-- `current` is to be filed. -/
structure Last (T : Terms) (all : List Bytes) (s : Site) : Prop where
  holding : Holding T current T.Stopped all s
  previous : s.dir.file previous = none
  processed : s.dir.file processed = none
  written : s.written = all.flatten

/-- A program was killed. -/
inductive Killed (T : Terms) (s : Site) : Prop where
  | first (all : List Bytes) (q : Option Bytes) (h : First T all q s)
  | instead (all : List Bytes) (q : Option Bytes) (h : Instead T all q s)
  | last (all : List Bytes) (h : Last T all s)

theorem First.left (h : First T all q s) : Left T s := .previous all q h.holding h.opened h.mode h.written

theorem Instead.left (h : Instead T all q s) : Left T s := .processed all q h.holding h.opened h.mode h.written

/-- `processed` can still be filed. -/
theorem Instead.made (h : Instead T all q s) : Holding T processed (Made T) all s := by
  obtain ⟨f, hf, hexec⟩ := h.mode
  cases h.holding with
  | gone flat file archive => exact absurd (file.symm.trans hf) (Option.some_ne_none f).symm
  | there init seg g flat all_eq file seg_good archive =>
      have heq := Option.some.inj (file.symm.trans hf)
      exact .there init seg g flat all_eq file ⟨seg_good, heq ▸ hexec⟩ archive
  | linked o seg g old twins file seg_good archive =>
      have heq := Option.some.inj (file.symm.trans hf)
      exact .linked o seg g old twins file ⟨seg_good, heq ▸ hexec⟩ archive

theorem Last.mode (h : Last T all s) (hf : s.dir.file current = some f) : f.executable = false := by
  cases h.holding with
  | gone flat file archive => exact absurd (file.symm.trans hf) (Option.some_ne_none f).symm
  | there init seg g flat all_eq file seg_good archive => exact Option.some.inj (file.symm.trans hf) ▸ seg_good.1
  | linked o seg g old twins file seg_good archive => exact Option.some.inj (file.symm.trans hf) ▸ seg_good.1

theorem Last.filed (h : Last T all s) (hf : s.dir.file current = none) : s.dir.Flat ∧ T.Archive all s := by
  cases h.holding with
  | gone flat file archive => exact ⟨flat, archive⟩
  | there init seg g flat all_eq file seg_good archive =>
      exact absurd (file.symm.trans hf) (Option.some_ne_none g)
  | linked o seg g old twins file seg_good archive =>
      exact absurd (file.symm.trans hf) (Option.some_ne_none g)

theorem Last.left (h : Last T all s) : Left T s :=
  .current all h.holding (fun _ => h.mode) h.previous h.processed h.written

theorem Killed.left (h : Killed T s) : Left T s := by
  cases h with
  | first all q h => exact h.left
  | instead all q h => exact h.left
  | last all h => exact h.left

/-- What is known of `state` and `newstate` is not used. -/
theorem Killed.unlink (h : Killed T s) (hn : n = state ∨ n = newstate) :
    Killed T { s with dir := s.dir.unlink n } := by
  have hold : isOld n = false := by
    rcases hn with rfl | rfl
    · rfl
    · rfl
  have hne : current ≠ n ∧ previous ≠ n ∧ processed ≠ n := by
    rcases hn with rfl | rfl
    · decide
    · decide
  obtain ⟨hc, hp, ho⟩ := hne
  cases h with
  | first all q h =>
      refine .first all q ⟨h.holding.unlink hold hp, h.opened.unlink hc, fun f hf => h.mode f ?_, h.written⟩
      exact (file_unlink_ne ho).symm.trans hf
  | instead all q h =>
      refine .instead all q ⟨h.holding.unlink hold ho, h.opened.unlink hc, h.mode.imp fun f hf => ?_, h.written⟩
      exact hf.imp_left (file_unlink_ne ho).trans
  | last all h =>
      exact .last all ⟨h.holding.unlink hold hc, (file_unlink_ne hp).trans h.previous,
        (file_unlink_ne ho).trans h.processed, h.written⟩

/-- Everything is filed but `current`. -/
theorem last_of_open (flat : s.dir.Flat) (archive : T.Archive all s) (opened : Open T q s)
    (hp : s.dir.file previous = none) (ho : s.dir.file processed = none)
    (hw : s.written = all.flatten ++ q.getD []) : Last T (all ++ q.toList) s := by
  cases q with
  | none =>
      refine ⟨.gone flat opened ?_, hp, ho, ?_⟩
      · rw [Option.toList_none, List.append_nil]
        exact archive
      · rw [hw, Option.toList_none, List.append_nil]
        exact List.append_nil _
  | some seg =>
      obtain ⟨f, hf, hstopped⟩ := opened
      refine ⟨.there all seg f flat rfl hf hstopped archive, hp, ho, ?_⟩
      rw [hw, Option.toList_some, List.flatten_append, List.flatten_singleton]
      rfl

theorem Open.apart {s₀ : Site} (h : Open T q s₀) (hapart : Apart x s₀ s) (hx : x ≠ current) : Open T q s := by
  have hfile := hapart.file current hx.symm rfl
  cases q with
  | none => exact hfile.trans h
  | some seg => exact h.imp fun f hf => hf.imp_left hfile.trans

/-! ## Calls -/

/-- `previous` is filed. -/
theorem first_works (sys : Listing) (hnum : T.least ≤ d.num) :
    Works any (2 * m + 8) (fun s => First T all q s ∧ Means any w m 2 s)
      (unlink processed >>= fun _ => finish sys d previous 117)
      (fun _ s => Last T (all ++ q.toList) s ∧ Means any w (m + 1) 1 s) (Left T) := by
  have hfinish : Works any (2 * m + 7)
      (fun s => (First T all q s ∧ s.dir.file processed = none) ∧ Means any w m 2 s) (finish sys d previous 117)
      (fun _ s => Last T (all ++ q.toList) s ∧ Means any w (m + 1) 1 s) (Left T) := by
    refine finish_from sys rfl hnum (fun seg f stamp h => .inr ⟨⟨stamp, rfl⟩, h⟩) (fun s hs => hs.1.holding)
      (fun s₀ s hs hdone hapart => ?_) (fun s₀ s hs hold hapart => ?_) w m 1
    · obtain ⟨hfirst, hprocessed⟩ := hs
      refine last_of_open hdone.flat hdone.archive (hfirst.opened.apart hapart (by decide)) hdone.file ?_ ?_
      · exact (hapart.file processed (by decide) rfl).trans hprocessed
      · exact hapart.written.trans hfirst.written
    · obtain ⟨hfirst, hprocessed⟩ := hs
      refine .previous all q hold (hfirst.opened.apart hapart (by decide)) (fun f hfile => ?_)
        (hapart.written.trans hfirst.written)
      rw [hapart.file processed (by decide) rfl, hprocessed] at hfile
      cases hfile
  have hsum : 2 * m + 8 = 1 + (2 * m + 7) := by omega
  rw [hsum]
  refine works_bind (works_call (fun s hs => hs.1.left) fun s hs => ?_) fun _ => hfinish
  obtain ⟨hfirst, hmeans⟩ := hs
  refine ⟨⟨⟨hfirst.holding.unlink rfl (by decide), hfirst.opened.unlink (by decide), ?_, hfirst.written⟩, ?_⟩,
    hmeans.unlink rfl⟩
  · intro f hfile
    rw [Dir.file_unlink, Function.update_self] at hfile
    cases hfile
  · rw [Dir.file_unlink, Function.update_self]

/-- `processed` is filed. -/
theorem instead_works (sys : Listing) (hnum : T.least ≤ d.num) :
    Works any (2 * m + 8) (fun s => Instead T all q s ∧ Means any w m 2 s)
      (unlink previous >>= fun _ => finish sys d processed 115)
      (fun _ s => Last T (all ++ q.toList) s ∧ Means any w (m + 1) 1 s) (Left T) := by
  have hfinish : Works any (2 * m + 7)
      (fun s => (Instead T all q s ∧ s.dir.file previous = none) ∧ Means any w m 2 s) (finish sys d processed 115)
      (fun _ s => Last T (all ++ q.toList) s ∧ Means any w (m + 1) 1 s) (Left T) := by
    refine finish_from sys rfl hnum (fun seg f stamp h => .inl ⟨⟨stamp, rfl⟩, h.whole⟩)
      (fun s hs => hs.1.made) (fun s₀ s hs hdone hapart => ?_) (fun s₀ s hs hold hapart => ?_) w m 1
    · obtain ⟨hinstead, hprevious⟩ := hs
      refine last_of_open hdone.flat hdone.archive (hinstead.opened.apart hapart (by decide)) ?_ hdone.file ?_
      · exact (hapart.file previous (by decide) rfl).trans hprevious
      · exact hapart.written.trans hinstead.written
    · obtain ⟨hinstead, hprevious⟩ := hs
      exact hold.left_made ((hapart.file previous (by decide) rfl).trans hprevious)
        (hinstead.opened.apart hapart (by decide)) (hapart.written.trans hinstead.written)
  have hsum : 2 * m + 8 = 1 + (2 * m + 7) := by omega
  rw [hsum]
  refine works_bind (works_call (fun s hs => hs.1.left) fun s hs => ?_) fun _ => hfinish
  obtain ⟨hinstead, hmeans⟩ := hs
  refine ⟨⟨⟨hinstead.holding.unlink rfl (by decide), hinstead.opened.unlink (by decide), ?_, hinstead.written⟩, ?_⟩,
    hmeans.unlink rfl⟩
  · exact hinstead.mode.imp fun f hfile => hfile.imp_left (file_unlink_ne (by decide)).trans
  · rw [Dir.file_unlink, Function.update_self]

/-- Only `current` is there. -/
theorem last_works (sys : Listing) :
    Works any (2 * m + 8) (fun s => Last T all s ∧ Means any w m 2 s)
      (unlink processed >>= fun _ => finish sys d previous 117)
      (fun _ s => Last T all s ∧ Means any w (m + 1) 1 s) (Left T) := by
  have hrun : Works any (1 + 1) (fun s => Last T all s ∧ Means any w m 2 s)
      (unlink processed >>= fun _ => finish sys d previous 117)
      (fun _ s => Last T all s ∧ Means any w m 2 s) (Left T) := by
    refine works_bind (works_call (fun s hs => hs.1.left) fun s hs => ?_) fun _ =>
      finish_nothing sys (fun s hs => hs.1.previous) fun s hs => hs.1.left
    obtain ⟨hlast, hmeans⟩ := hs
    refine ⟨⟨hlast.holding.unlink rfl (by decide), (file_unlink_ne (by decide)).trans hlast.previous, ?_,
      hlast.written⟩, hmeans.unlink rfl⟩
    rw [Dir.file_unlink, Function.update_self]
  refine hrun.weaken (.inr (by omega)) (fun _ h => h) (fun _ s hs => ?_) fun _ h => h
  obtain ⟨hlast, holds, hclock, hwritten⟩ := hs
  exact ⟨hlast, Nat.le_succ_of_le holds, hclock.imp_right Nat.le_of_succ_le, hwritten⟩

/-- `current` is filed. -/
theorem finish_current_works (sys : Listing) (hnum : T.least ≤ d.num) :
    Works any (2 * m + 7) (fun s => Last T all s ∧ Means any w m 1 s) (finish sys d current 117)
      (fun _ s => (Last T all s ∧ s.dir.file current = none) ∧ Means any w (m + 1) 0 s) (Left T) := by
  refine finish_from sys rfl hnum (fun seg f stamp h => .inr ⟨⟨stamp, rfl⟩, h.2⟩) (fun s hs => hs.holding)
    (fun s₀ s hs hdone hapart => ?_) (fun s₀ s hs hold hapart => ?_) w m 0
  · refine ⟨⟨.gone hdone.flat hdone.file hdone.archive, ?_, ?_, ?_⟩, hdone.file⟩
    · exact (hapart.file previous (by decide) rfl).trans hs.previous
    · exact (hapart.file processed (by decide) rfl).trans hs.processed
    · exact hapart.written.trans hs.written
  · have hlast : Last T all s := by
      refine ⟨hold, ?_, ?_, ?_⟩
      · exact (hapart.file previous (by decide) rfl).trans hs.previous
      · exact (hapart.file processed (by decide) rfl).trans hs.processed
      · exact hapart.written.trans hs.written
    exact hlast.left

/-- `state` is made. -/
theorem open_state_works :
    Works any 1 (fun s => (Last T all s ∧ s.dir.file current = none) ∧ s.written = w) (open_trunc state)
      (fun _ s => Stage T all w none none none s) (Left T) := by
  refine works_call (fun s hs => hs.1.1.left) fun s hs => ?_
  obtain ⟨⟨hlast, hcurrent⟩, hwritten⟩ := hs
  obtain ⟨hflat, harchive⟩ := hlast.filed hcurrent
  obtain ⟨i, dir, hi, hdir, hdflat, -, -, hfile⟩ := open_trunc_dir hflat state
  dsimp only
  rw [hi, Option.getD_some, ← hdir]
  have hne : ∀ k, k ≠ state → dir.file k = s.dir.file k := fun k hk => by rw [hfile, Function.update_of_ne hk]
  refine ⟨hdflat, archive_update harchive hfile rfl, (hne current (by decide)).trans hcurrent,
    (hne previous (by decide)).trans hlast.previous, (hne processed (by decide)).trans hlast.processed, ?_, hwritten⟩
  change dir.file state ≠ none
  rw [hfile, Function.update_self]
  exact Option.some_ne_none _

theorem executable_644 (f : File) : { f with mode := 0o644 }.executable = false := by
  have h : ¬ (0o644 : Nat) &&& 0o100 ≠ 0 := by decide
  exact decide_eq_false h

theorem Stage.resting {f : File} {b : Nat} (h : Stage T closed w (some f) none none s)
    (hino : s.dir.ino Disk.current = some fd) (hmode : f.executable = false) (hw : w = closed.flatten ++ f.text) :
    Resting T closed f.text { s with fdcurrent := fd, bytes := b } := by
  have hnode : s.dir.node fd = f := Option.some.inj ((Dir.file_of_ino hino).symm.trans h.current)
  refine ⟨h.flat, h.archive.congr (fun _ _ => rfl) rfl, hino, ?_, ?_, h.previous, h.processed, h.state,
    h.written.trans hw⟩
  · exact congrArg File.text hnode
  · exact (congrArg File.executable hnode).trans hmode

/-- `current` is opened, and it is no longer finished. -/
theorem reopen_works (c : Option File) (b : Nat) (hw : w = closed.flatten ++ (c.getD ⟨[], 0, 0o600⟩).text)
    (hleft : ∀ s, Stage T closed w c none none s → Left T s)
    (hleft' : ∀ s, Stage T closed w (some (c.getD ⟨[], 0, 0o600⟩)) none none s → Left T s) :
    Works any 2 (Stage T closed w c none none)
      (open_append current >>= fun fd => fchmod fd 0o644 >>= fun _ =>
        assign fun s => { s with fdcurrent := fd, bytes := b })
      (fun _ s => Live T s ∧ s.written = w) (Left T) := by
  have hassign : ∀ fd, Works any 0
      (fun s => s.dir.ino current = some fd ∧
        Stage T closed w (some { c.getD ⟨[], 0, 0o600⟩ with mode := 0o644 }) none none s)
      (assign fun s => { s with fdcurrent := fd, bytes := b }) (fun _ s => Live T s ∧ s.written = w) (Left T) :=
    fun fd => works_assign fun s hs =>
      ⟨⟨closed, _, hs.2.resting hs.1 (executable_644 _) hw⟩, hs.2.written⟩
  have hchmod : ∀ fd, Works any 1
      (fun s => s.dir.ino current = some fd ∧ Stage T closed w (some (c.getD ⟨[], 0, 0o600⟩)) none none s)
      (fchmod fd 0o644 >>= fun _ => assign fun s => { s with fdcurrent := fd, bytes := b })
      (fun _ s => Live T s ∧ s.written = w) (Left T) := by
    intro fd
    refine works_bind (works_perform (fun s hs => hleft' s hs.2) fun s hs => ?_) fun _ => hassign fd
    obtain ⟨hino, hstage⟩ := hs
    exact ⟨hino, hstage.set_current (hstage.flat.change _)
      (Dir.file_modify_of_file hstage.flat hino hstage.current fun f => { f with mode := 0o644 })⟩
  refine works_bind (Q := fun fd s => s.dir.ino current = some fd ∧
    Stage T closed w (some (c.getD ⟨[], 0, 0o600⟩)) none none s) (works_call hleft fun s hs => ?_) hchmod
  obtain ⟨i, hi, hflat, hfile, -⟩ := Dir.create_flat hs.flat current ⟨[], 0, 0o600⟩
  rw [hs.current] at hfile
  refine ⟨?_, hs.set_current hflat hfile⟩
  change (s.dir.create current _).ino current = some (((s.dir.create current _).ino current).getD 0)
  rw [hi, Option.getD_some]

/-! ## Start -/

/-- A program has quit. -/
structure Quit (T : Terms) (closed : List Bytes) (f : File) (s : Site) : Prop where
  stage : Stage T closed (closed.flatten ++ f.text) (some f) none none s
  mode : f.executable = true
  synced : T.synced → f.synced = f.text.length

theorem Quit.left {f : File} (h : Quit T closed f s) : Left T s :=
  .quit closed f h.stage.flat h.stage.archive h.stage.current h.mode h.synced h.stage.previous h.stage.processed
    h.stage.state h.stage.written

theorem Open.mode (h : Open T q s) (hf : s.dir.file Disk.current = some f) : f.executable = false := by
  cases q with
  | none => exact absurd (h.symm.trans hf) (Option.some_ne_none f).symm
  | some seg =>
      obtain ⟨g, hg, hstopped⟩ := h
      exact Option.some.inj (hg.symm.trans hf) ▸ hstopped.1

/-- What `restart` looks at first: whether the file `current` is finished. -/
theorem Left.quit_or_killed (h : Left T s) :
    (∃ closed f, Quit T closed f s) ∨ Killed T s ∧ ∀ f, s.dir.file Disk.current = some f → f.executable = false := by
  cases h with
  | quit closed f flat archive current mode synced previous processed state written =>
      exact .inl ⟨closed, f, ⟨flat, archive, current, previous, processed, state, written⟩, mode, synced⟩
  | previous all q holding opened mode written =>
      exact .inr ⟨.first all q ⟨holding, opened, mode, written⟩, fun f hf => opened.mode hf⟩
  | processed all q holding opened mode written =>
      exact .inr ⟨.instead all q ⟨holding, opened, mode, written⟩, fun f hf => opened.mode hf⟩
  | current all holding mode previous processed written =>
      exact .inr ⟨.last all ⟨holding, previous, processed, written⟩, mode⟩

/-- What `stat` says of a file that is there, or not. -/
theorem stat_any (x : Bytes) (s : Site) :
    (((s.dir.ino x).map fun i => (s.dir.nlink i, s.dir.node i)).any fun st => st.2.executable) = true ↔
      ∃ f, s.dir.file x = some f ∧ f.executable = true := by
  cases hx : s.dir.ino x with
  | none =>
      rw [Option.map_none, Option.any_none, Dir.file_eq_none.mpr hx]
      exact iff_of_false Bool.false_ne_true fun ⟨f, hf, _⟩ => absurd hf (Option.some_ne_none f).symm
  | some i =>
      rw [Option.map_some, Option.any_some, Dir.file_of_ino hx]
      exact ⟨fun h => ⟨_, rfl, h⟩, fun ⟨f, hf, h⟩ => Option.some.inj hf ▸ h⟩

/-- What is filed before `current`. -/
theorem killed_works (sys : Listing) (hnum : T.least ≤ d.num) {rest : Task Site Unit}
    (hrest : ∀ all, Works any k (fun s => Last T all s ∧ Means any w (m + 1) 1 s) rest
      (fun _ s => Live T s ∧ s.written = w) (Left T)) :
    Works any (2 * m + k + 9) (fun s => Killed T s ∧ Means any w m 2 s)
      (stat processed >>= fun st =>
        if (st.any fun st => st.2.executable) = true then
          unlink previous >>= fun _ => finish sys d processed 115 >>= fun _ => rest
        else unlink processed >>= fun _ => finish sys d previous 117 >>= fun _ => rest)
      (fun _ s => Live T s ∧ s.written = w) (Left T) := by
  have hsum : 2 * m + k + 9 = (2 * m + 8 + k) + 1 := by omega
  rw [hsum]
  refine works_ask_bind (fun s hs => hs.1.left) fun st => works_ite (fun hst => ?_) fun hst => ?_
  · rw [task_assoc]
    rintro t s ⟨⟨⟨hkilled, hmeans⟩, hstat⟩, ht⟩
    rw [← hstat, stat_any] at hst
    obtain ⟨f, hfile, hexec⟩ := hst
    cases hkilled with
    | first all q h =>
        rw [h.mode f hfile] at hexec
        cases hexec
    | instead all q h =>
        exact works_bind (instead_works sys hnum) (fun _ => hrest _) t s ⟨⟨h, hmeans⟩, ht⟩
    | last all h => exact absurd (h.processed.symm.trans hfile) (Option.some_ne_none f).symm
  · rw [task_assoc]
    rintro t s ⟨⟨⟨hkilled, hmeans⟩, hstat⟩, ht⟩
    rw [← hstat, stat_any] at hst
    cases hkilled with
    | first all q h => exact works_bind (first_works sys hnum) (fun _ => hrest _) t s ⟨⟨h, hmeans⟩, ht⟩
    | instead all q h => exact absurd h.mode hst
    | last all h => exact works_bind (last_works sys) (fun _ => hrest _) t s ⟨⟨h, hmeans⟩, ht⟩

/-- `current` is filed, and begun again. -/
theorem begin_works (sys : Listing) (hnum : T.least ≤ d.num) (all : List Bytes) :
    Works any (2 * m + 12) (fun s => Last T all s ∧ Means any w (m + 1) 1 s)
      (finish sys d current 117 >>= fun _ => open_trunc state >>= fun _ => open_append current >>= fun fd =>
        fchmod fd 0o644 >>= fun _ => assign fun s => { s with fdcurrent := fd, bytes := 0 })
      (fun _ s => Live T s ∧ s.written = w) (Left T) := by
  have hsum : 2 * m + 12 = 2 * (m + 1) + 7 + (1 + 2) := by omega
  rw [hsum]
  refine works_bind (finish_current_works sys hnum) fun _ => ?_
  -- what was written is known from here on
  suffices hopen : all.flatten = w → Works any (1 + 2)
      (fun s => (Last T all s ∧ s.dir.file current = none) ∧ s.written = w)
      (open_trunc state >>= fun _ => open_append current >>= fun fd => fchmod fd 0o644 >>= fun _ =>
        assign fun s => { s with fdcurrent := fd, bytes := 0 })
      (fun _ s => Live T s ∧ s.written = w) (Left T) from
    fun t s hs => hopen (hs.1.1.1.written.symm.trans hs.1.2.written) t s ⟨⟨hs.1.1, hs.1.2.written⟩, hs.2⟩
  intro hw
  have hw' : w = all.flatten ++ [] := by rw [hw, List.append_nil]
  refine works_bind open_state_works fun _ => reopen_works none 0 hw' (fun s hs => ?_) fun s hs => ?_
  · refine .current all (.gone hs.flat hs.current hs.archive) (fun f hf => ?_) hs.previous hs.processed ?_
    · exact absurd (hs.current.symm.trans hf) (Option.some_ne_none f).symm
    · exact hs.written.trans hw.symm
  · rw [hw'] at hs
    exact hs.left_current rfl (by decide)

/-- **A program starts** with the log ready, however the one before it has ended. -/
theorem restart_works (sys : Listing) (hnum : T.least ≤ d.num) (w : Bytes) (m : Nat) :
    Works any (4 * m + 24) (fun s => Left T s ∧ Means any w m 2 s) (restart sys d)
      (fun _ s => Live T s ∧ s.written = w) (Left T) := by
  rw [restart]
  have hsum : 4 * m + 24 = (4 * m + 23) + 1 := rfl
  rw [hsum]
  refine works_ask_bind (fun s hs => hs.1) fun st => works_ite (fun hst => ?_) fun hst => ?_
  · -- the program before has quit
    rintro t s ⟨⟨⟨hleft, hmeans⟩, hstat⟩, ht⟩
    rw [← hstat, stat_any] at hst
    obtain ⟨f, hfile, hexec⟩ := hst
    rcases hleft.quit_or_killed with ⟨closed, f, hquit⟩ | ⟨-, hmode⟩
    · have hw : w = closed.flatten ++ f.text := hmeans.written.symm.trans hquit.stage.written
      have hquits : ∀ s, Stage T closed w (some f) none none s → Left T s := fun s hs =>
        Quit.left ⟨hw ▸ hs, hquit.mode, hquit.synced⟩
      exact (reopen_works (some f) _ hw hquits hquits).weaken (.inr (by omega)) (fun _ h => h) (fun _ _ h => h)
        (fun _ h => h) t s ⟨hw ▸ hquit.stage, ht⟩
    · rw [hmode f hfile] at hexec
      cases hexec
  · -- the program before was killed
    have hunlink : ∀ n, n = state ∨ n = newstate → Works any 1 (fun s => Killed T s ∧ Means any w m 2 s) (unlink n)
        (fun _ s => Killed T s ∧ Means any w m 2 s) (Left T) := by
      intro n hn
      have hold : isOld n = false := by
        rcases hn with rfl | rfl
        · rfl
        · rfl
      exact works_call (fun s hs => hs.1.left) fun s hs => ⟨hs.1.unlink hn, hs.2.unlink hold⟩
    have hrest := works_bind (hunlink state (.inl rfl)) fun _ => works_bind (hunlink newstate (.inr rfl)) fun _ =>
      killed_works sys hnum (begin_works sys hnum)
    refine hrest.weaken (.inr (by omega)) (fun s hs => ?_) (fun _ _ h => h) fun _ h => h
    obtain ⟨⟨hleft, hmeans⟩, hstat⟩ := hs
    rw [← hstat, stat_any] at hst
    rcases hleft.quit_or_killed with ⟨closed, f, hquit⟩ | ⟨hkilled, -⟩
    · exact absurd ⟨f, hquit.stage.current, hquit.mode⟩ hst
    · exact ⟨hkilled, hmeans⟩

end Restart

end IndimailMta.Multilog.Disk
