import IndimailMta.Multilog.Finish

/-!
# What a program leaves

A program that runs is between two rotations of its log, or in one (`Resting`, `Stage`). Wherever it is
killed, the directory is in one of four states (`Left`): the program has quit; `previous` is to be filed;
`processed` is to be filed in its place; `current` is to be filed. An outage does not lead out of them.
-/

namespace IndimailMta.Multilog.Disk

open IndimailMta Directories

/-- A file that is left in `current` by a program that did not quit. -/
def Terms.Stopped (T : Terms) (seg : Bytes) (f : File) : Prop := f.executable = false ∧ T.Part seg f

/-- What `current` has, if it is there. -/
def Open (T : Terms) (q : Option Bytes) (s : Site) : Prop :=
  match q with
  | none => s.dir.file current = none
  | some seg => ∃ f, s.dir.file current = some f ∧ T.Stopped seg f

/-- What a program leaves that quits or is killed. -/
inductive Left (T : Terms) (s : Site) : Prop where
  | quit (closed : List Bytes) (f : File) (flat : s.dir.Flat) (archive : T.Archive closed s)
      (current : s.dir.file current = some f) (mode : f.executable = true)
      (synced : T.synced → f.synced = f.text.length) (previous : s.dir.file previous = none)
      (processed : s.dir.file processed = none) (state : s.dir.file state ≠ none)
      (written : s.written = closed.flatten ++ f.text)
  | previous (all : List Bytes) (q : Option Bytes) (holding : Holding T previous T.Part all s)
      (opened : Open T q s) (mode : ∀ f, s.dir.file processed = some f → f.executable = false)
      (written : s.written = all.flatten ++ q.getD [])
  | processed (all : List Bytes) (q : Option Bytes) (holding : Holding T processed T.Whole all s)
      (opened : Open T q s) (mode : ∃ f, s.dir.file processed = some f ∧ f.executable = true)
      (written : s.written = all.flatten ++ q.getD [])
  | current (all : List Bytes) (holding : Holding T current T.Stopped all s)
      (mode : ∀ f, s.dir.file current = some f → f.executable = false)
      (previous : s.dir.file previous = none) (processed : s.dir.file processed = none)
      (written : s.written = all.flatten)

/-- What a processor made of the segment. -/
structure Made (T : Terms) (seg : Bytes) (f : File) : Prop where
  whole : T.Whole seg f
  mode : f.executable = true

/-- `processed` is filed in its place, and `previous` is gone. -/
theorem Holding.left_made {T : Terms} {all : List Bytes} {q : Option Bytes} {s : Site}
    (h : Holding T processed (Made T) all s) (hprevious : s.dir.file previous = none) (hopen : Open T q s)
    (hwritten : s.written = all.flatten ++ q.getD []) : Left T s := by
  cases h with
  | gone flat file archive =>
      refine .previous all q (.gone flat hprevious archive) hopen (fun f hf => ?_) hwritten
      exact absurd (file.symm.trans hf) (Option.some_ne_none f).symm
  | there init seg f flat all_eq file good archive =>
      exact .processed all q (.there init seg f flat all_eq file good.whole archive) hopen ⟨f, file, good.mode⟩
        hwritten
  | linked o seg f old twins file good archive =>
      exact .processed all q (.linked o seg f old twins file good.whole archive) hopen ⟨f, file, good.mode⟩ hwritten

/-! ## A program that runs -/

/-- The log is as a program finds it that runs: the segments `closed` are filed, and `current` has `seg`. -/
structure Resting (T : Terms) (closed : List Bytes) (seg : Bytes) (s : Site) : Prop where
  flat : s.dir.Flat
  archive : T.Archive closed s
  fd : s.dir.ino current = some s.fdcurrent
  text : (s.dir.node s.fdcurrent).text = seg
  mode : (s.dir.node s.fdcurrent).executable = false
  previous : s.dir.file previous = none
  processed : s.dir.file processed = none
  state : s.dir.file state ≠ none
  written : s.written = closed.flatten ++ seg

/-- The files `current`, `previous` and `processed` at some point of a rotation. -/
structure Stage (T : Terms) (closed : List Bytes) (w : Bytes) (c p o : Option File) (s : Site) : Prop where
  flat : s.dir.Flat
  archive : T.Archive closed s
  current : s.dir.file current = c
  previous : s.dir.file previous = p
  processed : s.dir.file processed = o
  state : s.dir.file state ≠ none
  written : s.written = w

section Stages

variable {T : Terms} {closed : List Bytes} {seg w n : Bytes} {c p o v : Option File} {f g : File} {s : Site}
  {dir : Dir Bytes File}

theorem part_self (h : f.text = seg) : T.Part seg f := ⟨h ▸ List.prefix_rfl, fun _ => h⟩

theorem Resting.stage (h : Resting T closed seg s) :
    Stage T closed (closed.flatten ++ seg) (some (s.dir.node s.fdcurrent)) none none s :=
  ⟨h.flat, h.archive, Dir.file_of_ino h.fd, h.previous, h.processed, h.state, h.written⟩

/-- `current` is to be filed. -/
theorem Stage.left_current (h : Stage T closed (closed.flatten ++ seg) (some f) none none s)
    (htext : f.text = seg) (hmode : f.executable = false) : Left T s := by
  refine .current (closed ++ [seg]) (.there closed seg f h.flat rfl h.current ⟨hmode, part_self htext⟩ h.archive)
    (fun g hg => ?_) h.previous h.processed ?_
  · rw [h.current] at hg
    exact Option.some.inj hg ▸ hmode
  · rw [h.written, List.flatten_append, List.flatten_singleton]

theorem Resting.left (h : Resting T closed seg s) : Left T s := h.stage.left_current h.text h.mode

/-- `current` is new, if it is there. -/
def Fresh (c : Option File) : Prop := ∀ f, c = some f → f.text = [] ∧ f.executable = false

theorem Stage.opened (h : Stage T closed w c p o s) (hc : Fresh c) : Open T (c.map fun _ => []) s := by
  cases c with
  | none => exact h.current
  | some f => exact ⟨f, h.current, (hc f rfl).2, part_self (hc f rfl).1⟩

theorem written_fresh (h : s.written = closed.flatten ++ seg) (c : Option File) :
    s.written = (closed ++ [seg]).flatten ++ (c.map fun _ => []).getD [] := by
  have hnil : (c.map fun _ => ([] : Bytes)).getD [] = [] := by
    cases c with
    | none => rfl
    | some f => rfl
  rw [h, hnil, List.append_nil, List.flatten_append, List.flatten_singleton]

/-- `previous` is to be filed. -/
theorem Stage.left_previous (h : Stage T closed (closed.flatten ++ seg) c (some f) o s) (htext : f.text = seg)
    (hc : Fresh c) (ho : ∀ g, o = some g → g.executable = false) : Left T s := by
  refine .previous (closed ++ [seg]) _ (.there closed seg f h.flat rfl h.previous (part_self htext) h.archive)
    (h.opened hc) (fun g hg => ho g ?_) (written_fresh h.written c)
  rw [← h.processed, hg]

/-- `processed` is to be filed. -/
theorem Stage.left_processed (h : Stage T closed (closed.flatten ++ seg) c p (some g) s) (hwhole : T.Whole seg g)
    (hc : Fresh c) (hmode : g.executable = true) : Left T s :=
  .processed (closed ++ [seg]) _ (.there closed seg g h.flat rfl h.processed hwhole h.archive) (h.opened hc)
    ⟨g, h.processed, hmode⟩ (written_fresh h.written c)

/-! ## Steps -/

theorem archive_update (h : T.Archive closed s) (hfile : dir.file = Function.update s.dir.file n v)
    (hn : isOld n = false) : T.Archive closed { s with dir := dir } := by
  refine h.congr (fun k hk => ?_) rfl
  have hne : k ≠ n := by
    rintro rfl
    rw [hn] at hk
    exact absurd hk Bool.false_ne_true
  change dir.file k = s.dir.file k
  rw [hfile, Function.update_of_ne hne]

/-- A file with one of the other names is changed. -/
theorem Stage.set (h : Stage T closed w c p o s) (hflat : dir.Flat)
    (hfile : dir.file = Function.update s.dir.file n v) (hn : isOld n = false)
    (hstate : Disk.state = n → v ≠ none) :
    Stage T closed w (if Disk.current = n then v else c) (if Disk.previous = n then v else p)
      (if Disk.processed = n then v else o) { s with dir := dir } := by
  have hat : ∀ k x, s.dir.file k = x → dir.file k = if k = n then v else x := by
    rintro k x rfl
    rw [hfile, Function.update_apply]
  refine ⟨hflat, archive_update h.archive hfile hn, hat _ _ h.current, hat _ _ h.previous, hat _ _ h.processed,
    ?_, h.written⟩
  change dir.file Disk.state ≠ none
  rw [hat _ _ rfl]
  split
  · rename_i heq
    exact hstate heq
  · exact h.state

/-- What the program keeps for itself makes no difference. -/
theorem Stage.assign {s' : Site} (h : Stage T closed w c p o s) (hdir : s'.dir = s.dir)
    (hclock : s'.clock = s.clock) (hwritten : s'.written = s.written) : Stage T closed w c p o s' := by
  refine ⟨hdir ▸ h.flat, h.archive.congr (fun _ _ => by rw [hdir]) hclock, ?_, ?_, ?_, ?_, ?_⟩
  · rw [hdir, h.current]
  · rw [hdir, h.previous]
  · rw [hdir, h.processed]
  · rw [hdir]
    exact h.state
  · rw [hwritten, h.written]

theorem Stage.set_current (h : Stage T closed w c p o s) (hflat : dir.Flat)
    (hfile : dir.file = Function.update s.dir.file Disk.current v) :
    Stage T closed w v p o { s with dir := dir } := by
  have h := h.set hflat hfile rfl fun heq => absurd heq (by decide)
  rwa [if_pos rfl, if_neg (by decide), if_neg (by decide)] at h

theorem Stage.set_previous (h : Stage T closed w c p o s) (hflat : dir.Flat)
    (hfile : dir.file = Function.update s.dir.file Disk.previous v) :
    Stage T closed w c v o { s with dir := dir } := by
  have h := h.set hflat hfile rfl fun heq => absurd heq (by decide)
  rwa [if_neg (by decide), if_pos rfl, if_neg (by decide)] at h

theorem Stage.set_processed (h : Stage T closed w c p o s) (hflat : dir.Flat)
    (hfile : dir.file = Function.update s.dir.file Disk.processed v) :
    Stage T closed w c p v { s with dir := dir } := by
  have h := h.set hflat hfile rfl fun heq => absurd heq (by decide)
  rwa [if_neg (by decide), if_neg (by decide), if_pos rfl] at h

theorem Stage.set_newstate (h : Stage T closed w c p o s) (hflat : dir.Flat)
    (hfile : dir.file = Function.update s.dir.file Disk.newstate v) :
    Stage T closed w c p o { s with dir := dir } := by
  have h := h.set hflat hfile rfl fun heq => absurd heq (by decide)
  rwa [if_neg (by decide), if_neg (by decide), if_neg (by decide)] at h

theorem Stage.set_state (h : Stage T closed w c p o s) (hflat : dir.Flat)
    (hfile : dir.file = Function.update s.dir.file Disk.state v) (hv : v ≠ none) :
    Stage T closed w c p o { s with dir := dir } := by
  have h := h.set hflat hfile rfl fun _ => hv
  rwa [if_neg (by decide), if_neg (by decide), if_neg (by decide)] at h

end Stages

/-! ## An outage -/

section Outage

variable {T : Terms} {kept names all : List Bytes} {x n seg : Bytes} {f g : File} {keeps : Nat → Nat} {s : Site}

/-- What an outage leaves of a file. -/
def File.Cut (f g : File) : Prop :=
  g.mode = f.mode ∧ g.synced = f.synced ∧ ∃ k, g.text = f.text.take (max f.synced k)

theorem flat_outage (h : s.dir.Flat) : (outage keeps s).dir.Flat := h

theorem outage_file (keeps : Nat → Nat) (h : s.dir.file n = some f) : ∃ g, (outage keeps s).dir.file n = some g ∧ f.Cut g := by
  obtain ⟨i, hi, rfl⟩ := Dir.exists_ino h
  have hi' : (outage keeps s).dir.ino n = some i := hi
  exact ⟨_, Dir.file_of_ino hi', rfl, rfl, keeps i, rfl⟩

theorem outage_none : (outage keeps s).dir.file n = none ↔ s.dir.file n = none := by
  rw [Dir.file_eq_none, Dir.file_eq_none]
  rfl

theorem outage_eq_some (h : (outage keeps s).dir.file n = some g) : ∃ f, s.dir.file n = some f ∧ f.Cut g := by
  cases hn : s.dir.file n with
  | none =>
      rw [outage_none.mpr hn] at h
      cases h
  | some f =>
      obtain ⟨g', hg, hcut⟩ := outage_file keeps hn
      rw [hg] at h
      exact ⟨f, rfl, Option.some.inj h ▸ hcut⟩

theorem File.Cut.executable (h : f.Cut g) : g.executable = f.executable := by
  rw [File.executable, File.executable, h.1]

/-- A file that is synced keeps everything. -/
theorem File.Cut.safe (h : f.Cut g) (hf : f.synced = f.text.length) :
    g.text = f.text ∧ g.synced = g.text.length := by
  obtain ⟨-, hsynced, k, htext⟩ := h
  have heq : g.text = f.text := by
    rw [htext, List.take_of_length_le]
    rw [hf]
    exact Nat.le_max_left _ _
  refine ⟨heq, ?_⟩
  rw [hsynced, heq, hf]

theorem File.Cut.whole (h : f.Cut g) (hs : T.synced) (hf : T.Whole seg f) : T.Whole seg g := by
  obtain ⟨htext, hsynced⟩ := h.safe (hf.2 hs)
  refine ⟨?_, fun _ => hsynced⟩
  rw [htext]
  exact hf.1

theorem File.Cut.part (h : f.Cut g) (hc : ¬ T.calm) (hf : T.Part seg f) : T.Part seg g := by
  obtain ⟨-, -, k, htext⟩ := h
  refine ⟨?_, fun h => absurd h hc⟩
  rw [htext]
  exact (List.take_prefix _ _).trans hf.1

theorem File.Cut.stopped (h : f.Cut g) (hc : ¬ T.calm) (hf : T.Stopped seg f) : T.Stopped seg g :=
  ⟨h.executable.trans hf.1, h.part hc hf.2⟩

theorem Terms.Archive.outage (h : T.Archive all s) (hs : T.synced) (hc : ¬ T.calm) :
    T.Archive all (outage keeps s) := by
  obtain ⟨removed, kept, names, hall, hleast, hfiled, hahead⟩ := h
  refine ⟨removed, kept, names, hall, hleast, ⟨fun n hn => ?_, hfiled.named, hfiled.order, ?_⟩, hahead⟩
  · rw [Ne, outage_none]
    exact hfiled.listed n hn
  · refine hfiled.stored.imp fun seg n hf => ?_
    obtain ⟨f, hfile, hstored⟩ := hf
    obtain ⟨g, hg, hcut⟩ := outage_file keeps hfile
    exact ⟨g, hg, hstored.imp (And.imp_right (hcut.whole hs)) (And.imp_right (hcut.part hc))⟩

theorem Holding.outage {good : Bytes → File → Prop} (h : Holding T x good all s)
    (hgood : ∀ seg f g, File.Cut f g → good seg f → good seg g) (hs : T.synced) (hc : ¬ T.calm) :
    Holding T x good all (outage keeps s) := by
  cases h with
  | gone flat file archive => exact .gone (flat_outage flat) (outage_none.mpr file) (archive.outage hs hc)
  | there init seg f flat all_eq file seg_good archive =>
      obtain ⟨g, hg, hcut⟩ := outage_file keeps file
      exact .there init seg g (flat_outage flat) all_eq hg (hgood seg f g hcut seg_good) (archive.outage hs hc)
  | linked o seg f old twins file seg_good archive =>
      obtain ⟨g, hg, hcut⟩ := outage_file keeps file
      exact .linked o seg g old ⟨twins.ne, twins.same, twins.there, twins.only⟩ hg (hgood seg f g hcut seg_good)
        (archive.outage hs hc)

theorem Open.outage {q : Option Bytes} (h : Open T q s) (hc : ¬ T.calm) : Open T q (outage keeps s) := by
  cases q with
  | none => exact outage_none.mpr h
  | some seg =>
      obtain ⟨f, hf, hstopped⟩ := h
      obtain ⟨g, hg, hcut⟩ := outage_file keeps hf
      exact ⟨g, hg, hcut.stopped hc hstopped⟩

/-- **An outage** changes nothing about what is left to do. -/
theorem Left.outage (h : Left T s) (hs : T.synced) (hc : ¬ T.calm) : Left T (Disk.outage keeps s) := by
  have hmode : ∀ n, (∀ f, s.dir.file n = some f → f.executable = false) →
      ∀ g, (Disk.outage keeps s).dir.file n = some g → g.executable = false := by
    intro n hn g hg
    obtain ⟨f, hf, hcut⟩ := outage_eq_some hg
    rw [hcut.executable]
    exact hn f hf
  cases h with
  | quit closed f flat archive current mode synced previous processed state written =>
      obtain ⟨g, hg, hcut⟩ := outage_file keeps current
      obtain ⟨htext, hsynced⟩ := hcut.safe (synced hs)
      refine .quit closed g (flat_outage flat) (archive.outage hs hc) hg (hcut.executable.trans mode)
        (fun _ => hsynced) (outage_none.mpr previous) (outage_none.mpr processed) (fun h => state (outage_none.mp h)) ?_
      rw [htext]
      exact written
  | previous all q holding opened mode written =>
      exact .previous all q (holding.outage (fun _ _ _ hcut => hcut.part hc) hs hc) (opened.outage hc)
        (hmode _ mode) written
  | processed all q holding opened mode written =>
      obtain ⟨f, hf, hexec⟩ := mode
      obtain ⟨g, hg, hcut⟩ := outage_file keeps hf
      exact .processed all q (holding.outage (fun _ _ _ hcut => hcut.whole hs) hs hc) (opened.outage hc)
        ⟨g, hg, hcut.executable.trans hexec⟩ written
  | current all holding mode previous processed written =>
      exact .current all (holding.outage (fun _ _ _ hcut => hcut.stopped hc) hs hc) (hmode _ mode)
        (outage_none.mpr previous) (outage_none.mpr processed) written

end Outage

end IndimailMta.Multilog.Disk
