import IndimailMta.Multilog.Left

/-!
# A rotation

`fullcurrent` files the segment of `current` and begins a new one. Wherever it is killed, the segment is
filed or to be filed, and no other has changed.
-/

namespace IndimailMta.Multilog.Disk

open IndimailMta Exits Calls Directories

/-- What an `s` file of this program may hold of a segment. -/
def Cyclog.Makes (d : Cyclog) (seg text : Bytes) : Prop :=
  match d.processor with
  | none => text = seg
  | some processor => ∃ st, text = (processor seg st).1

/-- A program that does what is known of the log. -/
structure Follows (T : Terms) (d : Cyclog) : Prop where
  num : T.least ≤ d.num
  sync : T.synced → d.f_sync = true
  made : ∀ seg text, d.Makes seg text → T.made seg text

/-- `current`, when it is new. -/
def newFile : File := ⟨[], 0, 0o644⟩

theorem fresh_newFile : Fresh (some newFile) := fun _ h => Option.some.inj h ▸ ⟨rfl, by decide⟩

theorem fresh_none : Fresh none := fun _ h => absurd h (Option.some_ne_none _).symm

/-- A segment, synced if the log is. -/
structure Complete (T : Terms) (seg : Bytes) (f : File) : Prop where
  text : f.text = seg
  synced : T.synced → f.synced = f.text.length

section Steps

variable {T : Terms} {d : Cyclog} {closed : List Bytes} {seg w : Bytes} {c p o : Option File} {f g : File}
  {fd : Nat} {s : Site}

/-- `current` is the open file. -/
def Site.Fd (s : Site) : Prop := s.dir.ino current = some s.fdcurrent

/-- `current` has the whole segment, which is synced if the log is. -/
def Flushed (T : Terms) (closed : List Bytes) (seg : Bytes) (fd : Nat) (s : Site) : Prop :=
  s.dir.ino current = some fd ∧ ∃ f, f.executable = false ∧ Complete T seg f ∧
    Stage T closed (closed.flatten ++ seg) (some f) none none s

theorem Flushed.left (h : Flushed T closed seg fd s) : Left T s := by
  obtain ⟨-, f, hmode, hcomplete, hstage⟩ := h
  exact hstage.left_current hcomplete.text hmode

theorem fsync_works (hf : Follows T d) :
    Safe (fun s => Resting T closed seg s ∧ s.fdcurrent = fd) (when (d.f_sync = true) (fsync fd))
      (fun _ s => Flushed T closed seg fd s) (Left T) := by
  refine works_ite (fun _ => ?_) fun hsync => works_pure fun s hs => ?_
  · refine (works_perform (fun s hs => hs.1.left) fun s hs => ?_).safe
    obtain ⟨hrest, rfl⟩ := hs
    have hstage := hrest.stage.set_current (hrest.flat.change _)
      (Dir.file_modify hrest.flat hrest.fd fun f => { f with synced := f.text.length })
    exact ⟨hrest.fd, { s.dir.node s.fdcurrent with synced := (s.dir.node s.fdcurrent).text.length }, hrest.mode,
      ⟨hrest.text, fun _ => rfl⟩, hstage⟩
  · obtain ⟨hrest, rfl⟩ := hs
    exact ⟨hrest.fd, _, hrest.mode, ⟨hrest.text, fun h => absurd (hf.sync h) hsync⟩, hrest.stage⟩

theorem rename_works :
    Safe (fun s => Flushed T closed seg fd s) (until_ (rename current previous))
      (fun _ s => ∃ f, Complete T seg f ∧ Stage T closed (closed.flatten ++ seg) none (some f) none s)
      (Left T) := by
  have hleft : ∀ s, Flushed T closed seg fd s → Left T s := fun s hs => hs.left
  refine (works_once Nat.one_pos (works_call hleft fun s hs => ?_) hleft).safe
  obtain ⟨-, f, hmode, hwhole, hstage⟩ := hs
  obtain ⟨e, he, hflat, hfile, -⟩ := Dir.rename_flat hstage.flat hstage.current (show current ≠ previous by decide)
  rw [he]
  refine ⟨rfl, f, hwhole, ?_⟩
  have hgone := hstage.set_current (hstage.flat.unlink current) (Dir.file_unlink current)
  refine hgone.set_previous hflat ?_
  rw [hfile, Dir.file_unlink]

/-- `previous` is to be filed, and `current` is `c`. -/
def Renamed (T : Terms) (closed : List Bytes) (seg : Bytes) (c : Option File) (s : Site) : Prop :=
  ∃ f, Complete T seg f ∧ Stage T closed (closed.flatten ++ seg) c (some f) none s

theorem Renamed.left (h : Renamed T closed seg c s) (hc : Fresh c) : Left T s := by
  obtain ⟨f, hcomplete, hstage⟩ := h
  exact hstage.left_previous hcomplete.text hc fun g hg => absurd hg (Option.some_ne_none g).symm

theorem fresh_created : Fresh (some ⟨[], 0, 0o600⟩) := fun _ h => Option.some.inj h ▸ ⟨rfl, by decide⟩

theorem open_current_works :
    Safe (fun s => Renamed T closed seg none s) (open_append current)
      (fun fd s => s.dir.ino current = some fd ∧ Renamed T closed seg (some ⟨[], 0, 0o600⟩) s) (Left T) := by
  refine (works_call (fun s hs => hs.left fresh_none) fun s hs => ?_).safe
  obtain ⟨f, hcomplete, hstage⟩ := hs
  obtain ⟨i, hi, hflat, hfile, -⟩ := Dir.create_flat hstage.flat current ⟨[], 0, 0o600⟩
  rw [hstage.current] at hfile
  refine ⟨?_, f, hcomplete, hstage.set_current hflat hfile⟩
  change (s.dir.create current _).ino current = some (((s.dir.create current _).ino current).getD 0)
  rw [hi, Option.getD_some]

theorem fchmod_current_works :
    Safe (fun s => (s.dir.ino current = some fd ∧ s.Fd) ∧ Renamed T closed seg (some ⟨[], 0, 0o600⟩) s)
      (fchmod fd 0o644) (fun _ s => s.Fd ∧ Renamed T closed seg (some newFile) s) (Left T) := by
  refine (works_perform (fun s hs => hs.2.left fresh_created) fun s hs => ?_).safe
  obtain ⟨⟨hfd, hcur⟩, f, hcomplete, hstage⟩ := hs
  exact ⟨hcur, f, hcomplete, hstage.set_current (hstage.flat.change _)
    (Dir.file_modify_of_file hstage.flat hfd hstage.current fun f => { f with mode := 0o644 })⟩

theorem chmod_previous_works :
    Safe (fun s => s.Fd ∧ Renamed T closed seg (some newFile) s) (until_ (chmod previous 0o744))
      (fun _ s => s.Fd ∧ Renamed T closed seg (some newFile) s) (Left T) := by
  have hleft : ∀ s, s.Fd ∧ Renamed T closed seg (some newFile) s → Left T s := fun s hs =>
    hs.2.left fresh_newFile
  refine (works_once Nat.one_pos (works_call hleft fun s hs => ?_) hleft).safe
  obtain ⟨hcur, f, hcomplete, hstage⟩ := hs
  obtain ⟨i, hi, -⟩ := Dir.exists_ino hstage.previous
  rw [hi]
  exact ⟨rfl, hcur, { f with mode := 0o744 }, ⟨hcomplete.text, hcomplete.synced⟩,
    hstage.set_previous (hstage.flat.change _)
      (Dir.file_modify_of_file hstage.flat hi hstage.previous fun f => { f with mode := 0o744 })⟩

/-! ## The segment is filed -/

section Filing

variable {x : Bytes} {code : Byte}

/-- `finish` ends a rotation. -/
theorem finish_rests (sys : Listing) (good : Bytes → File → Prop) (hf : Follows T d) (hx : isOld x = false) (hxc : x ≠ current)
    (hxs : x ≠ state) (hp : x = previous ∨ p = none) (ho : x = processed ∨ o = none)
    (hgood : ∀ seg f stamp, good seg f → T.Stored seg (stamp ++ [46, code]) f)
    (hhold : ∀ s, Stage T closed w (some newFile) p o s → Holding T x good (closed ++ [seg]) s)
    (hleft : ∀ s₀ s, Stage T closed w (some newFile) p o s₀ → Holding T x good (closed ++ [seg]) s →
      Apart x s₀ s → Left T s) (hw : w = (closed ++ [seg]).flatten) :
    Safe (fun s => s.Fd ∧ Stage T closed w (some newFile) p o s) (finish sys d x code)
      (fun _ s => Resting T (closed ++ [seg]) [] s) (Left T) := by
  refine finish_safe sys hx hf.num hgood (fun s hs => hhold s hs.2) (fun s₀ s hs hdone hapart => ?_)
    fun s₀ s hs => hleft s₀ s hs.2
  obtain ⟨hcur, hstage⟩ := hs
  have hcurrent := (hapart.file current hxc.symm rfl).trans hstage.current
  have hino : s.dir.ino current = some s.fdcurrent := by
    rw [hapart.ino current hxc.symm rfl, hapart.fdcurrent]
    exact hcur
  rw [Dir.file_of_ino hino, Option.some_inj] at hcurrent
  refine ⟨hdone.flat, hdone.archive, hino, ?_, ?_, ?_, ?_, ?_, ?_⟩
  · rw [hcurrent]
    rfl
  · rw [hcurrent]
    decide
  · by_cases heq : x = previous
    · exact heq ▸ hdone.file
    · rw [hapart.file previous (Ne.symm heq) rfl, hstage.previous]
      exact hp.resolve_left heq
  · by_cases heq : x = processed
    · exact heq ▸ hdone.file
    · rw [hapart.file processed (Ne.symm heq) rfl, hstage.processed]
      exact ho.resolve_left heq
  · rw [hapart.file state hxs.symm rfl]
    exact hstage.state
  · rw [hapart.written, hstage.written, hw, List.append_nil]

theorem Holding.mono {good good' : Bytes → File → Prop} {all : List Bytes} (h : Holding T x good all s)
    (hgood : ∀ seg f, good seg f → good' seg f) : Holding T x good' all s := by
  cases h with
  | gone flat file archive => exact .gone flat file archive
  | there init seg f flat all_eq file seg_good archive =>
      exact .there init seg f flat all_eq file (hgood seg f seg_good) archive
  | linked o seg f old twins file seg_good archive =>
      exact .linked o seg f old twins file (hgood seg f seg_good) archive

theorem open_newFile (h : s.dir.file current = some newFile) : Open T (some []) s :=
  ⟨newFile, h, by decide, part_self rfl⟩

/-- `previous` is filed as it is. -/
theorem finish_previous_rests (sys : Listing) (hf : Follows T d) (hplain : d.processor = none) :
    Safe (fun s => s.Fd ∧ Renamed T closed seg (some newFile) s) (finish sys d previous 115)
      (fun _ s => Resting T (closed ++ [seg]) [] s) (Left T) := by
  have hmade : ∀ seg, T.made seg seg := fun seg => hf.made seg seg (by rw [Cyclog.Makes, hplain])
  have hrun : ∀ f, Safe (fun s => (s.Fd ∧ Stage T closed (closed.flatten ++ seg) (some newFile) (some f) none s) ∧
      Complete T seg f) (finish sys d previous 115) (fun _ s => Resting T (closed ++ [seg]) [] s) (Left T) := by
    intro f
    refine works_fact fun hcomplete => ?_
    refine finish_rests sys (Complete T) hf rfl (by decide) (by decide) (.inl rfl) (.inr rfl)
      (fun seg f stamp h => ?_) (fun s h => ?_) (fun s₀ s h hold hapart => ?_) ?_
    · refine .inl ⟨⟨stamp, rfl⟩, ?_, h.synced⟩
      rw [h.text]
      exact hmade seg
    · exact .there closed seg f h.flat rfl h.previous hcomplete h.archive
    · refine .previous (closed ++ [seg]) (some []) (hold.mono fun seg f h => part_self h.text)
        (open_newFile ((hapart.file current (by decide) rfl).trans h.current)) (fun g hg => ?_) ?_
      · rw [hapart.file processed (by decide) rfl, h.processed] at hg
        cases hg
      · rw [hapart.written, h.written, List.flatten_append, List.flatten_singleton]
        exact (List.append_nil _).symm
    · rw [List.flatten_append, List.flatten_singleton]
  refine (works_exists hrun).weaken (.inl trivial) (fun s hs => ?_) (fun _ _ h => h) fun _ h => h
  obtain ⟨hcur, f, hcomplete, hstage⟩ := hs
  exact ⟨f, ⟨hcur, hstage⟩, hcomplete⟩

/-- `processed` is filed in its place. -/
theorem finish_processed_rests (sys : Listing) (hf : Follows T d) :
    Safe (fun s => s.Fd ∧ ∃ g, Made T seg g ∧ Stage T closed (closed.flatten ++ seg) (some newFile) none (some g) s)
      (finish sys d processed 115) (fun _ s => Resting T (closed ++ [seg]) [] s) (Left T) := by
  have hrun : ∀ g, Safe (fun s => (s.Fd ∧ Stage T closed (closed.flatten ++ seg) (some newFile) none (some g) s) ∧
      Made T seg g) (finish sys d processed 115) (fun _ s => Resting T (closed ++ [seg]) [] s) (Left T) := by
    intro g
    refine works_fact fun hmade => ?_
    refine finish_rests sys (Made T) hf rfl (by decide) (by decide) (.inr rfl) (.inl rfl)
      (fun seg f stamp h => .inl ⟨⟨stamp, rfl⟩, h.whole⟩) (fun s h => ?_) (fun s₀ s h hold hapart => ?_) ?_
    · exact .there closed seg g h.flat rfl h.processed hmade h.archive
    · refine hold.left_made ((hapart.file previous (by decide) rfl).trans h.previous)
        (open_newFile ((hapart.file current (by decide) rfl).trans h.current)) ?_
      rw [hapart.written, h.written, List.flatten_append, List.flatten_singleton]
      exact (List.append_nil _).symm
    · rw [List.flatten_append, List.flatten_singleton]
  refine (works_exists hrun).weaken (.inl trivial) (fun s hs => ?_) (fun _ _ h => h) fun _ h => h
  obtain ⟨hcur, g, hmade, hstage⟩ := hs
  exact ⟨g, ⟨hcur, hstage⟩, hmade⟩

end Filing

/-! ## The processor -/

/-- `previous` is to be filed, and `processed` may have anything. -/
def Processing (T : Terms) (closed : List Bytes) (seg : Bytes) (o : Option File) (s : Site) : Prop :=
  s.Fd ∧ ∃ f, Complete T seg f ∧ Stage T closed (closed.flatten ++ seg) (some newFile) (some f) o s

/-- `processed` is not to be filed. -/
def Idle (o : Option File) : Prop := ∀ g, o = some g → g.executable = false

theorem idle_none : Idle none := fun g hg => absurd hg (Option.some_ne_none g).symm

theorem Processing.left (h : Processing T closed seg o s) (ho : Idle o) : Left T s := by
  obtain ⟨-, f, hcomplete, hstage⟩ := h
  exact hstage.left_previous hcomplete.text fresh_newFile ho

/-- `open_trunc`, of a file that is not an old log file. -/
theorem open_trunc_dir (hflat : s.dir.Flat) (n : Bytes) :
    ∃ i dir, (s.dir.create n ⟨[], 0, 0o644⟩).ino n = some i ∧
      dir = (s.dir.create n ⟨[], 0, 0o644⟩).modify i (fun f => { f with text := [], synced := 0 }) ∧
      dir.Flat ∧ dir.ino n = some i ∧ (∀ m, m ≠ n → dir.ino m = s.dir.ino m) ∧
      dir.file = Function.update s.dir.file n (some ⟨[], 0, ((s.dir.file n).getD ⟨[], 0, 0o644⟩).mode⟩) := by
  obtain ⟨i, hi, hcflat, hfile, hother⟩ := Dir.create_flat hflat n ⟨[], 0, 0o644⟩
  refine ⟨i, _, hi, rfl, hcflat.change _, hi, hother, ?_⟩
  have hat : (s.dir.create n ⟨[], 0, 0o644⟩).file n = some ((s.dir.file n).getD ⟨[], 0, 0o644⟩) := by
    rw [hfile, Function.update_self]
  rw [Dir.file_modify_of_file hcflat hi hat, hfile, Function.update_idem]

theorem open_processed_works (k : Nat) :
    Safe (fun s => (∃ o, Idle o ∧ Processing T closed seg o s) ∧ s.runs.length = k) (open_trunc processed)
      (fun out s => s.dir.ino processed = some out ∧
        (∃ g, g.executable = false ∧ Processing T closed seg (some g) s) ∧ s.runs.length = k) (Left T) := by
  refine (works_call (fun s hs => ?_) fun s hs => ?_).safe
  · obtain ⟨⟨o, ho, h⟩, -⟩ := hs
    exact h.left ho
  · obtain ⟨⟨o, ho, hcur, f, hcomplete, hstage⟩, hk⟩ := hs
    obtain ⟨i, dir, hi, hdir, hflat, hino, hother, hfile⟩ := open_trunc_dir hstage.flat processed
    dsimp only
    rw [hi, Option.getD_some, ← hdir]
    refine ⟨hino, ⟨_, ?_, (hother current (by decide)).trans hcur, f, hcomplete,
      hstage.set_processed hflat hfile⟩, hk⟩
    rw [hstage.processed]
    cases o with
    | none => decide
    | some g => exact ho g rfl

theorem open_newstate_works (k : Nat) (out : Nat) :
    Safe (fun s => s.dir.ino processed = some out ∧
        (∃ g, g.executable = false ∧ Processing T closed seg (some g) s) ∧ s.runs.length = k) (open_trunc newstate)
      (fun new s => s.dir.ino newstate = some new ∧ s.dir.ino processed = some out ∧
        (∃ g, g.executable = false ∧ Processing T closed seg (some g) s) ∧ s.runs.length = k) (Left T) := by
  refine (works_call (fun s hs => ?_) fun s hs => ?_).safe
  · obtain ⟨-, ⟨g, hg, h⟩, -⟩ := hs
    exact h.left fun g' hg' => Option.some.inj hg' ▸ hg
  · obtain ⟨hout, ⟨g, hg, hcur, f, hcomplete, hstage⟩, hk⟩ := hs
    obtain ⟨i, dir, hi, hdir, hflat, hino, hother, hfile⟩ := open_trunc_dir hstage.flat newstate
    dsimp only
    rw [hi, Option.getD_some, ← hdir]
    exact ⟨hino, (hother processed (by decide)).trans hout, ⟨g, hg, (hother current (by decide)).trans hcur, f,
      hcomplete, hstage.set_newstate hflat hfile⟩, hk⟩

/-- One run of the processor: it works, or there is one run less to come. -/
theorem startprocessor_works {processor : Bytes → Bytes → Bytes × Bytes} (hp : d.processor = some processor)
    (k : Nat) :
    Safe (fun s => (∃ o, Idle o ∧ Processing T closed seg o s) ∧ s.runs.length = k) (startprocessor processor)
      (fun b s => if b = true then
          s.dir.file newstate ≠ none ∧
            ∃ g, d.Makes seg g.text ∧ g.executable = false ∧ Processing T closed seg (some g) s
        else ∃ j < k, (∃ o, Idle o ∧ Processing T closed seg o s) ∧ s.runs.length = j)
      (Left T) := by
  have hleft : ∀ s, (∃ o, Idle o ∧ Processing T closed seg o s) ∧ s.runs.length = k → Left T s := by
    rintro s ⟨⟨o, ho, h⟩, -⟩
    exact h.left ho
  rw [startprocessor]
  refine (works_ask_eq (v := some seg) (k := 0) hleft (fun s hs => ?_) ?_).safe
  · obtain ⟨⟨o, -, -, f, hcomplete, hstage⟩, -⟩ := hs
    rw [hstage.previous, Option.map_some, hcomplete.text]
  refine safe_bind (open_processed_works k) fun out => ?_
  refine (works_ask_bind (k := 0) (fun s hs => ?_) fun st => ?_).safe
  · obtain ⟨-, ⟨g, hg, h⟩, -⟩ := hs
    exact h.left fun g' hg' => Option.some.inj hg' ▸ hg
  cases st with
  | none =>
      rintro t s ⟨⟨⟨-, ⟨g, -, -, f, -, hstage⟩, -⟩, hnone⟩, -⟩
      exact absurd (Option.map_eq_none_iff.mp hnone) hstage.state
  | some st =>
      refine safe_bind ((open_newstate_works k out).weaken (.inl trivial) (fun s hs => hs.1) (fun _ _ h => h)
        fun _ h => h) fun new => ?_
      refine (works_call (fun s hs => ?_) fun s hs => ?_).safe
      · obtain ⟨-, -, ⟨g, hg, h⟩, -⟩ := hs
        exact h.left fun g' hg' => Option.some.inj hg' ▸ hg
      obtain ⟨hnew, hout, ⟨g, hg, hcur, f, hcomplete, hstage⟩, hk⟩ := hs
      generalize hr : (s.runs.head?.getD none).getD (processor seg st) = result
      have hout' := hstage.set_processed (hstage.flat.change _)
        (Dir.file_modify_of_file hstage.flat hout hstage.processed fun f => { f with text := result.1 })
      have hnew' := hout'.set_newstate (hout'.flat.change _)
        (Dir.file_modify hout'.flat hnew fun f => { f with text := result.2 })
      have hprocessing : Processing T closed seg (some { g with text := result.1 }) { s with
          dir := (s.dir.modify out fun f => { f with text := result.1 }).modify new
            fun f => { f with text := result.2 }
          runs := s.runs.tail } := ⟨hcur, f, hcomplete, hnew'.assign rfl rfl rfl⟩
      by_cases hworks : s.runs.head?.getD none = none
      · rw [if_pos (decide_eq_true hworks)]
        rw [hworks, Option.getD_none] at hr
        refine ⟨?_, { g with text := result.1 }, ?_, hg, hprocessing⟩
        · rw [Ne, Dir.file_eq_none]
          exact fun h => absurd (hnew.symm.trans h) (Option.some_ne_none new)
        · rw [Cyclog.Makes, hp, ← hr]
          exact ⟨st, rfl⟩
      · rw [if_neg (by rw [decide_eq_true_iff]; exact hworks)]
        refine ⟨s.runs.tail.length, ?_, ⟨some { g with text := result.1 }, ?_, hprocessing⟩, rfl⟩
        swap
        · exact fun g' hg' => Option.some.inj hg' ▸ hg
        cases hruns : s.runs with
        | nil =>
            rw [hruns] at hworks
            exact absurd rfl hworks
        | cons r rest =>
            rw [hruns] at hk
            exact hk ▸ Nat.lt_succ_self _

/-- The processor has made `g` of the segment, and `newstate`. -/
def Worked (T : Terms) (closed : List Bytes) (seg : Bytes) (good : File → Prop) (s : Site) : Prop :=
  s.dir.file newstate ≠ none ∧ ∃ g, good g ∧ g.executable = false ∧ Processing T closed seg (some g) s

theorem Worked.left {good : File → Prop} (h : Worked T closed seg good s) : Left T s := by
  obtain ⟨-, g, -, hg, h⟩ := h
  exact h.left fun g' hg' => Option.some.inj hg' ▸ hg

/-- `processed` is ready to be filed. -/
def Ready (T : Terms) (closed : List Bytes) (seg : Bytes) (p : Option File) (s : Site) : Prop :=
  s.Fd ∧ s.dir.file newstate ≠ none ∧
    ∃ g, Made T seg g ∧ Stage T closed (closed.flatten ++ seg) (some newFile) p (some g) s

theorem Ready.left (h : Ready T closed seg p s) : Left T s := by
  obtain ⟨-, -, g, hmade, hstage⟩ := h
  exact hstage.left_processed hmade.whole fresh_newFile hmade.mode

theorem processors_work {processor : Bytes → Bytes → Bytes × Bytes} (hp : d.processor = some processor) :
    Safe (fun s => s.Fd ∧ Renamed T closed seg (some newFile) s) (until_ (startprocessor processor))
      (fun _ s => Worked T closed seg (fun g => d.Makes seg g.text) s) (Left T) := by
  have hloop : ∀ k, Safe (fun s => (∃ o, Idle o ∧ Processing T closed seg o s) ∧ s.runs.length = k)
      (until_ (startprocessor processor)) (fun _ s => Worked T closed seg (fun g => d.Makes seg g.text) s)
      (Left T) := by
    intro k
    refine (works_until (n := 1) Nat.one_pos (fun k => (startprocessor_works hp k).weaken (.inl trivial)
      (fun _ h => h) (fun _ _ h => h) fun _ h => h) (fun k s hs => ?_) k).safe
    obtain ⟨⟨o, ho, h⟩, -⟩ := hs
    exact h.left ho
  refine (works_exists hloop).weaken (.inl trivial) (fun s hs => ?_) (fun _ _ h => h) fun _ h => h
  exact ⟨s.runs.length, ⟨none, idle_none, hs⟩, rfl⟩

theorem open_worked (good : File → Prop) :
    Safe (fun s => Worked T closed seg good s) (open_append processed)
      (fun fd s => s.dir.ino processed = some fd ∧ Worked T closed seg good s) (Left T) := by
  refine (works_call (fun s hs => hs.left) fun s hs => ?_).safe
  obtain ⟨hnew, g, hgood, hg, hcur, f, hcomplete, hstage⟩ := hs
  obtain ⟨i, hi, -⟩ := Dir.exists_ino hstage.processed
  dsimp only
  rw [Dir.create_of_file hstage.processed]
  refine ⟨?_, hnew, g, hgood, hg, hcur, f, hcomplete, hstage⟩
  rw [hi]
  rfl

/-- `processed` is synced, and then marked as finished. -/
theorem fsync_worked (hf : Follows T d) :
    Safe (fun s => s.dir.ino processed = some fd ∧ Worked T closed seg (fun g => d.Makes seg g.text) s)
      (when (d.f_sync = true) (fsync fd))
      (fun _ s => s.dir.ino processed = some fd ∧ Worked T closed seg (T.Whole seg) s) (Left T) := by
  refine works_ite (fun _ => (works_perform (fun s hs => hs.2.left) fun s hs => ?_).safe)
    fun hsync => works_pure fun s hs => ?_
  · obtain ⟨hfd, hnew, g, hmakes, hg, hcur, f, hcomplete, hstage⟩ := hs
    have hfile := Dir.file_modify_of_file hstage.flat hfd hstage.processed
      fun f => { f with synced := f.text.length }
    refine ⟨hfd, ?_, { g with synced := g.text.length }, ⟨hf.made _ _ hmakes, fun _ => rfl⟩, hg, hcur, f, hcomplete,
      hstage.set_processed (hstage.flat.change _) hfile⟩
    rw [hfile, Function.update_of_ne (by decide)]
    exact hnew
  · obtain ⟨hfd, hnew, g, hmakes, hg, h⟩ := hs
    exact ⟨hfd, hnew, g, ⟨hf.made _ _ hmakes, fun h => absurd (hf.sync h) hsync⟩, hg, h⟩

theorem executable_744 (f : File) : { f with mode := 0o744 }.executable = true := by
  have h : (0o744 : Nat) &&& 0o100 ≠ 0 := by decide
  exact decide_eq_true h

theorem fchmod_worked :
    Safe (fun s => s.dir.ino processed = some fd ∧ Worked T closed seg (T.Whole seg) s) (fchmod fd 0o744)
      (fun _ s => ∃ f, Ready T closed seg (some f) s) (Left T) := by
  refine (works_perform (fun s hs => hs.2.left) fun s hs => ?_).safe
  obtain ⟨hfd, hnew, g, hwhole, hg, hcur, f, hcomplete, hstage⟩ := hs
  have hfile := Dir.file_modify_of_file hstage.flat hfd hstage.processed fun f => { f with mode := 0o744 }
  refine ⟨f, hcur, ?_, { g with mode := 0o744 }, ⟨⟨hwhole.1, hwhole.2⟩, executable_744 g⟩,
    hstage.set_processed (hstage.flat.change _) hfile⟩
  rw [hfile, Function.update_of_ne (by decide)]
  exact hnew

theorem open_ready :
    Safe (fun s => ∃ f, Ready T closed seg (some f) s) (open_append newstate)
      (fun fd s => s.dir.ino newstate = some fd ∧ ∃ f, Ready T closed seg (some f) s) (Left T) := by
  refine (works_call (fun s hs => ?_) fun s hs => ?_).safe
  · obtain ⟨p, h⟩ := hs
    exact h.left
  · obtain ⟨p, hcur, hnew, h⟩ := hs
    obtain ⟨x, hx⟩ := Option.ne_none_iff_exists'.mp hnew
    obtain ⟨i, hi, -⟩ := Dir.exists_ino hx
    dsimp only
    rw [Dir.create_of_file hx]
    refine ⟨?_, p, hcur, hnew, h⟩
    rw [hi]
    rfl

theorem fsync_ready :
    Safe (fun s => s.dir.ino newstate = some fd ∧ ∃ f, Ready T closed seg (some f) s)
      (when (d.f_sync = true) (fsync fd)) (fun _ s => ∃ f, Ready T closed seg (some f) s) (Left T) := by
  refine works_ite (fun _ => (works_perform (fun s hs => ?_) fun s hs => ?_).safe)
    fun _ => works_pure fun s hs => hs.2
  · obtain ⟨-, p, h⟩ := hs
    exact h.left
  · obtain ⟨hfd, p, hcur, -, g, hmade, hstage⟩ := hs
    have hfile := Dir.file_modify hstage.flat hfd fun f => { f with synced := f.text.length }
    refine ⟨p, hcur, ?_, g, hmade, hstage.set_newstate (hstage.flat.change _) hfile⟩
    rw [hfile, Function.update_self]
    exact Option.some_ne_none _

theorem unlink_ready :
    Safe (fun s => ∃ f, Ready T closed seg (some f) s) (until_ (unlink previous))
      (fun _ s => Ready T closed seg none s) (Left T) := by
  have hleft : ∀ s, (∃ f, Ready T closed seg (some f) s) → Left T s := fun s hs => hs.elim fun f h => h.left
  refine (works_once Nat.one_pos (works_call hleft fun s hs => ?_) hleft).safe
  obtain ⟨f, hcur, hnew, g, hmade, hstage⟩ := hs
  obtain ⟨i, hi, -⟩ := Dir.exists_ino hstage.previous
  refine ⟨?_, (Dir.ino_unlink_ne (by decide)).trans hcur, ?_, g, hmade,
    hstage.set_previous (hstage.flat.unlink previous) (Dir.file_unlink previous)⟩
  · rw [hi]
    rfl
  · rw [Dir.file_unlink, Function.update_of_ne (by decide)]
    exact hnew

theorem rename_ready :
    Safe (fun s => Ready T closed seg none s) (until_ (rename newstate state))
      (fun _ s => s.Fd ∧ ∃ g, Made T seg g ∧
        Stage T closed (closed.flatten ++ seg) (some newFile) none (some g) s) (Left T) := by
  have hleft : ∀ s, Ready T closed seg none s → Left T s := fun s hs => hs.left
  refine (works_once Nat.one_pos (works_call hleft fun s hs => ?_) hleft).safe
  obtain ⟨hcur, hnew, g, hmade, hstage⟩ := hs
  obtain ⟨x, hx⟩ := Option.ne_none_iff_exists'.mp hnew
  obtain ⟨e, he, hflat, hfile, hino⟩ := Dir.rename_flat hstage.flat hx (show newstate ≠ state by decide)
  rw [he]
  refine ⟨rfl, (hino current (by decide) (by decide)).trans hcur, g, hmade, ?_⟩
  have hgone := hstage.set_newstate (hstage.flat.unlink newstate) (Dir.file_unlink newstate)
  refine hgone.set_state hflat ?_ (Option.some_ne_none x)
  rw [hfile, Dir.file_unlink]

/-- **A rotation** files the segment of `current`, and begins a new one. -/
theorem fullcurrent_works (sys : Listing) (hf : Follows T d) :
    Safe (Resting T closed seg) (fullcurrent sys d) (fun _ s => Resting T (closed ++ [seg]) [] s) (Left T) := by
  rw [fullcurrent]
  refine (works_look_bind fun fd => ?_)
  refine safe_bind (fsync_works hf) fun _ => safe_bind rename_works fun _ => safe_bind open_current_works fun fd => ?_
  refine safe_bind (Q := fun _ s => (s.dir.ino current = some fd ∧ s.Fd) ∧
    Renamed T closed seg (some ⟨[], 0, 0o600⟩) s) (works_assign fun s hs => ?_) fun _ => ?_
  · obtain ⟨hfd, f, hcomplete, hstage⟩ := hs
    exact ⟨⟨hfd, hfd⟩, f, hcomplete, hstage.assign rfl rfl rfl⟩
  refine safe_bind fchmod_current_works fun _ => safe_bind chmod_previous_works fun _ => ?_
  cases hp : d.processor with
  | none => exact finish_previous_rests sys hf hp
  | some processor =>
      refine safe_bind (processors_work hp) fun _ => safe_bind (open_worked _) fun fd => ?_
      refine safe_bind (fsync_worked hf) fun _ => safe_bind fchmod_worked fun _ => ?_
      refine safe_bind open_ready fun fd => safe_bind fsync_ready fun _ => ?_
      exact safe_bind unlink_ready fun _ => safe_bind rename_ready fun _ => finish_processed_rests sys hf

end Steps

end IndimailMta.Multilog.Disk
