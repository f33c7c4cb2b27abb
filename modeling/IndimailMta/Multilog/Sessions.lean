import IndimailMta.Multilog.Restart

/-!
# A log over many sessions

A program that is killed, quits, or is hit by an outage leaves the log so that the next one can go on with
it, and nothing that was written is lost but by an outage, or because the old log files are too many.
-/

namespace IndimailMta.Multilog.Disk

open IndimailMta Exits Calls Directories

section Session

variable {T : Terms} {d : Cyclog} {closed : List Bytes} {seg : Bytes} {s : Site}

/-! ## One program -/

theorem Live.left (h : Live T s) : Left T s := by
  obtain ⟨closed, seg, h⟩ := h
  exact h.left

/-- A program may keep other numbers for itself. -/
theorem Resting.bytes (h : Resting T closed seg s) (b : Nat) : Resting T closed seg { s with bytes := b } :=
  ⟨h.flat, h.archive.congr (fun _ _ => rfl) rfl, h.fd, h.text, h.mode, h.previous, h.processed, h.state, h.written⟩

/-- Something is written to `current`. -/
theorem Resting.append (h : Resting T closed seg s) (b : Bytes) :
    Resting T closed (seg ++ b) { s with
      dir := s.dir.modify s.fdcurrent fun f => { f with text := f.text ++ b }
      written := s.written ++ b } := by
  have hfile := Dir.file_modify h.flat h.fd fun f => { f with text := f.text ++ b }
  have hne : ∀ k, k ≠ current →
      (s.dir.modify s.fdcurrent fun f => { f with text := f.text ++ b }).file k = s.dir.file k := fun k hk => by
    rw [hfile, Function.update_of_ne hk]
  refine ⟨h.flat.change _, (archive_update h.archive hfile rfl).congr (fun _ _ => rfl) rfl, h.fd, ?_, ?_,
    (hne Disk.previous (by decide)).trans h.previous, (hne Disk.processed (by decide)).trans h.processed, ?_, ?_⟩
  · rw [Dir.node_modify_self, h.text]
  · rw [Dir.node_modify_self]
    exact h.mode
  · exact fun hnone => h.state ((hne Disk.state (by decide)).symm.trans hnone)
  · rw [h.written, List.append_assoc]

theorem fullcurrent_live (sys : Listing) (hf : Follows T d) :
    Safe (Live T) (fullcurrent sys d) (fun _ => Live T) (Left T) := by
  refine works_exists fun closed => works_exists fun seg => ?_
  exact (fullcurrent_works sys hf).weaken (.inl trivial) (fun _ h => h) (fun _ s h => ⟨_, _, h⟩) fun _ h => h

theorem when_fullcurrent_live (sys : Listing) (hf : Follows T d) (c : Prop) [Decidable c] :
    Safe (Live T) (when c (fullcurrent sys d)) (fun _ => Live T) (Left T) :=
  works_ite (fun _ => fullcurrent_live sys hf) fun _ => works_pure fun _ h => h

theorem look_live {α β : Type} {g : Site → α} {f : α → Task Site β} {R : β → Site → Prop}
    (hf : ∀ a, Safe (Live T) (f a) R (Left T)) : Safe (Live T) (look g >>= f) R (Left T) :=
  works_look_bind fun a => (hf a).weaken (.inl trivial) (fun _ h => h.1) (fun _ _ h => h) fun _ h => h

theorem c_write_live (sys : Listing) (hf : Follows T d) (buf : Bytes) (took : List Nat) :
    Safe (Live T) (c_write sys d buf took) (fun _ => Live T) (Left T) := by
  rw [c_write]
  refine look_live fun _ => safe_bind (when_fullcurrent_live sys hf _) fun _ => look_live fun _ => ?_
  dsimp only
  refine safe_bind (Q := fun _ => Live T) ((works_perform (fun s hs => hs.left) fun s hs => ?_).safe) fun _ => ?_
  · obtain ⟨closed, seg, h⟩ := hs
    exact ⟨closed, _, h.append _⟩
  refine safe_bind (Q := fun _ => Live T) (works_assign fun s hs => ?_) fun _ => look_live fun _ => ?_
  · obtain ⟨closed, seg, h⟩ := hs
    exact ⟨closed, seg, h.bytes _⟩
  exact works_then_pure (when_fullcurrent_live sys hf _)

theorem step_live (sys : Listing) (hf : Follows T d) (op : Op) :
    Safe (Live T) (step sys d op) (fun _ => Live T) (Left T) := by
  cases op with
  | write buf took => exact safe_bind (c_write_live sys hf buf took) fun _ => works_pure fun _ h => h
  | alarm => exact look_live fun _ => when_fullcurrent_live sys hf _

theorem performAll_live (sys : Listing) (hf : Follows T d) (ops : List Op) :
    Safe (Live T) (performAll sys d ops) (fun _ => Live T) (Left T) := by
  induction ops with
  | nil => exact works_pure fun _ h => h
  | cons op ops ih => exact safe_bind (step_live sys hf op) fun _ => ih

/-- `current` is finished. -/
theorem c_quit_left (hf : Follows T d) : Safe (Live T) (c_quit d) (fun _ => Left T) (Left T) := by
  refine works_exists fun closed => works_exists fun seg => works_look_bind fun fd =>
    safe_bind (fsync_works hf) fun _ => ?_
  refine (works_perform (fun s hs => hs.left) fun s hs => ?_).safe
  obtain ⟨hino, f, -, hcomplete, hstage⟩ := hs
  have hfile := Dir.file_modify_of_file hstage.flat hino hstage.current fun f => { f with mode := 0o744 }
  rw [← hcomplete.text] at hstage
  have hquit : Quit T closed { f with mode := 0o744 } { s with
      dir := s.dir.modify fd fun f => { f with mode := 0o744 } } :=
    ⟨hstage.set_current (hstage.flat.change _) hfile, executable_744 f, hcomplete.synced⟩
  exact hquit.left

/-- **A program** leaves the log so that the next one can go on with it, wherever it is killed. -/
theorem main_left (sys : Listing) (hf : Follows T d) (ops : List Op) :
    Safe (Left T) (main sys d ops) (fun _ => Left T) (Left T) := by
  have hrestart : Safe (Left T) (restart sys d) (fun _ => Live T) (Left T) := by
    have hrun : ∀ i : Bytes × Nat, Safe (fun s => Left T s ∧ Means True i.1 i.2 2 s) (restart sys d)
        (fun _ => Live T) (Left T) := fun i =>
      (restart_works sys hf.num i.1 i.2).weaken (.inl trivial) (fun _ h => h) (fun _ _ h => h.1) fun _ h => h
    exact (works_exists hrun).weaken (.inl trivial)
      (fun s hs => ⟨(s.written, s.olds), hs, Nat.le_refl _, .inl trivial, rfl⟩) (fun _ _ h => h) fun _ h => h
  exact safe_bind hrestart fun _ => safe_bind (performAll_live sys hf ops) fun _ => c_quit_left hf

theorem session_left (sys : Listing) (x : Session) (hf : Follows T x.d)
    (hkeeps : x.keeps ≠ none → T.synced ∧ ¬ T.calm) (h : Left T s) : Left T (session sys s x) := by
  have hmain := (main_left sys hf x.ops).leaves (fun _ _ h => h) h x.calls
  rw [session]
  cases hk : x.keeps with
  | none => exact hmain
  | some keeps =>
      obtain ⟨hs, hc⟩ := hkeeps (hk ▸ Option.some_ne_none keeps)
      exact hmain.outage hs hc

end Session

/-! ## Many programs -/

/-- What is known of a log that these programs have written, each of which keeps `least` files. -/
def terms (xs : List Session) (least : Nat) : Terms where
  made seg text := ∃ x ∈ xs, x.d.Makes seg text
  synced := ∀ x ∈ xs, x.d.f_sync = true
  calm := ∀ x ∈ xs, x.keeps = none
  least := least

section Sessions

variable {T : Terms} {xs : List Session} {clock : List Bytes} {least : Nat} {x : Session}

theorem follows_terms (hnum : ∀ x ∈ xs, least ≤ x.d.num) (hx : x ∈ xs) : Follows (terms xs least) x.d :=
  ⟨hnum x hx, fun h => h x hx, fun _ _ h => ⟨x, hx, h⟩⟩

/-- A new directory. -/
theorem start_left (T : Terms) (hstamps : ∀ c ∈ clock, IsStamp c)
    (hclock : clock.Pairwise fun a b => before a b = true) (runs : List (Option (Bytes × Bytes))) :
    Left T (Site.start clock runs) := by
  have harchive : T.Archive [] (Site.start clock runs) := by
    refine ⟨[], [], [], rfl, .inl rfl, ⟨fun n _ => ?_, fun n hn => ?_, .nil, .nil⟩, hstamps, hclock, fun n hn => ?_⟩
    · exact iff_of_false (fun h => h rfl) List.not_mem_nil
    · exact absurd hn List.not_mem_nil
    · exact absurd hn List.not_mem_nil
  exact .previous [] none (.gone (Dir.flat_empty _) rfl harchive) rfl
    (fun f hf => absurd hf (Option.some_ne_none f).symm) rfl

/-- What every session leaves. -/
theorem sessions_left (sys : Listing) (hf : ∀ x ∈ xs, Follows T x.d)
    (hkeeps : ∀ x ∈ xs, x.keeps ≠ none → T.synced ∧ ¬ T.calm) {s : Site} (h : Left T s) :
    Left T (sessions sys xs s) := by
  induction xs generalizing s with
  | nil => exact h
  | cons x xs ih =>
      exact ih (fun y hy => hf y (List.mem_cons_of_mem x hy)) (fun y hy => hkeeps y (List.mem_cons_of_mem x hy))
        (session_left sys x (hf x List.mem_cons_self) (hkeeps x List.mem_cons_self) h)

/-- The next program finds the log ready. -/
theorem sessions_live (sys : Listing) {d : Cyclog} (hf : ∀ x ∈ xs, Follows T x.d) (hd : T.least ≤ d.num)
    (hkeeps : ∀ x ∈ xs, x.keeps ≠ none → T.synced ∧ ¬ T.calm) {s : Site} (h : Left T s)
    (htime : 2 ≤ (sessions sys xs s).clock.length) :
    ∃ n, ∀ t, n ≤ t → ∃ s' t', restart sys d (sessions sys xs s, t) = (.ok (), s', t') ∧
      s'.written = (sessions sys xs s).written ∧ Live T s' := by
  have hleft := sessions_left sys hf hkeeps h
  refine ⟨4 * (sessions sys xs s).olds + 24, fun t ht => ?_⟩
  obtain ⟨_, s', t', hrun, hlive, hwritten⟩ :=
    (restart_works sys hd _ _).returns ⟨hleft, Nat.le_refl _, .inr htime, rfl⟩ ht
  exact ⟨s', t', hrun, hwritten, hlive⟩

/-- **What was written is still there** after any sessions, whether they quit or were killed, and were
killed by an outage if they sync. The next program starts within some number of calls, and finds the
segments that are closed, but for some that were removed, in the old log files, and the rest in `current`. -/
theorem sessions_resting (sys : Listing) (xs : List Session) (d : Cyclog) (clock : List Bytes)
    (runs : List (Option (Bytes × Bytes))) (least : Nat) (hstamps : ∀ c ∈ clock, IsStamp c)
    (hclock : clock.Pairwise fun a b => before a b = true) (hnum : ∀ x ∈ xs, least ≤ x.d.num) (hd : least ≤ d.num)
    (hsteady : (∀ x ∈ xs, x.d.f_sync = true) ∨ ∀ x ∈ xs, x.keeps = none)
    (htime : 2 ≤ (sessions sys xs (Site.start clock runs)).clock.length) :
    ∃ n, ∀ t, n ≤ t → ∃ s t', restart sys d (sessions sys xs (Site.start clock runs), t) = (.ok (), s, t') ∧
      s.written = (sessions sys xs (Site.start clock runs)).written ∧
      ∃ closed seg, Resting (terms xs least) closed seg s := by
  refine sessions_live sys (fun x hx => follows_terms hnum hx) hd (fun x hx hne => ?_)
    (start_left (terms xs least) hstamps hclock runs) htime
  refine ⟨fun y hy => ?_, fun hcalm => hne (hcalm x hx)⟩
  exact hsteady.elim (fun h => h y hy) fun h => absurd (h x hx) hne

/-! A program is killed in a rotation, between `link` and `unlink`, and the next one before it has synced
what it has written. -/

/-- The names as they come. -/
def asListed : Listing := ⟨id, fun _ => .refl _⟩

def smallLog : Cyclog := ⟨2, 4096, none, true, Nat.le_refl 2⟩

def fourStamps : List Bytes :=
  [asc "@400000000000000000000001", asc "@400000000000000000000002", asc "@400000000000000000000003",
    asc "@400000000000000000000004"]

def twoKilled (keeps : Option (Nat → Nat)) : List Session :=
  [⟨smallLog, [.write (asc "a\n") [], .alarm], 18, keeps⟩, ⟨smallLog, [.write (asc "b\n") []], 18, keeps⟩]

theorem sessions_resting_killed :
    ∃ n, ∀ t, n ≤ t → ∃ s t',
      restart asListed smallLog (sessions asListed (twoKilled (some fun _ => 0)) (Site.start fourStamps []), t) =
        (.ok (), s, t') ∧
      s.written = (sessions asListed (twoKilled (some fun _ => 0)) (Site.start fourStamps [])).written ∧
      ∃ closed seg, Resting (terms (twoKilled (some fun _ => 0)) 2) closed seg s := by
  refine sessions_resting asListed _ smallLog fourStamps [] 2 (by decide +kernel) (by decide +kernel)
    (fun x hx => ?_) (Nat.le_refl 2) (.inl fun x hx => ?_) (by decide +kernel)
  · exact x.d.two_le_num
  · rcases List.mem_pair.mp hx with rfl | rfl
    · rfl
    · rfl

/-- The text of a file. -/
def Site.text (s : Site) (name : Bytes) : Bytes := (s.dir.file name).elim [] File.text

/-- An old log file has its segment, if there was no processor and no outage. -/
theorem filed_texts {T : Terms} {kept names : List Bytes} {s : Site} (h : T.Filed kept names s) (hc : T.calm)
    (hmade : ∀ seg text, T.made seg text → text = seg) : names.map s.text = kept := by
  have hstored := h.stored
  clear h
  induction hstored with
  | nil => rfl
  | cons hf _ ih =>
      obtain ⟨f, hfile, hstored⟩ := hf
      have htext : f.text = _ := hstored.elim (fun h => hmade _ _ h.2.1) fun h => h.2.2 hc
      rw [List.map_cons, ih, Site.text, hfile]
      exact congrArg (· :: _) htext

/-- **The directory is the end of what was written**, if there is no processor and no outage: the old log
files, in the order of their names, and `current`. Something is missing only if there are as many files as
there may be. -/
theorem sessions_texts (sys : Listing) (xs : List Session) (d : Cyclog) (clock : List Bytes)
    (runs : List (Option (Bytes × Bytes))) (least : Nat) (hstamps : ∀ c ∈ clock, IsStamp c)
    (hclock : clock.Pairwise fun a b => before a b = true) (hnum : ∀ x ∈ xs, least ≤ x.d.num) (hd : least ≤ d.num)
    (hplain : ∀ x ∈ xs, x.d.processor = none) (hcalm : ∀ x ∈ xs, x.keeps = none)
    (htime : 2 ≤ (sessions sys xs (Site.start clock runs)).clock.length) :
    ∃ n, ∀ t, n ≤ t → ∃ s t', restart sys d (sessions sys xs (Site.start clock runs), t) = (.ok (), s, t') ∧
      ∃ removed names, names.Perm (s.dir.names.filter isOld) ∧ InOrder names ∧
        (sessions sys xs (Site.start clock runs)).written = removed ++ (names.map s.text).flatten ++ s.text current ∧
        (removed = [] ∨ least ≤ names.length + 1) := by
  obtain ⟨n, hn⟩ := sessions_live sys (fun x hx => follows_terms hnum hx) hd
    (fun x hx hne => absurd (hcalm x hx) hne) (start_left (terms xs least) hstamps hclock runs) htime
  refine ⟨n, fun t ht => ?_⟩
  obtain ⟨s, t', hrun, hwritten, closed, seg, hrest⟩ := hn t ht
  obtain ⟨removed, kept, names, hall, hleast, hfiled, -⟩ := hrest.archive
  have hmade : ∀ seg text, (terms xs least).made seg text → text = seg := by
    rintro seg text ⟨x, hx, hmakes⟩
    rw [Cyclog.Makes, hplain x hx] at hmakes
    exact hmakes
  have hcurrent : s.text current = seg := by
    rw [Site.text, Dir.file_of_ino hrest.fd]
    exact hrest.text
  refine ⟨s, t', hrun, removed.flatten, names, hfiled.perm.symm, hfiled.order, ?_, ?_⟩
  · rw [filed_texts hfiled hcalm hmade, hcurrent, ← hwritten, hrest.written, hall, List.flatten_append]
  · rw [← hfiled.length]
    refine Or.imp_left (fun h : removed = [] => ?_) hleast
    rw [h]
    rfl

theorem sessions_texts_killed :
    ∃ n, ∀ t, n ≤ t → ∃ s t',
      restart asListed smallLog (sessions asListed (twoKilled none) (Site.start fourStamps []), t) = (.ok (), s, t') ∧
      ∃ removed names, names.Perm (s.dir.names.filter isOld) ∧ InOrder names ∧
        (sessions asListed (twoKilled none) (Site.start fourStamps [])).written =
          removed ++ (names.map s.text).flatten ++ s.text current ∧
        (removed = [] ∨ 2 ≤ names.length + 1) := by
  have hmem : ∀ x ∈ twoKilled none, x.d.processor = none ∧ x.keeps = none := by
    intro x hx
    rcases List.mem_pair.mp hx with rfl | rfl
    · exact ⟨rfl, rfl⟩
    · exact ⟨rfl, rfl⟩
  exact sessions_texts asListed _ smallLog fourStamps [] 2 (by decide +kernel) (by decide +kernel)
    (fun x _ => x.d.two_le_num) (Nat.le_refl 2) (fun x hx => (hmem x hx).1) (fun x hx => (hmem x hx).2)
    (by decide +kernel)

end Sessions

end IndimailMta.Multilog.Disk
