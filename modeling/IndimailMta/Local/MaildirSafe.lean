import IndimailMta.Local.Maildir

/-!
# A maildir gets all of a message or nothing

Whatever fails, `new/` is as it was until the link, and behind it has one file more, with the whole
message. The file in `tmp/` stays only where it could not be unlinked.
-/

namespace IndimailMta.Maildir

open IndimailMta Exits Output

variable {S : OutStream Byte} {env : Env} {fs : Bytes → Option File} {path : Bytes}
variable {J I : World S → Prop} {E : Left → World S → Prop}

/-! ## What holds throughout -/

def InNew (p : Bytes) : Prop := asc "new/" <+: p

def InTmp (p : Bytes) : Prop := asc "tmp/" <+: p

theorem InTmp.not_new {p : Bytes} (h : InTmp p) : ¬ InNew p := by
  obtain ⟨u, rfl⟩ := h
  rintro ⟨v, hv⟩
  simp [asc] at hv

/-- What a file is to hold. -/
def Env.wanted (env : Env) : Bytes :=
  env.rpline ++ env.dtline ++ (env.qqeh.map cstr).getD [] ++ env.body.flatten

/-- Nothing was linked, and `new/` is as it was. -/
def Untouched (fs : Bytes → Option File) (w : World S) : Prop :=
  (∀ p, InNew p → w.files p = fs p) ∧ ∀ o n, .link o n ∉ w.trace

/-- `new/` has one file more, with all that it is to hold. -/
def Delivered (env : Env) (fs : Bytes → Option File) (w : World S) : Prop :=
  ∃ o n synced, InNew n ∧ .link o n ∈ w.trace ∧ fs n = none ∧
    w.files n = some ⟨env.wanted, synced⟩ ∧
    ((env.use_fsync || env.use_fdatasync) = true → synced = true) ∧
    ∀ p, InNew p → p ≠ n → w.files p = fs p

/-- The file in `tmp/` is gone, or could not be unlinked. -/
def Removed (path : Bytes) (w : World S) : Prop :=
  w.files path = none ∨ .noUnlink path ∈ w.trace

/-- How the process leaves. -/
structure Ends (env : Env) (fs : Bytes → Option File) (l : Left) (w : World S) : Prop where
  all_or_nothing : Untouched fs w ∨ Delivered env fs w
  delivered : l = .returns 0 → Delivered env fs w
  removed : ∀ c, l = .returns c → ∀ path, w.fd = some path → Removed path w

/-- A condition that a call does not affect that changes nothing in `new/`. -/
structure Stable (J : World S → Prop) : Prop where
  answers : ∀ w l, J w → J { w with answers := l }
  errno : ∀ w e, J w → J { w with errno := e }
  unlinked : ∀ w path, InTmp path → J w → J (w.unlinked path).2

theorem unlinked_cases (w : World S) (path : Bytes) :
    ∃ l, ((w.unlinked path).1 = true ∧ (w.unlinked path).2 = { w with
        answers := l, files := fun p => if p = path then none else w.files p,
        trace := .unlink path :: w.trace }) ∨
      ((w.unlinked path).1 = false ∧
        (w.unlinked path).2 = { w with answers := l, trace := .noUnlink path :: w.trace }) := by
  have hv : ∃ l, w.next.2 = { w with answers := l } := by
    rw [World.next]
    cases w.answers with
    | nil => exact ⟨w.answers, rfl⟩
    | cons a l => exact ⟨l, rfl⟩
  obtain ⟨l, hl⟩ := hv
  refine ⟨l, ?_⟩
  rw [World.unlinked]
  cases hnext : w.next with
  | mk a v =>
      rw [hnext] at hl
      dsimp only at hl
      subst hl
      cases a with
      | ok =>
          dsimp only
          split_ifs
          · exact .inl ⟨rfl, rfl⟩
          · exact .inr ⟨rfl, rfl⟩
      | fails e => exact .inr ⟨rfl, rfl⟩
      | alarm => exact .inr ⟨rfl, rfl⟩

theorem stable_untouched : Stable (S := S) (Untouched fs) where
  answers _ _ h := h
  errno _ _ h := h
  unlinked w path hpath h := by
    obtain ⟨l, ⟨-, hw⟩ | ⟨-, hw⟩⟩ := unlinked_cases w path
    · rw [hw]
      refine ⟨fun p hp => ?_, fun o n hmem => ?_⟩
      · dsimp only
        rw [if_neg (by rintro rfl; exact hpath.not_new hp)]
        exact h.1 p hp
      · exact h.2 o n (List.mem_of_ne_of_mem Call.noConfusion hmem)
    · rw [hw]
      exact ⟨h.1, fun o n hmem => h.2 o n (List.mem_of_ne_of_mem Call.noConfusion hmem)⟩

theorem stable_delivered : Stable (S := S) (Delivered env fs) where
  answers _ _ h := h
  errno _ _ h := h
  unlinked w path hpath h := by
    obtain ⟨o, n, synced, hn, hlink, hfree, hfile, hsync, hrest⟩ := h
    obtain ⟨l, ⟨-, hw⟩ | ⟨-, hw⟩⟩ := unlinked_cases w path
    · rw [hw]
      refine ⟨o, n, synced, hn, List.mem_cons_of_mem _ hlink, hfree, ?_, hsync, fun p hp hne => ?_⟩
      · dsimp only
        rw [if_neg (by rintro rfl; exact hpath.not_new hn)]
        exact hfile
      · dsimp only
        rw [if_neg (by rintro rfl; exact hpath.not_new hp)]
        exact hrest p hp hne
    · rw [hw]
      exact ⟨o, n, synced, hn, List.mem_cons_of_mem _ hlink, hfree, hfile, hsync, hrest⟩

theorem stable_or {J K : World S → Prop} (hJ : Stable J) (hK : Stable K) :
    Stable fun w => J w ∨ K w where
  answers w l h := h.imp (hJ.answers w l) (hK.answers w l)
  errno w e h := h.imp (hJ.errno w e) (hK.errno w e)
  unlinked w path hpath h := h.imp (hJ.unlinked w path hpath) (hK.unlinked w path hpath)

/-! ## Calls -/

/-- `I` does not depend on answers and errors, and a signal may end the process in it. -/
structure Calls (I : World S → Prop) (E : Left → World S → Prop) : Prop where
  answers : ∀ w l, I w → I { w with answers := l }
  errno : ∀ w e, I w → I { w with errno := e }
  alarm : ∀ w, I w → E (sigalrm w).1 (sigalrm w).2

theorem Calls.and {K : World S → Prop} (h : Calls I E)
    (answers : ∀ w l, K w → K { w with answers := l }) (errno : ∀ w e, K w → K { w with errno := e }) :
    Calls (fun w => I w ∧ K w) E :=
  ⟨fun w l hw => ⟨h.answers w l hw.1, answers w l hw.2⟩,
    fun w e hw => ⟨h.errno w e hw.1, errno w e hw.2⟩, fun w hw => h.alarm w hw.1⟩

theorem keeps_attempt (h : Calls I E) : Keeps I E attempt := by
  intro w hw
  have hnext : I w.next.2 := by
    rw [World.next]
    split
    · exact hw
    · exact h.answers w _ hw
  unfold attempt
  cases hn : w.next with
  | mk a v =>
      rw [hn] at hnext
      cases a with
      | ok => exact hnext
      | fails e => exact h.errno v e hnext
      | alarm => exact h.alarm v hnext

theorem keeps_fdirsyncfn (h : Calls I E) : Keeps I E (fdirsyncfn env) := by
  refine triple_bind (keeps_attempt h) fun opened => triple_ite (fun _ => ?_) fun _ =>
    triple_pure fun _ hw => hw
  refine triple_bind (keeps_attempt h) fun synced => triple_ite (fun _ => ?_) fun _ => ?_
  · exact triple_bind (keeps_attempt h) fun _ => triple_pure fun _ hw => hw
  · refine triple_bind (triple_read (Q := fun _ => I) fun _ hw => hw) fun w => ?_
    exact triple_bind (keeps_attempt h) fun _ => triple_pure fun _ hw => hw

/-- Memory is got without a change to the files. -/
theorem keeps_orDie (h : Calls I E) (hdies : ∀ w, I w → E (.dies 111) w) : Keeps I E orDie :=
  triple_bind (keeps_attempt h) fun _ => triple_ite (fun _ => triple_pure fun _ hw => hw)
    fun _ => triple_exit hdies

theorem Ends.dies {l : Left} {w : World S} (h : Untouched fs w ∨ Delivered env fs w)
    (hl : ∀ c, l ≠ .returns c) : Ends env fs l w :=
  ⟨h, fun h0 => absurd h0 (hl 0), fun c hc => absurd hc (hl c)⟩

/-- No file is open. -/
structure Before (fs : Bytes → Option File) (w : World S) : Prop where
  untouched : Untouched fs w
  fd : w.fd = none
  tmp : ∀ p ∈ w.fntmptph, InTmp p

theorem Before.returns {c : Nat} {w : World S} (h : Before fs w) (hc : c ≠ 0) :
    Ends env fs (.returns c) w := by
  refine ⟨.inl h.untouched, fun h0 => absurd (Left.returns.inj h0) hc, fun c _ path hfd => ?_⟩
  rw [h.fd] at hfd
  exact absurd hfd (Option.some_ne_none path).symm

theorem calls_before : Calls (S := S) (Before fs) (Ends env fs) where
  answers _ _ h := ⟨h.untouched, h.fd, h.tmp⟩
  errno _ _ h := ⟨h.untouched, h.fd, h.tmp⟩
  alarm w h := by
    rw [sigalrm]
    cases htmp : w.fntmptph with
    | none => exact .dies (.inl h.untouched) fun _ => Left.noConfusion
    | some p =>
        exact .dies (.inl (stable_untouched.unlinked w p (h.tmp p htmp) h.untouched))
          fun _ => Left.noConfusion

/-- The file in `tmp/` is open, or was. -/
structure At (path : Bytes) (J : World S → Prop) (w : World S) : Prop where
  inTmp : InTmp path
  fntmptph : w.fntmptph = some path
  fd : w.fd = some path
  holds : J w

theorem At.answers {w : World S} (h : At path J w) (hJ : Stable J) (l : List Answer) :
    At path J { w with answers := l } :=
  ⟨h.inTmp, h.fntmptph, h.fd, hJ.answers w l h.holds⟩

theorem At.errno {w : World S} (h : At path J w) (hJ : Stable J) (e : Nat) :
    At path J { w with errno := e } :=
  ⟨h.inTmp, h.fntmptph, h.fd, hJ.errno w e h.holds⟩

theorem calls_at (hJ : Stable J) (hends : ∀ w, J w → Untouched fs w ∨ Delivered env fs w) :
    Calls (At path J) (Ends env fs) where
  answers _ l h := h.answers hJ l
  errno _ e h := h.errno hJ e
  alarm w h := by
    rw [sigalrm, h.fntmptph]
    exact .dies (hends _ (hJ.unlinked w path h.inTmp h.holds)) fun _ => Left.noConfusion

/-- **`tryunlinktmp`**: the file is gone, or could not be unlinked. -/
theorem triple_tryunlinktmp (hJ : Stable J)
    (hends : ∀ w, J w → Untouched fs w ∨ Delivered env fs w) :
    Triple (At path J) (tryunlinktmp env path)
      (fun _ w => At path J w ∧ Removed path w) (Ends env fs) := by
  have hcalls := @calls_at S env fs path J hJ hends
  have hremoved : ∀ w, At path J w →
      At path J (w.unlinked path).2 ∧ Removed path (w.unlinked path).2 := by
    intro w h
    have hholds := hJ.unlinked w path h.inTmp h.holds
    obtain ⟨l, ⟨-, hw⟩ | ⟨-, hw⟩⟩ := unlinked_cases w path
    · rw [hw] at hholds ⊢
      exact ⟨⟨h.inTmp, h.fntmptph, h.fd, hholds⟩, .inl (if_pos rfl)⟩
    · rw [hw] at hholds ⊢
      exact ⟨⟨h.inTmp, h.fntmptph, h.fd, hholds⟩, .inr List.mem_cons_self⟩
  have hboth : Calls (fun w => At path J w ∧ Removed path w) (Ends env fs) :=
    hcalls.and (fun _ _ h => h) fun _ _ h => h
  refine triple_bind (Q := fun _ w => At path J w ∧ Removed path w) (fun w h => ?_) fun unlinked =>
    triple_ite (fun _ => triple_bind (keeps_fdirsyncfn hboth) fun _ => triple_pure fun _ hw => hw)
      fun _ => triple_pure fun _ hw => hw
  have halarm : At path J w.next.2 := by
    rw [World.next]
    split
    · exact h
    · exact hcalls.answers w _ h
  cases hn : w.next with
  | mk a v =>
      rw [hn] at halarm
      cases a with
      | ok => exact hremoved w h
      | fails e => exact hremoved w h
      | alarm => exact hcalls.alarm v halarm

theorem At.returns {c : Nat} {w : World S} (h : At path J w ∧ Removed path w)
    (hends : Untouched fs w ∨ Delivered env fs w) (hc : c = 0 → Delivered env fs w) :
    Ends env fs (.returns c) w := by
  refine ⟨hends, fun h0 => hc (Left.returns.inj h0), fun c _ p hp => ?_⟩
  rw [h.1.fd] at hp
  rw [← Option.some.inj hp]
  exact h.2

/-- **The label `fail`** ends with an error, and without the file. -/
theorem triple_fail {α : Type} {Q : α → World S → Prop} (hJ : Stable J)
    (hends : ∀ w, J w → Untouched fs w ∨ Delivered env fs w) :
    Triple (At path J) (fail env path : Deliver S α) Q (Ends env fs) := by
  refine triple_bind (triple_read (Q := fun _ => At path J) fun _ hw => hw) fun w => ?_
  refine triple_bind (triple_tryunlinktmp hJ hends) fun _ => triple_exit fun v hv => ?_
  refine At.returns hv (hends v hv.1.holds) fun h0 => ?_
  split_ifs at h0

/-! ## Opening the file -/

theorem triple_open_excl (hpath : InTmp path) :
    Triple (fun w : World S => Before fs w ∧ w.fntmptph = some path) (open_excl env path)
      (fun _ w => Before fs w ∧ w.fntmptph = some path) (Ends env fs) := by
  have hcalls : Calls (fun w : World S => Before fs w ∧ w.fntmptph = some path) (Ends env fs) :=
    calls_before.and (fun _ _ h => h) fun _ _ h => h
  refine triple_bind (keeps_attempt hcalls) fun _ => triple_ite (fun _ => ?_) fun _ =>
    triple_pure fun _ hw => hw
  refine triple_bind (triple_read (Q := fun _ w => Before fs w ∧ w.fntmptph = some path)
    fun _ hw => hw) fun w => triple_ite (fun _ => ?_) fun _ => ?_
  · exact triple_bind (triple_update (Q := fun _ w => Before fs w ∧ w.fntmptph = some path)
      fun v hv => hcalls.errno v _ hv) fun _ => triple_pure fun _ hv => hv
  · refine triple_bind (triple_update (Q := fun _ w => Before fs w ∧ w.fntmptph = some path)
      fun v hv => ⟨⟨⟨fun p hp => ?_, fun o n hmem => ?_⟩, hv.1.fd, hv.1.tmp⟩, hv.2⟩) fun _ => ?_
    · dsimp only
      rw [if_neg (by rintro rfl; exact hpath.not_new hp)]
      exact hv.1.untouched.1 p hp
    · exact hv.1.untouched.2 o n (List.mem_of_ne_of_mem Call.noConfusion hmem)
    · refine triple_ite (fun _ => ?_) fun _ => triple_pure fun _ hv => hv
      refine triple_bind (keeps_fdirsyncfn hcalls) fun _ => triple_ite (fun _ =>
        triple_pure fun _ hv => hv) fun _ => ?_
      exact triple_bind (keeps_attempt hcalls) fun _ => triple_pure fun _ hv => hv

theorem inTmp_tmpName (env : Env) (tmval : Nat × Nat) : InTmp (env.tmpName tmval) := by
  simp only [Env.tmpName, List.append_assoc]
  exact List.prefix_append _ _

/-- The loop leaves the file open, or the process ends. -/
theorem triple_openTmp (tries loop : Nat) :
    Triple (Before (S := S) fs) (openTmp env tries loop)
      (fun tmval => At (env.tmpName tmval) (Untouched fs)) (Ends env fs) := by
  induction tries generalizing loop with
  | zero => exact triple_exit fun _ hw => hw.returns Nat.one_ne_zero
  | succ tries ih =>
      refine triple_bind (keeps_orDie calls_before fun w hw =>
        .dies (.inl hw.untouched) fun _ => Left.noConfusion) fun _ => ?_
      refine triple_bind (triple_update (Q := fun _ w =>
        Before fs w ∧ w.fntmptph = some (env.tmpName (env.now loop))) fun w hw =>
          ⟨⟨hw.untouched, hw.fd, fun p hp => by
            rw [← Option.some.inj hp]
            exact inTmp_tmpName env _⟩, rfl⟩) fun _ => ?_
      refine triple_bind (triple_open_excl (inTmp_tmpName env _)) fun _ => triple_ite (fun _ => ?_)
        fun _ => ?_
      · exact triple_bind (triple_update (Q := fun _ => At (env.tmpName (env.now loop)) (Untouched fs))
          fun w hw => ⟨inTmp_tmpName env _, hw.2, rfl, hw.1.untouched⟩) fun _ =>
            triple_pure fun _ hw => hw
      · refine triple_bind (triple_read (Q := fun _ => Before fs) fun w hw => hw.1) fun w => ?_
        refine triple_ite (fun _ => ih _) fun _ => triple_ite (fun _ => ?_) fun _ => ?_
        · exact triple_exit fun _ hw => hw.returns (by decide)
        · exact triple_exit fun _ hw => hw.returns Nat.one_ne_zero

/-! ## Writing the file -/

/-- The output took `held`. -/
structure Writing (fs : Bytes → Option File) (path held : Bytes) (w : World S) : Prop where
  at_path : At path (Untouched fs) w
  held : S.held w.out = held

theorem calls_writing {held : Bytes} :
    Calls (S := S) (Writing fs path held) (Ends env fs) where
  answers _ l h := ⟨h.at_path.answers stable_untouched l, h.held⟩
  errno _ e h := ⟨h.at_path.errno stable_untouched e, h.held⟩
  alarm w h := (calls_at stable_untouched fun _ => .inl).alarm w h.at_path

/-- An operation of the output, on what an answer leaves. -/
theorem triple_output {f : S.State → Bool × S.State} (h : Calls I E) :
    Triple I (output path f) (fun ok w => ∃ v, I v ∧ (f v.out).1 = ok ∧ w = { v with
      out := (f v.out).2,
      files := fun p => if p = path then some ⟨S.sent (f v.out).2, false⟩ else v.files p }) E := by
  refine triple_bind (keeps_attempt h) fun _ => triple_bind triple_get fun w => ?_
  rintro v ⟨hv, rfl⟩
  exact ⟨w, hv, rfl, rfl⟩

/-- What an output leaves. -/
theorem Writing.output {held : Bytes} {v : World S} {out : S.State} (h : Writing fs path held v) :
    Writing fs path (S.held out) { v with
      out := out, files := fun p => if p = path then some ⟨S.sent out, false⟩ else v.files p } := by
  refine ⟨⟨h.at_path.inTmp, h.at_path.fntmptph, h.at_path.fd, fun p hp => ?_, h.at_path.holds.2⟩,
    rfl⟩
  dsimp only
  rw [if_neg (by rintro rfl; exact h.at_path.inTmp.not_new hp)]
  exact h.at_path.holds.1 p hp

theorem triple_fail_writing {α : Type} {Q : α → World S → Prop} :
    Triple (At path (Untouched fs)) (fail env path : Deliver S α) Q (Ends env fs) :=
  triple_fail stable_untouched fun _ => .inl

theorem triple_putOrFail {held b : Bytes} :
    Triple (Writing (S := S) fs path held) (putOrFail env path b)
      (fun _ => Writing fs path (held ++ b)) (Ends env fs) := by
  refine triple_bind (triple_output calls_writing) fun ok => triple_ite (fun hok => ?_) fun _ => ?_
  · refine triple_pure ?_
    rintro w ⟨v, hv, hput, rfl⟩
    have hnew : Writing fs path (S.held (S.put v.out b).2) _ := hv.output
    rwa [S.held_put v.out b (hput.trans hok), hv.held] at hnew
  · refine triple_weaken triple_fail_writing (P := At path (Untouched fs)) ?_ fun _ _ h => h
    rintro w ⟨v, hv, -, rfl⟩
    exact (hv.output).at_path

/-- A message that cannot be read. -/
theorem triple_unread {held : Bytes} {Q : Unit → World S → Prop} :
    Triple (Writing (S := S) fs path held)
      (do tryunlinktmp env path; exit (.returns 4) : Deliver S Unit) Q (Ends env fs) := by
  refine triple_bind (triple_weaken (triple_tryunlinktmp stable_untouched fun _ => .inl)
    (fun w hw => hw.at_path) fun _ _ h => h) fun _ => triple_exit fun v hv => ?_
  exact At.returns hv (.inl hv.1.holds) fun h0 => absurd h0 (by decide)

theorem triple_copy {held : Bytes} (parts : List Bytes) :
    Triple (Writing (S := S) fs path held) (copy env path parts)
      (fun _ => Writing fs path (held ++ parts.flatten)) (Ends env fs) := by
  induction parts generalizing held with
  | nil =>
      refine triple_bind (keeps_attempt calls_writing) fun _ => triple_ite (fun _ => ?_) fun _ => ?_
      · rw [List.flatten_nil, List.append_nil]
        exact triple_pure fun _ hw => hw
      · exact triple_unread
  | cons part parts ih =>
      refine triple_bind (keeps_attempt calls_writing) fun _ => triple_ite (fun _ => ?_) fun _ => ?_
      · rw [List.flatten_cons, ← List.append_assoc]
        exact triple_bind triple_putOrFail fun _ => ih
      · exact triple_unread

/-- What is written when `writeFile` returns. -/
structure Written (env : Env) (fs : Bytes → Option File) (path : Bytes) (w : World S) : Prop where
  at_path : At path (Untouched fs) w
  file : ∃ synced, w.files path = some ⟨env.wanted, synced⟩

theorem calls_written : Calls (S := S) (Written env fs path) (Ends env fs) where
  answers _ l h := ⟨h.at_path.answers stable_untouched l, h.file⟩
  errno _ e h := ⟨h.at_path.errno stable_untouched e, h.file⟩
  alarm w h := (calls_at stable_untouched fun _ => .inl).alarm w h.at_path

/-- A line that is not written if it is empty. -/
theorem triple_line {held line : Bytes} :
    Triple (Writing (S := S) fs path held) (when (line ≠ []) (putOrFail env path line))
      (fun _ => Writing fs path (held ++ line)) (Ends env fs) :=
  triple_when (fun _ => triple_putOrFail) fun w hne hw => by
    rwa [not_not.mp hne, List.append_nil]

theorem triple_writeFile :
    Triple (At path (Untouched fs)) (writeFile (S := S) env path)
      (fun _ => Written env fs path) (Ends env fs) := by
  refine triple_bind (triple_update (Q := fun _ => Writing fs path []) fun w hw =>
    ⟨⟨hw.inTmp, hw.fntmptph, hw.fd, hw.holds⟩, S.held_fdbuf w.out⟩) fun _ => ?_
  refine triple_bind triple_line fun _ => triple_bind triple_line fun _ => ?_
  have hqqeh : Triple (Writing (S := S) fs path ([] ++ env.rpline ++ env.dtline))
      (putQqeh env path) (fun _ => Writing fs path ([] ++ env.rpline ++ env.dtline ++ (env.qqeh.map cstr).getD []))
      (Ends env fs) := by
    rw [putQqeh]
    cases env.qqeh with
    | none => exact triple_pure fun w hw => by rwa [Option.map_none, Option.getD_none, List.append_nil]
    | some qqeh => exact triple_putOrFail
  refine triple_bind hqqeh fun _ => triple_bind (triple_copy env.body) fun _ => ?_
  refine triple_bind (triple_output calls_writing) fun ok => triple_ite (fun hok => ?_) fun _ => ?_
  · refine triple_pure ?_
    rintro w ⟨v, hv, hflush, rfl⟩
    refine ⟨hv.output.at_path, false, ?_⟩
    dsimp only
    rw [if_pos rfl, S.sent_flush v.out (hflush.trans hok), hv.held, List.nil_append, Env.wanted]
  · refine triple_weaken triple_fail_writing (P := At path (Untouched fs)) ?_ fun _ _ h => h
    rintro w ⟨v, hv, -, rfl⟩
    exact (hv.output).at_path

theorem triple_orFail (h : Calls I (Ends env fs)) (hI : ∀ w, I w → At path (Untouched fs) w) :
    Triple I (orFail (S := S) env path) (fun _ => I) (Ends env fs) :=
  triple_bind (keeps_attempt h) fun _ => triple_ite (fun _ => triple_pure fun _ hw => hw)
    fun _ => triple_weaken triple_fail_writing hI fun _ _ hw => hw

/-- The file was synced, if that is asked for. -/
structure Synced (env : Env) (fs : Bytes → Option File) (path : Bytes) (w : World S) : Prop where
  at_path : At path (Untouched fs) w
  file : ∃ synced, w.files path = some ⟨env.wanted, synced⟩ ∧
    ((env.use_fsync || env.use_fdatasync) = true → synced = true)

theorem calls_synced : Calls (S := S) (Synced env fs path) (Ends env fs) where
  answers _ l h := ⟨h.at_path.answers stable_untouched l, h.file⟩
  errno _ e h := ⟨h.at_path.errno stable_untouched e, h.file⟩
  alarm w h := (calls_at stable_untouched fun _ => .inl).alarm w h.at_path

theorem triple_syncFile :
    Triple (Written (S := S) env fs path) (syncFile env path) (fun _ => Synced env fs path)
      (Ends env fs) := by
  refine triple_when (fun _ => ?_) fun w hno hw => ?_
  · refine triple_bind (triple_orFail calls_written fun w hw => hw.at_path) fun _ => ?_
    refine triple_update fun w hw => ?_
    obtain ⟨synced, hfile⟩ := hw.file
    refine ⟨⟨hw.at_path.inTmp, hw.at_path.fntmptph, hw.at_path.fd, fun p hp => ?_,
      hw.at_path.holds.2⟩, true, ?_, fun _ => rfl⟩
    · dsimp only
      rw [if_neg (by rintro rfl; exact hw.at_path.inTmp.not_new hp)]
      exact hw.at_path.holds.1 p hp
    · dsimp only
      rw [if_pos rfl, hfile]
      rfl
  · obtain ⟨synced, hfile⟩ := hw.file
    exact ⟨hw.at_path, synced, hfile, fun h => absurd h hno⟩

/-! ## The link -/

theorem inNew_newName (env : Env) (tmval : Nat × Nat) (size : Nat) :
    InNew (env.newName tmval size) := by
  simp only [Env.newName, List.append_assoc]
  exact List.prefix_append _ _

/-- **The replaced `link`** delivers the file even where it fails late. -/
theorem triple_link {new : Bytes} (hnew : InNew new) :
    Triple (Synced (S := S) env fs path) (link env path new)
      (fun ok w => At path (fun w => Untouched fs w ∨ Delivered env fs w) w ∧
        (ok = true → Delivered env fs w)) (Ends env fs) := by
  have hnot : ∀ w, At (S := S) path (Untouched fs) w →
      At path (fun w => Untouched fs w ∨ Delivered env fs w) w ∧ (false = true → Delivered env fs w) :=
    fun w hw => ⟨⟨hw.inTmp, hw.fntmptph, hw.fd, .inl hw.holds⟩, fun h => absurd h Bool.false_ne_true⟩
  have hdone : ∀ (ok : Bool) w, At (S := S) path (Delivered env fs) w →
      At path (fun w => Untouched fs w ∨ Delivered env fs w) w ∧ (ok = true → Delivered env fs w) :=
    fun ok w hw => ⟨⟨hw.inTmp, hw.fntmptph, hw.fd, .inr hw.holds⟩, fun _ => hw.holds⟩
  refine triple_bind (keeps_attempt calls_synced) fun _ => triple_ite (fun _ => ?_) fun _ =>
    triple_pure fun w hw => hnot w hw.at_path
  refine triple_bind triple_get fun w => ?_
  -- the files at the time of the link
  have hno : Triple (fun v : World S => Synced env fs path v ∧ w = v)
      (do update fun w => { w with errno := env.error_exist }; pure false : Deliver S Bool)
      (fun ok w => At path (fun w => Untouched fs w ∨ Delivered env fs w) w ∧
        (ok = true → Delivered env fs w)) (Ends env fs) :=
    triple_bind (triple_update (Q := fun _ => Synced env fs path) fun v hv =>
      (calls_synced.errno v _ hv.1)) fun _ => triple_pure fun v hv => hnot v hv.at_path
  split
  · rename_i f hold hfree
    refine triple_bind (triple_update (Q := fun _ => At path (Delivered env fs)) ?_) fun _ => ?_
    · rintro v ⟨hv, rfl⟩
      obtain ⟨synced, hfile, hsync⟩ := hv.file
      have hf : f = ⟨env.wanted, synced⟩ := Option.some.inj (hold.symm.trans hfile)
      refine ⟨hv.at_path.inTmp, hv.at_path.fntmptph, hv.at_path.fd, path, new, synced, hnew,
        List.mem_cons_self, ?_, ?_, hsync, fun p hp hne => ?_⟩
      · rw [← hv.at_path.holds.1 new hnew, hfree]
      · dsimp only
        rw [if_pos rfl, hf]
      · dsimp only
        rw [if_neg hne]
        exact hv.at_path.holds.1 p hp
    · refine triple_ite (fun _ => ?_) fun _ => triple_pure fun v hv => hdone true v hv
      exact triple_weaken (keeps_fdirsyncfn (calls_at stable_delivered fun _ => .inr))
        (fun v hv => hv) fun ok v hv => hdone ok v hv
  · exact hno

/-- **A delivery** ends with all or nothing. -/
theorem triple_maildir_deliver :
    Triple (Before (S := S) fs) (maildir_deliver env) (fun _ _ => False) (Ends env fs) := by
  have hdies : ∀ {I : World S → Prop}, (∀ w, I w → Untouched fs w) →
      ∀ {l : Left}, (∀ c, l ≠ .returns c) → ∀ w, I w → Ends env fs l w :=
    fun hI _ hl w hw => .dies (.inl (hI w hw)) hl
  refine triple_bind (keeps_attempt calls_before) fun _ => triple_ite (fun _ => ?_) fun _ => ?_
  · refine triple_bind (keeps_orDie calls_before
      (hdies (fun _ hw => hw.untouched) fun _ => Left.noConfusion)) fun _ => ?_
    refine triple_bind (triple_openTmp 3 0) fun tmval => triple_bind triple_writeFile fun _ =>
      triple_bind triple_syncFile fun _ => ?_
    have hsynced := fun w (hw : Synced (S := S) env fs (env.tmpName tmval) w) => hw.at_path
    refine triple_bind (triple_orFail calls_synced hsynced) fun _ =>
      triple_bind (triple_orFail calls_synced hsynced) fun _ => ?_
    refine triple_bind (triple_read (Q := fun _ => Synced env fs (env.tmpName tmval))
      fun _ hw => hw) fun w => ?_
    have hmemory : Keeps (Synced (S := S) env fs (env.tmpName tmval)) (Ends env fs) orDie :=
      keeps_orDie calls_synced (hdies (fun _ hw => hw.at_path.holds) fun _ => Left.noConfusion)
    refine triple_bind hmemory fun _ => triple_bind (triple_bind (keeps_attempt calls_synced)
      fun _ => triple_ite (fun _ => triple_pure fun _ hw => hw) fun _ =>
        triple_exit (hdies (fun _ hw => hw.at_path.holds) fun _ => Left.noConfusion)) fun _ =>
      triple_bind hmemory fun _ => ?_
    refine triple_bind (triple_link (inNew_newName env _ _)) fun ok => triple_ite (fun hok => ?_)
      fun _ => ?_
    · refine triple_bind (triple_weaken (triple_tryunlinktmp stable_delivered fun _ => .inr)
        (fun w hw => ⟨hw.1.inTmp, hw.1.fntmptph, hw.1.fd, hw.2 hok⟩) fun _ _ hw => hw) fun _ =>
          triple_exit fun v hv => ?_
      exact At.returns hv (.inr hv.1.holds) fun _ => hv.1.holds
    · exact triple_weaken (triple_fail (stable_or stable_untouched stable_delivered) fun _ hw => hw)
        (fun w hw => hw.1) fun _ _ hw => hw
  · refine triple_bind (triple_read (Q := fun _ => Before fs) fun _ hw => hw) fun w =>
      triple_exit fun v hv => hv.returns ?_
    split_ifs <;> decide

/-- **A delivery is all or nothing**: with the result 0 a file in `new/` has the whole message, with
another one `new/` is as it was unless the file was linked, and the file in `tmp/` is gone unless it
could not be unlinked. -/
theorem delivery_is_all_or_nothing (env : Env) (answers : List Answer) (files : Bytes → Option File)
    (out : S.State) :
    ∃ left w, maildir_deliver env (World.start S answers files out) = (.error left, w) ∧
      (left = .returns 0 → Delivered env files w) ∧
      (∀ c, left = .returns c → c ≠ 0 → (∀ o n, .link o n ∉ w.trace) →
        ∀ p, InNew p → w.files p = files p) ∧
      (∀ c, left = .returns c → ∀ path, w.fd = some path →
        w.files path = none ∨ .noUnlink path ∈ w.trace) := by
  have hstart : Before files (World.start S answers files out) :=
    ⟨⟨fun _ _ => rfl, fun _ _ => List.not_mem_nil⟩, rfl, fun p hp => absurd hp (by simp [World.start])⟩
  have hrun := @triple_maildir_deliver S env files _ hstart
  cases hr : maildir_deliver env (World.start S answers files out) with
  | mk r w =>
      rw [hr] at hrun
      cases r with
      | ok u => exact absurd hrun not_false
      | error left =>
          refine ⟨left, w, rfl, hrun.delivered, fun c _ _ hlink => ?_, hrun.removed⟩
          rcases hrun.all_or_nothing with hsame | ⟨o, n, _, _, hmem, _⟩
          · exact hsame.1
          · exact absurd hmem (hlink o n)

/-- A message that cannot be read, for an empty envelope. -/
def unread : Env where
  nm := decimal
  fmtXlong := decimal.fmtUlong
  error_temp _ := false
  error_exist := 17
  error_dquot := 122
  eio := 5
  rpline := []
  dtline := []
  qqeh := none
  body := []
  hostname := []
  host := asc "h"
  pid := 9
  now _ := (1, 2)
  ino := 3
  dev := 4
  use_fsync := true
  use_fdatasync := false
  use_syncdir := false

/-- The file in `tmp/` stays if it cannot be unlinked. -/
theorem file_stays_in_tmp :
    ¬ ∀ c path, (maildir_deliver unread (World.start (buffered Byte 1024)
          [.ok, .ok, .ok, .ok, .fails 5, .fails 5] (fun _ => none) {})).1 = .error (.returns c) →
        (maildir_deliver unread (World.start (buffered Byte 1024)
          [.ok, .ok, .ok, .ok, .fails 5, .fails 5] (fun _ => none) {})).2.fd = some path →
        (maildir_deliver unread (World.start (buffered Byte 1024)
          [.ok, .ok, .ok, .ok, .fails 5, .fails 5] (fun _ => none) {})).2.files path = none := by
  intro h
  have hfile : ((maildir_deliver unread (World.start (buffered Byte 1024)
      [.ok, .ok, .ok, .ok, .fails 5, .fails 5] (fun _ => none) {})).2.files
        (unread.tmpName (1, 2))).isSome = true := by decide +kernel
  rw [h 4 (unread.tmpName (1, 2)) rfl rfl] at hfile
  exact absurd hfile (by decide)

end IndimailMta.Maildir
