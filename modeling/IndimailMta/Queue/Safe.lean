import IndimailMta.Queue.QmailQueue

/-!
# qmail-queue up to the link

Until `intd/id` is linked to `todo/id` nothing is committed, whatever fails, and
qmail-queue exits with an error; only a message the virus scanner makes it throw
away ends in a success. The theorems go through `main` part by part, for an
invariant `I` that is either `Uncommitted` or, once `intd/id` was created, `Made`.
-/

namespace IndimailMta.Queue

open IndimailMta Exits

/-! ## §1 Calls and exits -/

/-- The operation makes `todo/id`. -/
def FileOp.makesTodo : FileOp → Bool
  | .openExcl n => n == .todo
  | .link _ new => new == .todo
  | _ => false

/-- `todo/id` was never made. -/
def Uncommitted (w : World) : Prop :=
  w.exist .todo = false ∧ ∀ op ∈ w.trace, op.makesTodo = false

/-- `intd/id` is there, and `todo/id` was never made. -/
def Made (w : World) : Prop := w.exist .intd = true ∧ Uncommitted w

/-- The codes a signal handler can exit with. -/
def signalCodes : List Nat := [QQ_TIMEOUT, QQ_INTERNAL_BUG, QQ_CUSTOM_ERR, QQ_WRITE_ERR]

/-- `I` does not depend on answers and contents, and a signal may end the program in it. -/
structure Stable (I : World → Prop) (E : Nat → World → Prop) : Prop where
  answers : ∀ w l, I w → I { w with answers := l }
  mess : ∀ w b, I w → I { w with mess := b }
  intd : ∀ w b, I w → I { w with intd := b }
  exits : ∀ e ∈ signalCodes, ∀ w, I w → E e w

theorem ne_zero_of_signalCodes {e : Nat} (he : e ∈ signalCodes) : e ≠ 0 := by
  rintro rfl
  exact absurd he (by decide)

/-- How qmail-queue exits before the link. -/
def Unlinked (env : Env) (e : Nat) (w : World) : Prop :=
  Uncommitted w ∧ (e = 0 → env.qhpsi ≠ none)

theorem stable_uncommitted (env : Env) : Stable Uncommitted (Unlinked env) :=
  ⟨fun _ _ h => h, fun _ _ h => h, fun _ _ h => h,
    fun _ he _ h => ⟨h, fun h0 => absurd h0 (ne_zero_of_signalCodes he)⟩⟩

theorem stable_made (env : Env) : Stable Made (Unlinked env) :=
  ⟨fun _ _ h => h, fun _ _ h => h, fun _ _ h => h,
    fun _ he _ h => ⟨h.2, fun h0 => absurd h0 (ne_zero_of_signalCodes he)⟩⟩

section Stable

variable {I : World → Prop} {E : Nat → World → Prop} (hI : Stable I E) (k : Mode)

include hI

theorem next_of_stable {w : World} (h : I w) : I w.next.2 := by
  unfold World.next
  split
  · exact h
  · exact hI.answers w _ h

theorem handler_of_stable {w : World} {e : Nat} (he : e ∈ signalCodes) (h : I w) :
    E (handler k e w).1 (handler k e w).2 := by
  have hn := next_of_stable hI h
  unfold handler
  split
  · split
    · rename_i hw
      rw [hw] at hn
      exact hI.exits QQ_CUSTOM_ERR (by decide) _ hn
    · rename_i hw
      rw [hw] at hn
      exact hI.exits QQ_WRITE_ERR (by decide) _ hn
  · exact hI.exits e he w h

theorem keeps_ask : Keeps I E (ask k) := by
  intro w h
  have hn := next_of_stable hI h
  unfold ask
  cases hw : w.next with
  | mk a v =>
      rw [hw] at hn
      cases a with
      | alarm => exact handler_of_stable hI k (by decide) hn
      | bug => exact handler_of_stable hI k (by decide) hn
      | ok => exact hn
      | fails => exact hn
      | late => exact hn

theorem keeps_attempt : Keeps I E (attempt k) :=
  triple_bind (keeps_ask hI k) fun _ => triple_pure fun _ h => h

/-- A call: `J` holds if it works, and `K` if it does not. -/
theorem triple_call {op : FileOp} {J K : World → Prop}
    (hdone : ∀ w, I w → w.possible op = true → J (w.apply op) ∧ K (w.apply op))
    (hnot : ∀ w, I w → K w) :
    Triple I (call k op) (fun ok w => if ok then J w else K w) E := by
  refine triple_bind (keeps_ask hI k) fun a => ?_
  intro w h
  cases hp : w.possible op with
  | false => simpa [Exits.read, bind, hp, pure] using hnot w h
  | true =>
      obtain ⟨hj, hk⟩ := hdone w h hp
      have hn := hnot w h
      cases a with
      | late => cases k.use_syncdir <;> simp [Exits.read, Exits.update, bind, hp, pure, hj, hk]
      | _ => simp [Exits.read, Exits.update, bind, hp, pure, hj, hn]

theorem keeps_call {op : FileOp} (hop : ∀ w, I w → w.possible op = true → I (w.apply op)) :
    Keeps I E (call k op) :=
  triple_weaken (triple_call hI k (fun w h hp => ⟨hop w h hp, hop w h hp⟩) fun _ h => h)
    (fun _ h => h) fun ok w h => by cases ok <;> exact h

/-- `cleanup` ends in `I` if discarding a file keeps `I`. -/
theorem keeps_cleanup (htrunc : ∀ n w, n ≠ .todo → I w → I (w.apply (.seekTrunc n)))
    (hunlink : ∀ n w, n ≠ .todo → I w → I (w.apply (.unlink n))) : Keeps I E (cleanup k) := by
  have hdiscard : ∀ n, n ≠ .todo → Keeps I E (discard k n) := fun n hn =>
    triple_bind (keeps_call hI k fun w h _ => htrunc n w hn h) fun _ =>
      triple_bind (keeps_call hI k fun w h _ => hunlink n w hn h) fun _ => triple_pure fun _ h => h
  refine triple_bind (triple_read (Q := fun _ => I) fun _ h => h) fun w => ?_
  exact triple_bind (keeps_when fun _ => hdiscard .intd (by decide)) fun _ =>
    keeps_when fun _ => hdiscard .mess (by decide)

/-- `die` never returns. -/
theorem triple_die {α : Type} {Q : α → World → Prop} {e : Nat} (do_cleanup : Bool)
    (hclean : Keeps I E (cleanup k)) (hexit : ∀ w, I w → E e w) :
    Triple I (die k e do_cleanup : QQ α) Q E := by
  refine triple_bind (keeps_when fun _ => hclean) fun _ => ?_
  refine triple_ite (fun _ => ?_) fun _ => triple_exit hexit
  refine triple_bind (keeps_attempt hI k) fun _ => ?_
  exact triple_ite (fun _ => triple_exit (hI.exits _ (by decide)))
    fun _ => triple_exit (hI.exits _ (by decide))

end Stable

theorem uncommitted_apply {w : World} {op : FileOp} (h : Uncommitted w)
    (hop : op.makesTodo = false) : Uncommitted (w.apply op) := by
  refine ⟨?_, ?_⟩
  · cases op with
    | openExcl n =>
        have hn : Name.todo ≠ n := fun he => by simp [FileOp.makesTodo, ← he] at hop
        simpa [World.apply, Function.update_of_ne hn] using h.1
    | link old new =>
        have hn : Name.todo ≠ new := fun he => by simp [FileOp.makesTodo, ← he] at hop
        simpa [World.apply, Function.update_of_ne hn] using h.1
    | unlink n =>
        by_cases hn : Name.todo = n
        · subst hn
          simp [World.apply]
        · simpa [World.apply, Function.update_of_ne hn] using h.1
    | seekTrunc n => exact h.1
  · intro o ho
    rcases List.mem_cons.mp ho with rfl | ho
    · exact hop
    · exact h.2 o ho

/-! ## §2 What the reader accepts -/

/-- Whether the reader of the envelope gets to the link: at a record (`none`) or in an address
of which `len` bytes were read. -/
def accepts : Option Nat → Bytes → Bool
  | _, [] => false
  | none, ch :: rest => ch == 0 || ch == 81 || (ch == 84 && accepts (some 0) rest)
  | some len, ch :: rest =>
      if ch = 0 then accepts none rest else decide (len + 1 < ADDR) && accepts (some (len + 1)) rest

/-- An envelope the reader accepts. -/
def acceptsEnvelope : Bytes → Bool
  | 70 :: input => accepts (some 0) input
  | _ => false

/-! ## §3 Every part of qmail-queue is safe -/

/-- `I` is kept, and nothing is committed where the program exits. -/
abbrev Safe (env : Env) (I : World → Prop) {α : Type} (m : QQ α) : Prop :=
  Keeps I (Unlinked env) m

theorem safe_call (env : Env) (k : Mode) {op : FileOp} (hop : op.makesTodo = false) :
    Safe env Uncommitted (call k op) :=
  keeps_call (stable_uncommitted env) k fun _ h _ => uncommitted_apply h hop

theorem safe_cleanup (env : Env) (k : Mode) : Safe env Uncommitted (cleanup k) :=
  keeps_cleanup (stable_uncommitted env) k (fun _ _ _ h => uncommitted_apply h rfl)
    fun _ _ _ h => uncommitted_apply h rfl

section Parts

variable (env : Env) {I : World → Prop} (hI : Stable I (Unlinked env))
  (hU : ∀ w, I w → Uncommitted w)

include hU in
theorem safe_die {α : Type} {Q : α → World → Prop} (k : Mode) (e : Nat) (do_cleanup : Bool)
    (he : e ≠ 0) : Triple I (die k e do_cleanup : QQ α) Q (Unlinked env) :=
  triple_weaken (triple_die (stable_uncommitted env) k do_cleanup (safe_cleanup env k)
    fun _ h => ⟨h, fun h0 => absurd h0 he⟩) hU fun _ _ h => h

include hI hU

theorem safe_orDie (k : Mode) (e : Nat) (do_cleanup : Bool) (he : e ≠ 0) :
    Safe env I (orDie k e do_cleanup) :=
  triple_bind (keeps_attempt hI k) fun _ => keeps_when fun _ => safe_die env hU k e do_cleanup he

theorem safe_putMess (b : Bytes) : Safe env I (putMess env b) :=
  triple_bind (safe_orDie env hI hU _ _ _ (by decide)) fun _ =>
    triple_update fun w h => hI.mess w _ h

theorem safe_putIntd (b : Bytes) : Safe env I (putIntd env b) :=
  triple_bind (safe_orDie env hI hU _ _ _ (by decide)) fun _ =>
    triple_update fun w h => hI.intd w _ h

theorem safe_setup : Safe env I (setup env) := by
  have step : ∀ e c, e ≠ 0 → Safe env I (orDie env.mode e c) := fun e c he =>
    safe_orDie env hI hU env.mode e c he
  have hcontrols : Safe env I (readControls env) :=
    triple_bind (step _ _ (by decide)) fun _ => triple_bind (step _ _ (by decide)) fun _ =>
      triple_bind (step _ _ (by decide)) fun _ => triple_bind (step _ _ (by decide)) fun _ =>
      triple_bind (step _ _ (by decide)) fun _ => step _ _ (by decide)
  refine triple_bind (keeps_when fun _ => hcontrols) fun _ => ?_
  exact triple_bind (step _ _ (by decide)) fun _ => triple_bind (step _ _ (by decide)) fun _ =>
    step _ _ (by decide)

theorem safe_copyBody : ∀ chunks, Safe env I (copyBody env chunks)
  | [] => safe_orDie env hI hU _ _ _ (by decide)
  | chunk :: chunks =>
      triple_bind (safe_orDie env hI hU _ _ _ (by decide)) fun _ =>
        triple_bind (safe_putMess env hI hU chunk) fun _ => safe_copyBody chunks

theorem safe_copyLines : ∀ ls envheaders, Safe env I (copyLines env ls envheaders)
  | [], _ => triple_bind (safe_orDie env hI hU _ _ _ (by decide)) fun _ => triple_pure fun _ h => h
  | l :: ls, _ => by
      refine triple_bind (safe_orDie env hI hU _ _ _ (by decide)) fun _ => ?_
      refine triple_bind (keeps_when fun _ => safe_orDie env hI hU _ _ _ (by decide)) fun _ => ?_
      refine triple_bind (keeps_when fun _ => safe_putMess env hI hU l.bytes) fun _ => ?_
      exact triple_bind (keeps_when fun _ => safe_orDie env hI hU _ _ _ (by decide)) fun _ =>
        safe_copyLines ls _

theorem safe_writeMess : Safe env I (writeMess env) := by
  have horigin : Safe env I (putOrigin env) := by
    unfold putOrigin
    split
    · exact triple_bind (safe_orDie env hI hU _ _ _ (by decide)) fun _ => safe_putMess env hI hU _
    · exact triple_pure fun _ h => h
  have hbody : Safe env I (putBody env) := by
    unfold putBody
    split
    · exact triple_bind (safe_copyBody env hI hU _) fun _ => triple_pure fun _ h => h
    · exact safe_copyLines env hI hU _ []
  refine triple_bind (safe_putMess env hI hU _) fun _ => ?_
  refine triple_bind horigin fun _ => triple_bind hbody fun _ => ?_
  refine triple_bind (safe_orDie env hI hU _ _ _ (by decide)) fun _ => ?_
  exact triple_bind (keeps_when fun _ => safe_orDie env hI hU _ _ _ (by decide)) fun _ =>
    triple_pure fun _ h => h

theorem safe_qhpsiResult (v : Vars) (q : Qhpsi) : Safe env I (qhpsiResult env v q) := by
  cases q with
  | skipped => exact safe_die env hU _ _ _ (by decide)
  | crashed => exact safe_die env hU _ _ _ (by decide)
  | virus rejectvirus virusforward =>
      have hforward : ∀ v, Safe env I (forwardVirus env virusforward v) := by
        intro v
        unfold forwardVirus
        split
        · exact triple_bind (safe_orDie env hI hU _ _ _ (by decide)) fun _ =>
            triple_pure fun _ h => h
        · exact triple_pure fun _ h => h
      refine triple_bind (safe_orDie env hI hU _ _ _ (by decide)) fun _ =>
        triple_bind (hforward _) fun _ => ?_
      exact triple_ite (fun _ => triple_pure fun _ h => h) fun _ =>
        triple_ite (fun _ => triple_pure fun _ h => h) fun _ => safe_die env hU _ _ _ (by decide)
  | clean => exact triple_bind (safe_orDie env hI hU _ _ _ (by decide)) fun _ =>
      triple_pure fun _ h => h
  | other => exact safe_die env hU _ _ _ (by decide)

/-- A message is thrown away only if there is a virus scanner. -/
theorem triple_inspect (envheaders : Bytes) :
    Triple I (inspect env envheaders)
      (fun v w => I w ∧ (v.flagblackhole = true → env.qhpsi ≠ none)) (Unlinked env) := by
  have hscan : ∀ v, Triple I (scan env v) (fun v' w => I w ∧ (env.qhpsi = none → v' = v))
      (Unlinked env) := by
    intro v
    unfold scan
    split
    · rename_i q hq
      have hprog : Safe env I (qhpsiprog env q v) := by
        refine triple_bind (safe_orDie env hI hU _ _ _ (by decide)) fun _ => ?_
        split
        · exact triple_pure fun _ h => h
        · exact triple_bind (safe_orDie env hI hU _ _ _ (by decide)) fun _ =>
            triple_bind (safe_orDie env hI hU _ _ _ (by decide)) fun _ =>
              safe_qhpsiResult env hI hU _ _
      exact triple_weaken hprog (fun _ h => h) fun _ _ h => ⟨h, fun hn => by simp [hq] at hn⟩
    · exact triple_pure fun _ h => ⟨h, fun _ => rfl⟩
  refine triple_ite (fun _ => triple_pure fun _ h => ⟨h, fun hb => by simp at hb⟩) fun _ => ?_
  refine triple_bind (hscan _) fun v => triple_pure fun w h => ⟨h.1, fun hb hn => ?_⟩
  rw [h.2 hn] at hb
  simp [Vars.decide] at hb

theorem triple_getSender : ∀ len line input,
    Triple I (getSender env len line input)
      (fun r w => I w ∧ accepts none r.1 = accepts (some len) input) (Unlinked env)
  | _, _, [] => safe_die env hU _ _ _ (by decide)
  | len, line, ch :: rest => by
      refine triple_bind (safe_orDie env hI hU _ _ _ (by decide)) fun _ =>
        triple_bind (safe_putIntd env hI hU _) fun _ => ?_
      refine triple_ite (fun h0 => triple_pure fun _ h => ⟨h, by simp [accepts, h0]⟩) fun h0 => ?_
      refine triple_ite (fun hlen => ?_) fun _ => safe_die env hU _ _ _ (by decide)
      simpa only [accepts, h0, hlen, if_false, decide_true, Bool.true_and] using
        triple_getSender (len + 1) (line ++ [ch]) rest

theorem safe_putRecipient (v : Vars) (ch : Byte) : Safe env I (putRecipient env v ch) :=
  triple_ite (fun _ => keeps_when fun _ => safe_orDie env hI hU _ _ _ (by decide))
    fun _ => safe_putIntd env hI hU _

theorem triple_getRecipients : ∀ pos v line input,
    Triple I (getRecipients env pos v line input)
      (fun _ w => I w ∧ accepts pos input = true) (Unlinked env)
  | _, _, _, [] => safe_die env hU _ _ _ (by decide)
  | none, v, line, ch :: rest => by
      refine triple_bind (safe_orDie env hI hU _ _ _ (by decide)) fun _ => ?_
      refine triple_ite (fun h0 => triple_pure fun _ h => ⟨h, by simp [accepts, h0]⟩) fun h0 => ?_
      refine triple_ite (fun hQ => triple_pure fun _ h => ⟨h, by simp [accepts, hQ.2]⟩) fun _ => ?_
      refine triple_ite (fun _ => safe_die env hU _ _ _ (by decide)) fun hT => ?_
      have ih := triple_getRecipients (some 0) (v.list (asc ",")) (line ++ [ch]) rest
      refine triple_bind (safe_putRecipient env hI hU v ch) fun _ =>
        triple_weaken ih (fun _ h => h) fun _ _ h => ⟨h.1, ?_⟩
      simp [accepts, not_not.mp hT, h.2]
  | some len, v, line, ch :: rest => by
      refine triple_bind (safe_orDie env hI hU _ _ _ (by decide)) fun _ => ?_
      refine triple_bind (safe_putRecipient env hI hU v ch) fun _ => ?_
      refine triple_ite (fun h0 => ?_) fun h0 => ?_
      · simpa only [accepts, h0, if_true] using triple_getRecipients none v (line ++ [ch]) rest
      refine triple_ite (fun hlen => ?_) fun _ => safe_die env hU _ _ _ (by decide)
      simpa only [accepts, h0, hlen, if_false, decide_true, Bool.true_and] using
        triple_getRecipients (some (len + 1)) (v.list [ch]) (line ++ [ch]) rest

theorem safe_drain : ∀ input, Safe env I (drain env input)
  | [] => safe_die env hU _ _ _ (by decide)
  | ch :: rest => by
      refine triple_bind (safe_orDie env hI hU _ _ _ (by decide)) fun _ => ?_
      exact triple_ite (fun _ => triple_pure fun _ h => h) fun _ => safe_drain rest

theorem safe_putExtraqueue : ∀ rs, Safe env I (putExtraqueue env rs)
  | [] => triple_pure fun _ h => h
  | _ :: rs => triple_bind (safe_putIntd env hI hU _) fun _ => safe_putExtraqueue rs

theorem triple_putQuarantine (v : Vars) :
    Triple I (putQuarantine env v) (fun v' w => I w ∧ v'.flagblackhole = v.flagblackhole)
      (Unlinked env) := by
  refine triple_ite (fun hq => ?_) fun _ => triple_pure fun _ h => ⟨h, rfl⟩
  refine triple_bind (safe_putIntd env hI hU _) fun _ =>
    triple_bind (safe_orDie env hI hU _ _ _ (by decide)) fun _ => triple_pure fun _ h => ⟨h, ?_⟩
  simp [Vars.list, hq]

theorem safe_putHeaders (v : Vars) : Safe env I (putHeaders env v) :=
  triple_bind (keeps_when fun _ => safe_putIntd env hI hU _) fun _ =>
    keeps_when fun _ => safe_putIntd env hI hU _

theorem triple_writeEnvelope (v : Vars) (input : Bytes)
    (hv : v.flagblackhole = true → env.qhpsi ≠ none) :
    Triple I (writeEnvelope env v input) (fun _ w => I w ∧ accepts (some 0) input = true)
      (Unlinked env) := by
  have hblackhole : ∀ rest, env.qhpsi ≠ none → Safe env I (blackhole env rest) := fun rest hq =>
    triple_bind (safe_drain env hI hU rest) fun _ =>
      triple_bind (triple_weaken (safe_cleanup env env.mode) hU fun _ _ h => h) fun _ =>
        triple_exit fun _ h => ⟨h, fun _ => hq⟩
  have harchive : ∀ line, Safe env I (putArchive env line) := by
    intro line
    unfold putArchive
    split
    · exact triple_bind (safe_orDie env hI hU _ _ _ (by decide)) fun _ => safe_putIntd env hI hU _
    · exact triple_pure fun _ h => h
  have htail : ∀ (v : Vars) line, Safe env I (do
      putArchive env line
      when v.flagquarantine (orDie env.mode QQ_OUT_OF_MEMORY true)
      putHeaders env (v.list (asc "\n"))
      orDie env.mode QQ_WRITE_ERR true : QQ Unit) := fun v line =>
    triple_bind (harchive line) fun _ =>
      triple_bind (keeps_when fun _ => safe_orDie env hI hU _ _ _ (by decide)) fun _ =>
        triple_bind (safe_putHeaders env hI hU _) fun _ => safe_orDie env hI hU _ _ _ (by decide)
  refine triple_bind (triple_getSender env hI hU _ _ _) fun sender => triple_fact fun hsender => ?_
  refine triple_bind (safe_putExtraqueue env hI hU _) fun _ => ?_
  refine triple_bind (triple_putQuarantine env hI hU v) fun v' => triple_fact fun hv' => ?_
  refine triple_bind (keeps_when fun hb => hblackhole _ (hv (hv' ▸ hb))) fun _ => ?_
  refine triple_bind (triple_getRecipients env hI hU _ _ _ _) fun recipients =>
    triple_fact fun hrecipients => ?_
  exact triple_weaken (htail _ _) (fun _ h => h) fun _ _ h => ⟨h, hsender ▸ hrecipients⟩

theorem triple_writeIntd (v : Vars) (hv : v.flagblackhole = true → env.qhpsi ≠ none) :
    Triple I (writeIntd env v) (fun _ w => I w ∧ acceptsEnvelope env.envelope = true)
      (Unlinked env) := by
  refine triple_bind (safe_orDie env hI hU _ _ _ (by decide)) fun _ => ?_
  cases env.envelope with
  | nil => exact safe_die env hU _ _ _ (by decide)
  | cons ch input =>
      refine triple_ite (fun _ => safe_die env hU _ _ _ (by decide)) fun hF => ?_
      obtain rfl : ch = 70 := not_not.mp hF
      exact triple_bind (safe_putIntd env hI hU _) fun _ =>
        triple_writeEnvelope env hI hU v input hv

end Parts

theorem safe_pidopenFrom (env : Env) : ∀ tries seq, Safe env Uncommitted (pidopenFrom env tries seq)
  | 0, _ => safe_die env (fun _ h => h) _ _ _ (by decide)
  | tries + 1, seq => by
      refine triple_bind (safe_call env _ rfl) fun _ => ?_
      exact triple_ite (fun _ => triple_pure fun _ h => h) fun _ => safe_pidopenFrom env tries _

theorem safe_makeMess (env : Env) : Safe env Uncommitted (makeMess env) := by
  have step : ∀ e c, e ≠ 0 → Safe env Uncommitted (orDie env.mode e c) := fun e c he =>
    safe_orDie env (stable_uncommitted env) (fun _ h => h) env.mode e c he
  have remove : ∀ n e, e ≠ 0 → Safe env Uncommitted (do
      let _ ← call env.mode (.unlink n)
      die env.mode e false : QQ Unit) := fun n e he =>
    triple_bind (safe_call env _ rfl) fun _ => safe_die env (fun _ h => h) _ _ _ he
  refine triple_bind (triple_bind (step _ _ (by decide)) fun _ => safe_pidopenFrom env _ _)
    fun seq => ?_
  refine triple_bind (step _ _ (by decide)) fun _ => triple_bind (step _ _ (by decide)) fun _ =>
    triple_bind (step _ _ (by decide)) fun _ => triple_bind (step _ _ (by decide)) fun _ => ?_
  refine triple_bind (safe_call env _ rfl) fun _ => ?_
  refine triple_bind (keeps_when fun _ => remove _ _ (by decide)) fun _ => ?_
  refine triple_bind (safe_call env _ rfl) fun _ => ?_
  exact triple_bind (keeps_when fun _ => remove _ _ (by decide)) fun _ =>
    triple_update fun _ h => h

/-- `intd/id` is created here. -/
theorem triple_makeIntd (env : Env) :
    Triple Uncommitted (makeIntd env) (fun _ => Made) (Unlinked env) := by
  refine triple_bind (triple_call (stable_uncommitted env) env.mode (J := Made)
    (K := Uncommitted) (fun w h hp => ?_) fun _ h => h) fun opened => ?_
  · have hu := @uncommitted_apply w (.openExcl .intd) h rfl
    exact ⟨⟨by simp [World.apply], hu⟩, hu⟩
  refine triple_bind (Q := fun _ => Made) (triple_when (fun ho => ?_) fun w ho h => ?_) fun _ => ?_
  · exact triple_weaken (safe_die env (fun _ h => h) env.mode QQ_INTD_FILE true (by decide))
      (fun w h => by simpa [ho] using h) fun _ _ h => h
  · simpa [Bool.not_eq_false _ ▸ ho] using h
  exact triple_bind (triple_update (Q := fun _ => Made) fun _ h => h) fun _ =>
    safe_putIntd env (stable_made env) (fun _ h => h.2) _

/-- **Before the link nothing is committed; and when the link comes, `intd/id` is there and
the envelope was one the reader accepts.** -/
theorem triple_prepare (env : Env) :
    Triple Uncommitted (prepare env)
      (fun _ w => Made w ∧ acceptsEnvelope env.envelope = true) (Unlinked env) := by
  have hI := stable_uncommitted env
  have hU : ∀ w, Uncommitted w → Uncommitted w := fun _ h => h
  have hJ := stable_made env
  have hM : ∀ w, Made w → Uncommitted w := fun _ h => h.2
  refine triple_bind (safe_setup env hI hU) fun _ => ?_
  refine triple_bind (safe_makeMess env) fun _ => ?_
  refine triple_bind (safe_writeMess env hI hU) fun envheaders => ?_
  refine triple_bind (triple_inspect env hI hU envheaders) fun v => triple_fact fun hv => ?_
  refine triple_bind (triple_makeIntd env) fun _ => ?_
  refine triple_bind (triple_writeIntd env hJ hM v hv) fun _ => triple_fact fun hacc => ?_
  exact triple_weaken (keeps_when fun _ => triple_bind (safe_orDie env hJ hM _ _ _ (by decide))
    fun _ => safe_orDie env hJ hM _ _ _ (by decide)) (fun _ h => h) fun _ _ h => ⟨h, hacc⟩

end IndimailMta.Queue
