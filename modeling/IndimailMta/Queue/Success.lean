import IndimailMta.Queue.Safe

/-!
# A message that is queued

When every call works and nothing is filtered, scanned, quarantined or archived,
qmail-queue queues what it reads: `mess/id` gets the Received line and the body,
`intd/id` the envelope without its final NUL, and the run ends with the link and
exit code 0. Conversely an envelope the reader does not accept is never queued.
-/

namespace IndimailMta.Queue

open IndimailMta Exits
open Function (update)

/-! ## §1 Runs in which every call works -/

/-- All calls work; the names are `f`, and the files hold `m` and `i`. -/
def At (f : Name → Bool) (m i : Bytes) (w : World) : Prop :=
  w.answers = [] ∧ w.exist = f ∧ w.mess = m ∧ w.intd = i

/-- `m` returns. -/
abbrev Runs {α : Type} (P : World → Prop) (m : QQ α) (Q : α → World → Prop) : Prop :=
  Triple P m Q fun _ _ => False

section Calls

variable {f : Name → Bool} {m i : Bytes} (k : Mode) (env : Env)

theorem runs_ask : Runs (At f m i) (ask k) (fun a w => At f m i w ∧ a = .ok) := by
  rintro w ⟨ha, h⟩
  simp only [ask, World.next, ha, and_true]
  exact ⟨ha, h⟩

theorem runs_attempt : Runs (At f m i) (attempt k) (fun ok w => At f m i w ∧ ok = true) := by
  refine triple_bind (runs_ask k) fun a => triple_fact fun ha => triple_pure fun w h => ⟨h, ?_⟩
  simp [ha]

theorem runs_orDie (e : Nat) (c : Bool) : Runs (At f m i) (orDie k e c) fun _ => At f m i := by
  refine triple_bind (runs_attempt k) fun ok => triple_fact fun hok => ?_
  exact triple_when (fun hno => by simp [hok] at hno) fun _ _ h => h

/-- A call that is possible is done. -/
theorem runs_call {op : FileOp} (hop : ∀ w, At f m i w → w.possible op = true) :
    Runs (At f m i) (call k op)
      (fun ok w => (∃ v, At f m i v ∧ w = v.apply op) ∧ ok = true) := by
  refine triple_bind (runs_ask k) fun a => triple_fact fun ha => ?_
  intro w h
  have hp := hop w h
  subst ha
  simpa [Exits.read, Exits.update, bind, hp, pure] using ⟨w, h, rfl⟩

theorem runs_putMess (b : Bytes) :
    Runs (At f m i) (putMess env b) fun _ => At f (m ++ b) i :=
  triple_bind (runs_orDie _ _ _) fun _ =>
    triple_update fun _ ⟨ha, he, hm, hi⟩ => ⟨ha, he, by rw [hm], hi⟩

theorem runs_putIntd (b : Bytes) :
    Runs (At f m i) (putIntd env b) fun _ => At f m (i ++ b) :=
  triple_bind (runs_orDie _ _ _) fun _ =>
    triple_update fun _ ⟨ha, he, hm, hi⟩ => ⟨ha, he, hm, by rw [hi]⟩

end Calls

/-! ## §2 The parts of a plain run -/

/-- `env` with nothing that filters or redirects messages, reading this message. -/
def Env.plain (env : Env) (chunks : List Bytes) (envelope : Bytes) : Env :=
  { env with
    body := .copy chunks, envelope := envelope, qhpsi := none, extraqueue := []
    quarantine := [], archive := none }

/-- A recipient as qmail_to writes it. -/
def recordOf (r : Bytes) : Bytes := 84 :: r ++ [0]

section Parts

variable {f : Name → Bool} {m i : Bytes} (env : Env)

theorem runs_setup : Runs (At f m i) (setup env) fun _ => At f m i := by
  have step := runs_orDie (f := f) (m := m) (i := i) env.mode
  have hcontrols : Runs (At f m i) (readControls env) fun _ => At f m i :=
    triple_bind (step _ _) fun _ => triple_bind (step _ _) fun _ =>
      triple_bind (step _ _) fun _ => triple_bind (step _ _) fun _ =>
      triple_bind (step _ _) fun _ => step _ _
  refine triple_bind (keeps_when fun _ => hcontrols) fun _ => ?_
  exact triple_bind (step _ _) fun _ => triple_bind (step _ _) fun _ => step _ _

/-- The names once `mess/id` was made. -/
def messNames : Name → Bool := fun n => n == .mess

/-- The names once `intd/id` was made. -/
def intdNames : Name → Bool := fun n => n == .mess || n == .intd

/-- The names once `todo/id` was made. -/
def todoNames : Name → Bool := fun n => n == .mess || n == .intd || n == .todo

theorem runs_makeMess :
    Runs (At (fun _ => false) [] []) (makeMess env) fun _ => At messNames [] [] := by
  have step := runs_orDie (f := update (fun _ => false) (Name.pid 1) true) (m := []) (i := [])
    env.mode
  have hopen : Runs (At (fun _ => false) [] []) (pidopen env)
      (fun seq w => At (update (fun _ => false) (Name.pid 1) true) [] [] w ∧ seq = 1) := by
    refine triple_bind (runs_orDie _ _ _) fun _ => ?_
    refine triple_bind (runs_call env.mode fun w h => by simp [World.possible, h.2.1]) fun ok =>
      triple_fact fun hok => ?_
    rw [if_pos hok]
    refine triple_pure fun w ⟨v, ⟨ha, he, hm, hi⟩, hw⟩ => ⟨?_, rfl⟩
    subst hw
    exact ⟨ha, by simp [World.apply, he], by simp [World.apply, hm], by simp [World.apply, hi]⟩
  refine triple_bind hopen fun seq => triple_fact fun hseq => ?_
  subst hseq
  refine triple_bind (step _ _) fun _ => triple_bind (step _ _) fun _ =>
    triple_bind (step _ _) fun _ => triple_bind (step _ _) fun _ => ?_
  refine triple_bind (runs_call env.mode fun w h => by simp [World.possible, h.2.1]) fun ok =>
    triple_fact fun hok => ?_
  refine triple_bind (Q := fun _ => At (update (update (fun _ => false) (Name.pid 1) true)
    .mess true) [] []) (triple_when (fun hno => by simp [hok] at hno) fun _ _ h => ?_) fun _ => ?_
  · obtain ⟨v, ⟨ha, he, hm, hi⟩, rfl⟩ := h
    exact ⟨ha, by simp [World.apply, he], by simp [World.apply, hm], by simp [World.apply, hi]⟩
  refine triple_bind (runs_call env.mode fun w h => by simp [World.possible, h.2.1]) fun ok =>
    triple_fact fun hok => ?_
  refine triple_bind (Q := fun _ => At messNames [] [])
    (triple_when (fun hno => by simp [hok] at hno) fun _ _ h => ?_) fun _ =>
      triple_update fun _ h => h
  obtain ⟨v, ⟨ha, he, hm, hi⟩, rfl⟩ := h
  refine ⟨ha, ?_, by simp [World.apply, hm], by simp [World.apply, hi]⟩
  funext n
  simp only [World.apply, he, messNames]
  by_cases hn : n = .pid 1
  · simp [hn]
  · by_cases hm : n = .mess <;> simp [hn, hm]

theorem runs_copyBody : ∀ chunks m,
    Runs (At f m i) (copyBody env chunks) fun _ => At f (m ++ chunks.flatten) i
  | [], m => by
      rw [List.flatten_nil, List.append_nil]
      exact runs_orDie _ _ _
  | chunk :: chunks, m => by
      rw [List.flatten_cons, ← List.append_assoc]
      exact triple_bind (runs_orDie _ _ _) fun _ => triple_bind (runs_putMess env chunk) fun _ =>
        runs_copyBody chunks (m ++ chunk)

/-- What stands in `mess/id` before the body. -/
def Env.trace (env : Env) : Bytes := env.received ++ env.origin.getD []

theorem runs_writeMess {chunks : List Bytes} (hb : env.body = .copy chunks) :
    Runs (At f [] i) (writeMess env)
      (fun envheaders w => At f (env.trace ++ chunks.flatten) i w ∧ envheaders = []) := by
  have horigin : ∀ m, Runs (At f m i) (putOrigin env) fun _ =>
    At f (m ++ env.origin.getD []) i := by
    intro m
    unfold putOrigin
    split
    · rename_i origin ho
      exact triple_bind (runs_orDie _ _ _) fun _ => by simpa [ho] using runs_putMess env origin
    · rename_i ho
      exact triple_pure fun _ h => by simpa [ho] using h
  have hbody : ∀ m, Runs (At f m i) (putBody env)
      (fun h w => At f (m ++ chunks.flatten) i w ∧ h = []) := by
    intro m
    rw [putBody, hb]
    exact triple_bind (runs_copyBody env chunks m) fun _ => triple_pure fun _ h => ⟨h, rfl⟩
  refine triple_bind (runs_putMess env _) fun _ => triple_bind (horigin _) fun _ => ?_
  refine triple_bind (hbody _) fun h => triple_fact fun hh => ?_
  refine triple_bind (runs_orDie _ _ _) fun _ => ?_
  refine triple_bind (keeps_when fun _ => runs_orDie _ _ _) fun _ =>
    triple_pure fun w hw => ⟨?_, hh⟩
  simpa [Env.trace, List.append_assoc] using hw

theorem runs_makeIntd :
    Runs (At messNames m []) (makeIntd env) fun _ => At intdNames m
      (asc "u" ++ env.nm.fmtUlong env.uid ++ [0] ++ asc "p" ++ env.nm.fmtUlong env.mypid ++ [0]) := by
  refine triple_bind (runs_call env.mode fun w h => by simp [World.possible, h.2.1, messNames])
    fun ok => triple_fact fun hok => ?_
  refine triple_bind (Q := fun _ => At intdNames m [])
    (triple_when (fun hno => by simp [hok] at hno) fun _ _ h => ?_) fun _ => ?_
  · obtain ⟨v, ⟨ha, he, hm, hi⟩, rfl⟩ := h
    refine ⟨ha, ?_, by simp [World.apply, hm], by simp [World.apply, hi]⟩
    funext n
    by_cases hn : n = .intd <;> simp [World.apply, he, intdNames, messNames, hn]
  refine triple_bind (triple_update (Q := fun _ => At intdNames m []) fun _ h => h) fun _ => ?_
  simpa using runs_putIntd (f := intdNames) (m := m) (i := []) env _

/-- The sender, a text without NUL that is not too long. -/
theorem runs_getSender : ∀ (s : Bytes) (len : Nat) (line rest i : Bytes), 0 ∉ s →
    len + s.length < ADDR →
    Runs (At f m i) (getSender env len line (s ++ 0 :: rest))
      (fun r w => At f m (i ++ s ++ [0]) w ∧ r.1 = rest)
  | [], len, line, rest, i, _, _ => by
      refine triple_bind (runs_orDie _ _ _) fun _ => triple_bind (runs_putIntd env [0]) fun _ => ?_
      simpa using triple_pure fun _ h => ⟨h, rfl⟩
  | ch :: s, len, line, rest, i, hs, hlen => by
      have h0 : ch ≠ 0 := fun h => hs (by simp [h])
      rw [List.length_cons] at hlen
      refine triple_bind (runs_orDie _ _ _) fun _ => triple_bind (runs_putIntd env [ch]) fun _ => ?_
      rw [if_neg h0, if_pos (by omega)]
      have ih := runs_getSender s (len + 1) (line ++ [ch]) rest (i ++ [ch])
        (fun h => hs (List.mem_cons_of_mem ch h)) (by omega)
      simpa [List.append_assoc] using ih

theorem runs_putRecipient {v : Vars} (hv : v.flagquarantine = false) (ch : Byte) :
    Runs (At f m i) (putRecipient env v ch) fun _ => At f m (i ++ [ch]) := by
  unfold putRecipient
  rw [if_neg (by simp [hv])]
  exact runs_putIntd env [ch]

theorem list_of_not_quarantined {v : Vars} (hv : v.flagquarantine = false) (b : Bytes) :
    v.list b = v := by
  simp [Vars.list, hv]

/-- The rest of an address, and then what follows. -/
theorem runs_address {v : Vars} (hv : v.flagquarantine = false) {rest : Bytes}
    {Q : Vars × Bytes → World → Prop} : ∀ (r : Bytes) (len : Nat) (line i : Bytes), 0 ∉ r →
    len + r.length < ADDR →
    (∀ line, Runs (At f m (i ++ r ++ [0])) (getRecipients env none v line rest) Q) →
    Runs (At f m i) (getRecipients env (some len) v line (r ++ 0 :: rest)) Q
  | [], len, line, i, _, _, hnext => by
      refine triple_bind (runs_orDie _ _ _) fun _ =>
        triple_bind (runs_putRecipient env hv 0) fun _ => ?_
      simpa using hnext (line ++ [0])
  | ch :: r, len, line, i, hr, hlen, hnext => by
      have h0 : ch ≠ 0 := fun h => hr (by simp [h])
      rw [List.length_cons] at hlen
      refine triple_bind (runs_orDie _ _ _) fun _ =>
        triple_bind (runs_putRecipient env hv ch) fun _ => ?_
      rw [if_neg h0, if_pos (by omega), list_of_not_quarantined hv]
      refine runs_address hv r (len + 1) (line ++ [ch]) (i ++ [ch])
        (fun h => hr (List.mem_cons_of_mem ch h)) (by omega) fun line' => ?_
      simpa [List.append_assoc] using hnext line'

/-- **Recipients without NUL that are not too long, and the NUL behind them.** -/
theorem runs_getRecipients {v : Vars} (hv : v.flagquarantine = false) : ∀ (rs : List Bytes)
    (line i : Bytes), (∀ r ∈ rs, 0 ∉ r ∧ r.length < ADDR) →
    Runs (At f m i) (getRecipients env none v line (rs.flatMap recordOf ++ [0]))
      (fun r w => At f m (i ++ rs.flatMap recordOf) w ∧ r.1 = v)
  | [], line, i, _ => by
      refine triple_bind (runs_orDie _ _ _) fun _ => ?_
      simpa using triple_pure fun _ h => ⟨h, rfl⟩
  | r :: rs, line, i, hrs => by
      obtain ⟨hr, hlen⟩ := hrs r List.mem_cons_self
      have hsplit : (r :: rs).flatMap recordOf ++ [0] =
          84 :: (r ++ 0 :: (rs.flatMap recordOf ++ [0])) := by simp [recordOf]
      rw [hsplit]
      refine triple_bind (runs_orDie _ _ _) fun _ => ?_
      rw [if_neg (by decide), if_neg (by simp), if_neg (by simp)]
      refine triple_bind (runs_putRecipient env hv 84) fun _ => ?_
      rw [list_of_not_quarantined hv]
      refine runs_address env hv r 0 _ _ hr (by omega) fun line' => ?_
      have ih := runs_getRecipients hv rs line' (i ++ [84] ++ r ++ [0])
        fun r' h' => hrs r' (List.mem_cons_of_mem r h')
      simpa [recordOf, List.append_assoc] using ih

end Parts

/-! ## §3 Plain runs -/

section Plain

variable (env : Env) (chunks : List Bytes)

/-- What stands in `intd/id` before the sender. -/
def Env.intdHead (env : Env) : Bytes :=
  asc "u" ++ env.nm.fmtUlong env.uid ++ [0] ++ asc "p" ++ env.nm.fmtUlong env.mypid ++ [0]

/-- What stands in `intd/id` behind the recipients of a plain message. -/
def Env.intdTail (env : Env) : Bytes :=
  if env.extraHeaders = [] then [] else asc "e" ++ env.extraHeaders ++ [0]

/-- The sender as qmail_from writes it. -/
def senderRecord (s : Bytes) : Bytes := 70 :: s ++ [0]

theorem runs_putHeaders {f : Name → Bool} {m i : Bytes} :
    Runs (At f m i) (putHeaders env {}) fun _ => At f m (i ++ env.intdTail) := by
  refine triple_bind (Q := fun _ => At f m (i ++ env.intdTail))
    (triple_when (fun hx => ?_) fun _ hx h => ?_) fun _ => keeps_when fun hb => absurd rfl hb
  · have hx : env.extraHeaders ≠ [] := hx
    rw [Env.intdTail, if_neg hx]
    exact runs_putIntd env _
  · have hx : env.extraHeaders = [] := not_not.mp hx
    rw [Env.intdTail, if_pos hx, List.append_nil]
    exact h

theorem runs_writeIntd {s : Bytes} {rs : List Bytes} {f : Name → Bool} {m i : Bytes}
    (hs : 0 ∉ s) (hlen : s.length < ADDR) (hrs : ∀ r ∈ rs, 0 ∉ r ∧ r.length < ADDR) :
    Runs (At f m i)
      (writeIntd (env.plain chunks (senderRecord s ++ rs.flatMap recordOf ++ [0])) {})
      fun _ => At f m (i ++ senderRecord s ++ rs.flatMap recordOf ++ env.intdTail) := by
  have henv : senderRecord s ++ rs.flatMap recordOf ++ [0] =
      70 :: (s ++ 0 :: (rs.flatMap recordOf ++ [0])) := by simp [senderRecord]
  generalize he : env.plain chunks (senderRecord s ++ rs.flatMap recordOf ++ [0]) = e
  have henvelope : e.envelope = 70 :: (s ++ 0 :: (rs.flatMap recordOf ++ [0])) := by
    rw [← he, ← henv]
    rfl
  have hextra : e.extraqueue = [] := by rw [← he]; rfl
  have harchive : e.archive = none := by rw [← he]; rfl
  have htail : e.intdTail = env.intdTail := by rw [← he]; rfl
  unfold writeIntd
  rw [henvelope]
  refine triple_bind (runs_orDie _ _ _) fun _ => ?_
  simp only [ne_eq, not_true_eq_false, if_false]
  refine triple_bind (runs_putIntd e [70]) fun _ => ?_
  refine triple_bind (runs_getSender e s 0 _ _ _ hs (by omega)) fun sender =>
    triple_fact fun hsender => ?_
  rw [hsender, hextra]
  refine triple_bind (Q := fun _ => At f m (i ++ [70] ++ s ++ [0])) (triple_pure fun _ h => h)
    fun _ => ?_
  refine triple_bind (Q := fun v w => At f m (i ++ [70] ++ s ++ [0]) w ∧ v = {})
    (triple_pure fun _ h => ⟨h, rfl⟩) fun v => triple_fact fun hv => ?_
  subst hv
  refine triple_bind (keeps_when fun hb => by simp at hb) fun _ => ?_
  refine triple_bind (runs_getRecipients e rfl rs _ _ hrs) fun recipients =>
    triple_fact fun hrecipients => ?_
  obtain ⟨v, line⟩ := recipients
  obtain rfl : v = {} := hrecipients
  simp only [putArchive, harchive]
  refine triple_bind (Q := fun _ => At f m (i ++ [70] ++ s ++ [0] ++ rs.flatMap recordOf))
    (triple_pure fun _ h => h) fun _ => ?_
  refine triple_bind (keeps_when fun hb => by simp at hb) fun _ => ?_
  rw [list_of_not_quarantined rfl]
  refine triple_bind (runs_putHeaders e) fun _ => ?_
  have hflush := runs_orDie (f := f) (m := m) (i := i ++ [70] ++ s ++ [0] ++ rs.flatMap recordOf ++
    e.intdTail) e.mode QQ_WRITE_ERR true
  simpa [senderRecord, htail, List.append_assoc] using hflush

theorem triple_commit {m i : Bytes} :
    Triple (At intdNames m i) (commit env) (fun _ _ => False)
      (fun code w => code = 0 ∧ At todoNames m i w) := by
  refine triple_bind (triple_no_exit (runs_call env.mode fun w h => by
    simp [World.possible, h.2.1, intdNames])) fun ok => triple_fact fun hok => ?_
  refine triple_bind (Q := fun _ => At todoNames m i)
    (triple_when (fun hno => by simp [hok] at hno) fun _ _ h => ?_) fun _ => ?_
  · obtain ⟨v, ⟨ha, he, hm, hi⟩, rfl⟩ := h
    refine ⟨ha, ?_, by simp [World.apply, hm], by simp [World.apply, hi]⟩
    funext n
    by_cases hn : n = .todo <;> simp [World.apply, he, intdNames, todoNames, hn]
  refine triple_bind (triple_no_exit (runs_attempt env.mode)) fun _ => triple_fact fun _ => ?_
  exact triple_exit fun _ h => ⟨rfl, h⟩

/-- **A plain run of `main` queues the message it reads.** -/
theorem main_plain {s : Bytes} {rs : List Bytes} (hs : 0 ∉ s) (hlen : s.length < ADDR)
    (hrs : ∀ r ∈ rs, 0 ∉ r ∧ r.length < ADDR) :
    ∃ w, main (env.plain chunks (senderRecord s ++ rs.flatMap recordOf ++ [0])) {} =
        (.error 0, w) ∧ w.exist .todo = true ∧ w.mess = env.trace ++ chunks.flatten ∧
      w.intd = env.intdHead ++ senderRecord s ++ rs.flatMap recordOf ++ env.intdTail := by
  generalize he : env.plain chunks (senderRecord s ++ rs.flatMap recordOf ++ [0]) = e
  have hbody : e.body = .copy chunks := by rw [← he]; rfl
  have hqhpsi : e.qhpsi = none := by rw [← he]; rfl
  have hquarantine : e.quarantine = [] := by rw [← he]; rfl
  have htrace : e.trace = env.trace := by rw [← he]; rfl
  have hhead : e.intdHead = env.intdHead := by rw [← he]; rfl
  let done := At intdNames (env.trace ++ chunks.flatten)
    (env.intdHead ++ senderRecord s ++ rs.flatMap recordOf ++ env.intdTail)
  have hinspect : Runs (At messNames (env.trace ++ chunks.flatten) []) (inspect e [])
      (fun v w => At messNames (env.trace ++ chunks.flatten) [] w ∧ v = {}) := by
    refine triple_ite (fun _ => triple_pure fun _ h => ⟨h, rfl⟩) fun _ => ?_
    simp only [scan, hqhpsi, hquarantine]
    exact triple_pure fun _ h => ⟨h, rfl⟩
  have hprepare : Runs (At (fun _ => false) [] []) (prepare e) fun _ => done := by
    refine triple_bind (runs_setup e) fun _ => triple_bind (runs_makeMess e) fun _ => ?_
    refine triple_bind (runs_writeMess e hbody) fun h => triple_fact fun hh => ?_
    rw [hh, htrace]
    refine triple_bind hinspect fun v => triple_fact fun hv => ?_
    rw [hv]
    refine triple_bind (runs_makeIntd e) fun _ => ?_
    refine triple_bind (Q := fun _ => done) ?_ fun _ => keeps_when fun _ =>
      triple_bind (runs_orDie _ _ _) fun _ => runs_orDie _ _ _
    rw [← he]
    exact runs_writeIntd env chunks hs hlen hrs
  have hcommit : Triple done (commit e) (fun _ _ => False) (fun code w => code = 0 ∧
      At todoNames (env.trace ++ chunks.flatten)
        (env.intdHead ++ senderRecord s ++ rs.flatMap recordOf ++ env.intdTail) w) :=
    triple_commit e
  have hmain := triple_bind (triple_no_exit hprepare) fun _ => hcommit
  have hrun := hmain {} ⟨rfl, rfl, rfl, rfl⟩
  cases hm : (prepare e >>= fun _ => commit e) {} with
  | mk r w =>
      rw [hm] at hrun
      cases r with
      | ok a => exact absurd hrun not_false
      | error code =>
          obtain ⟨rfl, _, hexist, hmess, hintd⟩ := hrun
          exact ⟨w, hm, by rw [hexist]; rfl, hmess, hintd⟩

/-- **An envelope that is not accepted is never queued.** -/
theorem main_refused {env : Env} (h : acceptsEnvelope env.envelope = false)
    (answers : List Answer) :
    ∃ code w, main env { answers := answers } = (.error code, w) ∧ Unlinked env code w := by
  have hrun := triple_prepare env { answers := answers } ⟨rfl, fun op hop => by simp at hop⟩
  cases hp : prepare env { answers := answers } with
  | mk r w =>
      rw [hp] at hrun
      cases r with
      | ok a => exact absurd hrun.2 (by simp [h])
      | error code => exact ⟨code, w, run_bind_exit hp, hrun⟩

end Plain

end IndimailMta.Queue
