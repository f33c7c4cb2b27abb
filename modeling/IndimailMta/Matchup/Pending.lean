import IndimailMta.Matchup.Table

/-!
# What pending writes

The lines that `pending` writes are words with one blank between them, and are read as they were
meant: an `info` and an `extra` line give the message again, a `starting` line the delivery, but for
the number of its queue, which is not written.
-/

namespace IndimailMta.Matchup

open IndimailMta Keyed StringPool Transducer

variable {nm : Ulongs} {line w s t rest : Bytes} {ws : List Bytes} {i j n : Nat}

/-! ## Words -/

/-- A text that is a field of a line. -/
def Word (w : Bytes) : Prop := w ≠ [] ∧ ∀ b ∈ w, b ≠ 0 ∧ b ≠ 9 ∧ b ≠ 10 ∧ b ≠ 32

instance (w : Bytes) : Decidable (Word w) :=
  have := List.decidableBAll (fun b : Byte => b ≠ 0 ∧ b ≠ 9 ∧ b ≠ 10 ∧ b ≠ 32) w
  inferInstanceAs (Decidable (_ ∧ _))

theorem Word.nul (h : Word w) : (0 : Byte) ∉ w := fun h0 => (h.2 0 h0).1 rfl

theorem Word.append (h : Word w) (ht : ∀ b ∈ t, b ≠ 0 ∧ b ≠ 9 ∧ b ≠ 10 ∧ b ≠ 32) : Word (w ++ t) := by
  refine ⟨fun hw => h.1 (List.append_eq_nil_iff.mp hw).1, fun b hb => ?_⟩
  rcases List.mem_append.mp hb with hb | hb
  · exact h.2 b hb
  · exact ht b hb

theorem blank_of_isDigit {b : Byte} (h : isDigit b = true) : b ≠ 0 ∧ b ≠ 9 ∧ b ≠ 10 ∧ b ≠ 32 := by
  refine ⟨?_, ?_, ?_, ?_⟩ <;> rintro rfl <;> exact absurd h (by decide)

theorem word_fmt (nm : Ulongs) (n : Nat) : Word (nm.fmtUlong n) :=
  ⟨nm.fmt_ne_nil n, fun b hb => blank_of_isDigit (nm.fmt_isDigit n b hb)⟩

theorem blanked_append (s t : Bytes) : blanked (s ++ t) = blanked s ++ blanked t := List.map_append

theorem blanked_blank (s : Bytes) : blanked (32 :: s) = 0 :: blanked s := rfl

theorem Word.blanked_eq (h : Word w) : blanked w = w := by
  calc w.map (fun ch => if ch = 10 ∨ ch = 32 ∨ ch = 9 then 0 else ch)
    _ = w.map id := List.map_congr_left fun b hb => by
        obtain ⟨-, h9, h10, h32⟩ := h.2 b hb
        exact if_neg fun hblank => by
          rcases hblank with rfl | rfl | rfl
          · exact h10 rfl
          · exact h32 rfl
          · exact h9 rfl
    _ = w := List.map_id w

/-- A NUL in front of a field is skipped. -/
theorem fields_nul (n : Nat) (rest : Bytes) : fields n (0 :: rest) = fields n rest := by
  cases n with
  | zero => rfl
  | succ n => rfl

/-- The first field is cut off. -/
theorem fields_word (h : Word w) (n : Nat) (rest : Bytes) :
    fields (n + 1) (w ++ 0 :: rest) = w :: fields n rest := by
  obtain ⟨c, cs, rfl⟩ := List.exists_cons_of_ne_nil h.1
  have hc : c ≠ 0 := (h.2 c List.mem_cons_self).1
  have hall : ∀ b ∈ c :: cs, decide (b ≠ 0) = true := fun b hb => decide_eq_true (h.2 b hb).1
  have hskip : (c :: cs ++ 0 :: rest).dropWhile (· = 0) = c :: cs ++ 0 :: rest := by
    rw [List.cons_append, List.dropWhile_cons_of_neg (by simpa using hc)]
  have htake : (c :: cs ++ 0 :: rest).takeWhile (· ≠ 0) = c :: cs := cstr_append rest h.nul
  have hdrop : (c :: cs ++ 0 :: rest).dropWhile (· ≠ 0) = 0 :: rest := by
    rw [List.dropWhile_append_of_pos hall, List.dropWhile_cons_of_neg (by simp)]
  rw [fields, hskip, htake, hdrop, fields_nul]

theorem fields_nil (n : Nat) : fields n [] = List.replicate n [] := by
  induction n with
  | zero => rfl
  | succ n ih => rw [fields, List.replicate_succ, ← ih]; rfl

/-- The fields of words. -/
theorem fields_nuls : ∀ {n : Nat} {ws : List Bytes}, (∀ w ∈ ws, Word w) → ws.length ≤ n →
    fields n (nuls ws) = ws ++ List.replicate (n - ws.length) []
  | n, [], _, _ => fields_nil n
  | 0, _ :: _, _, hn => absurd hn (Nat.not_succ_le_zero _)
  | n + 1, w :: ws, h, hn => by
      rw [nuls_cons, fields_word (h w List.mem_cons_self),
        fields_nuls (fun x hx => h x (List.mem_cons_of_mem w hx)) (Nat.le_of_succ_le_succ hn),
        List.length_cons, Nat.add_sub_add_right, List.cons_append]

theorem field_of_words (h : ∀ w ∈ ws, Word w) (hn : ws.length ≤ 20) (hline : blanked line = nuls ws)
    (i : Nat) : field line i = ws.getD i [] := by
  rw [field, hline, fields_nuls h hn, List.getD_eq_getElem?_getD, List.getD_eq_getElem?_getD]
  rcases Nat.lt_or_ge i ws.length with hi | hi
  · rw [List.getElem?_append_left hi]
  · rw [List.getElem?_append_right hi, List.getElem?_eq_none hi, List.getElem?_replicate]
    split <;> rfl

/-! ## The lines -/

def infoLine (nm : Ulongs) (m : Msg Bytes) : Bytes :=
  m.birth ++ asc " info msg " ++ nm.fmtUlong m.msg ++ asc ": bytes " ++ nm.fmtUlong m.bytes ++
    asc " from " ++ m.sender ++ asc " qp " ++ nm.fmtUlong m.qp ++ asc " uid " ++ nm.fmtUlong m.uid

def extraLine (nm : Ulongs) (m : Msg Bytes) : Bytes :=
  m.birth ++ asc " extra " ++ nm.fmtUlong m.msg ++ [32] ++ nm.fmtUlong m.numk ++ [32] ++
    nm.fmtUlong m.numz ++ [32] ++ nm.fmtUlong m.numd

def startLine (nm : Ulongs) (d : Del Bytes) : Bytes :=
  d.dstart ++ asc " starting delivery " ++ nm.fmtUlong d.del ++ asc ": msg " ++ nm.fmtUlong d.dmsg ++
    asc " to " ++ d.dchan ++ [32] ++ d.drecip

/-- The lines of a table. -/
def pendingLines (nm : Ulongs) (t : Table) : List Bytes :=
  (t.msgs.flatMap fun m => [infoLine nm m, extraLine nm m]) ++ t.dels.map (startLine nm)

theorem pendingMsg_eq (nm : Ulongs) (m : Msg Bytes) :
    pendingMsg nm m = infoLine nm m ++ [10] ++ (extraLine nm m ++ [10]) := by
  unfold pendingMsg infoLine extraLine
  simp only [List.append_assoc]

theorem pendingDel_eq (nm : Ulongs) (d : Del Bytes) : pendingDel nm d = startLine nm d ++ [10] := by
  rw [pendingDel, startLine]

theorem pending_eq (nm : Ulongs) (s : State) (line : Bytes) :
    pending nm s line = (pendingLines nm s.read).flatMap (fun x => x ++ [10]) ++ line := by
  rw [pending, pendingLines, State.read]
  simp only [pendingMsg_eq, pendingDel_eq, List.flatMap_append, List.flatMap_assoc, List.flatMap_map,
    List.flatMap_cons, List.flatMap_nil, List.append_nil]

/-- The numbers of a message are those of an `unsigned long`, and its texts are words as `info` stores
them. -/
structure Msg.Fit (m : Msg Bytes) : Prop where
  numbers : ∀ n ∈ [m.msg, m.bytes, m.qp, m.uid, m.numk, m.numd, m.numz], n < 2 ^ 64
  birth : Word m.birth
  plain : m.birth.head? ≠ some 64
  sender : Word m.sender
  lower : caseLower m.sender = m.sender

/-- The same for a delivery. -/
structure Del.Fit (d : Del Bytes) : Prop where
  numbers : ∀ n ∈ [d.del, d.dmsg], n < 2 ^ 64
  queue : queue d.qid = d.qid ∧ d.qid < 2 ^ 64
  dstart : Word d.dstart
  plain : d.dstart.head? ≠ some 64
  dchan : Word d.dchan
  drecip : Word d.drecip
  lower : caseLower d.drecip = d.drecip

def infoWords (nm : Ulongs) (m : Msg Bytes) : List Bytes :=
  [m.birth, asc "info", asc "msg", nm.fmtUlong m.msg ++ [58], asc "bytes", nm.fmtUlong m.bytes,
    asc "from", m.sender, asc "qp", nm.fmtUlong m.qp, asc "uid", nm.fmtUlong m.uid]

def extraWords (nm : Ulongs) (m : Msg Bytes) : List Bytes :=
  [m.birth, asc "extra", nm.fmtUlong m.msg, nm.fmtUlong m.numk, nm.fmtUlong m.numz, nm.fmtUlong m.numd]

def startWords (nm : Ulongs) (d : Del Bytes) : List Bytes :=
  [d.dstart, asc "starting", asc "delivery", nm.fmtUlong d.del ++ [58], asc "msg", nm.fmtUlong d.dmsg,
    asc "to", d.dchan, d.drecip]

theorem word_fmt_colon (nm : Ulongs) (n : Nat) : Word (nm.fmtUlong n ++ [58]) :=
  (word_fmt nm n).append fun b hb => by
    obtain rfl := List.mem_singleton.mp hb
    decide

theorem info_field {m : Msg Bytes} (h : m.Fit) (i : Nat) :
    field (infoLine nm m ++ [10]) i = (infoWords nm m).getD i [] := by
  refine field_of_words ?_ (Nat.le_of_ble_eq_true rfl) ?_ i
  · simp only [infoWords, List.forall_mem_cons]
    exact ⟨h.birth, by decide, by decide, word_fmt_colon nm _, by decide, word_fmt nm _, by decide,
      h.sender, by decide, word_fmt nm _, by decide, word_fmt nm _, fun _ hx => absurd hx List.not_mem_nil⟩
  · have hinfo : blanked (asc " info msg ") = 0 :: asc "info" ++ 0 :: asc "msg" ++ [0] := by decide
    have hbytes : blanked (asc ": bytes ") = 58 :: 0 :: asc "bytes" ++ [0] := by decide
    have hfrom : blanked (asc " from ") = 0 :: asc "from" ++ [0] := by decide
    have hqp : blanked (asc " qp ") = 0 :: asc "qp" ++ [0] := by decide
    have huid : blanked (asc " uid ") = 0 :: asc "uid" ++ [0] := by decide
    have hend : blanked [10] = [0] := by decide
    simp only [infoLine, infoWords, blanked_append, h.birth.blanked_eq, h.sender.blanked_eq,
      (word_fmt nm _).blanked_eq, hinfo, hbytes, hfrom, hqp, huid, hend, nuls_cons, nuls_nil,
      List.append_assoc, List.cons_append, List.nil_append]

theorem extra_field {m : Msg Bytes} (h : m.Fit) (i : Nat) :
    field (extraLine nm m ++ [10]) i = (extraWords nm m).getD i [] := by
  refine field_of_words ?_ (Nat.le_of_ble_eq_true rfl) ?_ i
  · simp only [extraWords, List.forall_mem_cons]
    exact ⟨h.birth, by decide, word_fmt nm _, word_fmt nm _, word_fmt nm _, word_fmt nm _,
      fun _ hx => absurd hx List.not_mem_nil⟩
  · have hextra : blanked (asc " extra ") = 0 :: asc "extra" ++ [0] := by decide
    have hend : blanked [10] = [0] := by decide
    simp only [extraLine, extraWords, blanked_append, h.birth.blanked_eq,
      (word_fmt nm _).blanked_eq, hextra, blanked_blank, hend, nuls_cons, nuls_nil,
      List.append_assoc, List.cons_append, List.nil_append]

theorem start_field {d : Del Bytes} (h : d.Fit) (i : Nat) :
    field (startLine nm d ++ [10]) i = (startWords nm d).getD i [] := by
  refine field_of_words ?_ (Nat.le_of_ble_eq_true rfl) ?_ i
  · simp only [startWords, List.forall_mem_cons]
    exact ⟨h.dstart, by decide, by decide, word_fmt_colon nm _, by decide, word_fmt nm _, by decide,
      h.dchan, h.drecip, fun _ hx => absurd hx List.not_mem_nil⟩
  · have hstart : blanked (asc " starting delivery ") =
        0 :: asc "starting" ++ 0 :: asc "delivery" ++ [0] := by decide
    have hmsg : blanked (asc ": msg ") = 58 :: 0 :: asc "msg" ++ [0] := by decide
    have hto : blanked (asc " to ") = 0 :: asc "to" ++ [0] := by decide
    have hend : blanked [10] = [0] := by decide
    simp only [startLine, startWords, blanked_append, h.dstart.blanked_eq, h.dchan.blanked_eq,
      h.drecip.blanked_eq, (word_fmt nm _).blanked_eq, hstart, hmsg, hto, blanked_blank, hend, nuls_cons,
      nuls_nil, List.append_assoc, List.cons_append, List.nil_append]

/-! ## Reading them -/

/-- A number is no word with another byte in it. -/
theorem fmt_ne (nm : Ulongs) (n : Nat) {x : Bytes} (hx : x.all isDigit = false) : nm.fmtUlong n ≠ x := by
  rintro rfl
  rw [List.all_eq_true.mpr (nm.fmt_isDigit n)] at hx
  exact absurd hx (by decide)

theorem not_prefix_fmt (nm : Ulongs) (n : Nat) {x : Bytes} (hx : x.all isDigit = false) :
    x.isPrefixOf (nm.fmtUlong n) = false := by
  cases h : x.isPrefixOf (nm.fmtUlong n) with
  | false => rfl
  | true =>
      obtain ⟨rest, hrest⟩ := List.isPrefixOf_iff_prefix.mp h
      have hall : x.all isDigit = true := List.all_eq_true.mpr fun b hb =>
        nm.fmt_isDigit n b (hrest ▸ List.mem_append_left rest hb)
      rw [hall] at hx
      exact absurd hx (by decide)

theorem scan_fmt_append (nm : Ulongs) {n : Nat} (hn : n < 2 ^ 64) {rest : Bytes}
    (hr : ∀ b ∈ rest.head?, isDigit b = false) :
    nm.scanUlong (nm.fmtUlong n ++ rest) = ((nm.fmtUlong n).length, n) := nm.scan_fmt n rest hn hr

theorem scan_fmt (nm : Ulongs) {n : Nat} (hn : n < 2 ^ 64) : scan nm (nm.fmtUlong n) = n := by
  have h := scan_fmt_append nm hn (fun b (hb : b ∈ ([] : Bytes).head?) => nomatch hb)
  rw [List.append_nil] at h
  rw [scan, h]

theorem scan_fmt_colon (nm : Ulongs) {n : Nat} (hn : n < 2 ^ 64) :
    nm.scanUlong (nm.fmtUlong n ++ [58]) = ((nm.fmtUlong n).length, n) :=
  scan_fmt_append nm hn fun b hb => by
    obtain rfl := Option.some.inj hb
    decide

theorem call_info {m : Msg Bytes} (h : m.Fit) : call (infoLine nm m ++ [10]) = .info := by
  have hf := @info_field nm m h
  have h1 : field (infoLine nm m ++ [10]) 1 = asc "info" := hf 1
  have h2 : field (infoLine nm m ++ [10]) 2 = asc "msg" := hf 2
  have h4 : field (infoLine nm m ++ [10]) 4 = asc "bytes" := hf 4
  have h5 : field (infoLine nm m ++ [10]) 5 = nm.fmtUlong m.bytes := hf 5
  have hgot : nm.fmtUlong m.bytes ≠ asc "got" := fmt_ne nm _ (by decide)
  have hhas : nm.fmtUlong m.bytes ≠ asc "has" := fmt_ne nm _ (by decide)
  rw [call, h1, h2, h4, h5]
  simp +decide [hgot, hhas]

theorem call_extra {m : Msg Bytes} (h : m.Fit) : call (extraLine nm m ++ [10]) = .extra := by
  have hf := @extra_field nm m h
  have h1 : field (extraLine nm m ++ [10]) 1 = asc "extra" := hf 1
  have h2 : field (extraLine nm m ++ [10]) 2 = nm.fmtUlong m.msg := hf 2
  have h4 : field (extraLine nm m ++ [10]) 4 = nm.fmtUlong m.numz := hf 4
  have h5 : field (extraLine nm m ++ [10]) 5 = nm.fmtUlong m.numd := hf 5
  have hprogram : ∀ x ∈ [asc "qscheduler:", asc "todo-proc:", asc "slowq-send:", asc "qmta-send:"],
      nm.fmtUlong m.msg ≠ x := fun x hx => fmt_ne nm _ (by revert x; decide)
  have hrate := not_prefix_fmt nm m.numz (x := asc "ratelimit=") (by decide)
  have hconf : nm.fmtUlong m.numz ≠ asc "conf" := fmt_ne nm _ (by decide)
  have hgot : nm.fmtUlong m.numd ≠ asc "got" := fmt_ne nm _ (by decide)
  have hhas : nm.fmtUlong m.numd ≠ asc "has" := fmt_ne nm _ (by decide)
  simp only [List.forall_mem_cons] at hprogram
  obtain ⟨hq, ht, hs, hm, -⟩ := hprogram
  rw [call, h1, h2, h4, h5]
  simp +decide [hrate, hconf, hgot, hhas, hq, ht, hs, hm]

theorem call_start {d : Del Bytes} (h : d.Fit) : call (startLine nm d ++ [10]) = .starting := by
  have h1 : field (startLine nm d ++ [10]) 1 = asc "starting" := start_field h 1
  rw [call, h1]
  simp +decide

theorem queue_zero : queue 0 = 0 := by decide

theorem tai64nunix_of_plain {s : Bytes} (h : s.head? ≠ some 64) : tai64nunix nm s = s := by
  rw [tai64nunix, if_pos h]

variable {t : Table}

/-- An `info` line is the message again, with nothing counted. -/
theorem step_info {m : Msg Bytes} (h : m.Fit) (t : Table) :
    t.step nm (infoLine nm m ++ [10]) =
      ({ t with msgs := put Msg.msg { m with numk := 0, numd := 0, numz := 0 } t.msgs }, []) := by
  have hn := h.numbers
  simp only [List.forall_mem_cons] at hn
  have hf := @info_field nm m h
  have h0 : field (infoLine nm m ++ [10]) 0 = m.birth := hf 0
  have h3 : field (infoLine nm m ++ [10]) 3 = nm.fmtUlong m.msg ++ [58] := hf 3
  have h5 : field (infoLine nm m ++ [10]) 5 = nm.fmtUlong m.bytes := hf 5
  have h7 : field (infoLine nm m ++ [10]) 7 = m.sender := hf 7
  have h9 : field (infoLine nm m ++ [10]) 9 = nm.fmtUlong m.qp := hf 9
  have h11 : field (infoLine nm m ++ [10]) 11 = nm.fmtUlong m.uid := hf 11
  have hm : scan nm (nm.fmtUlong m.msg ++ [58]) = m.msg := by rw [scan, scan_fmt_colon nm hn.1]
  rw [Table.step, call_info h]
  dsimp only
  rw [infoMsg, h0, h3, h5, h7, h9, h11, hm, scan_fmt nm hn.2.1, scan_fmt nm hn.2.2.1,
    scan_fmt nm hn.2.2.2.1, h.lower, tai64nunix_of_plain h.plain]

/-- An `extra` line gives the message its counts. -/
theorem step_extra {m : Msg Bytes} (h : m.Fit) (t : Table) :
    t.step nm (extraLine nm m ++ [10]) =
      ({ t with
          msgs := update Msg.msg m.msg
            (fun x => { x with numk := m.numk, numz := m.numz, numd := m.numd }) t.msgs }, []) := by
  have hn := h.numbers
  simp only [List.forall_mem_cons] at hn
  have hf := @extra_field nm m h
  have h2 : field (extraLine nm m ++ [10]) 2 = nm.fmtUlong m.msg := hf 2
  have h3 : field (extraLine nm m ++ [10]) 3 = nm.fmtUlong m.numk := hf 3
  have h4 : field (extraLine nm m ++ [10]) 4 = nm.fmtUlong m.numz := hf 4
  have h5 : field (extraLine nm m ++ [10]) 5 = nm.fmtUlong m.numd := hf 5
  have hextra : Msg.extra nm (extraLine nm m ++ [10]) = fun x : Msg Bytes =>
      { x with numk := m.numk, numz := m.numz, numd := m.numd } := by
    funext x
    rw [Msg.extra, h3, h4, h5, scan_fmt nm hn.2.2.2.2.1, scan_fmt nm hn.2.2.2.2.2.1,
      scan_fmt nm hn.2.2.2.2.2.2.1]
  rw [Table.step, call_extra h]
  dsimp only
  rw [hextra, h2, scan_fmt nm hn.1]

/-- A `starting` line is the delivery again, with no queue. -/
theorem step_start {d : Del Bytes} (h : d.Fit) (t : Table) :
    t.step nm (startLine nm d ++ [10]) =
      ({ t with dels := put Del.key { d with qid := 0 } t.dels }, []) := by
  have hn := h.numbers
  simp only [List.forall_mem_cons] at hn
  have hf := @start_field nm d h
  have h0 : field (startLine nm d ++ [10]) 0 = d.dstart := hf 0
  have h3 : field (startLine nm d ++ [10]) 3 = nm.fmtUlong d.del ++ [58] := hf 3
  have h5 : field (startLine nm d ++ [10]) 5 = nm.fmtUlong d.dmsg := hf 5
  have h7 : field (startLine nm d ++ [10]) 7 = d.dchan := hf 7
  have h8 : field (startLine nm d ++ [10]) 8 = d.drecip := hf 8
  have hkey : delNumber nm (nm.fmtUlong d.del ++ [58]) = (d.del, 0) := by
    have hscan := scan_fmt_colon nm hn.1
    have hcolon : (nm.fmtUlong d.del ++ [58]).drop (nm.fmtUlong d.del).length = [58] := List.drop_left
    rw [delNumber, scan, hscan]
    dsimp only
    rw [hcolon, if_neg (by decide : ([58] : Bytes).head? ≠ some 46), queue_zero]
  rw [Table.step, call_start h]
  dsimp only
  rw [startDel, h0, h3, h5, h7, h8, hkey, scan_fmt nm hn.2.1, h.lower, tai64nunix_of_plain h.plain]

end IndimailMta.Matchup
