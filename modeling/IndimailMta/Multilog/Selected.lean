import Mathlib.Data.List.Induction
import IndimailMta.Lib.Lines
import IndimailMta.Multilog.Files

/-!
# The lines that are selected

Each log directory is given the lines that the actions in front of it select, with their time stamps,
and a newline behind each; a line that is longer than the buffer is judged by what is in it.
-/

namespace IndimailMta.Multilog

open IndimailMta

variable (env : Env)

/-! ## What is to be written -/

/-- The lines of the input; the last one may be without its newline. -/
def inputLines (input : Bytes) : List Bytes :=
  Lines.fields 10 input ++ if Lines.rest 10 input = [] then [] else [Lines.rest 10 input]

/-- The prefix of a line. -/
def stampOf (flagtimestamp : Bool) (i : Nat) : Bytes :=
  if flagtimestamp then env.timestamp i ++ [32] else []

def verdict (line : Bytes) (flagselected : Bool) (action : Bytes) : Bool :=
  if action.head? = some 43 then flagselected || match_ action.tail line
  else if action.head? = some 45 then flagselected && !match_ action.tail line
  else flagselected

/-- What the actions in front of a directory say of a line. -/
def selected (actions : List Bytes) (line : Bytes) : Bool := actions.foldl (verdict line) true

/-- What is written of the lines, from one of them on. -/
def logText (actions : List Bytes) (flagtimestamp : Bool) : Nat → List Bytes → Bytes
  | _, [] => []
  | i, l :: ls =>
      let line := stampOf env flagtimestamp i ++ l
      (if selected actions (line.take 1000) then line ++ [10] else []) ++
        logText actions flagtimestamp (i + 1) ls

/-- The size that the actions in front of a directory give it. -/
def sizeAt (actions : List Bytes) : Nat :=
  actions.foldl (fun size action => if action.head? = some 115 then scanSize env action else size)
    (2 ^ 64 - 1)

variable {env} {quiet : Prop} {script actions post : List Bytes} {dir line l t : Bytes} {sel ts : Bool}
  {j size : Nat} {s : State} {es : List Event}

theorem inputLines_newline (h : (10 : Byte) ∉ l) : inputLines (l ++ 10 :: t) = l :: inputLines t := by
  rw [inputLines, Lines.fields_append h, Lines.rest_append h, List.cons_append, inputLines]

theorem inputLines_last (h : (10 : Byte) ∉ l) (hne : l ≠ []) : inputLines l = [l] := by
  rw [inputLines, Lines.fields_eq_nil h, Lines.rest_of_notMem h, if_neg hne, List.nil_append]

theorem inputLines_nil : inputLines [] = [] := rfl

/-! ## The script -/

theorem not_isDir {action : Bytes} {c : Byte} (h : action.head? = some c) (h46 : c ≠ 46) (h47 : c ≠ 47) :
    isDir action = false := by
  rw [isDir, h]
  simp [h46, h47]

theorem not_dir_head {action : Bytes} {c : Byte} (h : isDir action = true) (h46 : c ≠ 46) (h47 : c ≠ 47) :
    action.head? ≠ some c := fun hc => by
  rw [not_isDir hc h46 h47] at h
  exact Bool.noConfusion h

/-- The directories in front. -/
def place (actions : List Bytes) : Nat := (actions.filter isDir).length

theorem selectLoop_cons (line action : Bytes) (script : List Bytes) (flagselected : Bool)
    (ds : List Cyclog) :
    selectLoop line (action :: script) flagselected ds =
      if isDir action then
        match ds with
        | [] => []
        | d :: ds => { d with flagselected := flagselected } :: selectLoop line script flagselected ds
      else selectLoop line script (verdict line flagselected action) ds := by
  by_cases hplus : action.head? = some 43
  · rw [not_isDir hplus (by decide) (by decide), verdict, if_pos hplus]
    exact if_pos hplus
  · by_cases hminus : action.head? = some 45
    · rw [not_isDir hminus (by decide) (by decide), verdict, if_neg hplus, if_pos hminus]
      exact (if_neg hplus).trans (if_pos hminus)
    · rw [verdict, if_neg hplus, if_neg hminus]
      exact (if_neg hplus).trans (if_neg hminus)

theorem verdict_dir (hdir : isDir dir = true) (line : Bytes) (flagselected : Bool) :
    verdict line flagselected dir = flagselected := by
  rw [verdict, if_neg (not_dir_head hdir (by decide) (by decide)),
    if_neg (not_dir_head hdir (by decide) (by decide))]

theorem place_dir (hdir : isDir dir = true) (actions : List Bytes) :
    place (dir :: actions) = place actions + 1 := by
  rw [place, List.filter_cons_of_pos hdir, List.length_cons, place]

theorem place_other {action : Bytes} (h : ¬ isDir action = true) (actions : List Bytes) :
    place (action :: actions) = place actions := by
  rw [place, List.filter_cons_of_neg h, place]

/-- A directory is selected by the actions in front of it. -/
theorem selectLoop_place (line : Bytes) (hdir : isDir dir = true) (post : List Bytes) :
    ∀ (actions : List Bytes) (flagselected : Bool) (ds : List Cyclog),
      (selectLoop line (actions ++ dir :: post) flagselected ds)[place actions]? =
        (ds)[place actions]?.map fun d =>
          { d with flagselected := actions.foldl (verdict line) flagselected }
  | [], flagselected, ds => by
      rw [List.nil_append, selectLoop_cons, if_pos hdir]
      cases ds <;> rfl
  | action :: actions, flagselected, ds => by
      have ih := selectLoop_place line hdir post actions
      rw [List.cons_append, selectLoop_cons, List.foldl_cons]
      by_cases hd : isDir action = true
      · rw [if_pos hd, place_dir hd, verdict_dir hd]
        cases ds with
        | nil => rfl
        | cons d ds => exact ih _ ds
      · rw [if_neg hd, place_other hd]
        exact ih _ ds

/-- The directory as it is set up. -/
theorem initLoop_place (hdir : isDir dir = true) (post : List Bytes) :
    ∀ (actions : List Bytes) (size j : Nat), (∀ a ∈ actions, a.head? ≠ some 33) →
      (initLoop env (actions ++ dir :: post) size none j)[place actions]? =
        some { size := actions.foldl (fun size action =>
                if action.head? = some 115 then scanSize env action else size) size
               processor := none
               writes := env.writes (j + place actions) }
  | [], size, j, _ => by
      rw [List.nil_append, initLoop, if_neg (not_dir_head hdir (by decide) (by decide)),
        if_neg (not_dir_head hdir (by decide) (by decide)), if_pos hdir]
      rfl
  | action :: actions, size, j, h => by
      have ih := fun size j => initLoop_place hdir post actions size j fun a ha =>
        h a (List.mem_cons_of_mem action ha)
      rw [List.cons_append, initLoop, List.foldl_cons]
      by_cases hs : action.head? = some 115
      · rw [if_pos hs, if_pos hs, place_other (by rw [not_isDir hs] <;> decide)]
        exact ih _ j
      · rw [if_neg hs, if_neg hs, if_neg (h action List.mem_cons_self)]
        by_cases hd : isDir action = true
        · rw [if_pos hd, place_dir hd, List.getElem?_cons_succ, ih]
          congr 3
          omega
        · rw [if_neg hd, place_other hd]
          exact ih _ j

theorem scanSize_sized (action : Bytes) : scanSize env action = 0 ∨ 4096 ≤ scanSize env action := by
  rw [scanSize]
  split
  · exact .inr (by decide)
  · split <;> omega

theorem sizeAt_sized (actions : List Bytes) : sizeAt env actions = 0 ∨ 4096 ≤ sizeAt env actions := by
  rw [sizeAt]
  induction actions using List.reverseRecOn with
  | nil =>
      rw [List.foldl_nil]
      exact .inr (by decide)
  | append_singleton actions action ih =>
      rw [List.foldl_append, List.foldl_cons, List.foldl_nil]
      split
      · exact scanSize_sized action
      · exact ih

/-! ## A log directory -/

/-- The directory at this place was given the text, and is selected or not. -/
def Log (quiet : Prop) (j size : Nat) (sel : Bool) (text : Bytes) (s : State) : Prop :=
  (quiet → s.flagforcerotate = false) ∧
    ∃ d, s.logs[j]? = some d ∧ Kept quiet [] d ∧ d.size = size ∧ d.flagselected = sel ∧ d.text = text

theorem Log.flushread {alarm : Bool} {text : Bytes} (h : Log quiet j size sel text s)
    (halarm : quiet → alarm = false) : Log quiet j size sel text (flushread env alarm s) := by
  obtain ⟨hforce, d, hd, hkept, hsize, hsel, htext⟩ := h
  obtain ⟨htook, hkept'⟩ := rotate_kept env hforce hkept
  refine ⟨halarm, _, ?_, hkept', htook.size.trans hsize, htook.flagselected.trans hsel, ?_⟩
  · rw [Multilog.flushread, List.getElem?_map, hd]
    rfl
  · rw [htook.text, List.append_nil, htext]

theorem Log.put {text : Bytes} (env : Env) (h : Log quiet j size sel text s) (b : Bytes) :
    Log quiet j size sel (text ++ if sel then b else []) (putSelected env b s) := by
  obtain ⟨hforce, d, hd, hkept, hsize, hsel, htext⟩ := h
  have hlogs : (putSelected env b s).logs[j]? =
      some (if d.flagselected = true then Multilog.put env d b else d) := by
    rw [putSelected, List.getElem?_map, hd]
    rfl
  refine ⟨hforce, _, hlogs, ?_⟩
  cases sel with
  | true =>
      obtain ⟨htook, hkept'⟩ := put_kept env b hkept
      rw [if_pos hsel, if_pos rfl]
      exact ⟨hkept', htook.size.trans hsize, htook.flagselected.trans hsel, by rw [htook.text, htext]⟩
  | false =>
      have hnot : ¬ d.flagselected = true := by
        rw [hsel]
        decide
      rw [if_neg hnot, if_neg (by decide), List.append_nil]
      exact ⟨hkept, hsize, hsel, htext⟩

theorem Log.select {text : Bytes} (h : Log quiet (place actions) size sel text s)
    (hdir : isDir dir = true) (line : Bytes) (post : List Bytes) :
    Log quiet (place actions) size (selected actions line) text
      { s with logs := selectLoop line (actions ++ dir :: post) true s.logs } := by
  obtain ⟨hforce, d, hd, hkept, hsize, -, htext⟩ := h
  refine ⟨hforce, { d with flagselected := selected actions line }, ?_, ?_, hsize, rfl, htext⟩
  · dsimp only
    rw [selectLoop_place line hdir post actions true s.logs, hd]
    rfl
  · exact ⟨⟨hkept.plain, hkept.sized, hkept.fits, hkept.ended⟩, hkept.near⟩

/-! ## The input -/

/-- The bytes that are there to be read. -/
def bytesOf : List Event → Bytes
  | [] => []
  | .read _ :: es => bytesOf es
  | .byte ch :: es => ch :: bytesOf es

/-- There is no SIGALRM. -/
def Quiet (quiet : Prop) (es : List Event) : Prop := quiet → ∀ alarm, .read alarm ∈ es → alarm = false

theorem Quiet.tail {e : Event} (h : Quiet quiet (e :: es)) : Quiet quiet es := fun hq alarm hmem =>
  h hq alarm (List.mem_cons_of_mem e hmem)

theorem Quiet.head {alarm : Bool} (h : Quiet quiet (.read alarm :: es)) : quiet → alarm = false :=
  fun hq => h hq alarm List.mem_cons_self

/-- How a line was cut off: `l` was read of the input, and `left` is left. -/
def Cut (input l left : Bytes) : Stop → Prop
  | .newline => input = l ++ 10 :: left
  | .full => input = l ++ left
  | .eof => input = l ∧ left = []

/-- A line that was read: `l` came behind `line`. -/
structure LineRead (line input l : Bytes) (r : Bytes × Stop × List Event × State) : Prop where
  text : r.1 = line ++ l
  plain : (10 : Byte) ∉ l
  cut : Cut input l (bytesOf r.2.2.1) r.2.1
  full : r.2.1 = .full ↔ r.1.length = 1000
  short : r.1.length ≤ 1000

theorem Cut.append {input left : Bytes} {stop : Stop} (front : Bytes) (h : Cut input l left stop) :
    Cut (front ++ input) (front ++ l) left stop := by
  cases stop with
  | newline => exact (congrArg (front ++ ·) h).trans (List.append_assoc _ _ _).symm
  | full => exact (congrArg (front ++ ·) h).trans (List.append_assoc _ _ _).symm
  | eof => exact ⟨congrArg (front ++ ·) h.1, h.2⟩

variable (env ts)

/-- The loop over a line that has begun. -/
theorem readLine_begun {text : Bytes} : ∀ (es : List Event) {s : State} (line : Bytes),
    (line ≠ [] ∨ ts = false) → line.length ≤ 1000 → Log quiet j size sel text s → Quiet quiet es →
    ∃ l, LineRead line (bytesOf es) l (readLine env ts es s line) ∧
      Log quiet j size sel text (readLine env ts es s line).2.2.2 ∧
      Quiet quiet (readLine env ts es s line).2.2.1 ∧
      (readLine env ts es s line).2.2.2.stamps = s.stamps
  | [], s, line, _, hlen, hlog, hq => by
      rw [readLine]
      refine ⟨[], ⟨(List.append_nil _).symm, List.not_mem_nil, ?_, ?_, hlen⟩, hlog, hq, rfl⟩
      · dsimp only
        split
        · exact ⟨rfl, rfl⟩
        · rfl
      · dsimp only
        split
        · rename_i hlt
          exact ⟨fun h => Stop.noConfusion h, fun h => by omega⟩
        · exact ⟨fun _ => by omega, fun _ => rfl⟩
  | .read alarm :: es, s, line, hline, hlen, hlog, hq => by
      rw [readLine]
      by_cases hlt : line.length < 1000
      · rw [if_pos hlt]
        exact readLine_begun es line hline hlen (hlog.flushread hq.head) hq.tail
      · rw [if_neg hlt]
        exact ⟨[], ⟨(List.append_nil _).symm, List.not_mem_nil, rfl,
          ⟨fun _ => Nat.le_antisymm hlen (Nat.le_of_not_lt hlt), fun _ => rfl⟩, hlen⟩, hlog, hq, rfl⟩
  | .byte ch :: es, s, line, hline, hlen, hlog, hq => by
      rw [readLine]
      by_cases hlt : line.length < 1000
      · have hstamp : ¬ (line = [] ∧ ts = true) := fun h => by
          rcases hline with hne | hts
          · exact hne h.1
          · rw [hts] at h
            exact Bool.noConfusion h.2
        rw [if_pos hlt]
        dsimp only
        rw [if_neg hstamp, if_neg hstamp]
        by_cases hch : ch = 10
        · rw [if_pos hch]
          refine ⟨[], ⟨(List.append_nil _).symm, List.not_mem_nil, congrArg (· :: _) hch,
            ⟨fun h => Stop.noConfusion h, fun h => absurd h (Nat.ne_of_lt hlt)⟩, hlen⟩, hlog, hq.tail, rfl⟩
        · rw [if_neg hch]
          have hlen' : (line ++ [ch]).length ≤ 1000 := by
            rw [List.length_append, List.length_singleton]
            omega
          obtain ⟨l, hread, hlog', hq', hstamps⟩ := readLine_begun es (line ++ [ch])
            (.inl (List.append_ne_nil_of_right_ne_nil line (List.cons_ne_nil ch []))) hlen' hlog hq.tail
          refine ⟨ch :: l, ⟨?_, ?_, hread.cut.append [ch], hread.full, hread.short⟩, hlog', hq', hstamps⟩
          · rw [hread.text, List.append_assoc]
            rfl
          · rw [List.mem_cons, not_or]
            exact ⟨Ne.symm hch, hread.plain⟩
      · rw [if_neg hlt]
        exact ⟨[], ⟨(List.append_nil _).symm, List.not_mem_nil, rfl,
          ⟨fun _ => Nat.le_antisymm hlen (Nat.le_of_not_lt hlt), fun _ => rfl⟩, hlen⟩, hlog, hq, rfl⟩

/-- **A line** is read with its prefix, if there is one. -/
theorem readLine_line {text : Bytes} {i : Nat} : ∀ (es : List Event) {s : State},
    bytesOf es ≠ [] → (ts = true → s.stamps = i) → Log quiet j size sel text s → Quiet quiet es →
    ∃ l, LineRead (stampOf env ts i) (bytesOf es) l (readLine env ts es s []) ∧
      Log quiet j size sel text (readLine env ts es s []).2.2.2 ∧
      Quiet quiet (readLine env ts es s []).2.2.1 ∧
      (ts = true → (readLine env ts es s []).2.2.2.stamps = i + 1)
  | [], s, hne, _, _, _ => absurd rfl hne
  | .read alarm :: es, s, hne, hi, hlog, hq => by
      rw [readLine, if_pos (by decide)]
      exact readLine_line es hne hi (hlog.flushread hq.head) hq.tail
  | .byte ch :: es, s, _, hi, hlog, hq => by
      cases ts with
      | false =>
          obtain ⟨l, hread, hlog', hq', -⟩ := readLine_begun env false (.byte ch :: es) []
            (.inr rfl) (Nat.zero_le _) hlog hq
          exact ⟨l, hread, hlog', hq', fun h => Bool.noConfusion h⟩
      | true =>
          have hstamp : stampOf env true i = env.timestamp i ++ [32] := rfl
          have hstamped : ([] : Bytes) = [] ∧ true = true := ⟨rfl, rfl⟩
          have hlen : (env.timestamp i ++ [32]).length = 26 := by
            rw [List.length_append, env.stamp_length]
            rfl
          rw [readLine, if_pos (by decide)]
          dsimp only
          rw [if_pos hstamped, if_pos hstamped, hi rfl, hstamp]
          by_cases hch : ch = 10
          · rw [if_pos hch]
            refine ⟨[], ⟨(List.append_nil _).symm, List.not_mem_nil, congrArg (· :: _) hch,
              ⟨fun h => Stop.noConfusion h, fun h => ?_⟩, ?_⟩, hlog, hq.tail, fun _ => rfl⟩
            · dsimp only at h
              omega
            · dsimp only
              omega
          · rw [if_neg hch]
            have hlen' : (env.timestamp i ++ [32] ++ [ch]).length ≤ 1000 := by
              rw [List.length_append, hlen, List.length_singleton]
              decide
            obtain ⟨l, hread, hlog', hq', hstamps⟩ := readLine_begun env true es
              (s := { s with stamps := i + 1 }) (env.timestamp i ++ [32] ++ [ch])
              (.inl (List.append_ne_nil_of_right_ne_nil _ (List.cons_ne_nil ch []))) hlen' hlog hq.tail
            refine ⟨ch :: l, ⟨?_, ?_, hread.cut.append [ch], hread.full, hread.short⟩, hlog', hq',
              fun _ => hstamps⟩
            · rw [hread.text, List.append_assoc]
              rfl
            · rw [List.mem_cons, not_or]
              exact ⟨Ne.symm hch, hread.plain⟩

/-- Where there is nothing left, nothing is read. -/
theorem readLine_nil {text : Bytes} : ∀ (es : List Event) {s : State}, bytesOf es = [] →
    Log quiet j size sel text s → Quiet quiet es →
    (readLine env ts es s []).1 = [] ∧ (readLine env ts es s []).2.1 = .eof ∧
      Log quiet j size sel text (readLine env ts es s []).2.2.2
  | [], s, _, hlog, _ => ⟨rfl, rfl, hlog⟩
  | .read alarm :: es, s, hnil, hlog, hq => by
      rw [readLine, if_pos (by decide)]
      exact readLine_nil es hnil (hlog.flushread hq.head) hq.tail
  | .byte ch :: es, s, hnil, _, _ => absurd hnil (List.cons_ne_nil _ _)

/-- What is left of a long line. -/
theorem readRest_log : ∀ (es : List Event) {s : State} {text : Bytes},
    Log quiet j size sel text s → Quiet quiet es →
    ∃ l, (10 : Byte) ∉ l ∧
      Cut (bytesOf es) l (bytesOf (readRest env es s).2.1)
        (if (readRest env es s).1 then .eof else .newline) ∧
      Log quiet j size sel (text ++ if sel then l else []) (readRest env es s).2.2 ∧
      Quiet quiet (readRest env es s).2.1 ∧ (readRest env es s).2.2.stamps = s.stamps
  | [], s, text, hlog, hq => by
      refine ⟨[], List.not_mem_nil, ⟨rfl, rfl⟩, ?_, hq, rfl⟩
      rw [ite_self, List.append_nil]
      exact hlog
  | .read alarm :: es, s, text, hlog, hq => readRest_log es (hlog.flushread hq.head) hq.tail
  | .byte ch :: es, s, text, hlog, hq => by
      rw [readRest]
      by_cases hch : ch = 10
      · rw [if_pos hch]
        refine ⟨[], List.not_mem_nil, congrArg (· :: _) hch, ?_, hq.tail, rfl⟩
        rw [ite_self, List.append_nil]
        exact hlog
      · rw [if_neg hch]
        obtain ⟨l, hl, hcut, hlog', hq', hstamps⟩ := readRest_log es (hlog.put env [ch]) hq.tail
        refine ⟨ch :: l, ?_, hcut.append [ch], ?_, hq', hstamps⟩
        · rw [List.mem_cons, not_or]
          exact ⟨Ne.symm hch, hl⟩
        · rw [List.append_assoc] at hlog'
          cases sel with
          | true => exact hlog'
          | false => exact hlog'

/-! ## All lines -/

/-- What is read behind the buffer: the whole line is `x`, and the buffer has its beginning. -/
theorem readTail_log {text : Bytes} {stamp l input : Bytes} {r : Bytes × Stop × List Event × State}
    (hread : LineRead stamp input l r) (hlog : Log quiet j size sel text s)
    (hq : Quiet quiet r.2.2.1) :
    ∃ x tail, (10 : Byte) ∉ x ∧ stamp ++ x = r.1 ++ tail ∧ r.1 = (stamp ++ x).take 1000 ∧
      ∀ q, q = (if r.2.1 = .full then readRest env r.2.2.1 s else (r.2.1 = .eof, r.2.2.1, s)) →
        Cut input x (bytesOf q.2.1) (if q.1 then .eof else .newline) ∧
        Log quiet j size sel (text ++ if sel then tail else []) q.2.2 ∧ Quiet quiet q.2.1 ∧
        q.2.2.stamps = s.stamps := by
  obtain ⟨line, stop, es, s'⟩ := r
  obtain ⟨hline, hl, hcut, hfull, hshort⟩ := hread
  dsimp only at *
  have hstay : Log quiet j size sel (text ++ if sel then ([] : Bytes) else []) s := by
    rw [ite_self, List.append_nil]
    exact hlog
  have htake : line = (stamp ++ l).take 1000 := by
    rw [← hline, List.take_of_length_le hshort]
  cases stop with
  | newline =>
      refine ⟨l, [], hl, by rw [List.append_nil, hline], htake, fun q hq' => ?_⟩
      subst hq'
      exact ⟨hcut, hstay, hq, rfl⟩
  | eof =>
      refine ⟨l, [], hl, by rw [List.append_nil, hline], htake, fun q hq' => ?_⟩
      subst hq'
      exact ⟨hcut, hstay, hq, rfl⟩
  | full =>
      obtain ⟨rest, hrest, hcut', hlog', hq', hstamps⟩ := readRest_log env es hlog hq
      have hlen : line.length = 1000 := hfull.mp rfl
      refine ⟨l ++ rest, rest, ?_, ?_, ?_, fun q heq => ?_⟩
      · rw [List.mem_append, not_or]
        exact ⟨hl, hrest⟩
      · rw [hline, List.append_assoc]
      · rw [← List.append_assoc, ← hline, List.take_left' hlen]
      · rw [if_pos rfl] at heq
        subst heq
        refine ⟨?_, hlog', hq', hstamps⟩
        have hinput : input = l ++ bytesOf es := hcut
        rw [hinput]
        exact hcut'.append l

/-- **The loop of `doit`** gives the directory the lines that are selected. -/
theorem doitLoop_log (hdir : isDir dir = true) (post : List Bytes) : ∀ {n : Nat} (i : Nat) {sel : Bool}
    {es : List Event} {s : State} {text : Bytes}, (bytesOf es).length < n →
    (ts = true → s.stamps = i) → Log quiet (place actions) size sel text s → Quiet quiet es →
    ∃ sel', Log quiet (place actions) size sel'
      (text ++ logText env actions ts i (inputLines (bytesOf es)))
      (doitLoop env (actions ++ dir :: post) ts n es s)
  | 0, _, _, _, _, _, hn, _, _, _ => absurd hn (Nat.not_lt_zero _)
  | n + 1, i, sel, es, s, text, hn, hi, hlog, hq => by
      rw [doitLoop]
      by_cases hnil : bytesOf es = []
      · obtain ⟨hline, hstop, hlog'⟩ := readLine_nil env ts es hnil hlog hq
        rw [if_pos ⟨hstop, hline⟩, hnil, inputLines_nil, logText, List.append_nil]
        exact ⟨sel, hlog'⟩
      · obtain ⟨l, hread, hlog', hq', hi'⟩ := readLine_line env ts es hnil hi hlog hq
        generalize readLine env ts es s [] = r at hread hlog' hq' hi'
        have hgo : ¬ (r.2.1 = .eof ∧ r.1 = []) := by
          rintro ⟨hstop, hline⟩
          have hcut := hread.cut
          rw [hstop] at hcut
          rw [hread.text] at hline
          exact hnil (hcut.1.trans (List.append_eq_nil_iff.mp hline).2)
        have hput := (hlog'.select hdir r.1 post).put env r.1
        obtain ⟨x, tail, hx, hwhole, htake, hrest⟩ := readTail_log env hread hput hq'
        rw [if_neg hgo]
        dsimp only
        generalize hqdef : (if r.2.1 = Stop.full then readRest env r.2.2.1 _ else
          (decide (r.2.1 = Stop.eof), r.2.2.1, _)) = q
        obtain ⟨hcut, hlog'', hq'', hstamps⟩ := hrest q hqdef.symm
        have hend := hlog''.put env [10]
        -- The line, its tail and its newline are one text.
        have htext : (text ++ if selected actions r.1 then r.1 else []) ++
            (if selected actions r.1 then tail else []) ++
            (if selected actions r.1 then [10] else []) =
            text ++ if selected actions ((stampOf env ts i ++ x).take 1000) then
              stampOf env ts i ++ x ++ [10] else [] := by
          rw [← htake, hwhole]
          cases selected actions r.1 <;> simp
        rw [htext] at hend
        obtain ⟨flageof, es', s'⟩ := q
        cases flageof with
        | true =>
            have hlast : inputLines (bytesOf es) = [x] := by
              rw [hcut.1]
              exact inputLines_last hx fun h => hnil (hcut.1.trans h)
            rw [hlast, logText, logText, List.append_nil]
            exact ⟨_, hend⟩
        | false =>
            have hsplit : bytesOf es = x ++ 10 :: bytesOf es' := hcut
            have hless : (bytesOf es').length < n := by
              rw [hsplit, List.length_append, List.length_cons] at hn
              omega
            have hstamp : ts = true → (putSelected env [10] s').stamps = i + 1 := fun h =>
              hstamps.trans (hi' h)
            rw [hsplit, inputLines_newline hx, logText, ← List.append_assoc]
            exact doitLoop_log hdir post (i + 1) hless hstamp hend hq''

/-! ## The program -/

theorem bytesOf_append : ∀ (es es' : List Event), bytesOf (es ++ es') = bytesOf es ++ bytesOf es'
  | [], _ => rfl
  | .read _ :: es, es' => bytesOf_append es es'
  | .byte ch :: es, es' => congrArg (ch :: ·) (bytesOf_append es es')

theorem bytesOf_bytes (b : Bytes) : bytesOf (b.map .byte) = b := by
  induction b with
  | nil => rfl
  | cons ch b ih => exact congrArg (ch :: ·) ih

theorem bytesOf_events (reads : List Read) : bytesOf (events reads) = reads.flatMap Read.bytes := by
  rw [events, bytesOf_append]
  have hlast : bytesOf [.read false] = [] := rfl
  rw [hlast, List.append_nil]
  induction reads with
  | nil => rfl
  | cons r reads ih =>
      rw [List.flatMap_cons, List.flatMap_cons, bytesOf_append, ih, bytesOf, bytesOf_bytes]

theorem length_bytesOf : ∀ es : List Event, (bytesOf es).length ≤ es.length
  | [] => Nat.le_refl _
  | .read _ :: es => Nat.le_succ_of_le (length_bytesOf es)
  | .byte _ :: es => Nat.succ_le_succ (length_bytesOf es)

theorem quiet_events (reads : List Read) : Quiet (∀ r ∈ reads, r.alarm = false) (events reads) := by
  intro hq alarm hmem
  rcases List.mem_append.mp hmem with hmem | hmem
  · obtain ⟨r, hr, hmem⟩ := List.mem_flatMap.mp hmem
    rcases List.mem_cons.mp hmem with heq | hmem
    · rw [Event.read.inj heq]
      exact hq r hr
    · obtain ⟨ch, -, heq⟩ := List.mem_map.mp hmem
      exact absurd heq (fun h => Event.noConfusion h)
  · exact Event.read.inj (List.mem_singleton.mp hmem)

/-- A directory that was just set up. -/
theorem kept_new (actions : List Bytes) (writes : List Nat) :
    Kept quiet [] { size := sizeAt env actions, processor := none, writes := writes } := by
  refine ⟨⟨rfl, sizeAt_sized actions, fun _ file hfile => ?_, fun _ file hfile => ?_⟩, fun hs => ?_⟩
  · rw [List.mem_singleton.mp hfile]
    exact Nat.zero_le _
  · exact absurd hfile List.not_mem_nil
  · have hbig : 4096 ≤ sizeAt env actions :=
      (sizeAt_sized actions).resolve_left (Nat.pos_iff_ne_zero.mp hs)
    exact .inl ⟨[], [], rfl, List.not_mem_nil, Nat.lt_of_lt_of_le (by decide) hbig⟩

/-- The files of a log directory without a processor are, one after the other, the lines that are
selected. No file is longer than it may be, and where no SIGALRM comes each file that is finished ends
with a line, or within one that is longer than 1000 bytes. -/
theorem multilog_writes (env : Env) (actions : List Bytes) (dir : Bytes) (post : List Bytes)
    (reads : List Read) (hdir : isDir dir = true) (hplain : ∀ a ∈ actions, a.head? ≠ some 33) :
    ∃ d, (main env (actions ++ dir :: post) reads)[place actions]? = some d ∧
      d.size = sizeAt env actions ∧
      d.files.flatten ++ d.current =
        logText env actions (isStamped (actions ++ dir :: post)) 0
          (inputLines (reads.flatMap Read.bytes)) ∧
      (0 < d.size → ∀ file ∈ d.files ++ [d.current], file.length ≤ d.size) ∧
      ((∀ r ∈ reads, r.alarm = false) → ∀ file ∈ d.files, Ended file) := by
  have hstart : Log (∀ r ∈ reads, r.alarm = false) (place actions) (sizeAt env actions) false []
      { logs := c_init env (actions ++ dir :: post) } :=
    ⟨fun _ => rfl, _, initLoop_place hdir post actions _ 0 hplain, kept_new env actions _, rfl, rfl, rfl⟩
  have hless : (bytesOf (events reads)).length < (events reads).length + 1 :=
    Nat.lt_succ_of_le (length_bytesOf _)
  obtain ⟨sel, -, d, hd, hkept, hsize, -, htext⟩ := doitLoop_log env
    (isStamped (actions ++ dir :: post)) hdir post 0 hless (fun _ => rfl) hstart (quiet_events reads)
  obtain ⟨htook, hbuf, hkept'⟩ := flush_kept env hkept
  refine ⟨flush env d, ?_, htook.size.trans hsize, ?_, hkept'.fits, hkept'.ended⟩
  · rw [main, c_quit, List.getElem?_map, doit, hd]
    rfl
  · have hdone := htook.text
    rw [Cyclog.text, hbuf, List.append_nil, List.append_nil, htext, bytesOf_events,
      List.nil_append] at hdone
    exact hdone

/-- A site whose first write takes three bytes. -/
def plainEnv : Env where
  ss := substdio
  nm := ulongs
  processed _ file := file
  timestamp _ := 64 :: List.replicate 24 48
  stamp_length _ := rfl
  stamp_line _ := by decide
  writes _ := [2]

def threeLines : List Read := [⟨asc "a\nbad\n", true⟩, ⟨asc "c", false⟩]

theorem multilog_writes_threeLines :
    ∃ d, (main plainEnv ([asc "t", asc "s4096", asc "-*bad"] ++ asc "./main" :: []) threeLines)[
        place [asc "t", asc "s4096", asc "-*bad"]]? = some d ∧
      d.size = sizeAt plainEnv [asc "t", asc "s4096", asc "-*bad"] ∧
      d.files.flatten ++ d.current =
        logText plainEnv [asc "t", asc "s4096", asc "-*bad"]
          (isStamped ([asc "t", asc "s4096", asc "-*bad"] ++ asc "./main" :: [])) 0
          (inputLines (threeLines.flatMap Read.bytes)) ∧
      (0 < d.size → ∀ file ∈ d.files ++ [d.current], file.length ≤ d.size) ∧
      ((∀ r ∈ threeLines, r.alarm = false) → ∀ file ∈ d.files, Ended file) :=
  multilog_writes plainEnv [asc "t", asc "s4096", asc "-*bad"] (asc "./main") [] threeLines (by decide)
    (by decide)

end IndimailMta.Multilog
