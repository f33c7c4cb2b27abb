import IndimailMta.Send.Comm

/-!
# The spawners' side of the pipes, and what survives the crossing

`qmail-lspawn` and `qmail-rspawn` read commands with `getcmd`, a reader with seven
stages that keeps its fields between reads, and write reports as two bytes of
slot number, a status text and a NUL.

`pipes_intact_iff` puts the two sides together. Texts of any length, NUL bytes in
the slot numbers, chunk boundaries anywhere and reports cut at `REPORTMAX` are all
harmless. The slot number is not: commands and reports arrive as written exactly
when no slot number has its top bit set.
-/

namespace IndimailMta.Spawn

open IndimailMta Send Transducer

/-! ## §1 `getcmd` -/

/-- `stage`: 0 and 1 are the slot number, 2 to 6 the five texts. -/
inductive Stage where
  | low
  | high
  | messid
  | sender
  | qqeh
  | envh
  | recip
  deriving DecidableEq, Repr

/-- The state `getcmd` keeps between two bytes. -/
structure GetCmd where
  stage : Stage := .low
  delnum : Int := 0
  messid : Bytes := []
  sender : Bytes := []
  qqeh : Bytes := []
  envh : Bytes := []
  recip : Bytes := []
  deriving DecidableEq, Repr

/-- One byte of `getcmd`. A text keeps the NUL that ends it; the text of the next
stage is emptied when a stage ends. The NUL of the last text calls `docmd`, with
the command read so far. -/
def getcmdByte (s : GetCmd) (ch : Byte) : GetCmd × List Command :=
  match s.stage with
  | .low => ({ s with delnum := uchar ch, stage := .high }, [])
  | .high => ({ s with delnum := addHigh s.delnum ch, messid := [], stage := .messid }, [])
  | .messid =>
      let s := { s with messid := s.messid ++ [ch] }
      if ch ≠ 0 then (s, []) else ({ s with sender := [], stage := .sender }, [])
  | .sender =>
      let s := { s with sender := s.sender ++ [ch] }
      if ch ≠ 0 then (s, []) else ({ s with qqeh := [], stage := .qqeh }, [])
  | .qqeh =>
      let s := { s with qqeh := s.qqeh ++ [ch] }
      if ch ≠ 0 then (s, []) else ({ s with envh := [], stage := .envh }, [])
  | .envh =>
      let s := { s with envh := s.envh ++ [ch] }
      if ch ≠ 0 then (s, []) else ({ s with recip := [], stage := .recip }, [])
  | .recip =>
      let s := { s with recip := s.recip ++ [ch] }
      if ch ≠ 0 then (s, [])
      else ({ s with stage := .low },
        [⟨s.delnum, s.messid, s.sender, s.qqeh, s.envh, s.recip⟩])

/-- The command `comm_write` encodes: the texts with the NUL that ends them. -/
def commandOf (nm : Numerals) (confSplit : Nat) (d : Delivery) : Command where
  delnum := d.delnum
  messid := fnmakeSplit nm confSplit d.id ++ [0]
  sender := senderadd d.sender d.recip ++ [0]
  qqeh := d.qqeh ++ [0]
  envh := d.envh ++ [0]
  recip := d.recip ++ [0]

/-- The command that is read: the slot number is put together from its two bytes. -/
def commandRead (nm : Numerals) (confSplit : Nat) (d : Delivery) : Command :=
  { commandOf nm confSplit d with
    delnum := addHigh (uchar (charOf d.delnum)) (charOf (d.delnum / 256 : Nat)) }

/-! ### A text is read up to its NUL -/

private theorem ne_nul {f : Bytes} (h : (0 : Byte) ∉ f) : ∀ b ∈ f, b ≠ 0 :=
  fun _ hb he => h (he ▸ hb)

theorem feed_messid (s : GetCmd) {f : Bytes} (h : 0 ∉ f) :
    feed getcmdByte { s with stage := .messid, messid := [] } (f ++ [0]) =
      ({ s with stage := .sender, messid := f ++ [0], sender := [] }, []) := by
  exact feed_terminated (P := (· ≠ 0)) (f := getcmdByte) (t := 0)
    (fun pre => { s with stage := .messid, messid := pre })
    (fun pre a ha => by simp only [getcmdByte, if_pos ha])
    (fun pre => rfl) (ne_nul h)

theorem feed_sender (s : GetCmd) {f : Bytes} (h : 0 ∉ f) :
    feed getcmdByte { s with stage := .sender, sender := [] } (f ++ [0]) =
      ({ s with stage := .qqeh, sender := f ++ [0], qqeh := [] }, []) := by
  exact feed_terminated (P := (· ≠ 0)) (f := getcmdByte) (t := 0)
    (fun pre => { s with stage := .sender, sender := pre })
    (fun pre a ha => by simp only [getcmdByte, if_pos ha])
    (fun pre => rfl) (ne_nul h)

theorem feed_qqeh (s : GetCmd) {f : Bytes} (h : 0 ∉ f) :
    feed getcmdByte { s with stage := .qqeh, qqeh := [] } (f ++ [0]) =
      ({ s with stage := .envh, qqeh := f ++ [0], envh := [] }, []) := by
  exact feed_terminated (P := (· ≠ 0)) (f := getcmdByte) (t := 0)
    (fun pre => { s with stage := .qqeh, qqeh := pre })
    (fun pre a ha => by simp only [getcmdByte, if_pos ha])
    (fun pre => rfl) (ne_nul h)

theorem feed_envh (s : GetCmd) {f : Bytes} (h : 0 ∉ f) :
    feed getcmdByte { s with stage := .envh, envh := [] } (f ++ [0]) =
      ({ s with stage := .recip, envh := f ++ [0], recip := [] }, []) := by
  exact feed_terminated (P := (· ≠ 0)) (f := getcmdByte) (t := 0)
    (fun pre => { s with stage := .envh, envh := pre })
    (fun pre a ha => by simp only [getcmdByte, if_pos ha])
    (fun pre => rfl) (ne_nul h)

theorem feed_recip (s : GetCmd) {f : Bytes} (h : 0 ∉ f) :
    feed getcmdByte { s with stage := .recip, recip := [] } (f ++ [0]) =
      ({ s with stage := .low, recip := f ++ [0] },
        [⟨s.delnum, s.messid, s.sender, s.qqeh, s.envh, f ++ [0]⟩]) := by
  exact feed_terminated (P := (· ≠ 0)) (f := getcmdByte) (t := 0)
    (fun pre => { s with stage := .recip, recip := pre })
    (fun pre a ha => by simp only [getcmdByte, if_pos ha])
    (fun pre => rfl) (ne_nul h)

theorem nul_notMem_fnmakeSplit (nm : Numerals) (confSplit id : Nat) :
    (0 : Byte) ∉ fnmakeSplit nm confSplit id := by
  have hs : (0 : Byte) ∉ asc "/" := by decide
  simp only [fnmakeSplit, List.mem_append]
  rintro ((h | h) | h)
  · exact nm.nul_notMem_fmt _ h
  · exact hs h
  · exact nm.nul_notMem_fmt _ h

theorem nul_notMem_senderadd {sender recip : Bytes} (hs : 0 ∉ sender) (hr : 0 ∉ recip) :
    (0 : Byte) ∉ senderadd sender recip := fun h => by
  rcases mem_senderadd h with h | h | h | h
  · exact hs h
  · exact hr h
  · exact absurd h (by decide)
  · exact absurd h (by decide)

/-- One command read at stage 0: the texts come back as written, and the slot
number as `addHigh` puts it together. -/
theorem feed_commandBytes (nm : Numerals) (confSplit : Nat) {d : Delivery} (hd : d.NulFree)
    (s : GetCmd) (hs : s.stage = .low) :
    (feed getcmdByte s (commandBytes nm confSplit d)).1.stage = .low ∧
    (feed getcmdByte s (commandBytes nm confSplit d)).2 =
      [commandRead nm confSplit d] := by
  obtain ⟨hsender, hqqeh, henvh, hrecip⟩ := hd
  let c := commandRead nm confSplit d
  let s₁ : GetCmd := { s with delnum := c.delnum, messid := [], stage := .messid }
  let s₂ : GetCmd := { s₁ with messid := c.messid, sender := [], stage := .sender }
  let s₃ : GetCmd := { s₂ with sender := c.sender, qqeh := [], stage := .qqeh }
  let s₄ : GetCmd := { s₃ with qqeh := c.qqeh, envh := [], stage := .envh }
  let s₅ : GetCmd := { s₄ with envh := c.envh, recip := [], stage := .recip }
  let s₆ : GetCmd := { s₅ with recip := c.recip, stage := .low }
  have hhead : feed getcmdByte s [charOf d.delnum, charOf (d.delnum / 256 : Nat)] =
      (s₁, []) := by
    simp [feed_cons, getcmdByte, hs, s₁, c, commandRead]
  have hmessid : feed getcmdByte s₁ (fnmakeSplit nm confSplit d.id ++ [0]) = (s₂, []) :=
    feed_messid s₁ (nul_notMem_fnmakeSplit nm confSplit d.id)
  have hsender' : feed getcmdByte s₂ (senderadd d.sender d.recip ++ [0]) = (s₃, []) :=
    feed_sender s₂ (nul_notMem_senderadd hsender hrecip)
  have hqqeh' : feed getcmdByte s₃ (d.qqeh ++ [0]) = (s₄, []) := feed_qqeh s₃ hqqeh
  have henvh' : feed getcmdByte s₄ (d.envh ++ [0]) = (s₅, []) := feed_envh s₄ henvh
  have hrecip' : feed getcmdByte s₅ (d.recip ++ [0]) = (s₆, [c]) := feed_recip s₅ hrecip
  rw [commandBytes, feed_seq (feed_seq (feed_seq (feed_seq (feed_seq hhead hmessid)
    hsender') hqqeh') henvh') hrecip']
  exact ⟨rfl, rfl⟩

/-- The commands read are the deliveries, with the slot numbers `addHigh` makes. -/
theorem feedChunks_commands (nm : Numerals) (confSplit : Nat) {ds : List Delivery}
    (hds : ∀ d ∈ ds, d.NulFree) {cs : List Bytes}
    (hcs : cs.flatten = ds.flatMap (commandBytes nm confSplit)) :
    (feedChunks getcmdByte {} cs).2 = ds.map (commandRead nm confSplit) := by
  rw [feedChunks_eq_feed, hcs]
  exact feed_flatMap_map (R := fun s => s.stage = .low)
    (fun d hd s hs => feed_commandBytes nm confSplit (hds d hd) s hs) rfl

/-! ## §2 Reports -/

/-- A report as the spawner writes it: for which slot, and its status text. -/
structure Report where
  slot : Nat
  text : Bytes
  deriving DecidableEq, Repr

/-- The bytes of a report. -/
def Report.bytes (r : Report) : Bytes :=
  [charOf r.slot, charOf (r.slot / 256 : Nat)] ++ (r.text ++ [0])

/-- What `dline` holds when the report is complete. -/
def Report.dline (r : Report) : Bytes := r.bytes.take REPORTMAX

private theorem take_append_singleton (n : Nat) (pre : Bytes) (a : Byte) :
    (pre.take n ++ [a]).take n = (pre ++ [a]).take n := by
  by_cases h : pre.length < n
  · rw [List.take_of_length_le (Nat.le_of_lt h)]
  · rw [List.take_append_of_le_length (by rw [List.length_take]; omega),
      List.take_append_of_le_length (by omega), List.take_take, Nat.min_self]

/-- One report is read up to its NUL, whatever its length. -/
theorem feed_reportBytes {r : Report} (hr : 0 ∉ r.text) :
    feed reportByte [] r.bytes = ([], [r.dline]) := by
  let slot : Bytes := [charOf r.slot, charOf (r.slot / 256 : Nat)]
  have hslot : feed reportByte [] slot = ((slot ++ []).take REPORTMAX, []) := by
    simp [slot, feed_cons, reportByte, lineByte, REPORTMAX]
  have htext : feed reportByte ((slot ++ []).take REPORTMAX) (r.text ++ [0]) =
      ([], [(slot ++ (r.text ++ [0])).take REPORTMAX]) := by
    refine feed_terminated (P := (· ≠ 0)) (f := reportByte) (t := 0)
      (fun pre => (slot ++ pre).take REPORTMAX)
      (e := fun pre => ([], [(slot ++ (pre ++ [0])).take REPORTMAX]))
      (fun pre a ha => ?_) (fun pre => ?_) (ne_nul hr)
    · simp only [reportByte, lineByte, take_append_singleton, ha, false_and, if_false,
        List.append_assoc]
    · have hlen : 2 < ((slot ++ (pre ++ [0])).take REPORTMAX).length := by
        simp only [List.length_take, List.length_append, List.length_cons, List.length_nil,
          slot, REPORTMAX]
        omega
      simp only [reportByte, lineByte, take_append_singleton, List.append_assoc, true_and, if_pos hlen]
  exact feed_seq hslot htext

theorem reportDelnum_dline (r : Report) :
    reportDelnum r.dline = addHigh (uchar (charOf r.slot)) (charOf (r.slot / 256 : Nat)) := rfl

theorem feedChunks_reports {rs : List Report} (hrs : ∀ r ∈ rs, 0 ∉ r.text) {ps : List Bytes}
    (hps : ps.flatten = rs.flatMap Report.bytes) :
    (feedChunks reportByte [] ps).2 = rs.map Report.dline := by
  rw [feedChunks_eq_feed, hps]
  refine feed_flatMap_map (R := fun s => s = []) (fun r hr s hs => ?_) rfl
  rw [hs, feed_reportBytes (hrs r hr)]
  exact ⟨rfl, rfl⟩

/-! ## §3 What survives the pipes -/

/-- `getcmd`, reading the chunks `cs`, calls `docmd` with exactly the commands that
were encoded. -/
def CommandsRecovered (nm : Numerals) (confSplit : Nat) (ds : List Delivery)
    (cs : List Bytes) : Prop :=
  (feedChunks getcmdByte {} cs).2 = ds.map (commandOf nm confSplit)

/-- `del_dochan`, reading the chunks `ps`, takes each report to be for the slot it was
written for, with its text (up to `REPORTMAX`). -/
def ReportsAttributed (rs : List Report) (ps : List Bytes) : Prop :=
  (feedChunks reportByte [] ps).2.map (fun dline => (reportDelnum dline, reportText dline)) =
    rs.map fun r => ((r.slot : Int), (r.text ++ [0]).take (REPORTMAX - 2))

instance (nm : Numerals) (confSplit : Nat) (ds : List Delivery) (cs : List Bytes) :
    Decidable (CommandsRecovered nm confSplit ds cs) := by
  unfold CommandsRecovered
  infer_instance

instance (rs : List Report) (ps : List Bytes) : Decidable (ReportsAttributed rs ps) := by
  unfold ReportsAttributed
  infer_instance

theorem commandsRecovered_iff (nm : Numerals) (confSplit : Nat) {ds : List Delivery}
    (hds : ∀ d ∈ ds, d.NulFree ∧ d.delnum < 65536) {cs : List Bytes}
    (hcs : cs.flatten = ds.flatMap (commandBytes nm confSplit)) :
    CommandsRecovered nm confSplit ds cs ↔ ∀ d ∈ ds, d.delnum < 32768 := by
  rw [CommandsRecovered, feedChunks_commands nm confSplit (fun d hd => (hds d hd).1) hcs,
    List.map_inj_left]
  constructor
  · intro h d hd
    have hslot := congrArg Command.delnum (h d hd)
    exact (addHigh_eq_iff (hds d hd).2).mp hslot
  · intro h d hd
    rw [commandRead, (addHigh_eq_iff (hds d hd).2).mpr (h d hd)]
    rfl

theorem reportsAttributed_iff {rs : List Report}
    (hrs : ∀ r ∈ rs, 0 ∉ r.text ∧ r.slot < 65536) {ps : List Bytes}
    (hps : ps.flatten = rs.flatMap Report.bytes) :
    ReportsAttributed rs ps ↔ ∀ r ∈ rs, r.slot < 32768 := by
  rw [ReportsAttributed, feedChunks_reports (fun r hr => (hrs r hr).1) hps, List.map_map,
    List.map_inj_left]
  constructor
  · intro h r hr
    have hslot := congrArg Prod.fst (h r hr)
    exact (addHigh_eq_iff (hrs r hr).2).mp hslot
  · intro h r hr
    have hslot := (addHigh_eq_iff (hrs r hr).2).mpr (h r hr)
    exact Prod.ext hslot rfl

/-- **Commands and reports survive the pipes exactly when no slot number has its top
bit set.** For every list of deliveries and of reports with slots below `auto_spawn`,
and for every cut of the two streams into chunks. -/
theorem pipes_intact_iff (nm : Numerals) (confSplit : Nat) {autoSpawn : Nat}
    (hspawn : autoSpawn ≤ 65000) {ds : List Delivery}
    (hds : ∀ d ∈ ds, d.NulFree ∧ d.delnum < autoSpawn) {rs : List Report}
    (hrs : ∀ r ∈ rs, 0 ∉ r.text ∧ r.slot < autoSpawn) {cs ps : List Bytes}
    (hcs : cs.flatten = ds.flatMap (commandBytes nm confSplit))
    (hps : ps.flatten = rs.flatMap Report.bytes) :
    (CommandsRecovered nm confSplit ds cs ∧ ReportsAttributed rs ps) ↔
      (∀ d ∈ ds, d.delnum < 32768) ∧ ∀ r ∈ rs, r.slot < 32768 := by
  have hds' : ∀ d ∈ ds, d.NulFree ∧ d.delnum < 65536 := fun d hd =>
    ⟨(hds d hd).1, by have := (hds d hd).2; omega⟩
  have hrs' : ∀ r ∈ rs, 0 ∉ r.text ∧ r.slot < 65536 := fun r hr =>
    ⟨(hrs r hr).1, by have := (hrs r hr).2; omega⟩
  rw [commandsRecovered_iff nm confSplit hds' hcs, reportsAttributed_iff hrs' hps]

/-- A delivery in slot 300 (low byte 44, high byte 1), and its report, in two chunks. -/
def delivery300 : Delivery :=
  { delnum := 300, id := 1043, sender := asc "s@x", qqeh := [], envh := [], recip := asc "r@y" }

theorem pipes_intact_300 :
    CommandsRecovered decimal 23 [delivery300]
      [(commandBytes decimal 23 delivery300).take 5, (commandBytes decimal 23 delivery300).drop 5] ∧
    ReportsAttributed [⟨300, asc "Kok"⟩] [(Report.mk 300 (asc "Kok")).bytes] :=
  (@pipes_intact_iff decimal 23 65000 (by decide) _ (by decide) _ (by decide) _ _ (by decide)
    (by decide)).mpr (by decide)

/-- The same delivery in slot 32768: the spawner is asked for slot -32768, and the report
for slot 32768 is taken for one. -/
theorem pipes_corrupt_32768 :
    ({ delivery300 with delnum := 32768 }.NulFree ∧ 32768 < 65000) ∧
    ¬ CommandsRecovered decimal 23 [{ delivery300 with delnum := 32768 }]
        [commandBytes decimal 23 { delivery300 with delnum := 32768 }] ∧
    ¬ ReportsAttributed [⟨32768, asc "Kok"⟩] [(Report.mk 32768 (asc "Kok")).bytes] := by
  decide

end IndimailMta.Spawn
