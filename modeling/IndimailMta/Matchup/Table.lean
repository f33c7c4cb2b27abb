import IndimailMta.Matchup.State

/-!
# What matchup knows

What `matchup` knows is a table of messages and of deliveries with their texts. The program keeps the
texts in a pool, and compacts the pool now and then; its records read back as the table after every
line.
-/

namespace IndimailMta.Matchup

open IndimailMta Keyed StringPool SwapRemove Transducer

variable {nm : Ulongs} {s : State} {line pool pool' t : Bytes} {off i : Nat}

/-! ## The table -/

structure Table where
  msgs : List (Msg Bytes) := []
  dels : List (Del Bytes) := []
  deriving DecidableEq, Repr

/-- The message of an `info` line. -/
def infoMsg (nm : Ulongs) (line : Bytes) : Msg Bytes :=
  ⟨scan nm (field line 3), scan nm (field line 5), scan nm (field line 9), scan nm (field line 11),
    0, 0, 0, caseLower (field line 7), tai64nunix nm (field line 0)⟩

/-- The delivery of a `starting` line. -/
def startDel (nm : Ulongs) (line : Bytes) : Del Bytes :=
  ⟨(delNumber nm (field line 3)).1, (delNumber nm (field line 3)).2, scan nm (field line 5),
    field line 7, caseLower (field line 8), tai64nunix nm (field line 0)⟩

/-- The counts of an `extra` line. -/
def Msg.extra {τ : Type} (nm : Ulongs) (line : Bytes) (m : Msg τ) : Msg τ :=
  { m with
    numk := scan nm (field line 3)
    numz := scan nm (field line 4)
    numd := scan nm (field line 5) }

def Table.delivery (nm : Ulongs) (line : Bytes) (t : Table) : Table × Bytes :=
  match get Del.key (delNumber nm (field line 2)) t.dels with
  | none => (t, [])
  | some d =>
      let msgs := update Msg.msg d.dmsg (fun m => m.count (report line).1) t.msgs
      (⟨msgs, kill Del.key d.key t.dels⟩, deliveryLine nm (get Msg.msg d.dmsg msgs) d line)

def Table.endmsg (nm : Ulongs) (line : Bytes) (t : Table) : Table × Bytes :=
  match get Msg.msg (scan nm (field line 3)) t.msgs with
  | none => (t, [])
  | some m => ({ t with msgs := kill Msg.msg m.msg t.msgs }, msgLine nm m line)

/-- What a line does to the table, and what is written. -/
def Table.step (nm : Ulongs) (t : Table) (line : Bytes) : Table × Bytes :=
  match call line with
  | .skip => (t, [])
  | .starting => ({ t with dels := put Del.key (startDel nm line) t.dels }, [])
  | .delivery => t.delivery nm line
  | .newmsg => ({ t with msgs := kill Msg.msg (scan nm (field line 3)) t.msgs }, [])
  | .endmsg => t.endmsg nm line
  | .clear => ({ t with dels := [] }, [])
  | .info => ({ t with msgs := put Msg.msg (infoMsg nm line) t.msgs }, [])
  | .extra =>
      ({ t with msgs := update Msg.msg (scan nm (field line 2)) (Msg.extra nm line) t.msgs }, [])
  | .copy => (t, line)
  | .unknown => (t, asc "? " ++ line)

/-! ## Records and the pool -/

/-- The records, with their texts. -/
def State.read (s : State) : Table :=
  ⟨s.msgs.map (Msg.map (str s.pool)), s.dels.map (Del.map (str s.pool))⟩

def Msg.Inside (pool : Bytes) (m : Msg Nat) : Prop := Held 0 pool m.sender ∧ Held 0 pool m.birth

def Del.Inside (pool : Bytes) (d : Del Nat) : Prop :=
  Held 0 pool d.dchan ∧ Held 0 pool d.drecip ∧ Held 0 pool d.dstart

/-- Every offset is one of a text in the pool. -/
structure State.Inside (s : State) : Prop where
  msgs : ∀ m ∈ s.msgs, m.Inside s.pool
  dels : ∀ d ∈ s.dels, d.Inside s.pool

/-- The records are those of a table. -/
def Stands (s : State) (t : Table) : Prop := s.Inside ∧ s.read = t

theorem nul_notMem_str (pool : Bytes) (off : Nat) : (0 : Byte) ∉ str pool off := notMem_text 0 pool off

theorem str_of_add (h : (0 : Byte) ∉ t) (hle : add 0 pool t <+: pool') : str pool' pool.length = t :=
  text_of_add h hle

theorem Msg.Inside.map_eq {m : Msg Nat} (h : m.Inside pool) (hle : pool <+: pool') :
    m.map (str pool') = m.map (str pool) := by
  rw [Msg.map, Msg.map, str, str, str, str, h.1.text_eq hle, h.2.text_eq hle]

theorem Del.Inside.map_eq {d : Del Nat} (h : d.Inside pool) (hle : pool <+: pool') :
    d.map (str pool') = d.map (str pool) := by
  rw [Del.map, Del.map]
  simp only [str]
  rw [h.1.text_eq hle, h.2.1.text_eq hle, h.2.2.text_eq hle]

/-- A pool that grows. -/
theorem State.Inside.grow (h : s.Inside) (hle : s.pool <+: pool') (bytes : UInt32) :
    State.Inside ⟨pool', bytes, s.msgs, s.dels⟩ ∧
      State.read ⟨pool', bytes, s.msgs, s.dels⟩ = s.read := by
  refine ⟨⟨fun m hm => ?_, fun d hd => ?_⟩, ?_⟩
  · exact ⟨(h.msgs m hm).1.mono hle, (h.msgs m hm).2.mono hle⟩
  · exact ⟨(h.dels d hd).1.mono hle, (h.dels d hd).2.1.mono hle, (h.dels d hd).2.2.mono hle⟩
  · rw [State.read, State.read]
    congr 1
    · exact List.map_congr_left fun m hm => (h.msgs m hm).map_eq hle
    · exact List.map_congr_left fun d hd => (h.dels d hd).map_eq hle

/-! ## `garbage` -/

/-- The messages are known under their new offsets, in every pool that goes on from the new one. -/
theorem garbageMsgs_eq (pool : Bytes) :
    ∀ (l : List (Msg Nat)) (pool2 : Bytes), pool2 <+: (garbageMsgs pool l pool2).2 ∧
      ∀ pool3, (garbageMsgs pool l pool2).2 <+: pool3 →
        (garbageMsgs pool l pool2).1.map (Msg.map (str pool3)) = l.map (Msg.map (str pool)) ∧
        ∀ m ∈ (garbageMsgs pool l pool2).1, m.Inside pool3
  | [], pool2 => ⟨List.prefix_refl _, fun _ _ => ⟨rfl, fun _ hm => absurd hm List.not_mem_nil⟩⟩
  | m :: rest, pool2 => by
      obtain ⟨hle, hrest⟩ := garbageMsgs_eq pool rest
        (add 0 (add 0 pool2 (str pool m.birth)) (str pool m.sender))
      have hbirth := prefix_add 0 pool2 (str pool m.birth)
      have hsender := prefix_add 0 (add 0 pool2 (str pool m.birth)) (str pool m.sender)
      refine ⟨hbirth.trans (hsender.trans hle), fun pool3 hle3 => ?_⟩
      obtain ⟨hmap, hin⟩ := hrest pool3 hle3
      have hsender3 := hle.trans hle3
      have hbirth3 := hsender.trans hsender3
      rw [garbageMsgs]
      refine ⟨?_, fun n hn => ?_⟩
      · dsimp only
        rw [List.map_cons, List.map_cons, hmap]
        refine congrArg (· :: _) ?_
        rw [Msg.map, Msg.map]
        dsimp only
        rw [str_of_add (nul_notMem_str pool m.birth) hbirth3,
          str_of_add (nul_notMem_str pool m.sender) hsender3]
      · rcases List.mem_cons.mp hn with rfl | hn
        · exact ⟨(held_add 0 _ _).mono hsender3, (held_add 0 _ _).mono hbirth3⟩
        · exact hin n hn

theorem garbageDels_eq (pool : Bytes) :
    ∀ (l : List (Del Nat)) (pool2 : Bytes), pool2 <+: (garbageDels pool l pool2).2 ∧
      ∀ pool3, (garbageDels pool l pool2).2 <+: pool3 →
        (garbageDels pool l pool2).1.map (Del.map (str pool3)) = l.map (Del.map (str pool)) ∧
        ∀ d ∈ (garbageDels pool l pool2).1, d.Inside pool3
  | [], pool2 => ⟨List.prefix_refl _, fun _ _ => ⟨rfl, fun _ hd => absurd hd List.not_mem_nil⟩⟩
  | d :: rest, pool2 => by
      obtain ⟨hle, hrest⟩ := garbageDels_eq pool rest
        (add 0 (add 0 (add 0 pool2 (str pool d.dstart)) (str pool d.dchan)) (str pool d.drecip))
      have hstart := prefix_add 0 pool2 (str pool d.dstart)
      have hchan := prefix_add 0 (add 0 pool2 (str pool d.dstart)) (str pool d.dchan)
      have hrecip := prefix_add 0 (add 0 (add 0 pool2 (str pool d.dstart)) (str pool d.dchan))
        (str pool d.drecip)
      refine ⟨hstart.trans (hchan.trans (hrecip.trans hle)), fun pool3 hle3 => ?_⟩
      obtain ⟨hmap, hin⟩ := hrest pool3 hle3
      have hrecip3 := hle.trans hle3
      have hchan3 := hrecip.trans hrecip3
      have hstart3 := hchan.trans hchan3
      rw [garbageDels]
      refine ⟨?_, fun n hn => ?_⟩
      · dsimp only
        rw [List.map_cons, List.map_cons, hmap]
        refine congrArg (· :: _) ?_
        rw [Del.map, Del.map]
        dsimp only
        rw [str_of_add (nul_notMem_str pool d.dstart) hstart3,
          str_of_add (nul_notMem_str pool d.dchan) hchan3,
          str_of_add (nul_notMem_str pool d.drecip) hrecip3]
      · rcases List.mem_cons.mp hn with rfl | hn
        · exact ⟨(held_add 0 _ _).mono hchan3, (held_add 0 _ _).mono hrecip3,
            (held_add 0 _ _).mono hstart3⟩
        · exact hin n hn

/-- **The pool is compacted**, and every record has its texts. -/
theorem garbage_stands {t : Table} (h : Stands s t) : Stands (garbage s) t := by
  rw [garbage]
  split
  · exact h
  · obtain ⟨-, hmsgs⟩ := garbageMsgs_eq s.pool s.msgs []
    obtain ⟨hle, hdels⟩ := garbageDels_eq s.pool s.dels (garbageMsgs s.pool s.msgs []).2
    obtain ⟨hmsgs, hmsgsIn⟩ := hmsgs _ hle
    obtain ⟨hdels, hdelsIn⟩ := hdels _ (List.prefix_refl _)
    refine ⟨⟨hmsgsIn, hdelsIn⟩, ?_⟩
    rw [← h.2, State.read, State.read]
    dsimp only
    rw [hmsgs, hdels]

/-! ## Entries -/

section Find

variable {t : Table} (h : Stands s t)

include h

theorem Stands.find_msg (m : Nat) : find Msg.msg m t.msgs = msg_find m s := by
  rw [← h.2]
  exact find_map Msg.msg Msg.msg (Msg.map (str s.pool)) fun _ => rfl

theorem Stands.get_msg (m : Nat) :
    get Msg.msg m t.msgs = (get Msg.msg m s.msgs).map (Msg.map (str s.pool)) := by
  rw [← h.2]
  exact get_map Msg.msg Msg.msg (Msg.map (str s.pool)) fun _ => rfl

theorem Stands.get_del (k : Nat × Nat) :
    get Del.key k t.dels = (get Del.key k s.dels).map (Del.map (str s.pool)) := by
  rw [← h.2]
  exact get_map Del.key Del.key (Del.map (str s.pool)) fun _ => rfl

end Find

theorem swapRemove_of_find {α κ : Type} [DecidableEq κ] {key : α → κ} {k : κ} {l : List α}
    (h : find key k l = some i) : swapRemove l i = kill key k l := by
  rw [kill, h]

theorem kill_stands {t : Table} (h : Stands s t) {k : Nat × Nat} (hi : del_find k s = some i) :
    Stands (del_kill i s) { t with dels := kill Del.key k t.dels } := by
  obtain ⟨hin, rfl⟩ := h
  have hkill : swapRemove s.dels i = kill Del.key k s.dels := swapRemove_of_find hi
  rw [del_kill, hkill]
  refine ⟨⟨hin.msgs, fun d hd => hin.dels d (mem_of_mem_kill hd)⟩, ?_⟩
  rw [State.read, State.read]
  dsimp only
  rw [map_kill Del.key Del.key (Del.map (str s.pool)) fun _ => rfl]

theorem msg_kill_stands {t : Table} (h : Stands s t) {m : Nat} (hi : msg_find m s = some i) :
    Stands (msg_kill i s) { t with msgs := kill Msg.msg m t.msgs } := by
  obtain ⟨hin, rfl⟩ := h
  have hkill : swapRemove s.msgs i = kill Msg.msg m s.msgs := swapRemove_of_find hi
  rw [msg_kill, hkill]
  refine ⟨⟨fun d hd => hin.msgs d (mem_of_mem_kill hd), hin.dels⟩, ?_⟩
  rw [State.read, State.read]
  dsimp only
  rw [map_kill Msg.msg Msg.msg (Msg.map (str s.pool)) fun _ => rfl]

/-! ## Texts of a line -/

theorem nul_notMem_fields : ∀ (n : Nat) (s : Bytes), ∀ x ∈ fields n s, (0 : Byte) ∉ x
  | 0, _, _, hx => absurd hx List.not_mem_nil
  | n + 1, s, x, hx => by
      rcases List.mem_cons.mp hx with rfl | hx
      · exact nul_notMem_cstr _
      · exact nul_notMem_fields n _ x hx

theorem nul_notMem_field (line : Bytes) (i : Nat) : (0 : Byte) ∉ field line i := by
  rw [field, List.getD_eq_getElem?_getD]
  cases h : (fields 20 (blanked line))[i]? with
  | none => exact List.not_mem_nil
  | some x => exact nul_notMem_fields 20 _ x (List.mem_of_getElem? h)

theorem isDigit_fmt_uint0 (nm : Ulongs) (u : Nat) : ∀ b ∈ fmt_uint0 nm u, isDigit b = true := by
  intro b hb
  rcases List.mem_append.mp hb with hb | hb
  · rw [(List.mem_replicate.mp hb).2]
    rfl
  · exact nm.fmt_isDigit u b hb

/-- What is written for a label is digits, with a point. -/
theorem mem_tai64nunix {s : Bytes} (h : s.head? = some 64) :
    ∀ b ∈ tai64nunix nm s, isDigit b = true ∨ b = 46 := by
  intro b hb
  rw [tai64nunix, if_neg (not_not.mpr h)] at hb
  rcases List.mem_append.mp hb with hb | hb
  · exact .inl (nm.fmt_isDigit _ b hb)
  · rcases List.mem_cons.mp hb with rfl | hb
    · exact .inr rfl
    · exact .inl (isDigit_fmt_uint0 nm _ b hb)

theorem nul_notMem_tai {s : Bytes} (h : (0 : Byte) ∉ s) : (0 : Byte) ∉ tai64nunix nm s := by
  by_cases hs : s.head? = some 64
  · intro h0
    rcases mem_tai64nunix hs 0 h0 with hd | hd
    · exact absurd hd (by decide)
    · exact absurd hd (by decide)
  · rwa [tai64nunix, if_pos hs]

/-- The text that was put last, in lower case. -/
theorem case_lowers_add (pool : Bytes) (h : (0 : Byte) ∉ t) :
    case_lowers (add 0 pool t) pool.length = add 0 pool (caseLower t) := by
  have hstr : str (add 0 pool t) pool.length = t := str_of_add h (List.prefix_refl _)
  have htake : (add 0 pool t).take pool.length = pool := by
    rw [add, List.append_assoc, List.take_left]
  have hdrop : (add 0 pool t).drop pool.length = t ++ [0] := by
    rw [add, List.append_assoc, List.drop_left]
  rw [case_lowers, hstr, htake, hdrop, List.drop_left]
  rfl

/-! ## Lines -/

/-- A delivery is put into the table, and its texts into the pool. -/
theorem put_del_stands {t : Table} {d : Del Nat} (h : Stands s t) (hle : s.pool <+: pool')
    (hd : d.Inside pool') (bytes : UInt32) :
    Stands ⟨pool', bytes, s.msgs, put Del.key d s.dels⟩
      { t with dels := put Del.key (d.map (str pool')) t.dels } := by
  obtain ⟨hin, rfl⟩ := h
  obtain ⟨hgrow, hread⟩ := hin.grow hle bytes
  refine ⟨⟨hgrow.msgs, fun e he => ?_⟩, ?_⟩
  · rcases mem_put he with rfl | he
    · exact hd
    · exact hgrow.dels e he
  · rw [← hread, State.read, State.read]
    dsimp only
    rw [map_put Del.key Del.key (Del.map (str pool')) fun _ => rfl]

theorem put_msg_stands {t : Table} {m : Msg Nat} (h : Stands s t) (hle : s.pool <+: pool')
    (hm : m.Inside pool') (bytes : UInt32) :
    Stands ⟨pool', bytes, put Msg.msg m s.msgs, s.dels⟩
      { t with msgs := put Msg.msg (m.map (str pool')) t.msgs } := by
  obtain ⟨hin, rfl⟩ := h
  obtain ⟨hgrow, hread⟩ := hin.grow hle bytes
  refine ⟨⟨fun e he => ?_, hgrow.dels⟩, ?_⟩
  · rcases mem_put he with rfl | he
    · exact hm
    · exact hgrow.msgs e he
  · rw [← hread, State.read, State.read]
    dsimp only
    rw [map_put Msg.msg Msg.msg (Msg.map (str pool')) fun _ => rfl]

/-- The pool behind `starting`. -/
def startPool (nm : Ulongs) (line pool : Bytes) : Bytes :=
  add 0 (add 0 (add 0 pool (tai64nunix nm (field line 0))) (field line 7)) (caseLower (field line 8))

/-- The record that `starting` writes. -/
def startRecord (nm : Ulongs) (line pool : Bytes) : Del Nat :=
  ⟨(delNumber nm (field line 3)).1, (delNumber nm (field line 3)).2, scan nm (field line 5),
    (add 0 pool (tai64nunix nm (field line 0))).length,
    (add 0 (add 0 pool (tai64nunix nm (field line 0))) (field line 7)).length, pool.length⟩

theorem starting_eq (nm : Ulongs) (line : Bytes) (s : State) :
    ∃ bytes, starting nm line s =
      ⟨startPool nm line s.pool, bytes, s.msgs, put Del.key (startRecord nm line s.pool) s.dels⟩ := by
  have hlow := case_lowers_add (add 0 (add 0 s.pool (tai64nunix nm (field line 0))) (field line 7))
    (nul_notMem_field line 8)
  rw [starting, del_add, del_find, put]
  dsimp only
  have hkey : (startRecord nm line s.pool).key = delNumber nm (field line 3) := by
    rw [startRecord, Del.key]
  rw [hkey]
  cases find Del.key (delNumber nm (field line 3)) s.dels with
  | some i =>
      dsimp only
      rw [hlow]
      exact ⟨_, rfl⟩
  | none =>
      dsimp only
      rw [hlow, List.set_append_right _ _ (Nat.le_refl _), Nat.sub_self, List.set_cons_zero]
      exact ⟨_, rfl⟩

theorem starting_stands {t : Table} (h : Stands s t) :
    Stands (starting nm line s) { t with dels := put Del.key (startDel nm line) t.dels } := by
  obtain ⟨bytes, heq⟩ := starting_eq nm line s
  have hstart : (0 : Byte) ∉ tai64nunix nm (field line 0) := nul_notMem_tai (nul_notMem_field line 0)
  have hlower : (0 : Byte) ∉ caseLower (field line 8) := fun h0 =>
    nul_notMem_field line 8 ((mem_caseLower (by decide)).mp h0)
  have hle1 := prefix_add 0 s.pool (tai64nunix nm (field line 0))
  have hle2 := prefix_add 0 (add 0 s.pool (tai64nunix nm (field line 0))) (field line 7)
  have hle3 : add 0 (add 0 s.pool (tai64nunix nm (field line 0))) (field line 7) <+:
      startPool nm line s.pool := prefix_add 0 _ (caseLower (field line 8))
  have hmap : (startRecord nm line s.pool).map (str (startPool nm line s.pool)) = startDel nm line := by
    rw [Del.map, startDel, startRecord]
    dsimp only
    rw [str_of_add hstart (hle2.trans hle3), str_of_add (nul_notMem_field line 7) hle3, startPool,
      str_of_add hlower (List.prefix_refl _)]
  rw [heq, ← hmap]
  refine put_del_stands h (hle1.trans (hle2.trans hle3)) ?_ bytes
  exact ⟨(held_add 0 _ _).mono hle3, held_add 0 _ _, (held_add 0 _ _).mono (hle2.trans hle3)⟩

/-- The pool behind `info`. -/
def infoPool (nm : Ulongs) (line pool : Bytes) : Bytes :=
  add 0 (add 0 pool (tai64nunix nm (field line 0))) (caseLower (field line 7))

/-- The record that `info` writes. -/
def infoRecord (nm : Ulongs) (line pool : Bytes) : Msg Nat :=
  ⟨scan nm (field line 3), scan nm (field line 5), scan nm (field line 9), scan nm (field line 11),
    0, 0, 0, (add 0 pool (tai64nunix nm (field line 0))).length, pool.length⟩

theorem info_eq (nm : Ulongs) (line : Bytes) (s : State) :
    ∃ bytes, info nm line s =
      ⟨infoPool nm line s.pool, bytes, put Msg.msg (infoRecord nm line s.pool) s.msgs, s.dels⟩ := by
  have hlow := case_lowers_add (add 0 s.pool (tai64nunix nm (field line 0))) (nul_notMem_field line 7)
  have hkey : (infoRecord nm line s.pool).msg = scan nm (field line 3) := by
    rw [infoRecord]
  rw [info, msg_add, msg_find, put, hkey]
  cases find Msg.msg (scan nm (field line 3)) s.msgs with
  | some i =>
      dsimp only
      rw [hlow]
      exact ⟨_, rfl⟩
  | none =>
      dsimp only
      rw [hlow, List.set_append_right _ _ (Nat.le_refl _), Nat.sub_self, List.set_cons_zero]
      exact ⟨_, rfl⟩

theorem info_stands {t : Table} (h : Stands s t) :
    Stands (info nm line s) { t with msgs := put Msg.msg (infoMsg nm line) t.msgs } := by
  obtain ⟨bytes, heq⟩ := info_eq nm line s
  have hbirth : (0 : Byte) ∉ tai64nunix nm (field line 0) := nul_notMem_tai (nul_notMem_field line 0)
  have hlower : (0 : Byte) ∉ caseLower (field line 7) := fun h0 =>
    nul_notMem_field line 7 ((mem_caseLower (by decide)).mp h0)
  have hle1 := prefix_add 0 s.pool (tai64nunix nm (field line 0))
  have hle2 : add 0 s.pool (tai64nunix nm (field line 0)) <+: infoPool nm line s.pool :=
    prefix_add 0 _ (caseLower (field line 7))
  have hmap : (infoRecord nm line s.pool).map (str (infoPool nm line s.pool)) = infoMsg nm line := by
    rw [Msg.map, infoMsg, infoRecord]
    dsimp only
    rw [str_of_add hbirth hle2, infoPool, str_of_add hlower (List.prefix_refl _)]
  rw [heq, ← hmap]
  exact put_msg_stands h (hle1.trans hle2) ⟨held_add 0 _ _, (held_add 0 _ _).mono hle2⟩ bytes

/-- Numbers of a message are changed. -/
theorem update_stands {t : Table} (h : Stands s t) {m : Nat} {f : Msg Nat → Msg Nat}
    {f' : Msg Bytes → Msg Bytes} (hin : ∀ x, x.Inside s.pool → (f x).Inside s.pool)
    (hmap : ∀ x, (f x).map (str s.pool) = f' (x.map (str s.pool))) :
    Stands { s with msgs := update Msg.msg m f s.msgs }
      { t with msgs := update Msg.msg m f' t.msgs } := by
  obtain ⟨hs, rfl⟩ := h
  refine ⟨⟨fun x hx => ?_, hs.dels⟩, ?_⟩
  · rcases mem_update hx with hx | ⟨y, hy, rfl⟩
    · exact hs.msgs x hx
    · exact hin y (hs.msgs y hy)
  · rw [State.read, State.read]
    dsimp only
    rw [map_update Msg.msg Msg.msg (Msg.map (str s.pool)) (fun _ => rfl) hmap]

theorem modify_of_find {α κ : Type} [DecidableEq κ] {key : α → κ} {k : κ} {l : List α} {f : α → α}
    (h : find key k l = some i) : l.modify i f = update key k f l := by
  rw [update, h]

theorem update_of_find {α κ : Type} [DecidableEq κ] {key : α → κ} {k : κ} {l : List α} {f : α → α}
    (h : find key k l = none) : update key k f l = l := by
  rw [update, h]

theorem extra_stands {t : Table} (h : Stands s t) :
    Stands (extra nm line s)
      { t with msgs := update Msg.msg (scan nm (field line 2)) (Msg.extra nm line) t.msgs } := by
  have hup : Stands { s with msgs := update Msg.msg (scan nm (field line 2)) (Msg.extra nm line) s.msgs }
      { t with msgs := update Msg.msg (scan nm (field line 2)) (Msg.extra nm line) t.msgs } :=
    update_stands h (fun _ hx => hx) fun _ => rfl
  rw [extra, msg_find]
  cases hf : find Msg.msg (scan nm (field line 2)) s.msgs with
  | none => rwa [update_of_find hf] at hup
  | some i =>
      dsimp only
      rw [modify_of_find hf]
      exact hup

theorem newmsg_stands {t : Table} (h : Stands s t) :
    Stands (newmsg nm line s) { t with msgs := kill Msg.msg (scan nm (field line 3)) t.msgs } := by
  rw [newmsg]
  cases hf : msg_find (scan nm (field line 3)) s with
  | none =>
      rw [kill_of_notMem (find_eq_none_iff.mp ((h.find_msg _).trans hf))]
      exact h
  | some i => exact garbage_stands (msg_kill_stands h hf)

theorem endmsg_stands {t : Table} (h : Stands s t) :
    Stands (endmsg nm line s).1 (t.endmsg nm line).1 ∧
      (endmsg nm line s).2 = (t.endmsg nm line).2 := by
  rw [endmsg, Table.endmsg, h.get_msg]
  cases hf : msg_find (scan nm (field line 3)) s with
  | none =>
      rw [get_eq_none_iff.mpr (find_eq_none_iff.mp hf)]
      exact ⟨h, rfl⟩
  | some i =>
      have hget := get_eq_getD hf
      have hkey : (s.msgs.getD i default).msg = scan nm (field line 3) := (get_some hget).2
      have hkill := garbage_stands (msg_kill_stands h hf)
      rw [hget]
      dsimp only [Option.map_some]
      rw [show ((s.msgs.getD i default).map (str s.pool)).msg = (s.msgs.getD i default).msg from rfl,
        hkey]
      exact ⟨hkill, rfl⟩

/-- The message of a delivery is counted, and is read as it is counted. -/
theorem delivery_stands {t : Table} (h : Stands s t) :
    Stands (delivery nm line s).1 (t.delivery nm line).1 ∧
      (delivery nm line s).2 = (t.delivery nm line).2 := by
  rw [delivery, Table.delivery, h.get_del]
  cases hf : del_find (delNumber nm (field line 2)) s with
  | none =>
      rw [get_eq_none_iff.mpr (find_eq_none_iff.mp hf)]
      exact ⟨h, rfl⟩
  | some dpos =>
      have hget := get_eq_getD hf
      rw [hget]
      dsimp only [Option.map_some]
      generalize s.dels.getD dpos default = d at hget ⊢
      have hkey : d.key = delNumber nm (field line 2) := (get_some hget).2
      rw [show (d.map (str s.pool)).dmsg = d.dmsg from rfl,
        show (d.map (str s.pool)).key = d.key from rfl, hkey]
      have hup : Stands
          { s with msgs := update Msg.msg d.dmsg (fun m => m.count (report line).1) s.msgs }
          { t with msgs := update Msg.msg d.dmsg (fun m => m.count (report line).1) t.msgs } := by
        refine update_stands h (fun m hm => ?_) fun m => ?_
        · cases (report line).1 with
          | none => exact hm
          | some c => cases c <;> exact hm
        · cases (report line).1 with
          | none => rfl
          | some c => cases c <;> rfl
      have hkill := garbage_stands (kill_stands hup (i := dpos) hf)
      rw [hup.get_msg]
      cases hm : msg_find d.dmsg s with
      | none =>
          rw [update_of_find hm] at hup hkill ⊢
          rw [get_eq_none_iff.mpr (find_eq_none_iff.mp hm)]
          dsimp only [Option.map_none]
          exact ⟨hkill, rfl⟩
      | some mpos =>
          dsimp only
          rw [modify_of_find hm]
          have hfind : find Msg.msg d.dmsg
              (update Msg.msg d.dmsg (fun m => m.count (report line).1) s.msgs) = some mpos := by
            rw [find_congr Msg.msg (map_key_update ?_)]
            · exact hm
            · intro m
              cases (report line).1 with
              | none => rfl
              | some c => cases c <;> rfl
          rw [get_eq_getD hfind]
          dsimp only [Option.map_some]
          exact ⟨hkill, rfl⟩

theorem killAll_stands : ∀ {n : Nat} {s : State} {t : Table}, Stands s t → s.dels.length = n →
    Stands (killAll n s) { t with dels := [] }
  | 0, s, t, h, hn => by
      have hdels : t.dels = [] := by
        rw [← h.2, State.read]
        exact List.map_eq_nil_iff.mpr (List.eq_nil_of_length_eq_zero hn)
      rw [killAll, ← hdels]
      exact h
  | n + 1, s, t, h, hn => by
      obtain ⟨d, rest, hs⟩ := List.exists_cons_of_length_eq_add_one hn
      have hfind : del_find d.key s = some 0 := by
        rw [del_find, find, hs]
        simp [List.findIdx?_cons]
      have hlen : (del_kill 0 s).dels.length = n := by
        rw [del_kill, length_swapRemove, hn, Nat.add_sub_cancel]
      have hrest := killAll_stands (kill_stands h hfind) hlen
      exact hrest

theorem clear_stands {t : Table} (h : Stands s t) : Stands (clear s) { t with dels := [] } :=
  garbage_stands (killAll_stands h rfl)

/-- **A line** leaves the records of the table, and writes what the table says. -/
theorem step_stands (nm : Ulongs) (s : State) (t : Table) (line : Bytes) (h : Stands s t) :
    Stands (step nm s line).1 (t.step nm line).1 ∧ (step nm s line).2 = (t.step nm line).2 := by
  rw [step, Table.step]
  cases call line with
  | skip => exact ⟨h, rfl⟩
  | starting =>
      dsimp only
      exact ⟨starting_stands h, rfl⟩
  | delivery => exact delivery_stands h
  | newmsg =>
      dsimp only
      exact ⟨newmsg_stands h, rfl⟩
  | endmsg => exact endmsg_stands h
  | clear =>
      dsimp only
      exact ⟨clear_stands h, rfl⟩
  | info =>
      dsimp only
      exact ⟨info_stands h, rfl⟩
  | extra =>
      dsimp only
      exact ⟨extra_stands h, rfl⟩
  | copy => exact ⟨h, rfl⟩
  | unknown => exact ⟨h, rfl⟩

/-- The table behind a log. -/
def table (nm : Ulongs) (log : Bytes) : Table := (feed (Table.step nm) {} (lines log)).1

/-- **In every state that is reached** each offset is one of a text in the pool, and yields the text
of the table. -/
theorem run_stands (nm : Ulongs) (log : Bytes) :
    Stands (run nm log).1 (table nm log) ∧
      (run nm log).2 = (feed (Table.step nm) {} (lines log)).2 :=
  feed_simulates (step_stands nm) (lines log)
    ⟨⟨fun _ h => absurd h List.not_mem_nil, fun _ h => absurd h List.not_mem_nil⟩, rfl⟩

end IndimailMta.Matchup
