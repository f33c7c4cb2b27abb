import IndimailMta.Matchup.Pending

/-!
# What matchup knows can be written

Of a log whose `info` lines have their sender and whose `starting` lines have their recipient, every
text that is stored is a word, and every number one of an `unsigned long`.
-/

namespace IndimailMta.Matchup

open IndimailMta Keyed Transducer

variable {nm : Ulongs} {line s : Bytes} {t : Table} {i j : Nat}

/-! ## Fields are words -/

theorem mem_of_mem_fields : ∀ {n : Nat} {s x : Bytes}, x ∈ fields n s → ∀ b ∈ x, b ∈ s ∧ b ≠ 0
  | 0, _, _, hx, _, _ => absurd hx List.not_mem_nil
  | n + 1, s, x, hx, b, hb => by
      rw [fields] at hx
      rcases List.mem_cons.mp hx with rfl | hx
      · have hdrop := (List.takeWhile_sublist _).subset hb
        exact ⟨(List.dropWhile_sublist _).subset hdrop, fun h0 => nul_notMem_cstr _ (h0 ▸ hb)⟩
      · obtain ⟨hmem, hne⟩ := mem_of_mem_fields hx b hb
        exact ⟨(List.dropWhile_sublist _).subset ((List.dropWhile_sublist _).subset hmem), hne⟩

theorem mem_blanked {b : Byte} (h : b ∈ blanked line) (h0 : b ≠ 0) : b ≠ 9 ∧ b ≠ 10 ∧ b ≠ 32 := by
  obtain ⟨ch, -, rfl⟩ := List.mem_map.mp h
  by_cases hblank : ch = 10 ∨ ch = 32 ∨ ch = 9
  · rw [if_pos hblank] at h0
    exact absurd rfl h0
  · rw [if_neg hblank]
    simp only [not_or] at hblank
    exact ⟨hblank.2.2, hblank.1, hblank.2.1⟩

theorem word_field (h : field line i ≠ []) : Word (field line i) := by
  refine ⟨h, fun b hb => ?_⟩
  have hmem : field line i ∈ fields 20 (blanked line) := by
    rw [field, List.getD_eq_getElem?_getD] at h ⊢
    cases hx : (fields 20 (blanked line))[i]? with
    | none =>
        rw [hx] at h
        exact absurd rfl h
    | some x => exact List.mem_of_getElem? hx
  obtain ⟨hin, h0⟩ := mem_of_mem_fields hmem b hb
  exact ⟨h0, mem_blanked hin h0⟩

/-- There is no field behind one that is missing. -/
theorem fields_missing : ∀ {n i j : Nat} {s : Bytes}, (fields n s).getD i [] = [] → i ≤ j →
    (fields n s).getD j [] = []
  | 0, _, _, _, _, _ => rfl
  | n + 1, 0, j, s, h, _ => by
      have hempty : s.dropWhile (· = 0) = [] := by
        rw [fields] at h
        cases hs : s.dropWhile (· = 0) with
        | nil => rfl
        | cons b u =>
            have hb : b ≠ 0 := by
              have hhead := List.head?_dropWhile_not (· = 0) s
              rw [hs] at hhead
              simpa using hhead
            rw [hs] at h
            simp [hb] at h
      rw [fields, hempty]
      cases j with
      | zero => rfl
      | succ j =>
          have hnil : fields n [] = List.replicate n [] := fields_nil n
          rw [List.dropWhile_nil, List.takeWhile_nil, hnil, List.getD_eq_getElem?_getD,
            List.getElem?_cons_succ, List.getElem?_replicate]
          split <;> rfl
  | n + 1, i + 1, 0, s, _, hij => absurd hij (Nat.not_succ_le_zero i)
  | n + 1, i + 1, j + 1, s, h, hij => by
      rw [fields] at h ⊢
      exact fields_missing (i := i) h (Nat.le_of_succ_le_succ hij)

/-- The line has its fields up to this one. -/
theorem word_field_of_le (h : field line j ≠ []) (hij : i ≤ j) : Word (field line i) :=
  word_field fun hi => h (fields_missing hi hij)

/-! ## What a table holds -/

theorem word_tai (h : Word s) : Word (tai64nunix nm s) := by
  by_cases hs : s.head? = some 64
  · refine ⟨?_, fun b hb => ?_⟩
    · rw [tai64nunix, if_neg (not_not.mpr hs)]
      exact fun h0 => nm.fmt_ne_nil _ (List.append_eq_nil_iff.mp h0).1
    · rcases mem_tai64nunix hs b hb with hd | rfl
      · exact blank_of_isDigit hd
      · decide
  · rwa [tai64nunix_of_plain hs]

theorem plain_tai (nm : Ulongs) (s : Bytes) : (tai64nunix nm s).head? ≠ some 64 := by
  by_cases hs : s.head? = some 64
  · intro h
    rcases mem_tai64nunix hs 64 (List.mem_of_head? h) with hd | hd
    · exact absurd hd (by decide)
    · exact absurd hd (by decide)
  · rwa [tai64nunix_of_plain hs]

theorem word_caseLower (h : Word s) : Word (caseLower s) := by
  refine ⟨fun h0 => h.1 (List.map_eq_nil_iff.mp h0), fun b hb => ?_⟩
  have hsmall : ∀ c : Byte, c < 65 → c ∉ s → b ≠ c := fun c hc hs hbc =>
    hs ((mem_caseLower hc).mp (hbc ▸ hb))
  refine ⟨hsmall 0 (by decide) h.nul, hsmall 9 (by decide) fun h9 => (h.2 9 h9).2.1 rfl,
    hsmall 10 (by decide) fun h10 => (h.2 10 h10).2.2.1 rfl,
    hsmall 32 (by decide) fun h32 => (h.2 32 h32).2.2.2 rfl⟩

theorem int32_unsignedLong (x : Int) : int32 (unsignedLong x) = int32 x := by
  have hpos : (0 : Int) ≤ x % 18446744073709551616 := Int.emod_nonneg x (by decide)
  have hcast : ((unsignedLong x : Nat) : Int) = x % 18446744073709551616 := by
    rw [unsignedLong, Int.toNat_of_nonneg hpos]
  have hdvd : (4294967296 : Int) ∣ 18446744073709551616 := by decide
  rw [hcast, int32, int32]
  simp only [Int.emod_emod_of_dvd x hdvd]

theorem int32_int32 (x : Int) : int32 (int32 x) = int32 x := by
  have h : (int32 x) % 4294967296 = x % 4294967296 := by
    rw [int32]
    split <;> omega
  rw [int32, h, ← int32]

/-- The number of a queue is converted once. -/
theorem queue_queue (q : Nat) : queue (queue q) = queue q := by
  rw [queue, queue, int32_unsignedLong, int32_int32]

theorem queue_lt (q : Nat) : queue q < 2 ^ 64 := by
  have hlt : int32 q % 18446744073709551616 < 18446744073709551616 := Int.emod_lt_of_pos _ (by decide)
  have hpos : 0 ≤ int32 q % 18446744073709551616 := Int.emod_nonneg _ (by decide)
  rw [queue, unsignedLong]
  omega

theorem scan_lt (nm : Ulongs) (s : Bytes) : scan nm s < 2 ^ 64 := nm.scan_lt s

/-- An `info` line has a sender, and a `starting` line a recipient. -/
def Whole (line : Bytes) : Prop :=
  (call line = .info → field line 7 ≠ []) ∧ (call line = .starting → field line 8 ≠ [])

instance (line : Bytes) : Decidable (Whole line) := inferInstanceAs (Decidable (_ ∧ _))

-- The texts and numbers of a line are not unfolded here: they are any that are fit.
theorem fit_infoMsg (h : field line 7 ≠ []) : (infoMsg nm line).Fit := by
  have hbirth : Word (tai64nunix nm (field line 0)) := word_tai (word_field_of_le h (Nat.zero_le 7))
  have hplain := plain_tai nm (field line 0)
  have hsender : Word (caseLower (field line 7)) := word_caseLower (word_field h)
  have hlower := caseLower_caseLower (field line 7)
  have hscan := scan_lt nm
  rw [infoMsg]
  generalize tai64nunix nm (field line 0) = birth at hbirth hplain
  generalize caseLower (field line 7) = sender at hsender hlower
  refine ⟨?_, hbirth, hplain, hsender, hlower⟩
  simp only [List.forall_mem_cons]
  exact ⟨hscan _, hscan _, hscan _, hscan _, by decide, by decide, by decide,
    fun _ hx => absurd hx List.not_mem_nil⟩

theorem delNumber_lt (nm : Ulongs) (s : Bytes) : (delNumber nm s).1 < 2 ^ 64 := by
  rw [delNumber]
  exact scan_lt nm s

theorem queue_delNumber (nm : Ulongs) (s : Bytes) :
    queue (delNumber nm s).2 = (delNumber nm s).2 ∧ (delNumber nm s).2 < 2 ^ 64 := by
  rw [delNumber]
  dsimp only
  exact ⟨queue_queue _, queue_lt _⟩

theorem fit_startDel (h : field line 8 ≠ []) : (startDel nm line).Fit := by
  have hdel := delNumber_lt nm (field line 3)
  have hqueue := queue_delNumber nm (field line 3)
  have hstart : Word (tai64nunix nm (field line 0)) := word_tai (word_field_of_le h (Nat.zero_le 8))
  have hplain := plain_tai nm (field line 0)
  have hchan : Word (field line 7) := word_field_of_le h (by decide)
  have hrecip : Word (caseLower (field line 8)) := word_caseLower (word_field h)
  have hlower := caseLower_caseLower (field line 8)
  have hscan := scan_lt nm (field line 5)
  rw [startDel]
  generalize delNumber nm (field line 3) = k at hdel hqueue
  generalize tai64nunix nm (field line 0) = dstart at hstart hplain
  generalize field line 7 = dchan at hchan
  generalize caseLower (field line 8) = drecip at hrecip hlower
  refine ⟨?_, hqueue, hstart, hplain, hchan, hrecip, hlower⟩
  simp only [List.forall_mem_cons]
  exact ⟨hdel, hscan, fun _ hx => absurd hx List.not_mem_nil⟩

theorem Msg.Fit.count {m : Msg Bytes} (h : m.Fit) (c : Option Count) : (m.count c).Fit := by
  have hn := h.numbers
  simp only [List.forall_mem_cons] at hn
  have hmod : ∀ n : Nat, n % 2 ^ 64 < 2 ^ 64 := fun n => Nat.mod_lt n (by decide)
  obtain ⟨h1, h2, h3, h4, h5, h6, h7, -⟩ := hn
  cases c with
  | none => exact h
  | some c =>
      cases c <;> refine ⟨?_, h.birth, h.plain, h.sender, h.lower⟩ <;>
        simp only [Msg.count, List.forall_mem_cons]
      · exact ⟨h1, h2, h3, h4, hmod _, h6, h7, fun _ hx => absurd hx List.not_mem_nil⟩
      · exact ⟨h1, h2, h3, h4, h5, hmod _, h7, fun _ hx => absurd hx List.not_mem_nil⟩
      · exact ⟨h1, h2, h3, h4, h5, h6, hmod _, fun _ hx => absurd hx List.not_mem_nil⟩

theorem Msg.Fit.extra {m : Msg Bytes} (h : m.Fit) (line : Bytes) : (m.extra nm line).Fit := by
  have hn := h.numbers
  simp only [List.forall_mem_cons] at hn
  obtain ⟨h1, h2, h3, h4, -⟩ := hn
  refine ⟨?_, h.birth, h.plain, h.sender, h.lower⟩
  simp only [Msg.extra, List.forall_mem_cons]
  exact ⟨h1, h2, h3, h4, scan_lt nm _, scan_lt nm _, scan_lt nm _, fun _ hx => absurd hx List.not_mem_nil⟩

/-- Every entry can be written. -/
structure Table.Fit (t : Table) : Prop where
  msgs : ∀ m ∈ t.msgs, m.Fit
  dels : ∀ d ∈ t.dels, d.Fit

theorem Table.Fit.delivery (h : t.Fit) (line : Bytes) : (t.delivery nm line).1.Fit := by
  rw [Table.delivery]
  cases get Del.key (delNumber nm (field line 2)) t.dels with
  | none => exact h
  | some d =>
      refine ⟨fun m hm => ?_, fun e he => h.dels e (mem_of_mem_kill he)⟩
      rcases mem_update hm with hm | ⟨x, hx, rfl⟩
      · exact h.msgs m hm
      · exact (h.msgs x hx).count _

theorem Table.Fit.step (h : t.Fit) (hw : Whole line) : (t.step nm line).1.Fit := by
  rw [Table.step]
  cases hc : call line with
  | skip => exact h
  | starting =>
      refine ⟨h.msgs, fun d hd => ?_⟩
      rcases mem_put hd with rfl | hd
      · exact fit_startDel (hw.2 hc)
      · exact h.dels d hd
  | delivery => exact h.delivery line
  | newmsg => exact ⟨fun m hm => h.msgs m (mem_of_mem_kill hm), h.dels⟩
  | endmsg =>
      dsimp only
      rw [Table.endmsg]
      cases get Msg.msg (scan nm (field line 3)) t.msgs with
      | none => exact h
      | some m => exact ⟨fun x hx => h.msgs x (mem_of_mem_kill hx), h.dels⟩
  | clear => exact ⟨h.msgs, fun _ hd => absurd hd List.not_mem_nil⟩
  | info =>
      refine ⟨fun m hm => ?_, h.dels⟩
      rcases mem_put hm with rfl | hm
      · exact fit_infoMsg (hw.1 hc)
      · exact h.msgs m hm
  | extra =>
      refine ⟨fun m hm => ?_, h.dels⟩
      rcases mem_update hm with hm | ⟨x, hx, rfl⟩
      · exact h.msgs m hm
      · exact (h.msgs x hx).extra line
  | copy => exact h
  | unknown => exact h

/-- Behind whole lines every entry of the table can be written. -/
theorem fit_table {log : Bytes} (h : ∀ line ∈ lines log, Whole line) : (table nm log).Fit :=
  feed_invariant (f := Table.step nm) (I := Table.Fit) (P := Whole) (fun _ _ => Table.Fit.step) (lines log)
    ⟨fun _ hm => absurd hm List.not_mem_nil, fun _ hd => absurd hd List.not_mem_nil⟩ h

end IndimailMta.Matchup
