import IndimailMta.Dkim.SignatureHeader

/-!
# Header fields and their canonical form
-/

namespace IndimailMta.Dkim

open IndimailMta Lib.Splits

/-! ## Header fields -/

/-- The name of a field: what is in front of the colon, without the blanks behind it. -/
def fieldName (h : Bytes) : Bytes := (h.takeWhile fun ch => !isColon ch).rdropWhile isWsp

def fieldValue (h : Bytes) : Bytes := (h.dropWhile fun ch => !isColon ch).tail

/-- The header is one of this name; letters are compared without their case. -/
def hasName (name h : Bytes) : Bool := 58 ∈ h && (fieldName h).map lower = name.map lower

/-- A name as it can be looked for. -/
structure PlainName (name : Bytes) : Prop where
  ne_nil : name ≠ []
  plain : ∀ ch ∈ name, ch ≠ 0 ∧ isColon ch = false ∧ isswsp ch = false

/-- What is not a letter is no letter in another case. -/
theorem lower_low {a b : Byte} (ha : a < 65) (h : lower b = a) : b = a := by
  rw [lower] at h
  split at h
  · rename_i hb
    have h1 := UInt8.le_iff_toNat_le.mp hb.1
    have h2 := UInt8.le_iff_toNat_le.mp hb.2
    rw [← h] at ha
    have h3 := UInt8.lt_iff_toNat_lt.mp ha
    rw [UInt8.toNat_add] at h3
    have h32 : (32 : Byte).toNat = 32 := rfl
    have h65 : (65 : Byte).toNat = 65 := rfl
    have h90 : (90 : Byte).toNat = 90 := rfl
    omega
  · exact h

theorem lower_of_low {a : Byte} (ha : a < 65) : lower a = a := by
  rw [lower, if_neg]
  rintro ⟨h, -⟩
  have h1 := UInt8.le_iff_toNat_le.mp h
  have h2 := UInt8.lt_iff_toNat_lt.mp ha
  omega

theorem isWsp_cases {ch : Byte} (h : isWsp ch = true) : ch = 32 ∨ ch = 9 := by
  simpa [isWsp] using h

theorem isswsp_isWsp {ch : Byte} (h : isWsp ch = true) : isswsp ch = true := by
  rcases isWsp_cases h with rfl | rfl <;> rfl

/-- A name is plain if it is one in another case. -/
theorem PlainName.of_lower {name m : Bytes} (h : PlainName name) (hm : m.map lower = name.map lower) :
    PlainName m := by
  refine ⟨fun hnil => h.ne_nil ?_, fun ch hch => ?_⟩
  · rw [hnil, List.map_nil] at hm
    exact List.map_eq_nil_iff.mp hm.symm
  · have hmem : lower ch ∈ name.map lower := hm ▸ List.mem_map_of_mem hch
    obtain ⟨b, hb, heq⟩ := List.mem_map.mp hmem
    obtain ⟨h0, hcolon, hblank⟩ := h.plain b hb
    have hlow : ch < 65 → b = ch := fun hlt => lower_low hlt (heq.trans (lower_of_low hlt))
    refine ⟨fun h => ?_, ?_, ?_⟩
    · exact h0 ((hlow (h ▸ by decide)).trans h)
    · by_contra hc
      have hc' : ch = 58 := by simpa [isColon] using hc
      rw [hlow (hc' ▸ by decide)] at hcolon
      exact hc hcolon
    · by_contra hc
      have hlt : ch < 65 := by
        rcases isswsp_cases (eq_true_of_ne_false hc) with rfl | rfl | rfl | rfl <;> decide
      rw [hlow hlt] at hblank
      exact hc hblank

/-- A field with this name, its blanks and its value. -/
theorem field_split {m ws : Bytes} (v : Bytes) (hm : PlainName m) (hws : ∀ ch ∈ ws, isWsp ch = true) :
    58 ∈ m ++ ws ++ 58 :: v ∧ fieldName (m ++ ws ++ 58 :: v) = m ∧ fieldValue (m ++ ws ++ 58 :: v) = v := by
  have hrun : ∀ ch ∈ m ++ ws, (!isColon ch) = true := by
    intro ch h
    rcases List.mem_append.mp h with h | h
    · rw [(hm.plain ch h).2.1]
      rfl
    · rcases isWsp_cases (hws ch h) with rfl | rfl <;> rfl
  have hlast : m.getLast?.any isWsp = false := by
    rw [List.getLast?_eq_some_getLast hm.ne_nil]
    have hblank := (hm.plain _ (List.getLast_mem hm.ne_nil)).2.2
    by_contra h
    rw [isswsp_isWsp (by simpa using h)] at hblank
    exact Bool.noConfusion hblank
  refine ⟨List.mem_append_right _ List.mem_cons_self, ?_, ?_⟩
  · rw [fieldName, takeWhile_stop hrun rfl, rdropWhile_stop hlast hws]
  · rw [fieldValue, dropWhile_stop hrun rfl, List.tail_cons]

theorem field_eq {h : Bytes} (hcolon : 58 ∈ h) :
    ∃ ws, (∀ ch ∈ ws, isWsp ch = true) ∧ h = fieldName h ++ ws ++ 58 :: fieldValue h := by
  refine ⟨(h.takeWhile fun ch => !isColon ch).rtakeWhile isWsp, fun ch => List.mem_rtakeWhile_imp, ?_⟩
  rw [fieldName, List.rdropWhile_append_rtakeWhile]
  have hne : h.dropWhile (fun ch => !isColon ch) ≠ [] := fun hnil => by
    have hall := List.dropWhile_eq_nil_iff.mp hnil 58 hcolon
    exact absurd hall (by decide)
  obtain ⟨ch, v, hv⟩ := List.exists_cons_of_ne_nil hne
  have hhead := head_dropWhile (fun ch => !isColon ch) h
  rw [hv] at hhead
  have hch : ch = 58 := by simpa [isColon] using hhead
  rw [fieldValue, hv, List.tail_cons, ← hch, ← hv, List.takeWhile_append_dropWhile]

/-- The fields of a name. -/
theorem hasName_iff {name h : Bytes} (hname : PlainName name) :
    hasName name h = true ↔ ∃ m ws v, h = m ++ ws ++ 58 :: v ∧ m.map lower = name.map lower ∧
      ∀ ch ∈ ws, isWsp ch = true := by
  rw [hasName, Bool.and_eq_true, decide_eq_true_iff, decide_eq_true_iff]
  constructor
  · rintro ⟨hcolon, hlower⟩
    obtain ⟨ws, hws, heq⟩ := field_eq hcolon
    exact ⟨_, ws, _, heq, hlower, hws⟩
  · rintro ⟨m, ws, v, rfl, hlower, hws⟩
    obtain ⟨hcolon, hm, -⟩ := field_split v (hname.of_lower hlower) hws
    exact ⟨hcolon, by rw [hm, hlower]⟩

/-- **The headers that are found** are those of the name. -/
theorem isHeader_eq {name : Bytes} (hname : PlainName name) (h : Bytes) :
    isHeader name h = hasName name h := by
  have hblank : (fun ch : Byte => decide (ch = 32) || decide (ch = 9)) = isWsp := rfl
  have hcstr : cstr name = name := cstr_eq fun h => (hname.plain 0 h).1 rfl
  rw [Bool.eq_iff_iff, hasName_iff hname, isHeader, strnieq, hcstr, List.take_length, Bool.and_eq_true,
    decide_eq_true_iff]
  constructor
  · rintro ⟨hlower, hhead⟩
    obtain ⟨v, hv⟩ := List.head?_eq_some_iff.mp (of_decide_eq_true hhead)
    rw [hblank] at hv
    refine ⟨(cstr h).take name.length, ((cstr h).drop name.length).takeWhile isWsp,
      v ++ h.dropWhile (· ≠ 0), ?_, hlower, fun ch => List.mem_takeWhile_imp⟩
    calc h
      _ = cstr h ++ h.dropWhile (· ≠ 0) := List.takeWhile_append_dropWhile.symm
      _ = (cstr h).take name.length ++ (((cstr h).drop name.length).takeWhile isWsp ++ 58 :: v) ++
            h.dropWhile (· ≠ 0) := by
          rw [← hv, List.takeWhile_append_dropWhile, List.take_append_drop]
      _ = _ := by simp only [List.append_assoc, List.cons_append]
  · rintro ⟨m, ws, v, rfl, hlower, hws⟩
    have hm := hname.of_lower hlower
    have hlen : m.length = name.length := by
      rw [← List.length_map (f := lower), hlower, List.length_map]
    have hrun : ∀ ch ∈ m ++ ws ++ [58], decide (ch ≠ 0) = true := by
      intro ch h
      rcases List.mem_append.mp h with h | h
      · rcases List.mem_append.mp h with h | h
        · exact decide_eq_true (hm.plain ch h).1
        · rcases isWsp_cases (hws ch h) with rfl | rfl <;> rfl
      · rw [List.mem_singleton.mp h]
        rfl
    have hcut : cstr (m ++ ws ++ 58 :: v) = m ++ (ws ++ 58 :: cstr v) := by
      rw [← List.singleton_append, ← List.append_assoc, cstr, List.takeWhile_append_of_pos hrun]
      simp only [cstr, List.append_assoc, List.singleton_append]
    rw [hcut, ← hlen, List.take_left, List.drop_left, hblank, dropWhile_stop hws rfl]
    exact ⟨hlower, rfl⟩

/-! ## The headers that are signed -/

/-- The last header of the name, and the headers that are left. -/
def lastNamed (name : Bytes) : List Bytes → Option (Bytes × List Bytes)
  | [] => none
  | h :: hs =>
      match lastNamed name hs with
      | some (last, rest) => some (last, h :: rest)
      | none => if hasName name h then some (h, hs) else none

/-- For each name the last header that is left; nothing if there is none. -/
def signedHeaders : List Bytes → List Bytes → List Bytes
  | [], _ => []
  | name :: names, hs =>
      match lastNamed name hs with
      | some (last, rest) => last :: signedHeaders names rest
      | none => signedHeaders names hs

theorem lastNamed_map {name : Bytes} (f : Nat → Bytes) {is : List Nat} (his : is.Nodup) :
    lastNamed name (is.map f) =
      (is.reverse.find? fun i => hasName name (f i)).map fun i => (f i, (is.erase i).map f) := by
  induction is with
  | nil => rfl
  | cons i is ih =>
      obtain ⟨hi, his⟩ := List.nodup_cons.mp his
      rw [List.map_cons, lastNamed, ih his, List.reverse_cons, List.find?_append]
      cases hfind : is.reverse.find? fun i => hasName name (f i) with
      | none =>
          rw [Option.map_none, Option.none_or, List.find?_singleton]
          dsimp only
          cases hhas : hasName name (f i) with
          | false => rfl
          | true =>
              rw [if_pos rfl, if_pos rfl, Option.map_some, List.erase_cons_head]
      | some k =>
          have hk : k ∈ is := List.mem_reverse.mp (List.mem_of_find?_eq_some hfind)
          have hne : ¬ (i == k) = true := fun h => hi (eq_of_beq h ▸ hk)
          rw [Option.map_some, Option.some_or, Option.map_some, List.erase_cons_tail hne, List.map_cons]

/-- The headers that are not used, in order. -/
def unused (headers : List Bytes) (used : List Nat) : List Nat :=
  (List.range headers.length).filter fun k => !used.contains k

theorem pick_eq {headers : List Bytes} (used : List Nat) {name : Bytes} (hname : PlainName name) :
    lastNamed name ((unused headers used).map (headers.getD · [])) =
      (pick headers used name).map fun k =>
        (headers.getD k [], (unused headers (used ++ [k])).map (headers.getD · [])) := by
  have hnodup : (unused headers used).Nodup := List.nodup_range.filter _
  have hpick : (unused headers used).reverse.find? (fun k => hasName name (headers.getD k [])) =
      pick headers used name := by
    rw [unused, ← List.filter_reverse, List.find?_filter, pick]
    congr 1
    funext k
    rw [isHeader_eq hname, Bool.and_comm]
    simp only [Bool.decide_and, Bool.decide_eq_true]
  rw [lastNamed_map _ hnodup, hpick]
  congr 1
  funext k
  have herase : (unused headers used).erase k = unused headers (used ++ [k]) := by
    rw [hnodup.erase_eq_filter, unused, unused, List.filter_filter]
    congr 1
    funext i
    rw [List.contains_eq_mem, List.contains_eq_mem]
    by_cases hk : i = k
    · simp [hk]
    · simp [hk]
  rw [herase]

theorem usedHeaders_fold (headers names : List Bytes) :
    usedHeaders headers names =
      names.foldl (fun used name => used ++ (pick headers used name).toList) [] := by
  rw [usedHeaders]
  congr 1
  funext used name
  cases pick headers used name with
  | none => exact (List.append_nil used).symm
  | some k => rfl

/-- **The headers that are used** are those that are signed. -/
theorem usedHeaders_eq {headers names : List Bytes} (hnames : ∀ name ∈ names, PlainName name) :
    (usedHeaders headers names).map (headers.getD · []) = signedHeaders names headers := by
  have hgen : ∀ used, ∃ new,
      names.foldl (fun used name => used ++ (pick headers used name).toList) used = used ++ new ∧
      new.map (headers.getD · []) =
        signedHeaders names ((unused headers used).map (headers.getD · [])) := by
    induction names with
    | nil => exact fun used => ⟨[], (List.append_nil _).symm, rfl⟩
    | cons name names ih =>
        intro used
        have hrest := fun used => ih (fun n hn => hnames n (List.mem_cons_of_mem name hn)) used
        rw [List.foldl_cons, signedHeaders, pick_eq used (hnames name List.mem_cons_self)]
        cases hpick : pick headers used name with
        | none =>
            rw [Option.toList_none, List.append_nil]
            exact hrest used
        | some k =>
            obtain ⟨new, hfold, hnew⟩ := hrest (used ++ [k])
            refine ⟨k :: new, ?_, ?_⟩
            · exact hfold.trans (List.append_assoc _ _ _)
            · rw [List.map_cons, hnew]
              rfl
  obtain ⟨new, hfold, hnew⟩ := hgen []
  have hall : (unused headers []).map (headers.getD · []) = headers := by
    have hfilter : ((List.range headers.length).filter fun k => !([] : List Nat).contains k) =
        List.range headers.length := List.filter_eq_self.mpr fun _ _ => rfl
    rw [unused, hfilter]
    refine List.ext_getElem ?_ fun i h1 h2 => ?_
    · rw [List.length_map, List.length_range]
    · rw [List.getElem_map, List.getElem_range, List.getD_eq_getElem?_getD, List.getElem?_eq_getElem h2,
        Option.getD_some]
  rw [usedHeaders_fold, hfold, List.nil_append, hnew, hall]

/-! ## Canonical headers -/

/-- A header field, without the CRLF at its end. For `relaxed` its name is in small letters, and there is
one space between the words of its value, which may be folded; for `nowsp` there are no blanks. -/
def canonical : Canon → Bytes → Bytes
  | .simple, h => h
  | .relaxed, h =>
      (fieldName h).map lower ++ 58 :: [32].intercalate (words isswsp (fieldValue h))
  | .nowsp, h => (fieldName h).map lower ++ 58 :: removeSWSP (fieldValue h)

/-- `CompressSWSP` leaves the words, and one space between. -/
theorem compressLoop_words (ws : Bool) (s : Bytes) :
    compressLoop ws s =
      if words isswsp s = [] then []
      else (if ws || s.head?.any isswsp then [32] else []) ++
        [32].intercalate (words isswsp s) := by
  induction s generalizing ws with
  | nil => rfl
  | cons ch s ih =>
      rw [compressLoop]
      cases hch : isswsp ch with
      | true =>
          rw [if_pos rfl, ih, words_cons_of_sep hch]
          have hhead : ((ch :: s).head?.any isswsp) = true := hch
          rw [hhead, Bool.or_true, Bool.true_or]
      | false =>
          have hhead : ((ch :: s).head?.any isswsp) = false := hch
          rw [if_neg Bool.false_ne_true, ih, hhead, Bool.or_false, Bool.false_or]
          by_cases hstop : s.head?.any (fun b => !isswsp b) = false
          · rw [words_cons_stop hch hstop, if_neg (List.cons_ne_nil _ _)]
            by_cases hnil : words isswsp s = []
            · rw [if_pos hnil, hnil, List.intercalate_singleton]
            · have hblank : s.head?.any isswsp = true := by
                cases s with
                | nil => exact absurd rfl hnil
                | cons c s => simpa using hstop
              rw [if_neg hnil, hblank, if_pos rfl, List.intercalate_cons_of_ne_nil hnil]
              rfl
          · cases s with
            | nil => exact absurd rfl hstop
            | cons c s =>
                have hc : isswsp c = false := by simpa using hstop
                obtain ⟨w, vs, hcs, hchs⟩ := words_cons_go hch hc s
                have hhead' : ((c :: s).head?.any isswsp) = false := hc
                rw [hcs, hchs, if_neg (List.cons_ne_nil _ _), if_neg (List.cons_ne_nil _ _), hhead',
                  if_neg Bool.false_ne_true, List.nil_append]
                cases vs with
                | nil => rw [List.intercalate_singleton, List.intercalate_singleton]
                | cons v vs =>
                    rw [List.intercalate_cons_of_ne_nil (List.cons_ne_nil v vs),
                      List.intercalate_cons_of_ne_nil (List.cons_ne_nil v vs)]
                    rfl

theorem compressLoop_append {m : Bytes} (hm : ∀ ch ∈ m, isswsp ch = false) (s : Bytes) :
    compressLoop false (m ++ s) = m ++ compressLoop false s := by
  induction m with
  | nil => rfl
  | cons ch m ih =>
      rw [List.cons_append, compressLoop, hm ch List.mem_cons_self, if_neg Bool.false_ne_true,
        if_neg Bool.false_ne_true, List.nil_append, ih fun c hc => hm c (List.mem_cons_of_mem ch hc),
        List.cons_append]

theorem compressLoop_blanks {ws : Bytes} (hws : ∀ ch ∈ ws, isswsp ch = true) {ch : Byte}
    (hch : isswsp ch = false) (s : Bytes) :
    compressLoop false (ws ++ ch :: s) = (if ws = [] then [] else [32]) ++ ch :: compressLoop false s := by
  have hskip : ∀ ws : Bytes, (∀ ch ∈ ws, isswsp ch = true) →
      compressLoop true (ws ++ ch :: s) = 32 :: ch :: compressLoop false s := by
    intro ws hws
    induction ws with
    | nil =>
        rw [List.nil_append, compressLoop, hch, if_neg Bool.false_ne_true, if_pos rfl]
        rfl
    | cons c ws ih =>
        rw [List.cons_append, compressLoop, hws c List.mem_cons_self, if_pos rfl]
        exact ih fun d hd => hws d (List.mem_cons_of_mem c hd)
  cases ws with
  | nil =>
      rw [if_pos rfl, List.nil_append, List.nil_append, compressLoop, hch, if_neg Bool.false_ne_true,
        if_neg Bool.false_ne_true]
      rfl
  | cons c ws =>
      rw [if_neg (List.cons_ne_nil _ _), List.cons_append, compressLoop, hws c List.mem_cons_self,
        if_pos rfl, hskip ws fun d hd => hws d (List.mem_cons_of_mem c hd)]
      rfl

/-- A text that begins with words has no space at its front. -/
theorem head_intercalate {ws : List Bytes} (hws : ∀ w ∈ ws, w ≠ [] ∧ ∀ ch ∈ w, isswsp ch = false) :
    ([32].intercalate ws).head? ≠ some 32 := by
  cases ws with
  | nil => exact nofun
  | cons w ws =>
      obtain ⟨hne, hw⟩ := hws w List.mem_cons_self
      obtain ⟨ch, w, rfl⟩ := List.exists_cons_of_ne_nil hne
      have hch := hw ch List.mem_cons_self
      have hhead : ([32].intercalate ((ch :: w) :: ws)).head? = some ch := by
        cases ws with
        | nil => rw [List.intercalate_singleton]; rfl
        | cons v ws =>
            rw [List.intercalate_cons_of_ne_nil (List.cons_ne_nil v ws)]
            rfl
      rw [hhead]
      intro h
      rw [Option.some.inj h] at hch
      exact absurd hch (by decide)

/-- The space behind the colon is removed. -/
theorem value_relaxed (v : Bytes) :
    (if (compressLoop false v).head? = some 32 then (compressLoop false v).tail
      else compressLoop false v) = [32].intercalate (words isswsp v) := by
  rw [compressLoop_words, Bool.false_or]
  by_cases hnil : words isswsp v = []
  · rw [if_pos hnil, hnil]
    rfl
  · rw [if_neg hnil]
    cases v.head?.any isswsp with
    | true =>
        rw [if_pos rfl]
        exact if_pos rfl
    | false =>
        rw [if_neg Bool.false_ne_true, List.nil_append]
        exact if_neg (head_intercalate fun w hw => mem_words hw)

/-- The space in front of the colon is removed. -/
theorem name_relaxed {m : Bytes} (hm : PlainName m) (space : Bool) :
    (if ((m ++ if space then [32] else []).map lower).getLast? = some 32 then
        ((m ++ if space then [32] else []).map lower).dropLast
      else (m ++ if space then [32] else []).map lower) = m.map lower := by
  cases space with
  | true =>
      have hmap : (m ++ if true then [32] else []).map lower = m.map lower ++ [32] := List.map_append
      rw [hmap, List.getLast?_concat, if_pos rfl, List.dropLast_concat]
  | false =>
      have hmap : (m ++ if false then [32] else []) = m := List.append_nil m
      rw [hmap, if_neg]
      intro h
      rw [List.getLast?_map, List.getLast?_eq_some_getLast hm.ne_nil, Option.map_some] at h
      have hlast : m.getLast hm.ne_nil = 32 := lower_low (by decide) (Option.some.inj h)
      have hblank := (hm.plain _ (List.getLast_mem hm.ne_nil)).2.2
      rw [hlast] at hblank
      exact absurd hblank (by decide)

/-- **`RelaxHeader`** on a field. -/
theorem relaxHeader_field {m ws : Bytes} (hm : PlainName m) (hws : ∀ ch ∈ ws, isswsp ch = true)
    (v : Bytes) :
    relaxHeader (m ++ (ws ++ 58 :: v)) =
      m.map lower ++ 58 :: [32].intercalate (words isswsp v) := by
  have hplain : ∀ ch ∈ m, isswsp ch = false := fun ch h => (hm.plain ch h).2.2
  have hspace : ws.isEmpty = decide (ws = []) := by cases ws <;> rfl
  have hcompress : compressSWSP (m ++ (ws ++ 58 :: v)) =
      (m ++ if !ws.isEmpty then [32] else []) ++ 58 :: compressLoop false v := by
    rw [compressSWSP, compressLoop_append hplain, compressLoop_blanks hws rfl, List.append_assoc]
    cases ws <;> rfl
  generalize (!ws.isEmpty) = space at hcompress
  have hcolon : ∀ ch ∈ m ++ (if space then [32] else []), ¬ ch = 58 := by
    intro ch h
    rcases List.mem_append.mp h with h | h
    · simpa [isColon] using (hm.plain ch h).2.1
    · cases space with
      | false => exact absurd h List.not_mem_nil
      | true =>
          rw [List.mem_singleton.mp h]
          decide
  have hfind : ((m ++ if space then [32] else []) ++ 58 :: compressLoop false v).findIdx?
      (· = 58) = some (m ++ if space then [32] else []).length := by
    rw [List.findIdx?_append, List.findIdx?_eq_none_iff.mpr fun ch h => decide_eq_false (hcolon ch h),
      Option.none_or, List.findIdx?_cons]
    simp
  have hdrop : ((m ++ if space then [32] else []) ++ 58 :: compressLoop false v).drop
      ((m ++ if space then [32] else []).length + 1) = compressLoop false v := by
    rw [← List.drop_drop, List.drop_left]
    rfl
  rw [relaxHeader, hcompress]
  dsimp only
  rw [hfind]
  dsimp only
  rw [List.take_left, hdrop, value_relaxed, name_relaxed hm]

theorem getElem?_space {x : Bytes} {n : Nat} (hx : x.length = n) (t : Bytes) :
    (x ++ 32 :: t)[n]? = some 32 := by
  rw [List.getElem?_append_right (Nat.le_of_eq hx), hx, Nat.sub_self]
  rfl

/-- Where something else than the colon is behind the blanks, there is a space behind the name. -/
theorem relaxHeader_other {m ws : Bytes} {ch : Byte} (hm : PlainName m) (hne : ws ≠ [])
    (hws : ∀ ch ∈ ws, isswsp ch = true) (hch : isswsp ch = false) (h58 : ch ≠ 58) (v : Bytes) :
    (relaxHeader (m ++ (ws ++ ch :: v)))[m.length]? = some 32 := by
  have hplain : ∀ ch ∈ m, isswsp ch = false := fun ch h => (hm.plain ch h).2.2
  have hcompress : compressSWSP (m ++ (ws ++ ch :: v)) =
      m ++ 32 :: ch :: compressLoop false v := by
    rw [compressSWSP, compressLoop_append hplain, compressLoop_blanks hws hch, if_neg hne]
    rfl
  have hcolon : ∀ ch ∈ m, decide (ch = 58) = false := fun ch h => (hm.plain ch h).2.1
  have hfind : (m ++ 32 :: ch :: compressLoop false v).findIdx? (· = 58) =
      ((compressLoop false v).findIdx? (· = 58)).map fun k => k + 2 + m.length := by
    rw [List.findIdx?_append, List.findIdx?_eq_none_iff.mpr hcolon, Option.none_or,
      List.findIdx?_cons, List.findIdx?_cons, decide_eq_false h58]
    cases (compressLoop false v).findIdx? (· = 58) <;> rfl
  rw [relaxHeader, hcompress]
  dsimp only
  rw [hfind]
  cases (compressLoop false v).findIdx? (· = 58) with
  | none => exact getElem?_space rfl _
  | some k =>
      have htake : (m ++ 32 :: ch :: compressLoop false v).take (k + 2 + m.length) =
          m ++ 32 :: ch :: (compressLoop false v).take k := by
        rw [Nat.add_comm, List.take_length_add_append]
        rfl
      have hlen : (m.map lower).length = m.length := List.length_map _
      have hmap : (m ++ 32 :: ch :: (compressLoop false v).take k).map lower =
          m.map lower ++ 32 :: lower ch :: ((compressLoop false v).take k).map lower := List.map_append
      rw [Option.map_some]
      dsimp only
      rw [htake, hmap]
      split
      · rw [List.dropLast_append_cons, List.append_assoc]
        exact getElem?_space hlen _
      · rw [List.append_assoc]
        exact getElem?_space hlen _

/-- **A header is relaxed to that of a field** only if it is one, with the same words. -/
theorem relaxHeader_eq_iff {m s : Bytes} (hm : PlainName m)
    (hs : ∃ ch t, s = ch :: t ∧ (isswsp ch = true ∨ ch = 58)) {ws : List Bytes}
    (hws : ∀ w ∈ ws, w ≠ [] ∧ ∀ ch ∈ w, isswsp ch = false) :
    relaxHeader (m ++ s) = m.map lower ++ 58 :: [32].intercalate ws ↔
      (s.dropWhile isswsp).head? = some 58 ∧ words isswsp (s.dropWhile isswsp).tail = ws := by
  have hlen : (m.map lower).length = m.length := List.length_map _
  have hcut : s = s.takeWhile isswsp ++ s.dropWhile isswsp := List.takeWhile_append_dropWhile.symm
  have hblank : ∀ ch ∈ s.takeWhile isswsp, isswsp ch = true := fun ch => List.mem_takeWhile_imp
  have hhead := head_dropWhile isswsp s
  have hat : (m.map lower ++ 58 :: [32].intercalate ws)[m.length]? = some 58 := by
    rw [List.getElem?_append_right (Nat.le_of_eq hlen), hlen, Nat.sub_self]
    rfl
  cases hrest : s.dropWhile isswsp with
  | nil =>
      refine iff_of_false (fun heq => ?_) fun h => absurd h.1 (Option.some_ne_none 58).symm
      have hnone : words isswsp s = [] := by
        have hwords := words_append_of_sep (List.dropWhile_eq_nil_iff.mp hrest) []
        rwa [List.append_nil] at hwords
      have hcompress : compressSWSP (m ++ s) = m := by
        rw [compressSWSP, compressLoop_append fun ch h => (hm.plain ch h).2.2, compressLoop_words, hnone,
          if_pos rfl, List.append_nil]
      have hfind : m.findIdx? (· = 58) = none :=
        List.findIdx?_eq_none_iff.mpr fun ch h => (hm.plain ch h).2.1
      have hrelax : relaxHeader (m ++ s) = m := by
        rw [relaxHeader, hcompress]
        dsimp only
        rw [hfind]
      rw [← heq, hrelax, List.getElem?_eq_none (Nat.le_refl _)] at hat
      cases hat
  | cons ch v =>
      rw [hrest] at hcut hhead
      have hch : isswsp ch = false := hhead
      rw [List.head?_cons, List.tail_cons, Option.some_inj]
      by_cases h58 : ch = 58
      · rw [h58] at hcut
        rw [hcut, relaxHeader_field hm hblank, List.append_cancel_left_eq, List.cons.injEq]
        constructor
        · rintro ⟨-, heq⟩
          refine ⟨h58, intercalate_inj ?_ ?_ heq⟩
          · exact fun w hw => ⟨(mem_words hw).1, fun h => absurd ((mem_words hw).2 32 h) (by decide)⟩
          · exact fun w hw => ⟨(hws w hw).1, fun h => absurd ((hws w hw).2 32 h) (by decide)⟩
        · rintro ⟨-, rfl⟩
          exact ⟨rfl, rfl⟩
      · have hne : s.takeWhile isswsp ≠ [] := by
          intro hnil
          rw [hnil, List.nil_append] at hcut
          obtain ⟨c, t, heq, hc⟩ := hs
          rw [hcut] at heq
          obtain ⟨rfl, -⟩ := List.cons.inj heq
          rcases hc with hc | hc
          · rw [hch] at hc
            exact Bool.noConfusion hc
          · exact h58 hc
        refine iff_of_false (fun heq => ?_) fun h => h58 h.1
        have hspace := relaxHeader_other hm hne hblank hch h58 v
        rw [← hcut, heq, hat] at hspace
        exact absurd (Option.some.inj hspace) (by decide)

/-! Without blanks. -/

theorem removeSWSP_append (x y : Bytes) : removeSWSP (x ++ y) = removeSWSP x ++ removeSWSP y :=
  List.filter_append x y

theorem removeSWSP_plain {m : Bytes} (hm : PlainName m) : removeSWSP m = m :=
  List.filter_eq_self.mpr fun ch h => by
    rw [(hm.plain ch h).2.2]
    rfl

theorem removeSWSP_field {m ws : Bytes} (hm : PlainName m) (hws : ∀ ch ∈ ws, isWsp ch = true)
    (v : Bytes) : removeSWSP (m ++ ws ++ 58 :: v) = m ++ 58 :: removeSWSP v := by
  have hnil : removeSWSP ws = [] := List.filter_eq_nil_iff.mpr fun ch h => by
    rw [isswsp_isWsp (hws ch h)]
    exact Bool.false_ne_true
  have hcolon : removeSWSP (58 :: v) = 58 :: removeSWSP v := rfl
  rw [removeSWSP_append, removeSWSP_append, removeSWSP_plain hm, hnil, List.append_nil, hcolon]

theorem lowerName_field {m : Bytes} (hm : PlainName m) (v : Bytes) :
    lowerName (m ++ 58 :: v) = m.map lower ++ 58 :: v := by
  have hplain : ∀ ch ∈ m, ¬ (ch = 0 ∨ ch = 58) := by
    rintro ch h (h0 | h58)
    · exact (hm.plain ch h).1 h0
    · exact absurd (hm.plain ch h).2.1 (h58 ▸ by decide)
  clear hm
  induction m with
  | nil => exact if_pos (.inr rfl)
  | cons ch m ih =>
      rw [List.cons_append, lowerName, if_neg (hplain ch List.mem_cons_self),
        ih fun c hc => hplain c (List.mem_cons_of_mem ch hc)]
      rfl

/-- **The canonical header** of a field that was found by its name. -/
theorem canonHeader_eq {name h : Bytes} (c : Canon) (hname : PlainName name) (hh : hasName name h = true) :
    canonHeader c h = canonical c h := by
  obtain ⟨m, ws, v, rfl, hlower, hws⟩ := (hasName_iff hname).mp hh
  have hm := hname.of_lower hlower
  obtain ⟨-, hfield, hvalue⟩ := field_split v hm hws
  cases c with
  | simple => rfl
  | relaxed =>
      rw [canonical, hfield, hvalue, canonHeader, List.append_assoc]
      exact relaxHeader_field hm (fun ch h => isswsp_isWsp (hws ch h)) v
  | nowsp =>
      rw [canonical, hfield, hvalue, canonHeader, removeSWSP_field hm hws, lowerName_field hm]

theorem hasName_of_mem_signedHeaders {names hs : List Bytes} {h : Bytes} (hh : h ∈ signedHeaders names hs) :
    ∃ name ∈ names, hasName name h = true := by
  have hlast : ∀ (name : Bytes) (hs : List Bytes) {last : Bytes} {rest : List Bytes},
      lastNamed name hs = some (last, rest) → hasName name last = true := by
    intro name hs
    induction hs with
    | nil => exact fun h => nomatch h
    | cons x hs ih =>
        intro last rest h
        rw [lastNamed] at h
        cases hl : lastNamed name hs with
        | some r =>
            obtain ⟨last', rest'⟩ := r
            rw [hl] at h
            cases h
            exact ih hl
        | none =>
            rw [hl] at h
            dsimp only at h
            split at h
            · rename_i hx
              cases h
              exact hx
            · exact nomatch h
  induction names generalizing hs with
  | nil => exact absurd hh List.not_mem_nil
  | cons name names ih =>
      have hrest : ∀ {hs : List Bytes}, h ∈ signedHeaders names hs → ∃ n ∈ name :: names,
          hasName n h = true := fun hmem =>
        let ⟨n, hn, hnh⟩ := ih hmem
        ⟨n, List.mem_cons_of_mem name hn, hnh⟩
      rw [signedHeaders] at hh
      cases hl : lastNamed name hs with
      | none =>
          rw [hl] at hh
          exact hrest hh
      | some r =>
          obtain ⟨last, rest⟩ := r
          rw [hl] at hh
          rcases List.mem_cons.mp hh with rfl | hh
          · exact ⟨name, List.mem_cons_self, hlast name hs hl⟩
          · exact hrest hh

/-- **The bytes that are hashed for the names of `h=`.** -/
theorem headerBytes_eq {headers : List Bytes} {s : Signature} (hnames : ∀ name ∈ s.signedHeaders, PlainName name) :
    headerBytes headers s =
      ((signedHeaders s.signedHeaders headers).flatMap fun h => canonical s.headerCanon h ++ [13, 10]) ++
        if s.bodyHash = [] then [13, 10] else [] := by
  rw [headerBytes, ← usedHeaders_eq hnames, List.flatMap_map]
  congr 1
  have hmem : ∀ k ∈ usedHeaders headers s.signedHeaders,
      canonHeader s.headerCanon (headers.getD k []) = canonical s.headerCanon (headers.getD k []) := by
    intro k hk
    have hk' : headers.getD k [] ∈ signedHeaders s.signedHeaders headers := by
      rw [← usedHeaders_eq hnames]
      exact List.mem_map_of_mem hk
    obtain ⟨name, hname, hh⟩ := hasName_of_mem_signedHeaders hk'
    exact canonHeader_eq _ (hnames name hname) hh
  rw [List.flatMap_def, List.flatMap_def]
  congr 1
  exact List.map_congr_left fun k hk => by rw [hmem k hk]

end IndimailMta.Dkim
