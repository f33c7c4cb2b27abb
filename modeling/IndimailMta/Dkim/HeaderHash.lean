import IndimailMta.Dkim.Fields

/-!
# The headers that are hashed
-/

namespace IndimailMta.Dkim

open IndimailMta Lib.Splits

/-! ## The header of the signature -/

/-- The header of a signature: its name, blanks, the tags, and what is behind a NUL. -/
structure SigHeader where
  name : Bytes
  blanks : Bytes
  tags : TagList
  tail : Bytes
  named : name.map lower = (asc "DKIM-Signature").map lower
  blank : ∀ ch ∈ blanks, isWsp ch = true
  ended : tail = [] ∨ ∃ u, tail = 0 :: u

namespace SigHeader

def text (r : SigHeader) : Bytes := r.name ++ r.blanks ++ 58 :: (r.tags.text ++ r.tail)

/-- The header without the value of `b=`. -/
def stripped (r : SigHeader) : Bytes :=
  r.name ++ r.blanks ++ 58 :: (r.tags.without (asc "b") ++ r.tail)

/-- The value of a tag. -/
def value (r : SigHeader) (name : Bytes) : Bytes := ((r.tags.cut name).map fun c => c.2.1).getD []

/-- The names in `h=`. -/
def names (r : SigHeader) : List Bytes := words isColon (removeSWSP (r.value (asc "h")))

end SigHeader

theorem plainName_signature : PlainName (asc "DKIM-Signature") := ⟨by decide, by decide +kernel⟩

theorem nul_notMem_tag (t : Tag) : (0 : Byte) ∉ t.text := by
  have hblank : ¬ isswsp 0 = true := by decide
  simp only [Tag.text, Tag.front, List.mem_append, List.mem_cons, not_or]
  refine ⟨⟨⟨⟨⟨?_, ?_⟩, ?_⟩, ?_, ?_⟩, ?_⟩, ?_⟩
  · exact fun h => hblank (t.lead_blank 0 h)
  · exact fun h => absurd (t.named.2 0 h) (by decide)
  · exact fun h => hblank (t.gap_blank 0 h)
  · decide
  · exact fun h => hblank (t.mid_blank 0 h)
  · exact fun h => absurd (t.printable 0 h) (by decide)
  · exact fun h => hblank (t.trail_blank 0 h)

theorem nul_notMem_tags (ts : TagList) : (0 : Byte) ∉ ts.text := by
  induction ts with
  | blank ws h => exact fun hmem => absurd (h 0 hmem) (by decide)
  | last t => exact nul_notMem_tag t
  | cons t ts ih =>
      have htext : (TagList.cons t ts).text = t.text ++ 59 :: ts.text := rfl
      rw [htext, List.mem_append, List.mem_cons, not_or, not_or]
      exact ⟨nul_notMem_tag t, by decide, ih⟩

section Reading

variable {r : SigHeader} {wanted : List Bytes} {out : List Item} {x v y : Bytes}

theorem SigHeader.plain (r : SigHeader) : PlainName r.name := plainName_signature.of_lower r.named

theorem SigHeader.length_name (r : SigHeader) : r.name.length = 14 := by
  rw [← List.length_map (f := lower), r.named]
  rfl

theorem SigHeader.behindColon_text (r : SigHeader) : behindColon r.text = r.tags.text ++ r.tail := by
  obtain ⟨hcolon, -, hvalue⟩ := field_split (r.tags.text ++ r.tail) r.plain r.blank
  have hfun : (fun ch : Byte => decide (ch ≠ 58)) = fun ch => !isColon ch := by
    funext ch
    rw [isColon, decide_not]
  rw [behindColon, SigHeader.text, if_pos hcolon, hfun]
  exact hvalue

theorem SigHeader.cstr_text (r : SigHeader) : r.tags.text = cstr (behindColon r.text) := by
  rw [r.behindColon_text]
  rcases r.ended with h | ⟨u, h⟩
  · rw [h, List.append_nil, cstr_eq (nul_notMem_tags r.tags)]
  · rw [h, cstr_append u (nul_notMem_tags r.tags)]

/-- **What the verifier picks up is such a header.** -/
theorem exists_sigHeader {h : Bytes} (hh : isHeader (asc "DKIM-Signature") h = true)
    (hp : parseTagValueList (behindColon h) wanted = some out) : ∃ r : SigHeader, r.text = h := by
  rw [isHeader_eq plainName_signature] at hh
  obtain ⟨m, ws, v, rfl, hlower, hws⟩ := (hasName_iff plainName_signature).mp hh
  obtain ⟨ts, hts⟩ := parseTagValueList_reads hp
  have hm := plainName_signature.of_lower hlower
  obtain ⟨hcolon, -, hvalue⟩ := field_split v hm hws
  have hfun : (fun ch : Byte => decide (ch ≠ 58)) = fun ch => !isColon ch := by
    funext ch
    rw [isColon, decide_not]
  have hbehind : behindColon (m ++ ws ++ 58 :: v) = v := by
    rw [behindColon, if_pos hcolon, hfun]
    exact hvalue
  rw [hbehind] at hts
  have hv : v = ts.text ++ v.dropWhile (· ≠ 0) := by
    rw [hts]
    exact List.takeWhile_append_dropWhile.symm
  have hended : v.dropWhile (· ≠ 0) = [] ∨ ∃ u, v.dropWhile (· ≠ 0) = 0 :: u := by
    have hhead := head_dropWhile (fun ch : Byte => decide (ch ≠ 0)) v
    cases hd : v.dropWhile (· ≠ 0) with
    | nil => exact .inl rfl
    | cons ch u =>
        rw [hd] at hhead
        have hch : ch = 0 := by simpa using hhead
        exact .inr ⟨u, by rw [hch]⟩
  refine ⟨⟨m, ws, ts, v.dropWhile (· ≠ 0), hlower, hws, hended⟩, ?_⟩
  rw [SigHeader.text, ← hv]

/-! ## What is cut out -/

/-- What is between the name and the value of `b=`. -/
def SigHeader.front (r : SigHeader) (x : Bytes) : Bytes := r.blanks ++ 58 :: x

/-- The front without its last bytes, as many as there are blanks; and these bytes. -/
def SigHeader.kept (r : SigHeader) (x : Bytes) : Bytes := (r.front x).take (x.length + 1)

def SigHeader.before (r : SigHeader) (x : Bytes) : Bytes := (r.front x).drop (x.length + 1)

/-- The last bytes of the front and the value: as many as there are blanks. -/
def SigHeader.left (r : SigHeader) (x v : Bytes) : Bytes := (r.before x ++ v).drop v.length

theorem SigHeader.text_cut (hcut : r.tags.cut (asc "b") = some (x, v, y)) :
    r.text = r.name ++ (r.kept x ++ ((r.before x ++ v) ++ (y ++ r.tail))) := by
  have hfront : r.kept x ++ r.before x = r.blanks ++ 58 :: x := List.take_append_drop _ _
  calc r.text
    _ = r.name ++ ((r.blanks ++ 58 :: x) ++ (v ++ (y ++ r.tail))) := by
        rw [SigHeader.text, TagList.text_cut hcut]
        simp only [List.append_assoc, List.cons_append]
    _ = _ := by
        rw [← hfront]
        simp only [List.append_assoc]

theorem SigHeader.length_kept (r : SigHeader) (x : Bytes) : (r.kept x).length = x.length + 1 := by
  rw [SigHeader.kept, List.length_take, SigHeader.front, List.length_append, List.length_cons]
  omega

/-- **The header that is hashed**: of the bytes in front of the value as many are lost as there are blanks
in front of the colon. -/
theorem sSignedSig_text (hcut : r.tags.cut (asc "b") = some (x, v, y))
    (hp : parseTagValueList (behindColon r.text) wanted = some out) (hb : asc "b" ∈ wanted) :
    sSignedSig r.text = r.name ++ (r.kept x ++ r.left x v ++ (y ++ r.tail)) := by
  obtain ⟨out', hp'⟩ := parseTagValueList_single r.cstr_text hp hb
  have hlookup := parseTagValueList_lookup r.cstr_text hp' (List.mem_singleton.mpr rfl)
  rw [hcut, Option.map_some] at hlookup
  have hlen : (r.name ++ r.kept x).length = 15 + x.length := by
    rw [List.length_append, r.length_name, r.length_kept]
    omega
  have hle : v.length ≤ (r.before x ++ v).length := by
    rw [List.length_append]
    exact Nat.le_add_left _ _
  rw [sSignedSig, hp', Option.bind_some, hlookup]
  dsimp only
  rw [SigHeader.text_cut hcut, ← List.append_assoc r.name, ← hlen, List.take_left, ← List.drop_drop,
    List.drop_left, List.drop_append_of_le_length hle, SigHeader.left]
  simp only [List.append_assoc]

/-- The header without the value. -/
theorem SigHeader.stripped_eq (hcut : r.tags.cut (asc "b") = some (x, v, y))
    (hp : parseTagValueList (behindColon r.text) wanted = some out) (hb : asc "b" ∈ wanted) :
    r.stripped = r.name ++ (r.kept x ++ r.before x ++ (y ++ r.tail)) := by
  have hone := parseTagValueList_once r.cstr_text hp hb
  have hfront : r.kept x ++ r.before x = r.blanks ++ 58 :: x := List.take_append_drop _ _
  rw [SigHeader.stripped, TagList.without_cut hcut hone, hfront]
  simp only [List.append_assoc, List.cons_append]

end Reading


/-- Of the bytes that were lost no one makes a difference: what is left in their place is the same, but for
what the canonicalization takes away. -/
def SigHeader.Harmless (c : Canon) (r : SigHeader) : Prop :=
  ∀ x v y, r.tags.cut (asc "b") = some (x, v, y) →
    match c with
    | .simple => r.left x v = r.before x
    | .relaxed =>
        let s := r.kept x ++ r.left x v ++ (y ++ r.tail)
        (s.dropWhile isswsp).head? = some 58 ∧
          words isswsp (s.dropWhile isswsp).tail = words isswsp (x ++ (y ++ r.tail))
    | .nowsp => removeSWSP (r.left x v) = removeSWSP (r.before x)

/-- Nothing is lost where there is no blank in front of the colon. -/
theorem SigHeader.harmless_of_nil {r : SigHeader} (c : Canon) (h : r.blanks = []) : r.Harmless c := by
  intro x v y hcut
  have hbefore : r.before x = [] := by
    rw [SigHeader.before, SigHeader.front, h]
    exact List.drop_length
  have hkept : r.kept x = 58 :: x := by
    rw [SigHeader.kept, SigHeader.front, h]
    exact List.take_of_length_le (Nat.le_refl _)
  have hleft : r.left x v = [] := by
    rw [SigHeader.left, hbefore]
    exact List.drop_length
  cases c with
  | simple => exact hleft.trans hbefore.symm
  | relaxed =>
      have hs : (r.kept x ++ r.left x v ++ (y ++ r.tail)).dropWhile isswsp = 58 :: (x ++ (y ++ r.tail)) := by
        rw [hkept, hleft, List.append_nil, List.cons_append]
        exact List.dropWhile_cons_of_neg (by decide)
      dsimp only
      rw [hs]
      exact ⟨rfl, rfl⟩
  | nowsp => exact congrArg removeSWSP (hleft.trans hbefore.symm)

section Signed

variable {r : SigHeader} {wanted : List Bytes} {out : List Item} {x v y : Bytes}

theorem SigHeader.kept_head (r : SigHeader) (x s : Bytes) :
    ∃ ch t, r.kept x ++ s = ch :: t ∧ (isswsp ch = true ∨ ch = 58) := by
  cases hb : r.blanks with
  | nil =>
      refine ⟨58, x.take x.length ++ s, ?_, .inr rfl⟩
      rw [SigHeader.kept, SigHeader.front, hb]
      rfl
  | cons ch ws =>
      refine ⟨ch, (ws ++ 58 :: x).take x.length ++ s, ?_, .inl ?_⟩
      · rw [SigHeader.kept, SigHeader.front, hb]
        rfl
      · exact isswsp_isWsp (r.blank ch (by rw [hb]; exact List.mem_cons_self))

/-- **The header of the signature is hashed as it should be** just in that case. -/
theorem signedSig_iff {s : Signature} (hs : s.stripped = sSignedSig r.text)
    (hcut : r.tags.cut (asc "b") = some (x, v, y))
    (hp : parseTagValueList (behindColon r.text) wanted = some out) (hb : asc "b" ∈ wanted) :
    signedSig s = canonical s.headerCanon r.stripped ↔ r.Harmless s.headerCanon := by
  rw [sSignedSig_text hcut hp hb] at hs
  have hstripped := SigHeader.stripped_eq hcut hp hb
  have hone := parseTagValueList_once r.cstr_text hp hb
  have hwithout := TagList.without_cut hcut hone
  obtain ⟨-, hname, hvalue⟩ := field_split (r.tags.without (asc "b") ++ r.tail) r.plain r.blank
  have hharmless : r.Harmless s.headerCanon ↔
      match s.headerCanon with
      | .simple => r.left x v = r.before x
      | .relaxed =>
          (((r.kept x ++ r.left x v ++ (y ++ r.tail)).dropWhile isswsp).head? = some 58 ∧
            words isswsp ((r.kept x ++ r.left x v ++ (y ++ r.tail)).dropWhile isswsp).tail =
              words isswsp (x ++ (y ++ r.tail)))
      | .nowsp => removeSWSP (r.left x v) = removeSWSP (r.before x) := by
    constructor
    · exact fun h => h x v y hcut
    · intro h x' v' y' hcut'
      rw [hcut] at hcut'
      cases hcut'
      exact h
  rw [hharmless, signedSig, hs]
  cases s.headerCanon with
  | simple =>
      dsimp only
      rw [canonical, hstripped, List.append_cancel_left_eq, List.append_cancel_right_eq,
        List.append_cancel_left_eq]
  | relaxed =>
      dsimp only
      rw [canonical, SigHeader.stripped, hname, hvalue, hwithout, List.append_assoc x,
        List.append_assoc (r.kept x)]
      exact relaxHeader_eq_iff r.plain (r.kept_head x _) fun w hw => mem_words hw
  | nowsp =>
      have hlower : asc "dkim-signature" = r.name.map lower := by
        rw [r.named]
        decide
      have hdrop : (removeSWSP (r.name ++ (r.kept x ++ r.left x v ++ (y ++ r.tail)))).drop 14 =
          removeSWSP (r.kept x ++ r.left x v ++ (y ++ r.tail)) := by
        rw [removeSWSP_append, removeSWSP_plain r.plain, ← r.length_name, List.drop_left]
      have hnowsp : 58 :: removeSWSP (r.tags.without (asc "b") ++ r.tail) =
          removeSWSP (r.kept x ++ r.before x ++ (y ++ r.tail)) := by
        have hfront := removeSWSP_field r.plain r.blank (r.tags.without (asc "b") ++ r.tail)
        rw [← SigHeader.stripped, hstripped, removeSWSP_append, removeSWSP_plain r.plain,
          List.append_cancel_left_eq] at hfront
        exact hfront.symm
      dsimp only
      rw [canonical, SigHeader.stripped, hname, hvalue, hdrop, hlower, List.append_cancel_left_eq, hnowsp]
      generalize y ++ r.tail = z
      rw [removeSWSP_append, removeSWSP_append, removeSWSP_append, removeSWSP_append,
        List.append_cancel_right_eq, List.append_cancel_left_eq]

end Signed


/-! ## The run -/

/-- More was hashed for a signature; of the body nothing is put to the headers if it has a hash of its
own. -/
structure Grown (i j : SignatureInfo) : Prop where
  sig : j.sig = i.sig
  status : j.status = i.status
  selector : j.selector = i.selector
  checked : j.checked = i.checked
  hdr : ∃ d, j.hdr = i.hdr ++ d ∧ (i.sig.bodyHash ≠ [] → d = [])

theorem Grown.refl (i : SignatureInfo) : Grown i i :=
  ⟨rfl, rfl, rfl, rfl, [], (List.append_nil _).symm, fun _ => rfl⟩

theorem Grown.trans {i j k : SignatureInfo} (h : Grown i j) (h' : Grown j k) : Grown i k := by
  obtain ⟨d, hd, hnil⟩ := h.hdr
  obtain ⟨d', hd', hnil'⟩ := h'.hdr
  refine ⟨h'.sig.trans h.sig, h'.status.trans h.status, h'.selector.trans h.selector,
    h'.checked.trans h.checked, d ++ d', ?_, fun hhash => ?_⟩
  · rw [hd', hd, List.append_assoc]
  · rw [hnil hhash, hnil' (h.sig ▸ hhash), List.nil_append]

theorem limit_grown (b : Bytes) (i : SignatureInfo) :
    Grown i (limit b i).2 ∧ (limit b i).2.hdr = i.hdr := by
  rw [limit]
  split
  · exact ⟨Grown.refl i, rfl⟩
  · dsimp only
    split <;> exact ⟨⟨rfl, rfl, rfl, rfl, [], (List.append_nil _).symm, fun _ => rfl⟩, rfl⟩

theorem hashBody_grown (b : Bytes) (p : SignatureInfo × Bytes) : Grown p.1 (hashBody b p).1 := by
  obtain ⟨hgrown, hhdr⟩ := limit_grown b p.1
  rw [hashBody]
  dsimp only
  split
  · exact ⟨hgrown.sig, hgrown.status, hgrown.selector, hgrown.checked, hgrown.hdr⟩
  · rename_i hhash
    refine ⟨hgrown.sig, hgrown.status, hgrown.selector, hgrown.checked, (limit b p.1).1, ?_, fun h => ?_⟩
    · rw [hashHeader]
      dsimp only
      rw [hhdr]
    · rw [hgrown.sig] at hhash
      exact absurd h hhash

theorem hashEmptyLines_grown (n : Nat) (p : SignatureInfo × Bytes) :
    Grown p.1 (hashEmptyLines n p).1 := by
  induction n generalizing p with
  | zero => exact Grown.refl p.1
  | succ n ih => exact (hashBody_grown [13, 10] p).trans (ih _)

theorem bodyLine_grown (bEOF : Bool) (b : Bytes) (p : SignatureInfo × Bytes) :
    Grown p.1 (bodyLine bEOF b p).1 := by
  have hcount : ∀ n, Grown p.1 { p.1 with emptyLineCount := n } := fun n =>
    ⟨rfl, rfl, rfl, rfl, [], (List.append_nil _).symm, fun _ => rfl⟩
  have hempty : ∀ q : SignatureInfo × Bytes, Grown p.1 q.1 → ∀ n, Grown p.1 (hashEmptyLines n q).1 :=
    fun q hq n => hq.trans (hashEmptyLines_grown n q)
  have hhash : ∀ (c : Bytes) (q : SignatureInfo × Bytes), Grown p.1 q.1 → Grown p.1 (hashBody c q).1 :=
    fun c q hq => hq.trans (hashBody_grown c q)
  rw [bodyLine]
  cases p.1.sig.bodyCanon with
  | simple =>
      dsimp only
      split
      · exact hhash _ _ (hhash _ _ (hempty _ (hcount 0) _))
      · split
        · exact hhash _ _ (hcount _)
        · exact hcount _
  | relaxed =>
      dsimp only
      split
      · split
        · exact hhash _ _ (hempty _ (hcount 0) _)
        · exact hhash _ _ (hhash _ _ (hempty _ (hcount 0) _))
      · exact hcount _
  | nowsp => exact hashBody_grown b p

theorem processBody_grown (bEOF : Bool) {is : List SignatureInfo} {szBuffer sigHdr : Bytes}
    {j : SignatureInfo} (hj : j ∈ (processBody bEOF szBuffer sigHdr is).1) : ∃ i ∈ is, Grown i j := by
  induction is generalizing szBuffer sigHdr with
  | nil => exact absurd hj List.not_mem_nil
  | cons i is ih =>
      rw [processBody] at hj
      split at hj
      · rcases List.mem_cons.mp hj with rfl | hj
        · exact ⟨j, List.mem_cons_self, Grown.refl j⟩
        · obtain ⟨k, hk, hgrown⟩ := ih hj
          exact ⟨k, List.mem_cons_of_mem i hk, hgrown⟩
      · rcases List.mem_cons.mp hj with rfl | hj
        · exact ⟨i, List.mem_cons_self, bodyLine_grown bEOF _ (i, sigHdr)⟩
        · obtain ⟨k, hk, hgrown⟩ := ih hj
          exact ⟨k, List.mem_cons_of_mem i hk, hgrown⟩

theorem processLines_grown {lines : List (Bytes × Bool)} {is : List SignatureInfo} {sigHdr : Bytes}
    {j : SignatureInfo} (hj : j ∈ (processLines lines sigHdr is).1) : ∃ i ∈ is, Grown i j := by
  induction lines generalizing is sigHdr with
  | nil => exact ⟨j, hj, Grown.refl j⟩
  | cons line lines ih =>
      obtain ⟨b, bEOF⟩ := line
      rw [processLines] at hj
      obtain ⟨k, hk, hgrown⟩ := ih hj
      obtain ⟨i, hi, hgrown'⟩ := processBody_grown bEOF hk
      exact ⟨i, hi, hgrown'.trans hgrown⟩

/-- What was hashed for a signature of the list, as long as it is not checked: its headers, and what
followed. -/
structure Begun (headers : List Bytes) (sigs : List Signature) (i : SignatureInfo) : Prop where
  mem : i.sig ∈ sigs
  unchecked : i.checked = none
  parsed : i.status = 0 → i.sig.status = 0
  hashed : i.status = 0 → i.selector ≠ none → ∃ d, i.hdr = headerBytes headers i.sig ++ d ∧
    (i.sig.bodyHash ≠ [] → d = [])

section Run

variable {env : Env} {headers : List Bytes} {sigs : List Signature}

theorem Begun.grown {i j : SignatureInfo} (h : Begun headers sigs i) (hgrown : Grown i j) :
    Begun headers sigs j := by
  obtain ⟨d', hd', hnil'⟩ := hgrown.hdr
  refine ⟨hgrown.sig ▸ h.mem, hgrown.checked.trans h.unchecked, fun h0 => ?_, fun h0 hsel => ?_⟩
  · rw [hgrown.sig]
    exact h.parsed (hgrown.status ▸ h0)
  · obtain ⟨d, hd, hnil⟩ := h.hashed (hgrown.status ▸ h0) (hgrown.selector ▸ hsel)
    rw [hgrown.sig]
    refine ⟨d ++ d', ?_, fun hhash => ?_⟩
    · rw [hd', hd, List.append_assoc]
    · rw [hnil hhash, hnil' hhash, List.nil_append]

theorem begun_info {s : Signature} (hs : s ∈ sigs) : Begun headers sigs s.info :=
  ⟨hs, rfl, fun h => h, fun _ h => absurd rfl h⟩

theorem startSignature_begun (env : Env) {s : Signature} (hs : s ∈ sigs) (sh : Shared) :
    Begun headers sigs (startSignature env headers sh s.info).1 := by
  have hinfo := @begun_info headers sigs s hs
  rw [startSignature]
  split
  · exact hinfo
  · rename_i hstatus
    have h0 : s.status = 0 := not_not.mp hstatus
    dsimp only
    split
    · rename_i hsel
      exact ⟨hs, rfl, fun h => absurd h hsel, fun h => absurd h hsel⟩
    · split
      · rename_i hcheck
        exact ⟨hs, rfl, fun h => absurd h hcheck, fun h => absurd h hcheck⟩
      · generalize (if s.info.sig.hash = HashAlg.sha256 then [] else sh.sigHdr) = sigHdr
        split
        · have hfrom : (-18 : Int) ≠ 0 := by decide
          exact ⟨hs, rfl, fun h => absurd h hfrom, fun h => absurd h hfrom⟩
        · exact ⟨hs, rfl, fun _ => h0, fun _ _ => ⟨[], (List.append_nil _).symm, fun _ => rfl⟩⟩

theorem startSignatures_begun (env : Env) {ss : List Signature} (hss : ∀ s ∈ ss, s ∈ sigs) (sh : Shared)
    {i : SignatureInfo} (hi : i ∈ (startSignatures env headers sh (ss.map Signature.info)).1) :
    Begun headers sigs i := by
  induction ss generalizing sh with
  | nil => exact absurd hi List.not_mem_nil
  | cons s ss ih =>
      have hfirst := @startSignature_begun headers sigs env s (hss s List.mem_cons_self) sh
      have hrest : ∀ t ∈ ss, t ∈ sigs := fun t ht => hss t (List.mem_cons_of_mem s ht)
      rw [List.map_cons, startSignatures] at hi
      split at hi
      · rename_i i' sh' heq
        rw [heq] at hfirst
        rcases List.mem_cons.mp hi with rfl | hi
        · exact hfirst
        · obtain ⟨t, ht, rfl⟩ := List.mem_map.mp hi
          exact begun_info (hrest t ht)
      · rename_i i' sh' heq
        rw [heq] at hfirst
        rcases List.mem_cons.mp hi with rfl | hi
        · exact hfirst
        · exact ih hrest _ hi

/-- A signature that is checked: its headers were hashed, and its own header at last. -/
theorem result_hashed {i j : SignatureInfo} {b c : Bytes} (h : Begun headers sigs i)
    (hr : result env (i, b) = some (j, c)) (hchecked : j.checked ≠ none) :
    j.sig ∈ sigs ∧ j.sig.status = 0 ∧ ∃ between, (j.sig.bodyHash ≠ [] → between = []) ∧
      j.hdr = headerBytes headers j.sig ++ (between ++ signedSig j.sig) := by
  by_cases h0 : i.status = 0
  · cases hsel : i.selector with
    | none =>
        rw [result, if_neg (not_not_intro h0)] at hr
        dsimp only at hr
        rw [hsel] at hr
        cases hr
    | some sel =>
        obtain ⟨d, hd, hnil⟩ := h.hashed h0 (hsel ▸ Option.some_ne_none sel)
        by_cases hm : i.sig.bodyHash ≠ [] ∧ env.digest i.sig.hash i.bdy ≠ i.sig.bodyHash
        · rw [result, if_neg (not_not_intro h0)] at hr
          dsimp only at hr
          rw [hsel] at hr
          dsimp only at hr
          rw [if_pos hm] at hr
          rw [← (Prod.mk.inj (Option.some.inj hr)).1] at hchecked
          exact absurd h.unchecked hchecked
        · rw [result_checked env h0 hsel hm] at hr
          obtain ⟨rfl, -⟩ := Prod.mk.inj (Option.some.inj hr)
          refine ⟨h.mem, h.parsed h0, d ++ beforeSig i, fun hhash => ?_, ?_⟩
          · rw [hnil hhash, beforeSig, if_neg hhash]
            rfl
          · dsimp only
            rw [hd]
            simp only [List.append_assoc]
  · rw [result_inactive env h0] at hr
    rw [← (Prod.mk.inj (Option.some.inj hr)).1] at hchecked
    exact absurd h.unchecked hchecked

theorem getResults_hashed {is js : List SignatureInfo} {b : Bytes}
    (h : ∀ i ∈ is, Begun headers sigs i) (hr : getResults env b is = some js) {j : SignatureInfo}
    (hj : j ∈ js) (hchecked : j.checked ≠ none) :
    j.sig ∈ sigs ∧ j.sig.status = 0 ∧ ∃ between, (j.sig.bodyHash ≠ [] → between = []) ∧
      j.hdr = headerBytes headers j.sig ++ (between ++ signedSig j.sig) := by
  induction is generalizing b js with
  | nil =>
      rw [← Option.some.inj hr] at hj
      exact absurd hj List.not_mem_nil
  | cons i is ih =>
      obtain ⟨⟨k, c⟩, hresult, hr⟩ := Option.bind_eq_some_iff.mp hr
      obtain ⟨ks, hrest, hr⟩ := Option.bind_eq_some_iff.mp hr
      rw [← Option.some.inj hr] at hj
      rcases List.mem_cons.mp hj with rfl | hj
      · exact result_hashed (h i List.mem_cons_self) hresult hchecked
      · exact ih (fun i hi => h i (List.mem_cons_of_mem _ hi)) hrest hj

/-- **What is hashed for a signature that is checked.** -/
theorem verify_hashed {body : Option (List (Bytes × Bool))} {is : List SignatureInfo}
    (hv : verify env headers body sigs = some is) {i : SignatureInfo} (hi : i ∈ is)
    (hchecked : i.checked ≠ none) :
    i.sig ∈ sigs ∧ i.sig.status = 0 ∧ ∃ between, (i.sig.bodyHash ≠ [] → between = []) ∧
      i.hdr = headerBytes headers i.sig ++ (between ++ signedSig i.sig) := by
  have hstart : ∀ i ∈ (processHeaders env headers sigs).1, Begun headers sigs i := by
    intro i hi
    exact startSignatures_begun env (fun s hs => hs) {} hi
  rw [verify] at hv
  generalize processHeaders env headers sigs = p at hstart hv
  obtain ⟨started, sigHdr, ok⟩ := p
  cases body with
  | some lines =>
      cases ok with
      | false =>
          rw [← Option.some.inj hv] at hi
          exact absurd (hstart i hi).unchecked hchecked
      | true =>
          refine getResults_hashed (fun j hj => ?_) hv hi hchecked
          obtain ⟨k, hk, hgrown⟩ := processLines_grown hj
          exact (hstart k hk).grown hgrown
  | none =>
      refine getResults_hashed (fun j hj => ?_) hv hi hchecked
      obtain ⟨k, hk, hgrown⟩ := processBody_grown true hj
      exact (hstart k hk).grown hgrown

end Run


/-! ## What is hashed -/

/-- The bytes that are to be hashed for the names of `h=`. -/
def signedBytes (c : Canon) (names headers : List Bytes) : Bytes :=
  (signedHeaders names headers).flatMap fun h => canonical c h ++ [13, 10]

/-- The headers are hashed as the signature says: those of its names, and at last its own, without the
value of `b=`. Only without a hash of its own the body is between. -/
def HashesExactly (headers : List Bytes) (r : SigHeader) (i : SignatureInfo) : Prop :=
  ∃ between, (i.sig.bodyHash ≠ [] → between = []) ∧
    i.hdr = signedBytes i.sig.headerCanon r.names headers ++ (between ++ signedSig i.sig) ∧
    signedSig i.sig = canonical i.sig.headerCanon r.stripped

theorem TagList.cut_printable {name x v y : Bytes} {ts : TagList} (h : ts.cut name = some (x, v, y)) :
    ∀ ch ∈ v, isValueChar ch = true := by
  induction ts generalizing x with
  | blank ws h' => cases h
  | last t =>
      rw [cut] at h
      split at h
      · cases h
        exact t.printable
      · cases h
  | cons t ts ih =>
      rw [cut] at h
      split at h
      · cases h
        exact t.printable
      · obtain ⟨⟨x', c⟩, hc, heq⟩ := Option.map_eq_some_iff.mp h
        cases heq
        exact ih hc

theorem SigHeader.value_printable (r : SigHeader) (name : Bytes) :
    ∀ ch ∈ r.value name, isValueChar ch = true := by
  rw [SigHeader.value]
  cases hcut : r.tags.cut name with
  | none => exact fun ch h => absurd h List.not_mem_nil
  | some c =>
      obtain ⟨x, v, y⟩ := c
      exact TagList.cut_printable hcut

theorem SigHeader.plain_names (r : SigHeader) : ∀ name ∈ r.names, PlainName name := by
  intro name hname
  obtain ⟨hne, hcolon⟩ := mem_words hname
  refine ⟨hne, fun ch hch => ?_⟩
  obtain ⟨hmem, hblank⟩ := List.mem_filter.mp (mem_of_mem_words hname ch hch)
  refine ⟨?_, hcolon ch hch, by simpa using hblank⟩
  rintro rfl
  exact absurd (r.value_printable (asc "h") 0 hmem) (by decide)

/-- **The headers are hashed as the signature says** if and only if the bytes that are lost with the value
of `b=` make no difference; they never do where no blank is in front of the colon. -/
theorem headers_hashed_iff (env : Env) (o : Options) (headers : List Bytes)
    (body : Option (List (Bytes × Bool))) (is : List SignatureInfo) (i : SignatureInfo)
    (hv : verify env headers body (signatures o headers) = some is) (hi : i ∈ is)
    (hchecked : i.checked ≠ none) :
    ∃ sHeader ∈ headers, i.sig = signatureOf o sHeader ∧ (∃ r : SigHeader, r.text = sHeader) ∧
      ∀ r : SigHeader, r.text = sHeader →
        (HashesExactly headers r i ↔ r.Harmless i.sig.headerCanon) ∧
          (r.blanks = [] → r.Harmless i.sig.headerCanon) := by
  obtain ⟨hmem, hstatus, between, hbetween, hhdr⟩ := verify_hashed hv hi hchecked
  obtain ⟨sHeader, hsHeader, hsig⟩ := List.mem_map.mp hmem
  obtain ⟨hin, hheader⟩ := List.mem_filter.mp (List.mem_of_mem_take hsHeader)
  rw [← hsig] at hstatus
  have hparse := signatureOf_status hstatus
  rw [hsig] at hparse
  obtain ⟨values, b, h, hvalues, hb, hh, hnames, hstripped⟩ := parseDKIMSignature_ok hparse
  refine ⟨sHeader, hin, hsig.symm, exists_sigHeader hheader hvalues, ?_⟩
  rintro r rfl
  have hwanted : asc "b" ∈ signatureTags := by decide
  -- The values that were found are those of the tags.
  rw [parseTagValueList_lookup r.cstr_text hvalues hwanted] at hb
  rw [parseTagValueList_lookup r.cstr_text hvalues (by decide)] at hh
  obtain ⟨⟨x, v, y⟩, hcut⟩ : ∃ c, r.tags.cut (asc "b") = some c := by
    cases hc : r.tags.cut (asc "b") with
    | none => rw [hc] at hb; exact nomatch hb
    | some c => exact ⟨c, rfl⟩
  have hvalue : r.value (asc "h") = h := by
    rw [SigHeader.value]
    cases hc : r.tags.cut (asc "h") with
    | none => rw [hc] at hh; exact nomatch hh
    | some c =>
        rw [hc] at hh
        exact Option.some.inj hh
  have hsigned : i.sig.signedHeaders = r.names := by
    rw [hnames, SigHeader.names, hvalue]
    exact headerNames_eq (Nat.lt_succ_of_le (List.length_filter_le _ _))
  have hbytes : headerBytes headers i.sig = signedBytes i.sig.headerCanon r.names headers ++
      if i.sig.bodyHash = [] then [13, 10] else [] := by
    rw [headerBytes_eq (hsigned ▸ r.plain_names), hsigned, signedBytes]
  refine ⟨?_, SigHeader.harmless_of_nil _⟩
  rw [← signedSig_iff hstripped hcut hvalues hwanted]
  constructor
  · rintro ⟨-, -, -, heq⟩
    exact heq
  · intro heq
    refine ⟨(if i.sig.bodyHash = [] then [13, 10] else []) ++ between, fun hhash => ?_, ?_, heq⟩
    · rw [if_neg hhash, hbetween hhash]
      rfl
    · rw [hhdr, hbytes]
      simp only [List.append_assoc]

/-! ## A blank in front of the colon -/

def blankHeaders : List Bytes :=
  [asc "From: a@b.c", asc "DKIM-Signature : v=1; a=rsa-sha256; b=QUJD; d=b.c; h=From; s=s; bh=QUINCg=="]

def blankOptions : Options := ⟨true, false, 0⟩

/-- The signature of a message with one line. -/
def blankInfo : SignatureInfo :=
  ((verify plainEnv blankHeaders (some [(asc "AB", false)]) (signatures blankOptions blankHeaders)).bind
    List.head?).getD (signatureOf blankOptions []).info

theorem headers_hashed_iff_blank :
    ∃ sHeader ∈ blankHeaders, blankInfo.sig = signatureOf blankOptions sHeader ∧
      (∃ r : SigHeader, r.text = sHeader) ∧
      ∀ r : SigHeader, r.text = sHeader →
        (HashesExactly blankHeaders r blankInfo ↔ r.Harmless blankInfo.sig.headerCanon) ∧
          (r.blanks = [] → r.Harmless blankInfo.sig.headerCanon) :=
  headers_hashed_iff plainEnv blankOptions blankHeaders (some [(asc "AB", false)]) [blankInfo] blankInfo
    (by decide +kernel) (List.mem_singleton.mpr rfl) (by decide +kernel)

end IndimailMta.Dkim
