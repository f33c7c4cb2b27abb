import IndimailMta.Lib.Splits
import IndimailMta.Dkim.Limits

/-!
# Tag lists

`ParseTagValueList` looks for the tags that are wanted, and gives their values with the places where
they are. What it accepts is a list of tags as RFC 6376 has it: with blanks around a name and a value,
and with semicolons between.
-/

namespace IndimailMta.Dkim

open IndimailMta Lib.Splits

/-! ## The code -/

def isalpha (ch : Byte) : Bool := decide (65 ≤ ch ∧ ch ≤ 90) || decide (97 ≤ ch ∧ ch ≤ 122)

/-- `isalnum`, or a hyphen. -/
def isTagChar (ch : Byte) : Bool := isalpha ch || isDigit ch || ch = 45

def isValueChar (ch : Byte) : Bool :=
  ch ≠ 59 && (ch = 9 || ch = 13 || ch = 10 || decide (32 ≤ ch ∧ ch ≤ 126))

/-- What was found: a tag, the place of its value, and the value. -/
abbrev Item := Bytes × Nat × Bytes

/-- An item is kept if it is wanted; there may be one for each tag. -/
def keepItem (wanted : List Bytes) (values : List Item) (item : Item) : Option (List Item) :=
  if item.1 ∈ wanted then
    if (values.lookup item.1).isSome then none else some (values ++ [item])
  else some values

/-- The loop of `ParseTagValueList`: `s` is left of a text of `len` bytes. -/
def tagLoop (wanted : List Bytes) (len : Nat) : Nat → Bytes → List Item → Option (List Item)
  | 0, _, _ => none
  | turns + 1, s, values =>
      let s := s.dropWhile isswsp
      if s = [] then some values
      else if ¬ s.head?.any isalpha then none
      else
        let tag := s.takeWhile isTagChar
        let s := (s.dropWhile isTagChar).dropWhile isswsp
        if s.head? ≠ some 61 then none
        else
          let s := s.tail.dropWhile isswsp
          let value := (s.takeWhile isValueChar).rdropWhile isswsp
          let values := keepItem wanted values (tag, len - s.length, value)
          let s := s.dropWhile isValueChar
          if s = [] then values
          else if s.head? ≠ some 59 then none
          else values.bind (tagLoop wanted len turns s.tail)

/-- `ParseTagValueList`. -/
def parseTagValueList (tagvaluelist : Bytes) (wanted : List Bytes) : Option (List Item) :=
  let s := cstr tagvaluelist
  tagLoop wanted s.length (s.length + 1) s []

/-! ## The grammar -/

/-- A tag, with the blanks around its name and its value. -/
structure Tag where
  lead : Bytes
  name : Bytes
  gap : Bytes
  mid : Bytes
  value : Bytes
  trail : Bytes
  blank : ∀ ch ∈ lead ++ gap ++ mid ++ trail, isswsp ch = true
  named : name.head?.any isalpha = true ∧ ∀ ch ∈ name, isTagChar ch = true
  printable : ∀ ch ∈ value, isValueChar ch = true
  trimmed : value.head?.any isswsp = false ∧ value.getLast?.any isswsp = false
  empty : value = [] → trail = []

/-- What is in front of the value. -/
def Tag.front (t : Tag) : Bytes := t.lead ++ t.name ++ t.gap ++ 61 :: t.mid

def Tag.text (t : Tag) : Bytes := t.front ++ t.value ++ t.trail

/-- A list of tags; behind its last semicolon there may be blanks only. -/
inductive TagList
  | blank (ws : Bytes) (h : ∀ ch ∈ ws, isswsp ch = true)
  | last (t : Tag)
  | cons (t : Tag) (ts : TagList)

namespace TagList

def textWith (f : Tag → Bytes) : TagList → Bytes
  | blank ws _ => ws
  | last t => f t
  | cons t ts => f t ++ 59 :: ts.textWith f

def text : TagList → Bytes := textWith Tag.text

def tags : TagList → List Tag
  | blank _ _ => []
  | last t => [t]
  | cons t ts => t :: ts.tags

/-- The text without the values of the tags of this name. -/
def without (name : Bytes) : TagList → Bytes :=
  textWith fun t => if t.name = name then t.front ++ t.trail else t.text

/-- The text in front of the value of the first tag of this name, the value, and the text behind. -/
def cut (name : Bytes) : TagList → Option (Bytes × Bytes × Bytes)
  | blank _ _ => none
  | last t => if t.name = name then some (t.front, t.value, t.trail) else none
  | cons t ts =>
      if t.name = name then some (t.front, t.value, t.trail ++ 59 :: ts.text)
      else (ts.cut name).map fun c => (t.text ++ 59 :: c.1, c.2)

/-- The tags as items, with places in a text of `len` bytes that ends with the list. -/
def items (len : Nat) : TagList → List Item
  | blank _ _ => []
  | last t => [(t.name, len - (t.value ++ t.trail).length, t.value)]
  | cons t ts =>
      (t.name, len - (t.value ++ (t.trail ++ 59 :: ts.text)).length, t.value) :: ts.items len

end TagList

variable {wanted : List Bytes} {len turns : Nat} {s rest name : Bytes} {values out : List Item}

/-! ## What is kept -/

/-- The items, one after the other. -/
def keepItems (wanted : List Bytes) (values items : List Item) : Option (List Item) :=
  items.foldlM (keepItem wanted) values

theorem keepItems_cons (item : Item) (items : List Item) :
    keepItems wanted values (item :: items) =
      (keepItem wanted values item).bind fun values => keepItems wanted values items :=
  List.foldlM_cons

/-- There is one item of this name at most, and none if one was found before. -/
def Once (values items : List Item) (name : Bytes) : Prop :=
  (items.map Prod.fst).count name ≤ 1 ∧ ((values.lookup name).isSome → name ∉ items.map Prod.fst)

theorem once_cons_of_ne {item : Item} {items : List Item} (h : item.1 ≠ name) :
    Once values (item :: items) name ↔ Once values items name := by
  rw [Once, Once, List.map_cons, List.count_cons_of_ne h, List.mem_cons, not_or]
  exact and_congr_right fun _ => ⟨fun hnot hsome => (hnot hsome).2, fun hnot hsome => ⟨h.symm, hnot hsome⟩⟩

theorem once_cons {item : Item} {items : List Item} (h : ¬ (values.lookup item.1).isSome = true) :
    Once values (item :: items) name ↔ Once (values ++ [item]) items name := by
  have hlookup : (values ++ [item]).lookup name = (values.lookup name).or ([item].lookup name) :=
    List.lookup_append
  by_cases heq : item.1 = name
  · subst heq
    rw [Once, Once, hlookup, List.lookup_cons_self, List.map_cons, List.count_cons_self]
    constructor
    · rintro ⟨hcount, -⟩
      have hrest : (items.map Prod.fst).count item.1 = 0 := by omega
      exact ⟨hrest ▸ Nat.zero_le 1, fun _ => List.count_eq_zero.mp hrest⟩
    · rintro ⟨-, hrest⟩
      have hrest : item.1 ∉ items.map Prod.fst := hrest (by rw [Option.isSome_or]; exact Bool.or_true _)
      rw [List.count_eq_zero.mpr hrest]
      exact ⟨Nat.le_refl 1, fun hsome => absurd hsome h⟩
  · have hnone : [item].lookup name = none := by
      rw [List.lookup_cons, beq_false_of_ne (Ne.symm heq)]
      rfl
    rw [once_cons_of_ne heq, Once, Once, hlookup, hnone, Option.or_none]

/-- **What is kept**: all that is wanted, if nothing of it is there twice. -/
theorem keepItems_iff {items : List Item} :
    keepItems wanted values items = some out ↔
      (∀ name ∈ wanted, Once values items name) ∧
        out = values ++ items.filter fun item => item.1 ∈ wanted := by
  induction items generalizing values with
  | nil =>
      rw [List.filter_nil, List.append_nil]
      constructor
      · intro h
        exact ⟨fun name _ => ⟨Nat.zero_le 1, fun _ => List.not_mem_nil⟩, (Option.some.inj h).symm⟩
      · rintro ⟨-, rfl⟩
        rfl
  | cons item items ih =>
      rw [keepItems_cons, keepItem]
      by_cases hwanted : item.1 ∈ wanted
      · rw [if_pos hwanted, List.filter_cons_of_pos (by simpa using hwanted)]
        by_cases hfound : (values.lookup item.1).isSome = true
        · rw [if_pos hfound]
          constructor
          · exact nofun
          · rintro ⟨h, -⟩
            exact absurd List.mem_cons_self ((h item.1 hwanted).2 hfound)
        · rw [if_neg hfound, Option.bind_some, ih, List.append_assoc, List.singleton_append]
          exact and_congr_left fun _ => forall₂_congr fun name _ => (once_cons hfound).symm
      · rw [if_neg hwanted, List.filter_cons_of_neg (by simpa using hwanted), Option.bind_some, ih]
        exact and_congr_left fun _ => forall₂_congr fun name hname =>
          (once_cons_of_ne fun heq => hwanted (heq ▸ hname)).symm

theorem lookup_filter {items : List Item} (hname : name ∈ wanted) :
    (items.filter fun item => item.1 ∈ wanted).lookup name = items.lookup name := by
  induction items with
  | nil => rfl
  | cons item items ih =>
      rw [List.lookup_cons]
      by_cases hwanted : item.1 ∈ wanted
      · rw [List.filter_cons_of_pos (by simpa using hwanted), List.lookup_cons, ih]
      · have hne : (name == item.1) = false := beq_false_of_ne fun heq => hwanted (heq ▸ hname)
        rw [List.filter_cons_of_neg (by simpa using hwanted), hne, ih]

/-- The value that is found is that of the tag. -/
theorem keepItems_lookup {items : List Item} (h : keepItems wanted values items = some out)
    (hname : name ∈ wanted) : out.lookup name = (values.lookup name).or (items.lookup name) := by
  rw [(keepItems_iff.mp h).2, List.lookup_append, lookup_filter hname]

theorem once_nil {items : List Item} :
    Once [] items name ↔ (items.map Prod.fst).count name ≤ 1 :=
  and_iff_left fun h => absurd h Bool.false_ne_true

/-! ## The loop -/

theorem isswsp_cases {ch : Byte} (h : isswsp ch = true) : ch = 32 ∨ ch = 9 ∨ ch = 13 ∨ ch = 10 := by
  simpa [isswsp, or_assoc] using h

theorem isTagChar_isswsp {ch : Byte} (h : isswsp ch = true) : isTagChar ch = false := by
  rcases isswsp_cases h with rfl | rfl | rfl | rfl <;> decide

theorem isValueChar_isswsp {ch : Byte} (h : isswsp ch = true) : isValueChar ch = true := by
  rcases isswsp_cases h with rfl | rfl | rfl | rfl <;> decide

theorem isTagChar_isalpha {ch : Byte} (h : isalpha ch = true) : isTagChar ch = true := by
  rw [isTagChar, h, Bool.true_or, Bool.true_or]

/-- The first character of a text that may be empty. -/
theorem any_append {p : Byte → Bool} {x y : Bytes} (hx : x.head?.any p = false)
    (hy : y.head?.any p = false) : (x ++ y).head?.any p = false := by
  cases x with
  | nil => exact hy
  | cons ch x => exact hx

theorem any_of_forall {p : Byte → Bool} {x : Bytes} (h : ∀ ch ∈ x, p ch = false) :
    x.head?.any p = false := by
  cases x with
  | nil => rfl
  | cons ch x => exact h ch List.mem_cons_self

namespace Tag

variable (t : Tag)

theorem lead_blank : ∀ ch ∈ t.lead, isswsp ch = true := fun ch h =>
  t.blank ch (List.mem_append_left _ (List.mem_append_left _ (List.mem_append_left _ h)))

theorem gap_blank : ∀ ch ∈ t.gap, isswsp ch = true := fun ch h =>
  t.blank ch (List.mem_append_left _ (List.mem_append_left _ (List.mem_append_right _ h)))

theorem mid_blank : ∀ ch ∈ t.mid, isswsp ch = true := fun ch h =>
  t.blank ch (List.mem_append_left _ (List.mem_append_right _ h))

theorem trail_blank : ∀ ch ∈ t.trail, isswsp ch = true := fun ch h =>
  t.blank ch (List.mem_append_right _ h)

end Tag

/-- **One turn** takes a tag. -/
theorem tagLoop_tag (t : Tag) (hrest : rest = [] ∨ ∃ u, rest = 59 :: u) :
    tagLoop wanted len (turns + 1) (t.text ++ rest) values =
      (keepItem wanted values (t.name, len - (t.value ++ (t.trail ++ rest)).length, t.value)).bind
        fun values => if rest = [] then some values else tagLoop wanted len turns rest.tail values := by
  obtain ⟨hfirst, hname⟩ := t.named
  obtain ⟨hhead, hlast⟩ := t.trimmed
  have hrestblank : rest.head?.any isswsp = false := by
    rcases hrest with rfl | ⟨u, rfl⟩ <;> rfl
  have hrestchar : rest.head?.any isValueChar = false := by
    rcases hrest with rfl | ⟨u, rfl⟩ <;> rfl
  obtain ⟨ch, name, hcons⟩ : ∃ ch name, t.name = ch :: name := by
    cases hn : t.name with
    | nil => rw [hn] at hfirst; exact absurd hfirst Bool.false_ne_true
    | cons ch name => exact ⟨ch, name, rfl⟩
  have hch : isalpha ch = true := by rw [hcons] at hfirst; exact hfirst
  have hchblank : isswsp ch = false := by
    by_contra h
    have := isTagChar_isswsp (eq_true_of_ne_false h)
    rw [isTagChar_isalpha hch] at this
    exact absurd this.symm Bool.false_ne_true
  -- What is left of the text, from turn to turn.
  have htext : t.text ++ rest =
      t.lead ++ (t.name ++ (t.gap ++ 61 :: (t.mid ++ (t.value ++ (t.trail ++ rest))))) := by
    simp only [Tag.text, Tag.front, List.append_assoc, List.cons_append]
  have hlead : (t.text ++ rest).dropWhile isswsp =
      t.name ++ (t.gap ++ 61 :: (t.mid ++ (t.value ++ (t.trail ++ rest)))) := by
    rw [htext]
    refine dropWhile_stop t.lead_blank ?_
    rw [hcons]
    exact hchblank
  have hgapchar : (t.gap ++ 61 :: (t.mid ++ (t.value ++ (t.trail ++ rest)))).head?.any isTagChar =
      false :=
    any_append (any_of_forall fun ch h => isTagChar_isswsp (t.gap_blank ch h)) rfl
  have hvalue : (t.mid ++ (t.value ++ (t.trail ++ rest))).dropWhile isswsp =
      t.value ++ (t.trail ++ rest) := by
    refine dropWhile_stop t.mid_blank ?_
    cases hv : t.value with
    | nil => rw [t.empty hv]; exact hrestblank
    | cons ch v => rw [hv] at hhead; exact hhead
  have hprintable : ∀ ch ∈ t.value ++ t.trail, isValueChar ch = true := fun ch h =>
    (List.mem_append.mp h).elim (t.printable ch) fun h => isValueChar_isswsp (t.trail_blank ch h)
  have htake : (t.value ++ (t.trail ++ rest)).takeWhile isValueChar = t.value ++ t.trail := by
    rw [← List.append_assoc]
    exact takeWhile_stop hprintable hrestchar
  have hdrop : (t.value ++ (t.trail ++ rest)).dropWhile isValueChar = rest := by
    rw [← List.append_assoc]
    exact dropWhile_stop hprintable hrestchar
  have htrim : (t.value ++ t.trail).rdropWhile isswsp = t.value :=
    rdropWhile_stop hlast t.trail_blank
  rw [tagLoop, hlead]
  have hne : t.name ++ (t.gap ++ 61 :: (t.mid ++ (t.value ++ (t.trail ++ rest)))) ≠ [] := by
    rw [hcons]
    exact List.cons_ne_nil _ _
  have halpha : ¬ ¬ (t.name ++ (t.gap ++ 61 :: (t.mid ++ (t.value ++ (t.trail ++ rest))))).head?.any
      isalpha = true := by
    rw [hcons]
    exact not_not_intro hch
  dsimp only
  rw [if_neg hne, if_neg halpha, takeWhile_stop hname hgapchar, dropWhile_stop hname hgapchar,
    dropWhile_stop t.gap_blank rfl, if_neg (by simp), List.tail_cons, hvalue, htake, htrim, hdrop]
  rcases hrest with rfl | ⟨u, rfl⟩
  · rw [if_pos rfl]
    cases keepItem wanted values (t.name, len - (t.value ++ (t.trail ++ [])).length, t.value) <;> rfl
  · simp only [if_neg (List.cons_ne_nil (59 : Byte) u)]
    rw [if_neg (by simp)]

/-- **A list of tags is read** as the items it has. -/
theorem tagLoop_text (ts : TagList) (hturns : ts.text.length < turns) :
    tagLoop wanted len turns ts.text values = keepItems wanted values (ts.items len) := by
  induction ts generalizing turns values with
  | blank ws h =>
      obtain ⟨turns, rfl⟩ := Nat.exists_eq_succ_of_ne_zero (Nat.ne_zero_of_lt hturns)
      have hnil : ws.dropWhile isswsp = [] := List.dropWhile_eq_nil_iff.mpr h
      rw [TagList.text, TagList.textWith, tagLoop, hnil, if_pos rfl]
      rfl
  | last t =>
      obtain ⟨turns, rfl⟩ := Nat.exists_eq_succ_of_ne_zero (Nat.ne_zero_of_lt hturns)
      have h := @tagLoop_tag wanted len turns [] values t (.inl rfl)
      rw [List.append_nil, List.append_nil] at h
      rw [TagList.text, TagList.textWith, h, TagList.items, keepItems_cons]
      rfl
  | cons t ts ih =>
      obtain ⟨turns, rfl⟩ := Nat.exists_eq_succ_of_ne_zero (Nat.ne_zero_of_lt hturns)
      have htext : (TagList.cons t ts).text = t.text ++ 59 :: ts.text := rfl
      rw [htext, List.length_append, List.length_cons] at hturns
      rw [htext, tagLoop_tag t (.inr ⟨_, rfl⟩), TagList.items, keepItems_cons]
      congr 1
      funext values
      rw [if_neg (List.cons_ne_nil _ _), List.tail_cons]
      exact ih (by omega)

/-- What a turn takes is a tag. -/
theorem exists_tag (hfirst : (s.dropWhile isswsp).head?.any isalpha = true)
    (hmark : (((s.dropWhile isswsp).dropWhile isTagChar).dropWhile isswsp).head? = some 61) :
    ∃ t : Tag, s = t.text ++ ((((s.dropWhile isswsp).dropWhile isTagChar).dropWhile
      isswsp).tail.dropWhile isswsp).dropWhile isValueChar := by
  obtain ⟨u, hu⟩ := List.head?_eq_some_iff.mp hmark
  have hvalue : (u.dropWhile isswsp).takeWhile isValueChar =
      ((u.dropWhile isswsp).takeWhile isValueChar).rdropWhile isswsp ++
        ((u.dropWhile isswsp).takeWhile isValueChar).rtakeWhile isswsp :=
    List.rdropWhile_append_rtakeWhile.symm
  -- The value begins where the blanks end.
  have hhead : ((u.dropWhile isswsp).takeWhile isValueChar).head?.any isswsp = false := by
    have h := head_dropWhile isswsp u
    cases hcons : u.dropWhile isswsp with
    | nil => rfl
    | cons ch v =>
        rw [hcons] at h
        by_cases hch : isValueChar ch = true
        · rw [List.takeWhile_cons_of_pos hch]
          exact h
        · rw [List.takeWhile_cons_of_neg hch]
          rfl
  let t : Tag :=
    { lead := s.takeWhile isswsp
      name := (s.dropWhile isswsp).takeWhile isTagChar
      gap := ((s.dropWhile isswsp).dropWhile isTagChar).takeWhile isswsp
      mid := u.takeWhile isswsp
      value := ((u.dropWhile isswsp).takeWhile isValueChar).rdropWhile isswsp
      trail := ((u.dropWhile isswsp).takeWhile isValueChar).rtakeWhile isswsp
      blank := by
        simp only [List.mem_append]
        rintro ch (((h | h) | h) | h)
        · exact List.mem_takeWhile_imp h
        · exact List.mem_takeWhile_imp h
        · exact List.mem_takeWhile_imp h
        · exact List.mem_rtakeWhile_imp h
      named := by
        refine ⟨?_, fun ch => List.mem_takeWhile_imp⟩
        obtain ⟨ch, x, hx⟩ : ∃ ch x, s.dropWhile isswsp = ch :: x := by
          cases hx : s.dropWhile isswsp with
          | nil => rw [hx] at hfirst; exact absurd hfirst Bool.false_ne_true
          | cons ch x => exact ⟨ch, x, rfl⟩
        rw [hx] at hfirst ⊢
        rw [List.takeWhile_cons_of_pos (isTagChar_isalpha hfirst)]
        exact hfirst
      printable := fun ch h =>
        List.mem_takeWhile_imp ((List.rdropWhile_prefix isswsp _).subset h)
      trimmed := by
        constructor
        · rw [hvalue] at hhead
          cases hv : ((u.dropWhile isswsp).takeWhile isValueChar).rdropWhile isswsp with
          | nil => rfl
          | cons ch v =>
              rw [hv] at hhead
              exact hhead
        · exact getLast_rdropWhile isswsp _
      empty := by
        intro hv
        rw [hv, List.nil_append] at hvalue
        rw [← hvalue]
        have hall := List.rdropWhile_eq_nil_iff.mp hv
        cases hcons : (u.dropWhile isswsp).takeWhile isValueChar with
        | nil => rfl
        | cons ch v =>
            rw [hcons] at hhead hall
            have hch : isswsp ch = true := hall ch List.mem_cons_self
            exact absurd (hch.symm.trans hhead) (by decide) }
  refine ⟨t, ?_⟩
  rw [hu, List.tail_cons]
  calc s
    _ = s.takeWhile isswsp ++ ((s.dropWhile isswsp).takeWhile isTagChar ++
          (((s.dropWhile isswsp).dropWhile isTagChar).takeWhile isswsp ++
            ((s.dropWhile isswsp).dropWhile isTagChar).dropWhile isswsp)) := by
        rw [List.takeWhile_append_dropWhile, List.takeWhile_append_dropWhile,
          List.takeWhile_append_dropWhile]
    _ = t.lead ++ (t.name ++ (t.gap ++ 61 :: (u.takeWhile isswsp ++
          ((u.dropWhile isswsp).takeWhile isValueChar ++
            (u.dropWhile isswsp).dropWhile isValueChar)))) := by
        rw [hu, List.takeWhile_append_dropWhile (p := isValueChar),
          List.takeWhile_append_dropWhile (l := u)]
    _ = t.text ++ (u.dropWhile isswsp).dropWhile isValueChar := by
        rw [hvalue]
        simp only [Tag.text, Tag.front, List.append_assoc, List.cons_append, t]

/-- **What is accepted is a list of tags.** -/
theorem tagLoop_reads (h : tagLoop wanted len turns s values = some out) :
    ∃ ts : TagList, ts.text = s := by
  induction turns generalizing s values with
  | zero => exact nomatch h
  | succ turns ih =>
      rw [tagLoop] at h
      by_cases hnil : s.dropWhile isswsp = []
      · exact ⟨.blank s (List.dropWhile_eq_nil_iff.mp hnil), rfl⟩
      · rw [if_neg hnil] at h
        by_cases hfirst : (s.dropWhile isswsp).head?.any isalpha = true
        · rw [if_neg (not_not_intro hfirst)] at h
          by_cases hmark :
              (((s.dropWhile isswsp).dropWhile isTagChar).dropWhile isswsp).head? = some 61
          · rw [if_neg (not_not_intro hmark)] at h
            obtain ⟨t, ht⟩ := exists_tag hfirst hmark
            dsimp only at h
            generalize ((((s.dropWhile isswsp).dropWhile isTagChar).dropWhile
              isswsp).tail.dropWhile isswsp).dropWhile isValueChar = rest at h ht
            by_cases hrest : rest = []
            · rw [hrest, List.append_nil] at ht
              exact ⟨.last t, ht.symm⟩
            · by_cases hsemi : rest.head? = some 59
              · rw [if_neg hrest, if_neg (not_not_intro hsemi)] at h
                obtain ⟨values', -, hloop⟩ := Option.bind_eq_some_iff.mp h
                obtain ⟨ts, hts⟩ := ih hloop
                obtain ⟨v, rfl⟩ := List.head?_eq_some_iff.mp hsemi
                refine ⟨.cons t ts, ?_⟩
                rw [ht, ← show ts.text = v from hts]
                rfl
              · rw [if_neg hrest, if_pos hsemi] at h
                exact nomatch h
          · rw [if_pos hmark] at h
            exact nomatch h
        · rw [if_pos hfirst] at h
          exact nomatch h

/-! ## Values and places -/

namespace TagList

variable {ts : TagList} {x v y : Bytes}

theorem map_items (len : Nat) (ts : TagList) : (ts.items len).map Prod.fst = ts.tags.map Tag.name := by
  induction ts with
  | blank ws h => rfl
  | last t => rfl
  | cons t ts ih => rw [items, tags, List.map_cons, List.map_cons, ih]

theorem text_cut (h : ts.cut name = some (x, v, y)) : ts.text = x ++ (v ++ y) := by
  induction ts generalizing x with
  | blank ws h' => exact nomatch h
  | last t =>
      rw [cut] at h
      split at h
      · cases h
        exact List.append_assoc _ _ _
      · exact nomatch h
  | cons t ts ih =>
      rw [cut] at h
      split at h
      · cases h
        simp only [text, textWith, Tag.text, List.append_assoc]
      · obtain ⟨⟨x', c⟩, hc, heq⟩ := Option.map_eq_some_iff.mp h
        cases heq
        have htext : (cons t ts).text = t.text ++ 59 :: ts.text := rfl
        rw [htext, ih hc, List.append_assoc, List.cons_append]

theorem cut_length (h : ts.cut name = some (x, v, y)) :
    ts.text.length - (v ++ y).length = x.length := by
  rw [text_cut h, List.length_append, Nat.add_sub_cancel]

theorem lookup_items (len : Nat) (name : Bytes) (ts : TagList) :
    (ts.items len).lookup name = (ts.cut name).map fun c => (len - (c.2.1 ++ c.2.2).length, c.2.1) := by
  induction ts with
  | blank ws h => rfl
  | last t =>
      rw [items, cut, List.lookup_cons]
      by_cases heq : t.name = name
      · rw [heq, beq_self_eq_true, if_pos rfl]
        rfl
      · rw [beq_false_of_ne (Ne.symm heq), if_neg heq]
        rfl
  | cons t ts ih =>
      rw [items, cut, List.lookup_cons]
      by_cases heq : t.name = name
      · rw [heq, beq_self_eq_true, if_pos rfl]
        rfl
      · rw [beq_false_of_ne (Ne.symm heq), if_neg heq, Option.map_map]
        exact ih

theorem without_of_notMem (h : name ∉ ts.tags.map Tag.name) : ts.without name = ts.text := by
  induction ts with
  | blank ws h' => rfl
  | last t =>
      have hne : t.name ≠ name := fun heq => h (heq ▸ List.mem_cons_self)
      exact if_neg hne
  | cons t ts ih =>
      rw [tags, List.map_cons, List.mem_cons, not_or] at h
      have hwithout : (cons t ts).without name =
          (if t.name = name then t.front ++ t.trail else t.text) ++ 59 :: ts.without name := rfl
      rw [hwithout, if_neg (Ne.symm h.1), ih h.2]
      rfl

/-- The value of an item is at its place. -/
theorem place_items {item : Item} (h : item ∈ ts.items (x ++ ts.text).length) :
    ((x ++ ts.text).drop item.2.1).take item.2.2.length = item.2.2 := by
  have hplace : ∀ z v y : Bytes, ((z ++ (v ++ y)).drop ((z ++ (v ++ y)).length - (v ++ y).length)).take
      v.length = v := by
    intro z v y
    rw [List.length_append, Nat.add_sub_cancel, List.drop_left, List.take_left]
  induction ts generalizing x with
  | blank ws h' => exact absurd h List.not_mem_nil
  | last t =>
      have htext : x ++ (last t).text = (x ++ t.front) ++ (t.value ++ t.trail) := by
        simp only [text, textWith, Tag.text, List.append_assoc]
      rw [htext] at h ⊢
      rw [List.mem_singleton.mp h]
      exact hplace _ _ _
  | cons t ts ih =>
      have htext : x ++ (cons t ts).text = (x ++ t.front) ++ (t.value ++ (t.trail ++ 59 :: ts.text)) := by
        simp only [text, textWith, Tag.text, List.append_assoc]
      have hrest : x ++ (cons t ts).text = (x ++ t.text ++ [59]) ++ ts.text := by
        simp only [text, textWith, List.append_assoc, List.singleton_append]
      rcases List.mem_cons.mp h with rfl | h
      · rw [htext]
        exact hplace _ _ _
      · rw [hrest] at h ⊢
        exact ih h

/-- The value of the one tag of this name is removed. -/
theorem without_cut (h : ts.cut name = some (x, v, y)) (hone : (ts.tags.map Tag.name).count name ≤ 1) :
    ts.without name = x ++ y := by
  induction ts generalizing x with
  | blank ws h' => exact nomatch h
  | last t =>
      rw [cut] at h
      split at h
      · rename_i heq
        cases h
        exact if_pos heq
      · exact nomatch h
  | cons t ts ih =>
      have hwithout : (cons t ts).without name =
          (if t.name = name then t.front ++ t.trail else t.text) ++ 59 :: ts.without name := rfl
      rw [tags, List.map_cons, List.count_cons] at hone
      rw [cut] at h
      by_cases heq : t.name = name
      · rw [if_pos heq] at h
        cases h
        rw [if_pos (by rw [heq, beq_self_eq_true])] at hone
        have hrest : name ∉ ts.tags.map Tag.name :=
          List.count_eq_zero.mp (Nat.le_zero.mp (Nat.le_of_succ_le_succ hone))
        rw [hwithout, if_pos heq, without_of_notMem hrest, List.append_assoc]
      · rw [if_neg heq] at h
        obtain ⟨⟨x', c⟩, hc, hxc⟩ := Option.map_eq_some_iff.mp h
        cases hxc
        rw [hwithout, if_neg heq, ih hc (Nat.le_trans (Nat.le_add_right _ _) hone), List.append_assoc,
          List.cons_append]

end TagList

/-! ## `ParseTagValueList` -/

theorem parseTagValueList_reads (h : parseTagValueList s wanted = some out) :
    ∃ ts : TagList, ts.text = cstr s := tagLoop_reads h

variable {ts : TagList}

theorem parseTagValueList_text (hts : ts.text = cstr s) :
    parseTagValueList s wanted = keepItems wanted [] (ts.items ts.text.length) := by
  rw [parseTagValueList, ← hts]
  exact tagLoop_text ts (Nat.lt_succ_self _)

/-- **The values that are found** are those of the tags, with their places. -/
theorem parseTagValueList_lookup (hts : ts.text = cstr s) (h : parseTagValueList s wanted = some out)
    (hname : name ∈ wanted) :
    out.lookup name = (ts.cut name).map fun c => (c.1.length, c.2.1) := by
  rw [parseTagValueList_text hts] at h
  rw [keepItems_lookup h hname, List.lookup_nil, Option.none_or, TagList.lookup_items]
  cases hcut : ts.cut name with
  | none => rfl
  | some c =>
      obtain ⟨x, v, y⟩ := c
      rw [Option.map_some, Option.map_some, TagList.cut_length hcut]

/-- **What is accepted** is a list of tags without a second one of a name that is wanted; what is found are
the tags that are wanted, and their values are at their places. -/
theorem parseTagValueList_iff (s : Bytes) (wanted : List Bytes) :
    (∀ out, parseTagValueList s wanted = some out ↔
      ∃ ts : TagList, ts.text = cstr s ∧ (∀ name ∈ wanted, (ts.tags.map Tag.name).count name ≤ 1) ∧
        out = (ts.items (cstr s).length).filter fun item => item.1 ∈ wanted) ∧
    ∀ out, parseTagValueList s wanted = some out →
      ∀ item ∈ out, ((cstr s).drop item.2.1).take item.2.2.length = item.2.2 := by
  have hiff : ∀ out, parseTagValueList s wanted = some out ↔
      ∃ ts : TagList, ts.text = cstr s ∧ (∀ name ∈ wanted, (ts.tags.map Tag.name).count name ≤ 1) ∧
        out = (ts.items (cstr s).length).filter fun item => item.1 ∈ wanted := by
    intro out
    constructor
    · intro h
      obtain ⟨ts, hts⟩ := parseTagValueList_reads h
      rw [parseTagValueList_text hts, keepItems_iff, hts, List.nil_append] at h
      obtain ⟨honce, hout⟩ := h
      refine ⟨ts, hts, fun name hname => ?_, hout⟩
      rw [← TagList.map_items (cstr s).length]
      exact once_nil.mp (honce name hname)
    · rintro ⟨ts, hts, honce, hout⟩
      rw [parseTagValueList_text hts, keepItems_iff, hts, List.nil_append]
      refine ⟨fun name hname => once_nil.mpr ?_, hout⟩
      rw [TagList.map_items]
      exact honce name hname
  refine ⟨hiff, fun out h item hitem => ?_⟩
  obtain ⟨ts, hts, -, rfl⟩ := (hiff out).mp h
  rw [← hts] at hitem ⊢
  have hplace := TagList.place_items (x := []) (List.mem_of_mem_filter hitem)
  rwa [List.nil_append] at hplace

theorem parseTagValueList_once (hts : ts.text = cstr s) (h : parseTagValueList s wanted = some out)
    (hname : name ∈ wanted) : (ts.tags.map Tag.name).count name ≤ 1 := by
  rw [parseTagValueList_text hts] at h
  rw [← TagList.map_items ts.text.length]
  exact ((keepItems_iff.mp h).1 name hname).1

/-- The text is accepted again where one of the tags is wanted. -/
theorem parseTagValueList_single (hts : ts.text = cstr s) (h : parseTagValueList s wanted = some out)
    (hname : name ∈ wanted) : ∃ out', parseTagValueList s [name] = some out' := by
  rw [parseTagValueList_text hts] at h ⊢
  refine ⟨_, keepItems_iff.mpr ⟨fun name' hname' => ?_, rfl⟩⟩
  rw [List.mem_singleton.mp hname']
  exact (keepItems_iff.mp h).1 name hname

end IndimailMta.Dkim
