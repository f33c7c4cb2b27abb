import IndimailMta.Send.Deliver

/-!
# The paragraphs of a bounce

A bounce file is read by people and by programs as paragraphs, each ended by a blank line.
`addbounce` looks for newlines behind newlines from the last but one character of its
text backwards. The last character is a newline, and it is not looked at: a report that ends
in one blank line of its own keeps it.

`slashed` is the loop read forwards, over the text without that last newline.
-/

namespace IndimailMta.Send

open IndimailMta

/-! ## Blank lines -/

/-- Nowhere are there two newlines in a row. -/
def NoBlank (t : Bytes) : Prop := ∀ x y, t ≠ x ++ 10 :: 10 :: y

/-- The text ends in a blank line and has no other. -/
def EndsInBlank (t : Bytes) : Prop :=
  (∃ x, t = x ++ [10, 10]) ∧ ∀ x y, t = x ++ 10 :: 10 :: y → y = []

/-- A newline behind a newline, or behind `prev`, becomes a slash. -/
def slashed (prev : Byte) : Bytes → Bytes
  | [] => []
  | b :: rest => (if prev = 10 ∧ b = 10 then 47 else b) :: slashed b rest

theorem slashed_append (prev : Byte) (l m : Bytes) :
    slashed prev (l ++ m) = slashed prev l ++ slashed (l.getLast?.getD prev) m := by
  induction l generalizing prev with
  | nil => rfl
  | cons b rest ih =>
      rw [List.cons_append, slashed, slashed, ih, List.cons_append]
      cases rest with
      | nil => rfl
      | cons c cs =>
          rw [List.getLast?_cons_cons, List.getLast?_eq_some_getLast (List.cons_ne_nil c cs)]
          rfl

theorem slashed_eq_self {l : Bytes} (prev : Byte) (h : 10 ∉ l) : slashed prev l = l := by
  induction l generalizing prev with
  | nil => rfl
  | cons b rest ih =>
      rw [List.mem_cons, not_or] at h
      rw [slashed, ih b h.2, if_neg fun hb => h.1 hb.2.symm]

theorem slashed_noBlank (prev : Byte) (l : Bytes) : NoBlank (slashed prev l) := by
  induction l generalizing prev with
  | nil =>
      intro x y h
      cases x <;> cases h
  | cons b rest ih =>
      intro x y h
      cases x with
      | cons c cs =>
          rw [slashed, List.cons_append, List.cons.injEq] at h
          exact ih b cs y h.2
      | nil =>
          cases rest with
          | nil => simp [slashed] at h
          | cons c cs =>
              simp only [slashed, List.nil_append, List.cons.injEq] at h
              obtain ⟨h1, h2, -⟩ := h
              -- the second newline is behind the first
              split at h1
              · cases h1
              · subst h1
                split at h2
                · cases h2
                · rename_i hne
                  exact hne ⟨rfl, h2⟩

/-! ## The loop -/

theorem slashBlankLines_getElem? (n k : Nat) (t : Bytes) :
    (slashBlankLines n t)[k]?
      = if 1 ≤ k ∧ k ≤ n ∧ t[k]? = some 10 ∧ t[k - 1]? = some 10 then some 47 else t[k]? := by
  induction n generalizing t with
  | zero =>
      rw [if_neg (by omega)]
      rfl
  | succ n ih =>
      rw [slashBlankLines, ih]
      by_cases hset : t[n + 1]? = some 10 ∧ t[n]? = some 10
      · rw [if_pos hset]
        by_cases hk : k = n + 1
        · subst hk
          have hlt : n + 1 < t.length := (List.getElem?_eq_some_iff.mp hset.1).1
          rw [if_neg (by omega), if_pos ⟨by omega, Nat.le_refl _, hset.1, hset.2⟩,
            List.getElem?_set_self hlt]
        · rw [List.getElem?_set_ne (by omega)]
          by_cases hk1 : k ≤ n
          · rw [List.getElem?_set_ne (by omega)]
            simp only [hk1, Nat.le_succ_of_le hk1]
          · rw [if_neg (by omega), if_neg (by omega)]
      · rw [if_neg hset]
        by_cases hk : k = n + 1
        · subst hk
          rw [if_neg (by omega), if_neg]
          rintro ⟨-, -, h1, h2⟩
          exact hset ⟨h1, h2⟩
        · by_cases hk1 : k ≤ n
          · simp only [hk1, Nat.le_succ_of_le hk1]
          · rw [if_neg (by omega), if_neg (by omega)]

theorem slashed_getElem? (prev : Byte) (l : Bytes) (k : Nat) :
    (slashed prev l)[k]?
      = if l[k]? = some 10 ∧ (prev :: l)[k]? = some 10 then some 47 else l[k]? := by
  induction l generalizing prev k with
  | nil => simp [slashed]
  | cons b rest ih =>
      cases k with
      | zero =>
          by_cases h : prev = 10 ∧ b = 10
          · simp [slashed, h]
          · rw [slashed, if_neg h, List.getElem?_cons_zero, List.getElem?_cons_zero,
              List.getElem?_cons_zero, if_neg]
            simpa [and_comm] using h
      | succ k =>
          rw [slashed, List.getElem?_cons_succ, ih]
          rfl

/-- The loop, over a text that ends in a newline. -/
theorem slashBlankLines_eq (u : Bytes) :
    slashBlankLines ((u ++ [10]).length - 2) (u ++ [10]) = slashed 0 u ++ [10] := by
  have hlen : (slashed 0 u).length = u.length := by
    have h : ∀ prev, (slashed prev u).length = u.length := by
      induction u with
      | nil => exact fun _ => rfl
      | cons b rest ih => exact fun _ => congrArg (· + 1) (ih b)
    exact h 0
  apply List.ext_getElem?
  intro k
  rw [slashBlankLines_getElem?, List.length_append, List.length_singleton]
  by_cases hk : k < u.length
  · have hk' : k < (slashed 0 u).length := by rw [hlen]; exact hk
    rw [List.getElem?_append_left hk, List.getElem?_append_left hk', slashed_getElem?]
    cases k with
    | zero => simp
    | succ k =>
        have hprev : (u ++ [10])[k + 1 - 1]? = u[k]? := List.getElem?_append_left (by omega)
        rw [hprev, List.getElem?_cons_succ]
        have hbound : 1 ≤ k + 1 ∧ k + 1 ≤ u.length + 1 - 2 := by omega
        simp only [hbound, true_and]
  · rw [if_neg (by omega), List.getElem?_append_right (by omega),
      List.getElem?_append_right (by omega), hlen]

/-! ## The text of a paragraph -/

/-- The recipient as it stands in the paragraph. -/
def bounceRecipient (mapvdoms : Bytes → Option Bytes) (recip : Bytes) : Bytes :=
  (stripvdomprepend mapvdoms recip).map fun b => if b = 10 then 95 else b

/-- The report ends in a blank line that the loop leaves: it is a newline alone, or its last two
characters are newlines and the one before is not. -/
def KeepsBlank (report : Bytes) : Prop :=
  report = [10] ∨ ∃ r x, x ≠ 10 ∧ report = r ++ [x, 10, 10]

/-- The first line of the paragraph, without its newline. -/
def bounceHead (mapvdoms : Bytes → Option Bytes) (recip : Bytes) : Bytes :=
  60 :: bounceRecipient mapvdoms recip ++ [62, 58]

/-- The text before the loop, without its last newline. -/
def bounceBody (mapvdoms : Bytes → Option Bytes) (recip report : Bytes) : Bytes :=
  if report = [] then bounceHead mapvdoms recip
  else if report.getLast? = some 10 then bounceHead mapvdoms recip ++ 10 :: report.dropLast
  else bounceHead mapvdoms recip ++ 10 :: report

theorem newline_notMem_bounceHead (mapvdoms : Bytes → Option Bytes) (recip : Bytes) :
    10 ∉ bounceHead mapvdoms recip := by
  intro h
  simp only [bounceHead, bounceRecipient, List.cons_append, List.mem_cons, List.mem_append,
    List.mem_map] at h
  rcases h with h | ⟨b, -, hb⟩ | h | h | h
  · cases h
  · split at hb
    · cases hb
    · rename_i hne
      exact hne hb
  · cases h
  · cases h
  · cases h

theorem bounceText_eq (mapvdoms : Bytes → Option Bytes) (recip report : Bytes) :
    bounceText mapvdoms recip report
      = slashed 0 (bounceBody mapvdoms recip report) ++ [10, 10] := by
  have hhead : ((60 :: stripvdomprepend mapvdoms recip).map fun b => if b = 10 then 95 else b)
      ++ asc ">:\n" = bounceHead mapvdoms recip ++ [10] := by
    have hasc : asc ">:\n" = [62, 58, 10] := by decide
    rw [hasc, List.map_cons, bounceHead, bounceRecipient]
    simp
  have hbody : (if report ≠ [] ∧ report.getLast? ≠ some 10 then
      bounceHead mapvdoms recip ++ [10] ++ report ++ [10]
      else bounceHead mapvdoms recip ++ [10] ++ report)
        = bounceBody mapvdoms recip report ++ [10] := by
    unfold bounceBody
    rcases List.eq_nil_or_concat report with rfl | ⟨d, z, rfl⟩
    · simp
    · by_cases hz : z = 10
      · simp [hz]
      · simp [hz]
  rw [bounceText, hhead, hbody, slashBlankLines_eq, List.append_assoc]
  rfl

/-- The last character that the loop leaves before the last newline. -/
theorem getLast?_slashed_snoc (prev : Byte) (l : Bytes) (b : Byte) :
    (slashed prev (l ++ [b])).getLast? = some 10 ↔ b = 10 ∧ l.getLast?.getD prev ≠ 10 := by
  rw [slashed_append, slashed, slashed, List.getLast?_concat, Option.some.injEq]
  constructor
  · intro h
    split at h
    · cases h
    · rename_i hne
      exact ⟨h, fun hp => hne ⟨hp, h⟩⟩
  · rintro ⟨hb, hp⟩
    rw [if_neg fun h => hp h.1, hb]

theorem getLast?_slashed_body (mapvdoms : Bytes → Option Bytes) (recip report : Bytes) :
    (slashed 0 (bounceBody mapvdoms recip report)).getLast? = some 10 ↔ KeepsBlank report := by
  have hhead := newline_notMem_bounceHead mapvdoms recip
  have hlast : (bounceHead mapvdoms recip).getLast? = some 58 := by
    rw [bounceHead, show ([62, 58] : Bytes) = [62] ++ [58] from rfl, ← List.append_assoc,
      List.getLast?_concat]
  -- the text behind the head, behind its newline
  have hsplit : ∀ l, slashed 0 (bounceHead mapvdoms recip ++ 10 :: l)
      = bounceHead mapvdoms recip ++ 10 :: slashed 10 l := by
    intro l
    rw [slashed_append, slashed_eq_self 0 hhead, hlast]
    rfl
  rcases List.eq_nil_or_concat report with rfl | ⟨d, z, rfl⟩
  · rw [bounceBody, if_pos rfl, slashed_eq_self 0 hhead, hlast]
    simp [KeepsBlank]
  · rw [List.concat_eq_append, bounceBody, if_neg (by simp), List.getLast?_concat,
      List.dropLast_concat]
    by_cases hz : z = 10
    · subst hz
      rw [if_pos rfl, hsplit]
      rcases List.eq_nil_or_concat d with rfl | ⟨e, y, rfl⟩
      · simp [slashed, KeepsBlank]
      · rw [List.concat_eq_append]
        have hnext : slashed 10 (e ++ [y]) ≠ [] := by
          rw [slashed_append]
          simp [slashed]
        rw [List.getLast?_append_of_ne_nil _ (by simp), List.getLast?_cons_of_ne_nil hnext,
          getLast?_slashed_snoc]
        constructor
        · rintro ⟨rfl, hx⟩
          rcases List.eq_nil_or_concat e with rfl | ⟨r, x, rfl⟩
          · exact absurd rfl hx
          · rw [List.concat_eq_append, List.getLast?_concat] at hx
            exact Or.inr ⟨r, x, hx, by simp⟩
        · rintro (h | ⟨r, x, hx, h⟩)
          · have hlen := congrArg List.length h
            simp at hlen
          · have h' : e ++ [y] = r ++ [x] ++ [10] := by
              rw [← List.append_left_inj [10], h]
              simp
            obtain ⟨he, hy⟩ := List.append_inj' h' rfl
            refine ⟨by simpa using hy, ?_⟩
            rw [he, List.getLast?_concat]
            exact hx
    · rw [if_neg (by simpa using hz), ← List.cons_append, ← List.append_assoc,
        getLast?_slashed_snoc]
      constructor
      · intro h
        exact absurd h.1 hz
      · rintro (h | ⟨r, x, -, h⟩)
        · have hl := congrArg List.getLast? h
          simp only [List.getLast?_concat, List.getLast?_singleton, Option.some.injEq] at hl
          exact absurd hl hz
        · have hl := congrArg List.getLast? h
          rw [show r ++ [x, 10, 10] = r ++ [x, 10] ++ [10] by simp] at hl
          simp only [List.getLast?_concat, Option.some.injEq] at hl
          exact absurd hl hz

/-! ## Paragraphs -/

/-- A paragraph for `recip`: its first line has the recipient, and only its end is blank. -/
def IsParagraph (mapvdoms : Bytes → Option Bytes) (recip text : Bytes) : Prop :=
  (∃ rest, text = bounceHead mapvdoms recip ++ 10 :: rest) ∧ EndsInBlank text

/-- A text without a blank line, before a last one. -/
theorem endsInBlank_iff {s : Bytes} (h : NoBlank s) :
    EndsInBlank (s ++ [10, 10]) ↔ s.getLast? ≠ some 10 := by
  constructor
  · rintro ⟨-, hend⟩ hlast
    obtain ⟨x, rfl⟩ : ∃ x, s = x ++ [10] := by
      rcases List.eq_nil_or_concat s with rfl | ⟨x, z, rfl⟩
      · cases hlast
      · rw [List.concat_eq_append, List.getLast?_concat, Option.some.injEq] at hlast
        exact ⟨x, by rw [List.concat_eq_append, hlast]⟩
    have h1 := hend x [10] (by simp)
    cases h1
  · intro hlast
    refine ⟨⟨s, rfl⟩, fun x y hxy => ?_⟩
    rcases List.eq_nil_or_concat y with rfl | ⟨y, z, rfl⟩
    · rfl
    · -- the blank line is before the last character
      rw [List.concat_eq_append] at hxy
      have h1 : s ++ [10] ++ [10] = (x ++ 10 :: 10 :: y) ++ [z] := by
        rw [List.append_assoc, List.append_assoc]
        exact hxy
      obtain ⟨h2, -⟩ := List.append_inj' h1 rfl
      rcases List.eq_nil_or_concat y with rfl | ⟨y, w, rfl⟩
      · have h3 : s ++ [10] = (x ++ [10]) ++ [10] := by rw [h2]; simp
        obtain ⟨h4, -⟩ := List.append_inj' h3 rfl
        rw [h4, List.getLast?_concat] at hlast
        exact absurd rfl hlast
      · rw [List.concat_eq_append] at h2
        have h3 : s ++ [10] = (x ++ 10 :: 10 :: y) ++ [w] := by rw [h2]; simp
        obtain ⟨h4, -⟩ := List.append_inj' h3 rfl
        exact absurd h4 (h x y)

theorem bounceBody_head (mapvdoms : Bytes → Option Bytes) (recip report : Bytes) :
    ∃ rest, slashed 0 (bounceBody mapvdoms recip report) ++ [10, 10]
      = bounceHead mapvdoms recip ++ 10 :: rest := by
  have hhead := newline_notMem_bounceHead mapvdoms recip
  have hlast : (bounceHead mapvdoms recip).getLast? = some 58 := by
    rw [bounceHead, show ([62, 58] : Bytes) = [62] ++ [58] from rfl, ← List.append_assoc,
      List.getLast?_concat]
  unfold bounceBody
  split
  · rw [slashed_eq_self 0 hhead]
    exact ⟨[10], rfl⟩
  · split
    · rw [slashed_append, slashed_eq_self 0 hhead, hlast, List.append_assoc]
      exact ⟨slashed 10 report.dropLast ++ [10, 10], rfl⟩
    · rw [slashed_append, slashed_eq_self 0 hhead, hlast, List.append_assoc]
      exact ⟨slashed 10 report ++ [10, 10], rfl⟩

/-- One call appends a paragraph just where the report does not keep a blank line. -/
theorem isParagraph_iff (mapvdoms : Bytes → Option Bytes) (recip report : Bytes) :
    IsParagraph mapvdoms recip (bounceText mapvdoms recip report) ↔ ¬ KeepsBlank report := by
  rw [IsParagraph, bounceText_eq, endsInBlank_iff (slashed_noBlank _ _), ne_eq,
    getLast?_slashed_body]
  constructor
  · exact And.right
  · intro h
    exact ⟨bounceBody_head mapvdoms recip report, h⟩

/-! ## The file -/

/-- A text taken apart behind its blank lines; `acc` is what there is of the next paragraph. -/
def splitBlank (acc : Bytes) : Bytes → List Bytes
  | [] => if acc = [] then [] else [acc]
  | b :: rest =>
      if b = 10 ∧ acc.getLast? = some 10 then (acc ++ [b]) :: splitBlank [] rest
      else splitBlank (acc ++ [b]) rest

/-- The paragraphs of a file. -/
def paragraphs (file : Bytes) : List Bytes := splitBlank [] file

theorem splitBlank_append {acc l : Bytes} (h : NoBlank (acc ++ l)) (rest : Bytes) :
    splitBlank acc (l ++ rest) = splitBlank (acc ++ l) rest := by
  induction l generalizing acc with
  | nil => rw [List.nil_append, List.append_nil]
  | cons b l ih =>
      rw [List.cons_append, splitBlank, if_neg, ih, List.append_assoc]
      · rfl
      · rwa [List.append_assoc]
      · rintro ⟨rfl, hlast⟩
        rcases List.eq_nil_or_concat acc with rfl | ⟨x, z, rfl⟩
        · cases hlast
        · rw [List.concat_eq_append, List.getLast?_concat, Option.some.injEq] at hlast
          subst hlast
          exact h x l (by simp)

theorem splitBlank_paragraph {text : Bytes} (h : EndsInBlank text) (rest : Bytes) :
    splitBlank [] (text ++ rest) = text :: splitBlank [] rest := by
  obtain ⟨⟨x, rfl⟩, hend⟩ := h
  have hno : NoBlank ([] ++ (x ++ [10])) := by
    intro a b hab
    have hb := hend a (b ++ [10]) (by
      rw [show x ++ [10, 10] = ([] ++ (x ++ [10])) ++ [10] by simp, hab]
      simp)
    simp at hb
  have hsplit := splitBlank_append hno (10 :: rest)
  rw [show x ++ [10, 10] ++ rest = x ++ [10] ++ 10 :: rest by simp, hsplit, splitBlank, if_pos]
  · simp
  · exact ⟨rfl, by simp⟩

/-- A sequence of calls for one message. -/
def addbounces (id : Nat) (calls : List (Bytes × Bytes)) (s : State) : State :=
  calls.foldl (fun s x => addbounce id x.1 x.2 s) s

theorem addbounces_bounce (id : Nat) (calls : List (Bytes × Bytes)) (s : State) :
    (addbounces id calls s).fs.bounce id
      = s.fs.bounce id ++ calls.flatMap fun x => bounceText s.mapvdoms x.1 x.2 := by
  induction calls generalizing s with
  | nil => simp [addbounces]
  | cons x calls ih =>
      have hone : (addbounce id x.1 x.2 s).fs.bounce id
          = s.fs.bounce id ++ bounceText s.mapvdoms x.1 x.2 := by
        simp [addbounce, State.log]
      have hmap : (addbounce id x.1 x.2 s).mapvdoms = s.mapvdoms := rfl
      show (addbounces id calls (addbounce id x.1 x.2 s)).fs.bounce id = _
      rw [ih, hone, hmap, List.flatMap_cons, List.append_assoc]

/-- **Bounce paragraphs are separable just where no report keeps a blank line.** Every call
appends a paragraph of its recipient, and the file that was empty before the calls splits at its
blank lines into one paragraph for each call, in order. -/
theorem bounce_separable_iff (s : State) (id : Nat) (calls : List (Bytes × Bytes))
    (h : s.fs.bounce id = []) :
    ((∀ x ∈ calls, IsParagraph s.mapvdoms x.1 (bounceText s.mapvdoms x.1 x.2)) ∧
      paragraphs ((addbounces id calls s).fs.bounce id)
        = calls.map fun x => bounceText s.mapvdoms x.1 x.2) ↔
      ∀ x ∈ calls, ¬ KeepsBlank x.2 := by
  constructor
  · intro hp x hx
    exact (isParagraph_iff _ _ _).mp (hp.1 x hx)
  · intro hk
    have hpar : ∀ x ∈ calls, IsParagraph s.mapvdoms x.1 (bounceText s.mapvdoms x.1 x.2) :=
      fun x hx => (isParagraph_iff _ _ _).mpr (hk x hx)
    refine ⟨hpar, ?_⟩
    rw [addbounces_bounce, h, List.nil_append]
    clear h hk
    induction calls with
    | nil => rfl
    | cons x calls ih =>
        rw [List.flatMap_cons, paragraphs, splitBlank_paragraph (hpar x List.mem_cons_self).2]
        rw [List.map_cons, ← ih fun y hy => hpar y (List.mem_cons_of_mem _ hy)]
        rfl

/-- Two calls, the first with a blank line inside its report. -/
def twoBounces : List (Bytes × Bytes) :=
  [([117, 64, 104], [110, 111, 10, 10, 119]), ([118, 64, 104], [])]

theorem bounce_separable_two : paragraphs ((addbounces 1 twoBounces {}).fs.bounce 1)
    = [[60, 117, 64, 104, 62, 58, 10, 110, 111, 10, 47, 119, 10, 10],
      [60, 118, 64, 104, 62, 58, 10, 10]] := by
  have hk : ∀ x ∈ twoBounces, ¬ KeepsBlank x.2 := by
    intro x hx
    simp only [twoBounces, List.mem_cons, List.not_mem_nil, or_false] at hx
    rintro (h | ⟨r, y, -, h⟩)
    · rcases hx with rfl | rfl <;> cases h
    · have hlast := congrArg List.getLast? h
      rw [show r ++ [y, 10, 10] = r ++ [y, 10] ++ [10] by simp, List.getLast?_concat] at hlast
      rcases hx with rfl | rfl <;> cases hlast
  have h := ((bounce_separable_iff {} 1 twoBounces rfl).mpr hk).2
  rw [h]
  decide

/-- **A report that ends in a blank line is not one paragraph.** -/
theorem bounce_not_separable : ¬ ∀ mapvdoms recip report,
    IsParagraph mapvdoms recip (bounceText mapvdoms recip report) := by
  intro h
  exact (isParagraph_iff _ _ _).mp (h (fun _ => none) (asc "u@h") [10]) (Or.inl rfl)

end IndimailMta.Send
