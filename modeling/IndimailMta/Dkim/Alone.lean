import Mathlib.Data.List.Forall2
import IndimailMta.Dkim.Verify

/-!
# Signatures judged alone

A signature that is processed among others is compared with the same signature processed
alone over the same message. For each stage, the headers, the body and the results, there is
what the stage makes of one signature, and the lemma that the stage makes just that of every
signature of a list. What the signatures share (the line, the selectors, `SigHdr`) comes into
the lemmas as the condition under which it makes no difference.
-/

namespace IndimailMta.Dkim

open IndimailMta

variable (env : Env) (headers : List Bytes)

/-! ## What the selectors and the checks decide -/

/-- The record of the signature's own selector. -/
def own (s : Signature) : SelectorInfo := env.record s.selector s.domain

/-- The signature parses, and its selector fails. -/
def fails (s : Signature) : Bool := s.status = 0 && (own env s).status ≠ 0

/-- The signature gets as far as its headers being hashed. -/
def hashes (s : Signature) : Bool :=
  s.status = 0 && (own env s).status = 0 && checkSelector s (own env s) = 0

/-- The signature passes the checks of its header. -/
def active (s : Signature) : Bool :=
  hashes env s && (env.allowUnsignedFrom || !unsignedFrom headers s)

/-- The signature is checked over the bytes in `SigHdr`. -/
def overBytes (s : Signature) : Bool :=
  active env headers s && (own env s).method ≠ .rsa && (own env s).keyEd

/-- The line as the signatures of a list leave it. -/
def through (before : List Signature) (b : Bytes) : Bytes :=
  before.foldl (fun b t => if active env headers t then canonLine t.bodyCanon b else b) b

/-- `SigHdr` after the headers of the signatures of a list. -/
def collect (sigs : List Signature) (sigHdr : Bytes) : Bytes :=
  sigs.foldl (fun h s =>
    if hashes env s then (if s.hash = .sha256 then [] else h) ++ headerBytes headers s else h)
    sigHdr

/-- Two signatures do not name the same selector, up to case, with different records. -/
def Agree (t s : Signature) : Prop :=
  t.status = 0 → s.status = 0 → strieq t.selector s.selector → strieq t.domain s.domain →
    own env t = own env s

/-! ## Headers -/

/-- What `ProcessHeaders` makes of one signature. -/
def started (s : Signature) : SignatureInfo :=
  if s.status ≠ 0 then s.info
  else
    let i := { s.info with selector := some (own env s) }
    if (own env s).status ≠ 0 then { i with status := (own env s).status }
    else
      let i := { i with status := checkSelector s (own env s) }
      if i.status ≠ 0 then i
      else
        { i with
          hdr := headerBytes headers s
          status := if !env.allowUnsignedFrom && unsignedFrom headers s then -18 else 0 }

theorem started_sig (s : Signature) : (started env headers s).sig = s := by
  unfold started
  split
  · rfl
  · split
    · rfl
    · simp only
      split <;> rfl

theorem started_status (s : Signature) :
    (started env headers s).status = 0 ↔ active env headers s = true := by
  unfold started active hashes
  by_cases hs : s.status = 0
  · by_cases hr : (own env s).status = 0
    · by_cases hc : checkSelector s (own env s) = 0
      · simp only [hs, hr, hc, ne_eq, not_true_eq_false, if_false]
        cases env.allowUnsignedFrom <;> cases unsignedFrom headers s <;> simp
      · simp [hs, hr, hc]
    · simp [hs, hr]
  · simp [hs, Signature.info]

theorem started_selector {s : Signature} (h : active env headers s = true) :
    (started env headers s).selector = some (own env s) := by
  have h0 := h
  simp only [active, hashes, Bool.and_eq_true, decide_eq_true_eq] at h0
  unfold started
  simp [h0.1.1.1, h0.1.1.2, h0.1.2]

/-- The selectors that were asked for have their own records, and no other is taken for that of a
signature still to come. -/
def Cached (sels : Selectors) (sigs : List Signature) : Prop :=
  ∀ e ∈ sels, ∀ s ∈ sigs, s.status = 0 → strieq e.1.1 s.selector = true →
    strieq e.1.2 s.domain = true → e.2 = own env s

theorem getSelector_own {sels : Selectors} {s : Signature} {rest : List Signature}
    (hc : Cached env sels (s :: rest)) (hs : s.status = 0) :
    (getSelector env sels s.selector s.domain).1 = own env s := by
  unfold getSelector
  cases hf : sels.find? fun e => strieq e.1.1 s.selector && strieq e.1.2 s.domain with
  | none => rfl
  | some e =>
      have hm := List.mem_of_find?_eq_some hf
      have he := List.find?_some hf
      simp only [Bool.and_eq_true] at he
      exact hc e hm s List.mem_cons_self hs he.1 he.2

theorem getSelector_cached {sels : Selectors} {s : Signature} {rest : List Signature}
    (hc : Cached env sels (s :: rest)) (hs : s.status = 0) (ha : ∀ t ∈ rest, Agree env s t) :
    Cached env (getSelector env sels s.selector s.domain).2 rest := by
  intro e he t ht
  unfold getSelector at he
  split at he
  · exact hc e he t (List.mem_cons_of_mem _ ht)
  · rcases List.mem_append.mp he with h | h
    · exact hc e h t (List.mem_cons_of_mem _ ht)
    · rw [List.mem_singleton] at h
      subst h
      intro h0 h1 h2
      exact ha t ht hs h0 h1 h2

/-- One signature, with what was left by those before it. -/
theorem startSignature_eq {sh : Shared} {s : Signature} {rest : List Signature}
    (hc : Cached env sh.selectors (s :: rest)) (ha : ∀ t ∈ rest, Agree env s t) :
    ∃ sels, Cached env sels rest ∧
      startSignature env headers sh s.info =
        (started env headers s, ⟨sels, collect env headers [s] sh.sigHdr⟩, fails env s) := by
  by_cases hs : s.status = 0
  · refine ⟨_, getSelector_cached env hc hs ha, ?_⟩
    have hown := getSelector_own env hc hs
    unfold startSignature
    simp only [Signature.info, hs, ne_eq, not_true_eq_false, if_false]
    generalize getSelector env sh.selectors s.selector s.domain = g at hown
    obtain ⟨sel, sels⟩ := g
    simp only at hown
    subst hown
    simp only
    by_cases hr : (own env s).status = 0
    · by_cases hk : checkSelector s (own env s) = 0
      · by_cases hu : (!env.allowUnsignedFrom && unsignedFrom headers s) = true
        · simp [hs, hr, hk, hu, hashHeader, started, Signature.info, collect, hashes, fails]
        · simp [hs, hr, hk, hu, hashHeader, started, Signature.info, collect, hashes, fails]
      · simp [hs, hr, hk, started, Signature.info, collect, hashes, fails]
    · simp [hs, hr, started, Signature.info, collect, hashes, fails]
  · refine ⟨sh.selectors, ?_, ?_⟩
    · intro e he t ht
      exact hc e he t (List.mem_cons_of_mem _ ht)
    · simp [startSignature, started, Signature.info, collect, hashes, fails, hs]

theorem startSignatures_unparsed {sigs : List Signature} (h : ∀ s ∈ sigs, s.status ≠ 0) :
    sigs.map (started env headers) = sigs.map Signature.info ∧
      ∀ b, collect env headers sigs b = b := by
  induction sigs with
  | nil => exact ⟨rfl, fun _ => rfl⟩
  | cons s rest ih =>
      have hs := h s List.mem_cons_self
      obtain ⟨h1, h2⟩ := ih fun t ht => h t (List.mem_cons_of_mem _ ht)
      refine ⟨by simp [h1, started, hs], fun b => ?_⟩
      have hh : hashes env s = false := by simp [hashes, hs]
      show collect env headers rest (if hashes env s = true then _ else b) = b
      rw [hh]
      exact h2 b

/-- **`ProcessHeaders` makes of every signature what it makes of it alone**, where the records
agree and nothing that parses follows a selector that fails. -/
theorem startSignatures_eq {sigs : List Signature} {sh : Shared}
    (hc : Cached env sh.selectors sigs) (ha : sigs.Pairwise (Agree env))
    (hf : sigs.Pairwise fun t s => fails env t = true → s.status ≠ 0) :
    ∃ sels, startSignatures env headers sh (sigs.map Signature.info) =
      (sigs.map (started env headers), ⟨sels, collect env headers sigs sh.sigHdr⟩,
        sigs.any (fails env)) := by
  induction sigs generalizing sh with
  | nil => exact ⟨sh.selectors, rfl⟩
  | cons s rest ih =>
      rw [List.pairwise_cons] at ha hf
      obtain ⟨sels, hc', h1⟩ := startSignature_eq env headers hc ha.1
      rw [List.map_cons, startSignatures, h1]
      cases hfs : fails env s with
      | true =>
          have hun := @startSignatures_unparsed env headers rest fun t ht => hf.1 t ht hfs
          refine ⟨sels, ?_⟩
          simp only [List.map_cons, List.any_cons, hfs, Bool.true_or, hun.1]
          rw [show collect env headers (s :: rest) sh.sigHdr
            = collect env headers rest (collect env headers [s] sh.sigHdr) from rfl, hun.2]
      | false =>
          obtain ⟨sels', h2⟩ := @ih ⟨sels, collect env headers [s] sh.sigHdr⟩ hc' ha.2 hf.2
          refine ⟨sels', ?_⟩
          simp only [h2, List.map_cons, List.any_cons, hfs, Bool.false_or]
          rfl

theorem any_started (sigs : List Signature) :
    ((sigs.map (started env headers)).any fun i => i.status = 0)
      = sigs.any (active env headers) := by
  rw [List.any_map]
  congr 1
  funext s
  rw [Function.comp, Bool.eq_iff_iff, decide_eq_true_iff]
  exact started_status env headers s

theorem processHeaders_eq {sigs : List Signature} (ha : sigs.Pairwise (Agree env))
    (hf : sigs.Pairwise fun t s => fails env t = true → s.status ≠ 0) :
    processHeaders env headers sigs =
      (sigs.map (started env headers), collect env headers sigs [],
        !sigs.any (fails env) && sigs.any (active env headers)) := by
  obtain ⟨sels, h⟩ := @startSignatures_eq env headers sigs {}
    (fun e he => absurd he List.not_mem_nil) ha hf
  rw [processHeaders, h]
  simp only [any_started]

theorem processHeaders_alone (s : Signature) :
    processHeaders env headers [s] =
      ([started env headers s], collect env headers [s] [],
        active env headers s) := by
  rw [processHeaders_eq env headers (List.pairwise_singleton _ _) (List.pairwise_singleton _ _)]
  have h : (!fails env s && active env headers s) = active env headers s := by
    cases hact : active env headers s with
    | false => simp
    | true =>
        simp only [active, hashes, Bool.and_eq_true, decide_eq_true_eq] at hact
        simp [fails, hact.1.1.2]
  simp [h]

/-! ## The body -/

/-- What one more line makes of one signature, and what it adds to `SigHdr`. -/
def lineStep (line : Bytes × Bool) (i : SignatureInfo) : SignatureInfo × Bytes :=
  if i.status ≠ 0 then (i, [])
  else bodyLine line.2 (canonLine i.sig.bodyCanon line.1) (i, [])

/-- What the lines of the body make of one signature, and what they add to `SigHdr`. -/
def bodied : List (Bytes × Bool) → SignatureInfo → SignatureInfo × Bytes
  | [], i => (i, [])
  | line :: rest, i =>
      let (i, b) := lineStep line i
      let (i, c) := bodied rest i
      (i, b ++ c)

/-- A step of one signature that writes to `SigHdr` only at its end, nothing where the
signature has a body hash, and that keeps the signature and its status. -/
def Appends (f : SignatureInfo × Bytes → SignatureInfo × Bytes) : Prop :=
  ∀ i, ∃ j d, (∀ h, f (i, h) = (j, h ++ d)) ∧ (i.sig.bodyHash ≠ [] → d = []) ∧
    j.sig = i.sig ∧ j.status = i.status ∧ j.selector = i.selector

theorem Appends.id : Appends fun p => p := fun i => ⟨i, [], by simp⟩

theorem Appends.comp {f g : SignatureInfo × Bytes → SignatureInfo × Bytes} (hf : Appends f)
    (hg : Appends g) : Appends fun p => g (f p) := by
  intro i
  obtain ⟨j, d, hj, hd, hs, ht, hl⟩ := hf i
  obtain ⟨k, e, hk, he, hs', ht', hl'⟩ := hg j
  refine ⟨k, d ++ e, fun h => ?_, fun hb => ?_, hs'.trans hs, ht'.trans ht, hl'.trans hl⟩
  · show g (f (i, h)) = _
    rw [hj, hk, List.append_assoc]
  · rw [hd hb, he (by rwa [hs]), List.nil_append]

theorem limit_keeps (b : Bytes) (i : SignatureInfo) :
    (limit b i).2.sig = i.sig ∧ (limit b i).2.status = i.status ∧
      (limit b i).2.selector = i.selector := by
  unfold limit
  split
  · exact ⟨rfl, rfl, rfl⟩
  · simp only
    split <;> exact ⟨rfl, rfl, rfl⟩

theorem hashBody_appends (b : Bytes) : Appends (hashBody b) := by
  intro i
  obtain ⟨hs, ht, hl⟩ := limit_keeps b i
  by_cases hb : i.sig.bodyHash = []
  · refine ⟨{ (limit b i).2 with hdr := (limit b i).2.hdr ++ (limit b i).1 }, (limit b i).1,
      fun h => ?_, fun h => absurd hb h, hs, ht, hl⟩
    simp [hashBody, hs, hb, hashHeader]
  · refine ⟨{ (limit b i).2 with bdy := (limit b i).2.bdy ++ (limit b i).1 }, [],
      fun h => ?_, fun _ => rfl, hs, ht, hl⟩
    simp [hashBody, hs, hb]

theorem hashEmptyLines_appends (n : Nat) : Appends (hashEmptyLines n) := by
  induction n with
  | zero => exact Appends.id
  | succ n ih => exact (hashBody_appends [13, 10]).comp ih

theorem bodyLine_appends (bEOF : Bool) (b : Bytes) : Appends (bodyLine bEOF b) := by
  -- a step that only counts the empty lines
  have hcount : ∀ g : Nat → Nat,
      Appends fun p => ({ p.1 with emptyLineCount := g p.1.emptyLineCount }, p.2) :=
    fun g i => ⟨{ i with emptyLineCount := g i.emptyLineCount }, [], by simp⟩
  intro i
  cases hc : i.sig.bodyCanon with
  | simple =>
      by_cases hb : b = []
      · cases bEOF with
        | true =>
            obtain ⟨j, d, h⟩ := ((hcount (· + 1)).comp (hashBody_appends [13, 10])) i
            exact ⟨j, d, by simpa [bodyLine, hc, hb] using h⟩
        | false =>
            obtain ⟨j, d, h⟩ := hcount (· + 1) i
            exact ⟨j, d, by simpa [bodyLine, hc, hb] using h⟩
      · obtain ⟨j, d, h⟩ := ((((hcount fun _ => 0).comp
          (hashEmptyLines_appends i.emptyLineCount)).comp (hashBody_appends b)).comp
            (hashBody_appends [13, 10])) i
        exact ⟨j, d, by simpa [bodyLine, hc, hb] using h⟩
  | relaxed =>
      by_cases hb : b = []
      · obtain ⟨j, d, h⟩ := hcount (· + 1) i
        exact ⟨j, d, by simpa [bodyLine, hc, hb] using h⟩
      · have hline := ((hcount fun _ => 0).comp
          (hashEmptyLines_appends i.emptyLineCount)).comp (hashBody_appends b)
        cases bEOF with
        | true =>
            obtain ⟨j, d, h⟩ := hline i
            exact ⟨j, d, by simpa [bodyLine, hc, hb] using h⟩
        | false =>
            obtain ⟨j, d, h⟩ := (hline.comp (hashBody_appends [13, 10])) i
            exact ⟨j, d, by simpa [bodyLine, hc, hb] using h⟩
  | nowsp =>
      obtain ⟨j, d, h⟩ := hashBody_appends b i
      exact ⟨j, d, by simpa [bodyLine, hc] using h⟩

theorem bodyLine_eq (bEOF : Bool) (b : Bytes) (i : SignatureInfo) (h : Bytes) :
    bodyLine bEOF b (i, h)
      = ((bodyLine bEOF b (i, [])).1, h ++ (bodyLine bEOF b (i, [])).2) := by
  obtain ⟨j, d, hj, -⟩ := bodyLine_appends bEOF b i
  rw [hj h, hj []]
  rfl

theorem lineStep_keeps (line : Bytes × Bool) (i : SignatureInfo) :
    (lineStep line i).1.sig = i.sig ∧ (lineStep line i).1.status = i.status ∧
      (lineStep line i).1.selector = i.selector ∧
      (i.sig.bodyHash ≠ [] → (lineStep line i).2 = []) := by
  unfold lineStep
  split
  · exact ⟨rfl, rfl, rfl, fun _ => rfl⟩
  · obtain ⟨j, d, hj, hd, hs, ht, hl⟩ :=
      bodyLine_appends line.2 (canonLine i.sig.bodyCanon line.1) i
    rw [hj]
    exact ⟨hs, ht, hl, fun hb => by simp [hd hb]⟩

theorem bodied_keeps (lines : List (Bytes × Bool)) (i : SignatureInfo) :
    (bodied lines i).1.sig = i.sig ∧ (bodied lines i).1.status = i.status ∧
      (bodied lines i).1.selector = i.selector ∧
      (i.sig.bodyHash ≠ [] → (bodied lines i).2 = []) := by
  induction lines generalizing i with
  | nil => exact ⟨rfl, rfl, rfl, fun _ => rfl⟩
  | cons line rest ih =>
      obtain ⟨h1, h2, h3, h4⟩ := lineStep_keeps line i
      obtain ⟨k1, k2, k3, k4⟩ := ih (lineStep line i).1
      refine ⟨k1.trans h1, k2.trans h2, k3.trans h3, fun hb => ?_⟩
      show (lineStep line i).2 ++ (bodied rest (lineStep line i).1).2 = []
      rw [h4 hb, k4 (by rwa [h1]), List.nil_append]

theorem bodied_inactive (lines : List (Bytes × Bool)) {i : SignatureInfo} (h : i.status ≠ 0) :
    bodied lines i = (i, []) := by
  induction lines with
  | nil => rfl
  | cons line rest ih =>
      have hl : lineStep line i = (i, []) := if_pos h
      simp only [bodied, hl, ih, List.append_nil]

/-- A line reaches every signature of a list as it would reach it alone. -/
def Clean (sigs : List Signature) (b : Bytes) : Prop :=
  ∀ before s after, sigs = before ++ s :: after → active env headers s = true →
    canonLine s.bodyCanon (through env headers before b) = canonLine s.bodyCanon b

section Lines

variable {env headers}
variable {f : Signature → SignatureInfo} {sigs : List Signature}

/-- One line, from a signature of the list on. -/
theorem processBody_eq (hf : ∀ s, (f s).sig = s ∧ ((f s).status = 0 ↔ active env headers s = true))
    {line : Bytes × Bool} (hc : Clean env headers sigs line.1) :
    ∀ (after before : List Signature), sigs = before ++ after → ∀ h,
      processBody line.2 (through env headers before line.1) h (after.map f)
        = (after.map fun s => (lineStep line (f s)).1,
            h ++ after.flatMap fun s => (lineStep line (f s)).2) := by
  intro after
  induction after with
  | nil => intro before _ h; simp [processBody]
  | cons s rest ih =>
      intro before hs h
      obtain ⟨hsig, hact⟩ := hf s
      have hnext : through env headers (before ++ [s]) line.1
          = if active env headers s then canonLine s.bodyCanon (through env headers before line.1)
            else through env headers before line.1 := by
        simp [through]
      have ih' := ih (before ++ [s]) (by simp [hs])
      rw [List.map_cons, processBody]
      by_cases ha : active env headers s = true
      · have h0 := hact.mpr ha
        rw [if_neg (not_not_intro h0), hsig]
        have hline := hc before s rest hs ha
        have hl : lineStep line (f s) = bodyLine line.2 (canonLine s.bodyCanon line.1) (f s, []) := by
          simp [lineStep, h0, hsig]
        rw [hnext, if_pos ha, hline] at ih'
        simp only [hline, bodyLine_eq line.2 _ (f s) h, ih', ← hl, List.map_cons,
          List.flatMap_cons, List.append_assoc]
      · have h0 : (f s).status ≠ 0 := fun h0 => ha (hact.mp h0)
        rw [if_pos h0]
        rw [hnext, if_neg ha] at ih'
        simp [ih', lineStep, h0]

/-- **The body makes of every signature what it makes of it alone.** What is added to `SigHdr` is
of use where only one signature may add to it. -/
theorem processLines_eq {lines : List (Bytes × Bool)}
    (hf : ∀ s, (f s).sig = s ∧ ((f s).status = 0 ↔ active env headers s = true))
    (hc : ∀ line ∈ lines, Clean env headers sigs line.1) (h : Bytes) :
    (processLines lines h (sigs.map f)).1 = (sigs.map fun s => (bodied lines (f s)).1) ∧
      ∀ before s after, sigs = before ++ s :: after →
        (∀ t ∈ before ++ after, active env headers t = true → t.bodyHash ≠ []) →
        (processLines lines h (sigs.map f)).2 = h ++ (bodied lines (f s)).2 := by
  induction lines generalizing f h with
  | nil => exact ⟨by simp [processLines, bodied], by simp [processLines, bodied]⟩
  | cons line rest ih =>
      have hline := processBody_eq hf (hc line List.mem_cons_self) sigs [] rfl h
      have hf' : ∀ s, (lineStep line (f s)).1.sig = s ∧
          ((lineStep line (f s)).1.status = 0 ↔ active env headers s = true) := by
        intro s
        obtain ⟨k1, k2, -⟩ := lineStep_keeps line (f s)
        rw [k1, k2]
        exact hf s
      obtain ⟨ih1, ih2⟩ := ih (f := fun s => (lineStep line (f s)).1) hf'
        (fun l hl => hc l (List.mem_cons_of_mem _ hl))
        (h ++ sigs.flatMap fun s => (lineStep line (f s)).2)
      have hstep : processLines (line :: rest) h (sigs.map f)
          = processLines rest (h ++ sigs.flatMap fun s => (lineStep line (f s)).2)
              (sigs.map fun s => (lineStep line (f s)).1) := by
        rw [processLines]
        rw [show through env headers [] line.1 = line.1 from rfl] at hline
        rw [hline]
      constructor
      · rw [hstep, ih1]
        rfl
      · intro before s after hs hq
        -- only `s` may have added anything
        have hquiet : ∀ t ∈ before ++ after, (lineStep line (f t)).2 = [] := by
          intro t ht
          by_cases ha : active env headers t = true
          · exact (lineStep_keeps line (f t)).2.2.2 (by rw [(hf t).1]; exact hq t ht ha)
          · exact congrArg Prod.snd
              (if_pos fun h0 => ha ((hf t).2.mp h0) : lineStep line (f t) = (f t, []))
        have hflat : (sigs.flatMap fun s => (lineStep line (f s)).2) = (lineStep line (f s)).2 := by
          have hb : (before.flatMap fun s => (lineStep line (f s)).2) = [] :=
            List.flatMap_eq_nil_iff.mpr fun t ht => hquiet t (List.mem_append_left _ ht)
          have ha : (after.flatMap fun s => (lineStep line (f s)).2) = [] :=
            List.flatMap_eq_nil_iff.mpr fun t ht => hquiet t (List.mem_append_right _ ht)
          rw [hs, List.flatMap_append, List.flatMap_cons, hb, ha, List.append_nil, List.nil_append]
        rw [hstep, ih2 before s after hs hq, hflat, List.append_assoc]
        rfl

end Lines

theorem clean_single (s : Signature) (b : Bytes) : Clean env headers [s] b := by
  intro before t after h _
  cases before with
  | nil => rfl
  | cons x xs => simp at h

/-! ## Results -/

/-- A signature that is judged: it has failed, or its signature was checked. -/
def Judged (i : SignatureInfo) : Prop := i.status ≠ 0 ∨ i.checked ≠ none

theorem result_inactive {i : SignatureInfo} (h : i.status ≠ 0) (b : Bytes) :
    result env (i, b) = some (i, b) := if_pos h

/-- The status where the signature was checked. -/
def verdict (i : SignatureInfo) (sel : SelectorInfo) (res : Int) : Int :=
  if res = 1 then (if i.unverifiedBodyCount = 0 then 0 else 4) else if sel.testing then -4 else -3

/-- The bytes before the header of the signature. -/
def beforeSig (i : SignatureInfo) : Bytes := if i.sig.bodyHash = [] then [13, 10] else []

theorem result_checked {i : SignatureInfo} {sel : SelectorInfo} (h0 : i.status = 0)
    (hsel : i.selector = some sel)
    (hm : ¬(i.sig.bodyHash ≠ [] ∧ env.digest i.sig.hash i.bdy ≠ i.sig.bodyHash)) (b : Bytes) :
    result env (i, b) =
      let hdr := i.hdr ++ (beforeSig i ++ signedSig i.sig)
      let bytes := b ++ (beforeSig i ++ signedSig i.sig)
      let out : Int × Bytes :=
        if sel.method = .rsa then
          (env.verifyFinal i.sig.hash hdr i.sig.signatureData sel.publicKey, hdr)
        else if sel.keyEd then (env.digestVerify bytes i.sig.signatureData sel.publicKey, bytes)
        else (-1, [])
      some ({ i with hdr := hdr, status := verdict i sel out.1, checked := some out.2 },
        b ++ beforeSig i) := by
  have htake : ∀ x y : Bytes, (x ++ y).take ((x ++ y).length - y.length) = x := by
    intro x y
    rw [List.length_append, Nat.add_sub_cancel, List.take_left]
  unfold result
  simp only [h0, hsel, hm, ne_eq, not_true_eq_false, if_false]
  by_cases hb : i.sig.bodyHash = []
  · simp only [hb, if_true, hashHeader, beforeSig, List.append_assoc]
    rw [← List.append_assoc b, htake]
    by_cases hr : sel.method = .rsa
    · simp [hr, verdict, hsel]
    · cases hk : sel.keyEd <;> simp [hr, verdict, hsel]
  · simp only [hb, if_false, hashHeader, beforeSig, htake, List.nil_append, List.append_nil]
    by_cases hr : sel.method = .rsa
    · simp [hr, verdict, hsel]
    · cases hk : sel.keyEd <;> simp [hr, verdict, hsel]

/-- What the results make of a signature depends on `SigHdr` only where it is checked over it, and
`SigHdr` is left as it was where the signature has a body hash. -/
theorem result_eq {i : SignatureInfo} {sel : SelectorInfo} (h0 : i.status = 0)
    (hsel : i.selector = some sel) (b : Bytes) :
    ∃ j c, result env (i, b) = some (j, c) ∧ Judged j ∧ (i.sig.bodyHash ≠ [] → c = b) ∧
      (¬ (sel.method ≠ .rsa ∧ sel.keyEd = true) →
        ∀ b', ∃ c', result env (i, b') = some (j, c')) := by
  by_cases hm : i.sig.bodyHash ≠ [] ∧ env.digest i.sig.hash i.bdy ≠ i.sig.bodyHash
  · have hr : ∀ b', result env (i, b')
        = some ({ i with status := if sel.testing then -4 else -15 }, b') := by
      intro b'
      simp [result, h0, hsel, hm]
    refine ⟨_, _, hr b, ?_, fun _ => rfl, fun _ b' => ⟨_, hr b'⟩⟩
    left
    show (if sel.testing then (-4 : Int) else -15) ≠ 0
    split <;> decide
  · refine ⟨_, _, result_checked env h0 hsel hm b, ?_, ?_, ?_⟩
    · right
      show some _ ≠ none
      exact Option.some_ne_none _
    · intro hb
      simp [beforeSig, hb]
    · intro hed b'
      refine ⟨b' ++ beforeSig i, ?_⟩
      rw [result_checked env h0 hsel hm b']
      by_cases hr : sel.method = .rsa
      · simp only [hr, if_true]
      · have hk : ¬ sel.keyEd = true := fun hk => hed ⟨hr, hk⟩
        simp [hr, hk]

/-- The bytes a signature has put into `SigHdr` when it is processed alone. -/
def sigHdrAlone (lines : List (Bytes × Bool)) (s : Signature) : Bytes :=
  headerBytes headers s ++ (bodied lines (started env headers s)).2

/-- The results of a signature with the `SigHdr` of its own. -/
def ResultAlone (lines : List (Bytes × Bool)) (s : Signature) (i : SignatureInfo) : Prop :=
  (∃ c, result env ((bodied lines (started env headers s)).1, sigHdrAlone env headers lines s)
    = some (i, c)) ∧ (s.status = 0 → Judged i)

theorem result_alone (lines : List (Bytes × Bool)) (s : Signature) (b : Bytes)
    (hb : overBytes env headers s = true → b = sigHdrAlone env headers lines s) :
    ∃ i c, result env ((bodied lines (started env headers s)).1, b) = some (i, c) ∧
      ResultAlone env headers lines s i ∧
      ((active env headers s = true → s.bodyHash ≠ []) → c = b) := by
  obtain ⟨hsig, hstatus, hselector, -⟩ := bodied_keeps lines (started env headers s)
  by_cases ha : active env headers s = true
  · have h0 := hstatus.trans ((started_status env headers s).mpr ha)
    have hsel := hselector.trans (started_selector env headers ha)
    obtain ⟨i, c, hr, hj, hc, hind⟩ := result_eq env h0 hsel b
    rw [hsig, started_sig] at hc
    refine ⟨i, c, hr, ⟨?_, fun _ => hj⟩, fun hq => hc (hq ha)⟩
    by_cases ho : overBytes env headers s = true
    · exact ⟨c, hb ho ▸ hr⟩
    · apply hind
      rintro ⟨h1, h2⟩
      exact ho (by simp [overBytes, ha, h1, h2])
  · have h0 : (started env headers s).status ≠ 0 :=
      fun h0 => ha ((started_status env headers s).mp h0)
    rw [bodied_inactive lines h0]
    refine ⟨started env headers s, b, result_inactive env h0 b,
      ⟨⟨sigHdrAlone env headers lines s, ?_⟩, fun _ => Or.inl h0⟩, fun _ => rfl⟩
    rw [bodied_inactive lines h0]
    exact result_inactive env h0 _

/-- **The results are those of every signature alone**, where nothing else is in `SigHdr` for a
signature that is checked over it. -/
theorem getResults_eq {lines : List (Bytes × Bool)} {sigs : List Signature} {b : Bytes}
    (hb : ∀ before s after, sigs = before ++ s :: after → overBytes env headers s = true →
      b = sigHdrAlone env headers lines s ∧
        ∀ t ∈ before, active env headers t = true → t.bodyHash ≠ []) :
    ∃ is, getResults env b (sigs.map fun s => (bodied lines (started env headers s)).1) = some is ∧
      List.Forall₂ (ResultAlone env headers lines) sigs is := by
  induction sigs generalizing b with
  | nil => exact ⟨[], rfl, List.Forall₂.nil⟩
  | cons s rest ih =>
      obtain ⟨i, c, hr, hi, hc⟩ := result_alone env headers lines s b
        fun ho => (hb [] s rest rfl ho).1
      have hrest : ∀ before t after, rest = before ++ t :: after →
          overBytes env headers t = true → c = sigHdrAlone env headers lines t ∧
            ∀ u ∈ before, active env headers u = true → u.bodyHash ≠ [] := by
        intro before t after hs ho
        obtain ⟨hbt, hq⟩ := hb (s :: before) t after (by rw [hs]; rfl) ho
        refine ⟨?_, fun u hu => hq u (List.mem_cons_of_mem _ hu)⟩
        rw [hc (hq s List.mem_cons_self), hbt]
      obtain ⟨is, his, hall⟩ := ih hrest
      refine ⟨i :: is, ?_, List.Forall₂.cons hi hall⟩
      rw [List.map_cons, getResults, hr]
      show (getResults env c _).bind _ = _
      rw [his]
      rfl

/-! ## The whole message -/

/-- What the signatures of a message share makes no difference to them. -/
structure Unmixed (body : Option (List (Bytes × Bool))) (sigs : List Signature) : Prop where
  /-- Selectors named alike, up to case, have one record. -/
  records : sigs.Pairwise (Agree env)
  /-- No signature that parses comes after one whose selector fails. -/
  selectors : sigs.Pairwise fun t s => fails env t = true → s.status ≠ 0
  /-- Where a selector fails, no signature is left to be checked over a body. -/
  finished : (∃ t ∈ sigs, fails env t = true) →
    body = none ∨ ∀ s ∈ sigs, active env headers s = false
  /-- Every line of the body reaches every signature as the message has it, as far as the
  signature's own canonicalization tells. -/
  lines : ∀ ls, body = some ls → ∀ line ∈ ls, Clean env headers sigs line.1
  /-- Where a signature is checked over the bytes themselves, the headers that were collected are
  its own, and every other signature has a body hash. -/
  headers : ∀ before s after, sigs = before ++ s :: after → overBytes env headers s = true →
    collect env headers sigs [] = headerBytes headers s ∧
      ∀ t ∈ before ++ after, active env headers t = true → t.bodyHash ≠ []

/-- The signatures of the message are judged independently: each ends as it does when it is
processed alone, and each that parses is judged, with no null selector used. -/
def Independent (body : Option (List (Bytes × Bool))) (sigs : List Signature) : Prop :=
  ∃ is, verify env headers body sigs = some is ∧
    List.Forall₂ (fun s i => verify env headers body [s] = some [i] ∧
      (s.status = 0 → Judged i)) sigs is

theorem canonLine_nil (c : Canon) : canonLine c [] = [] := by
  cases c <;> rfl

theorem through_nil (before : List Signature) : through env headers before [] = [] := by
  induction before with
  | nil => rfl
  | cons t rest ih =>
      show through env headers rest (if active env headers t then canonLine t.bodyCanon [] else []) = []
      rw [canonLine_nil, ite_self]
      exact ih

/-- The body and the results, from the headers on. -/
def judge (lines : List (Bytes × Bool)) (sigs : List Signature) : Option (List SignatureInfo) :=
  let p := processLines lines (collect env headers sigs []) (sigs.map (started env headers))
  getResults env p.2 p.1

theorem judge_eq {lines : List (Bytes × Bool)} {sigs : List Signature}
    (hc : ∀ line ∈ lines, Clean env headers sigs line.1)
    (hh : ∀ before s after, sigs = before ++ s :: after → overBytes env headers s = true →
      collect env headers sigs [] = headerBytes headers s ∧
        ∀ t ∈ before ++ after, active env headers t = true → t.bodyHash ≠ []) :
    ∃ is, judge env headers lines sigs = some is ∧
      List.Forall₂ (ResultAlone env headers lines) sigs is := by
  have hf : ∀ s, (started env headers s).sig = s ∧
      ((started env headers s).status = 0 ↔ active env headers s = true) :=
    fun s => ⟨started_sig env headers s, started_status env headers s⟩
  obtain ⟨h1, h2⟩ := processLines_eq hf hc (collect env headers sigs [])
  simp only [judge, h1]
  apply getResults_eq
  intro before s after hs ho
  obtain ⟨hcol, hq⟩ := hh before s after hs ho
  refine ⟨?_, fun t ht => hq t (List.mem_append_left _ ht)⟩
  rw [h2 before s after hs hq, hcol]
  rfl

theorem overBytes_collect {s : Signature} (ho : overBytes env headers s = true) :
    collect env headers [s] [] = headerBytes headers s := by
  have hh : hashes env s = true := by
    simp only [overBytes, active, Bool.and_eq_true] at ho
    exact ho.1.1.1
  show (if hashes env s then (if s.hash = .sha256 then [] else []) ++ headerBytes headers s else [])
    = headerBytes headers s
  rw [if_pos hh, ite_self, List.nil_append]

theorem judge_alone {lines : List (Bytes × Bool)} {s : Signature} {i : SignatureInfo}
    (h : ResultAlone env headers lines s i) : judge env headers lines [s] = some [i] := by
  obtain ⟨is, his, hall⟩ := @judge_eq env headers lines [s]
    (fun line _ => clean_single env headers s line.1) (by
      intro before t after hs ho
      cases before with
      | nil =>
          obtain ⟨rfl, rfl⟩ := List.cons.inj hs
          exact ⟨overBytes_collect env headers ho, fun u hu => absurd hu List.not_mem_nil⟩
      | cons x xs => simp at hs)
  obtain ⟨j, _, hj, hnil, rfl⟩ := List.forall₂_cons_left_iff.mp hall
  rw [List.forall₂_nil_left_iff] at hnil
  subst hnil
  obtain ⟨⟨c, hc⟩, -⟩ := hj
  obtain ⟨⟨d, hd⟩, -⟩ := h
  rw [hc] at hd
  rw [his]
  cases hd
  rfl

/-- **Signatures are judged independently** where what they share makes no difference to
them. -/
theorem verify_independent {body : Option (List (Bytes × Bool))} {sigs : List Signature}
    (h : Unmixed env headers body sigs) : Independent env headers body sigs := by
  have hall := processHeaders_eq env headers h.records h.selectors
  have hone := processHeaders_alone env headers
  cases body with
  | none =>
      obtain ⟨is, his, hr⟩ := @judge_eq env headers [([], true)] sigs
        (fun line hl => by
          rw [List.mem_singleton] at hl
          subst hl
          intro before s after _ _
          rw [through_nil]) h.headers
      refine ⟨is, ?_, hr.imp fun s i hi => ⟨?_, hi.2⟩⟩
      · rw [verify, hall]
        exact his
      · rw [verify, hone s]
        exact judge_alone env headers hi
  | some ls =>
      have hinactive : ∀ s, active env headers s = false →
          verify env headers (some ls) [s] = some [started env headers s] ∧
            (started env headers s).status ≠ 0 := by
        intro s hs
        constructor
        · rw [verify, hone s]
          simp [hs]
        · intro h0
          rw [(started_status env headers s).mp h0] at hs
          cases hs
      cases hok : (!sigs.any (fails env) && sigs.any (active env headers)) with
      | false =>
          -- every signature is left as its header was judged
          have hn : ∀ s ∈ sigs, active env headers s = false := by
            rw [Bool.and_eq_false_iff, Bool.not_eq_false', List.any_eq_true] at hok
            rcases hok with hfail | hnone
            · rcases h.finished hfail with h' | h'
              · cases h'
              · exact h'
            · simpa using hnone
          refine ⟨sigs.map (started env headers), ?_, ?_⟩
          · rw [verify, hall]
            simp [hok]
          · rw [List.forall₂_map_right_iff, List.forall₂_same]
            intro s hs
            exact ⟨(hinactive s (hn s hs)).1, fun _ => Or.inl (hinactive s (hn s hs)).2⟩
      | true =>
          obtain ⟨is, his, hr⟩ := judge_eq env headers (h.lines ls rfl) h.headers
          refine ⟨is, ?_, hr.imp fun s i hi => ⟨?_, hi.2⟩⟩
          · rw [verify, hall]
            simp only [hok]
            exact his
          · cases hs : active env headers s with
            | true =>
                rw [verify, hone s]
                simp only [hs]
                exact judge_alone env headers hi
            | false =>
                obtain ⟨h1, h2⟩ := hinactive s hs
                obtain ⟨⟨c, hc⟩, -⟩ := hi
                rw [bodied_inactive ls h2, result_inactive env h2] at hc
                cases hc
                exact h1

/-! ## A message with two signatures -/

/-- Every signature that was checked verifies; the digest of the body is the body itself. -/
def plainEnv : Env where
  record := fun selector _ => ⟨0, [42], true, true, false, false,
    if selector = [101] then .ed25519 else .rsa, true, []⟩
  digest := fun _ b => b
  verifyFinal := fun _ _ _ _ => 1
  digestVerify := fun _ _ _ => 1
  allowUnsignedFrom := true

/-- A signature for a body of the one line `"a  b"`, `hashed` being that line as it is hashed. -/
def signature (selector : Bytes) (canon : Canon) (hashed : Bytes) : Signature :=
  ⟨0, .sha256, [], selector, [], hashed ++ [13, 10], [], [], [[65]], none, canon, canon, []⟩

def simpleSig : Signature := signature [114] .simple [97, 32, 32, 98]
def relaxedSig : Signature := signature [101] .relaxed [97, 32, 98]

def twoSpaces : Bytes × Bool := ([97, 32, 32, 98], false)

/-- The relaxed signature comes last, and is checked over its own headers. -/
theorem verify_independent_simple_relaxed :
    Unmixed plainEnv [[65, 58, 66]] (some [twoSpaces]) [simpleSig, relaxedSig] ∧
      Independent plainEnv [[65, 58, 66]] (some [twoSpaces]) [simpleSig, relaxedSig] := by
  have hsplit : ∀ before s after, [simpleSig, relaxedSig] = before ++ s :: after →
      (before = [] ∧ s = simpleSig ∧ after = [relaxedSig]) ∨
        (before = [simpleSig] ∧ s = relaxedSig ∧ after = []) := by
    intro before s after h
    match before, h with
    | [], h => exact Or.inl ⟨rfl, by simpa [eq_comm] using h⟩
    | [x], h => exact Or.inr (by simpa [eq_comm] using h)
    | x :: y :: z, h => simp at h
  have h : Unmixed plainEnv [[65, 58, 66]] (some [twoSpaces]) [simpleSig, relaxedSig] := by
    constructor
    · rw [List.pairwise_pair]
      intro _ _ hsel
      exact absurd hsel (by decide +kernel)
    · rw [List.pairwise_pair]
      intro hf
      exact absurd hf (by decide +kernel)
    · intro hf
      exact absurd hf (by decide +kernel)
    · intro ls hls line hl before s after hs _
      cases hls
      rw [List.mem_singleton] at hl
      rcases hsplit before s after hs with ⟨rfl, rfl, rfl⟩ | ⟨rfl, rfl, rfl⟩
      · rfl
      · rw [hl]
        decide +kernel
    · intro before s after hs ho
      rcases hsplit before s after hs with ⟨rfl, rfl, rfl⟩ | ⟨rfl, rfl, rfl⟩
      · exact absurd ho (by decide +kernel)
      · decide +kernel
  exact ⟨h, verify_independent plainEnv [[65, 58, 66]] h⟩

/-- **Signatures are not judged independently.** After a relaxed signature the simple one is
judged over the line with one space. -/
theorem not_independent : ¬ ∀ env headers body sigs, Independent env headers body sigs := by
  intro h
  obtain ⟨is, hv, hall⟩ :=
    h plainEnv [[65, 58, 66]] (some [twoSpaces]) [relaxedSig, simpleSig]
  have hstatus : (verify plainEnv [[65, 58, 66]] (some [twoSpaces]) [relaxedSig, simpleSig]).map
      (List.map SignatureInfo.status) = some [0, -15] := by decide +kernel
  have halone : (verify plainEnv [[65, 58, 66]] (some [twoSpaces]) [simpleSig]).map
      (List.map SignatureInfo.status) = some [0] := by decide +kernel
  rcases hall with _ | ⟨_, _ | ⟨⟨hs, -⟩, _ | _⟩⟩
  rw [hv] at hstatus
  rw [hs] at halone
  simp at hstatus halone
  omega

end IndimailMta.Dkim
