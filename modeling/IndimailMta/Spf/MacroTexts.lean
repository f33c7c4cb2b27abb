import IndimailMta.Spf.Expansion

/-!
# Texts with macros

The loop of `spfexpand` takes a text part by part. What it makes of each part is added to what it has
made of the parts in front of it, if every macro has a number the loop over digits comes to the end
of, meets no delimiter of its own in the output, and finds nothing in the buffer that it keeps.
-/

namespace IndimailMta.Spf

open IndimailMta Tcprules Ip Lib.Splits

variable {e : Site} {errormsg domain_p : Bytes}

/-! ## Parts -/

theorem writeAll_cons (p : Part) (ps : List Part) : writeAll (p :: ps) = p.write ++ writeAll ps := rfl

theorem writeAll_append (ps qs : List Part) : writeAll (ps ++ qs) = writeAll ps ++ writeAll qs :=
  List.flatMap_append

theorem Separate.tail {p : Part} {ps : List Part} (h : Separate (p :: ps)) : Separate ps := by
  cases p with
  | char c => exact h.2
  | percent => exact h
  | space => exact h
  | hexspace => exact h
  | stray => exact h.2
  | subst body => exact h.2

/-- A stray sign is one if less is behind it. -/
theorem Stray.front {s t : Bytes} (h : Stray (s ++ t)) : Stray s := by
  obtain ⟨h37, h95, h45, h123⟩ := h
  cases s with
  | nil => exact ⟨by simp, by simp, by simp, by simp⟩
  | cons x s =>
      exact ⟨h37, h95, h45, fun hx hmem => h123 hx (List.mem_append_left _ hmem)⟩

theorem Separate.front {ps qs : List Part} (h : Separate (ps ++ qs)) : Separate ps := by
  induction ps with
  | nil => trivial
  | cons p ps ih =>
      cases p with
      | char c => exact ⟨h.1, ih h.2⟩
      | percent => exact ih h
      | space => exact ih h
      | hexspace => exact ih h
      | stray =>
          have h1 := h.1
          rw [List.append_eq, writeAll_append] at h1
          exact ⟨h1.front, ih h.2⟩
      | subst body => exact ⟨h.1, ih h.2⟩

/-- Every text has parts. -/
theorem exists_parts (text : Bytes) : ∃ ps, Separate ps ∧ writeAll ps = text := by
  induction hlen : text.length using Nat.strong_induction_on generalizing text with
  | _ len ih =>
      subst hlen
      have hstray : ∀ rest, text = 37 :: rest → Stray rest →
          ∃ ps, Separate ps ∧ writeAll ps = text := by
        rintro rest rfl hs
        obtain ⟨ps, hps, rfl⟩ := ih rest.length (Nat.lt_succ_self _) rest rfl
        exact ⟨.stray :: ps, ⟨hs, hps⟩, rfl⟩
      match text with
      | [] => exact ⟨[], trivial, rfl⟩
      | c :: rest =>
          by_cases hc : c = 37
          · subst hc
            by_cases hs : Stray rest
            · exact hstray rest rfl hs
            · match rest with
              | [] => exact (hs ⟨by simp, by simp, by simp, by simp⟩).elim
              | x :: rest =>
                  have htail : rest.length < (37 :: x :: rest).length := by
                    rw [List.length_cons, List.length_cons]
                    omega
                  by_cases h37 : x = 37
                  · obtain ⟨ps, hps, rfl⟩ := ih _ htail rest rfl
                    exact ⟨.percent :: ps, hps, by rw [h37]; rfl⟩
                  by_cases h95 : x = 95
                  · obtain ⟨ps, hps, rfl⟩ := ih _ htail rest rfl
                    exact ⟨.space :: ps, hps, by rw [h95]; rfl⟩
                  by_cases h45 : x = 45
                  · obtain ⟨ps, hps, rfl⟩ := ih _ htail rest rfl
                    exact ⟨.hexspace :: ps, hps, by rw [h45]; rfl⟩
                  by_cases hmacro : x = 123 ∧ 125 ∈ rest
                  · obtain ⟨rfl, hmem⟩ := hmacro
                    obtain ⟨body, behind, rfl, hbody⟩ := List.eq_append_cons_of_mem hmem
                    have hbehind : behind.length < (37 :: 123 :: (body ++ 125 :: behind)).length := by
                      simp only [List.length_cons, List.length_append]
                      omega
                    obtain ⟨ps, hps, rfl⟩ := ih _ hbehind behind rfl
                    refine ⟨.subst body :: ps, ⟨hbody, hps⟩, ?_⟩
                    rw [writeAll_cons, Part.write]
                    simp
                  · refine (hs ⟨by simpa using h37, by simpa using h95, by simpa using h45, ?_⟩).elim
                    intro hx hmem
                    have hx' : x = 123 := Option.some.inj hx
                    rw [hx'] at hmem
                    exact hmacro ⟨hx', by simpa using hmem⟩
          · obtain ⟨ps, hps, rfl⟩ := ih _ (Nat.lt_succ_self _) rest rfl
            exact ⟨.char c :: ps, ⟨hc, hps⟩, rfl⟩

/-! ## The loop, part by part -/

/-- What the loop does with parts. -/
def runParts (e : Site) (domain_p : Bytes) (n : Nat) : Held → Bytes → List Part → Option (Held × Bytes)
  | h, out, [] => some (h, out)
  | h, out, .subst body :: ps =>
      (spfsubst e n h out body domain_p).bind fun r => runParts e domain_p n r.1 r.2 ps
  | h, out, p :: ps => runParts e domain_p n h (out ++ p.stands e [] domain_p) ps

theorem expandLoop_char {n turns : Nat} {h : Held} {out rest : Bytes} {c : Byte} (hc : c ≠ 37) :
    expandLoop e domain_p n (turns + 1) h out (c :: rest) =
      expandLoop e domain_p n turns h (out ++ [c]) rest := by
  conv_lhs => unfold expandLoop
  rw [if_neg hc]

theorem expandLoop_stray {n turns : Nat} {h : Held} {out rest : Bytes} (hs : Stray rest) :
    expandLoop e domain_p n (turns + 1) h out (37 :: rest) =
      expandLoop e domain_p n turns h (out ++ [37]) rest := by
  obtain ⟨h37, h95, h45, h123⟩ := hs
  conv_lhs => unfold expandLoop
  rw [if_pos rfl]
  split
  · exact (h37 rfl).elim
  · exact (h95 rfl).elim
  · exact (h45 rfl).elim
  · have := h123 rfl
    rw [if_neg fun hmem => this (List.mem_cons_of_mem _ hmem)]
  · rfl

theorem expandLoop_macro {n turns : Nat} {h : Held} {out body rest : Bytes} (hbody : 125 ∉ body) :
    expandLoop e domain_p n (turns + 1) h out (37 :: 123 :: (body ++ 125 :: rest)) =
      (spfsubst e n h out body domain_p).bind fun r =>
        expandLoop e domain_p n turns r.1 r.2 rest := by
  have hall : ∀ x ∈ body, decide (x ≠ 125) = true := fun x hx =>
    decide_eq_true fun h0 => hbody (h0 ▸ hx)
  have htake : (body ++ 125 :: rest).takeWhile (· ≠ 125) = body := by
    rw [List.takeWhile_append_of_pos hall, List.takeWhile_cons_of_neg (by decide), List.append_nil]
  have hdrop : (body ++ 125 :: rest).dropWhile (· ≠ 125) = 125 :: rest := by
    rw [List.dropWhile_append_of_pos hall, List.dropWhile_cons_of_neg (by decide)]
  conv_lhs => unfold expandLoop
  rw [if_pos rfl]
  show (if 125 ∈ body ++ 125 :: rest then _ else _) = _
  rw [if_pos (by simp), htake, hdrop]
  cases spfsubst e n h out body domain_p <;> rfl

theorem expandLoop_parts {n turns : Nat} {h : Held} {out : Bytes} {ps : List Part}
    (hps : Separate ps) (hturns : (writeAll ps).length < turns) :
    expandLoop e domain_p n turns h out (writeAll ps) = runParts e domain_p n h out ps := by
  induction ps generalizing turns h out with
  | nil =>
      obtain ⟨turns, rfl⟩ : ∃ k, turns = k + 1 := ⟨turns - 1, by omega⟩
      rfl
  | cons p ps ih =>
      obtain ⟨turns, rfl⟩ : ∃ k, turns = k + 1 := ⟨turns - 1, by omega⟩
      rw [writeAll_cons, List.length_append] at hturns
      have htail := hps.tail
      rw [writeAll_cons]
      cases p with
      | char c =>
          rw [Part.write, List.singleton_append, expandLoop_char hps.1,
            ih htail (by simp only [Part.write, List.length_singleton] at hturns; omega)]
          rfl
      | percent => exact ih htail (by simp only [Part.write, List.length_cons] at hturns; omega)
      | space => exact ih htail (by simp only [Part.write, List.length_cons] at hturns; omega)
      | hexspace => exact ih htail (by simp only [Part.write, List.length_cons] at hturns; omega)
      | stray =>
          rw [Part.write, List.singleton_append, expandLoop_stray hps.1,
            ih htail (by simp only [Part.write, List.length_singleton] at hturns; omega)]
          rfl
      | subst body =>
          have hwrite : (Part.subst body).write ++ writeAll ps =
              37 :: 123 :: (body ++ 125 :: writeAll ps) := by simp [Part.write]
          rw [hwrite, expandLoop_macro hps.1, runParts]
          refine congrArg _ (funext fun r => ih htail ?_)
          simp only [Part.write, List.length_cons, List.length_append] at hturns
          omega

theorem spfexpand_parts {n : Nat} {h : Held} {ps : List Part} (hps : Separate ps) :
    spfexpand e n h (writeAll ps) domain_p = runParts e domain_p n h [] ps :=
  expandLoop_parts hps (Nat.lt_succ_self _)

/-! ## Exact macros -/

/-- The number of a macro is short, what is in front of it has none of its delimiters but dots, or it
is reversed, and nothing that is kept makes a difference to it. -/
structure Exact (e : Site) (errormsg domain_p : Bytes) (h : Held) (out : Bytes) (m : Macro) :
    Prop where
  number : Short m.number
  untouched : m.reversed = false → ∀ x ∈ out, x ∈ m.delimiters → x = 46
  settled : Settled e errormsg domain_p h m

/-- Every macro is exact, where `out` is what the parts in front stand for. -/
def AllExact (e : Site) (errormsg domain_p : Bytes) : Held → Bytes → List Part → Prop
  | _, _, [] => True
  | h, out, p :: ps =>
      match p with
      | .subst body =>
          match Macro.read body with
          | none => AllExact e errormsg domain_p h out ps
          | some m =>
              Exact e errormsg domain_p h out m ∧
                AllExact e errormsg domain_p (m.result e h domain_p out).1
                  (out ++ p.stands e errormsg domain_p) ps
      | _ => AllExact e errormsg domain_p h (out ++ p.stands e errormsg domain_p) ps

/-- **One macro** adds what it stands for if and only if it is exact, but for its number. -/
theorem result_iff {h : Held} {out : Bytes} {m : Macro} :
    (m.result e h domain_p out).2 =
        out ++ m.written ((valueOf e errormsg domain_p m.letter).getD []) ↔
      (m.reversed = false → ∀ x ∈ out, x ∈ m.delimiters → x = 46) ∧
        Settled e errormsg domain_p h m := by
  have hlen : (if m.reversed then out
      else out.map fun x => if decide (x ∈ m.delimiters) then 46 else x).length = out.length := by
    split_ifs
    · rfl
    · rw [List.length_map]
  have hsame : (if m.reversed then out
      else out.map fun x => if decide (x ∈ m.delimiters) then 46 else x) = out ↔
      (m.reversed = false → ∀ x ∈ out, x ∈ m.delimiters → x = 46) := by
    cases hrev : m.reversed with
    | false =>
        rw [if_neg Bool.false_ne_true, map_replace_eq_self_iff]
        simp
    | true => simp
  rw [settled_iff, ← Macro.written_inj, ← hsame, Macro.result]
  constructor
  · intro heq
    exact List.append_inj heq hlen
  · rintro ⟨h1, h2⟩
    exact congrArg₂ _ h1 h2

theorem stands_subst {body : Bytes} {m : Macro} (hread : Macro.read body = some m) :
    (Part.subst body).stands e errormsg domain_p =
      m.written ((valueOf e errormsg domain_p m.letter).getD []) := by
  rw [Part.stands, hread]

/-- If every macro is exact, the loop adds part to part. -/
theorem runParts_exact {n : Nat} {h : Held} {out : Bytes} {ps : List Part}
    (hexact : AllExact e errormsg domain_p h out ps) (hn : (writeAll ps).length < n) :
    ∃ h', runParts e domain_p n h out ps = some (h', out ++ standsAll e errormsg domain_p ps) := by
  induction ps generalizing h out with
  | nil => exact ⟨h, by rw [standsAll, List.flatMap_nil, List.append_nil]; rfl⟩
  | cons p ps ih =>
      rw [writeAll_cons, List.length_append] at hn
      have hcons : standsAll e errormsg domain_p (p :: ps) =
          p.stands e errormsg domain_p ++ standsAll e errormsg domain_p ps := rfl
      rw [hcons, ← List.append_assoc]
      cases p with
      | char c => exact ih hexact (by omega)
      | percent => exact ih hexact (by omega)
      | space => exact ih hexact (by omega)
      | hexspace => exact ih hexact (by omega)
      | stray => exact ih hexact (by omega)
      | subst body =>
          have hbody : body.length < n := by
            simp only [Part.write, List.length_cons, List.length_append] at hn
            omega
          rw [AllExact] at hexact
          rw [runParts]
          cases hread : Macro.read body with
          | none =>
              rw [hread] at hexact
              obtain ⟨r, hr⟩ := @spfsubst_short e n h out body domain_p hbody fun m hm => by
                rw [hread] at hm
                cases hm
              have := spfsubst_some hr
              rw [hread] at this
              have hnil : (Part.subst body).stands e errormsg domain_p = [] := by
                rw [Part.stands, hread]
              rw [hr, Option.bind_some, this, hnil, List.append_nil]
              exact ih hexact (by omega)
          | some m =>
              rw [hread] at hexact
              obtain ⟨⟨hnumber, huntouched, hsettled⟩, htail⟩ := hexact
              obtain ⟨r, hr⟩ := @spfsubst_short e n h out body domain_p hbody fun m' hm => by
                rw [hread] at hm
                obtain rfl := Option.some.inj hm
                exact hnumber
              have hres := spfsubst_some hr
              rw [hread] at hres
              obtain ⟨-, rfl⟩ := hres
              have hout := (@result_iff e errormsg domain_p h out m).mpr ⟨huntouched, hsettled⟩
              rw [hr, Option.bind_some, hout, stands_subst hread]
              rw [stands_subst hread] at htail
              exact ih htail (by omega)

theorem runParts_cons (n : Nat) (h : Held) (out : Bytes) (p : Part) (ps : List Part) :
    runParts e domain_p n h out (p :: ps) =
      (runParts e domain_p n h out [p]).bind fun r => runParts e domain_p n r.1 r.2 ps := by
  cases p with
  | char c => rfl
  | percent => rfl
  | space => rfl
  | hexspace => rfl
  | stray => rfl
  | subst body =>
      rw [runParts, runParts]
      cases spfsubst e n h out body domain_p <;> rfl

/-- If the loop adds part to part, every macro is exact. -/
theorem exact_of_runParts {h : Held} {out : Bytes} {ps : List Part}
    (hall : ∀ pre post, ps = pre ++ post → ∃ n h',
      runParts e domain_p n h out pre = some (h', out ++ standsAll e errormsg domain_p pre)) :
    AllExact e errormsg domain_p h out ps := by
  induction ps generalizing h out with
  | nil => trivial
  | cons p ps ih =>
      -- the parts behind `p`, from the state it leaves
      have hstep : ∀ h₁, (∀ n r, runParts e domain_p n h out [p] = some r →
          r.1 = h₁ ∧ r.2 = out ++ p.stands e errormsg domain_p) →
          AllExact e errormsg domain_p h₁ (out ++ p.stands e errormsg domain_p) ps := by
        intro h₁ hone
        refine ih fun pre post hpre => ?_
        obtain ⟨n, h', hrun⟩ := hall (p :: pre) post (by rw [hpre]; rfl)
        rw [runParts_cons] at hrun
        obtain ⟨⟨h₂, out₂⟩, hfirst, hrest⟩ := Option.bind_eq_some_iff.mp hrun
        obtain ⟨rfl, rfl⟩ := hone n _ hfirst
        refine ⟨n, h', ?_⟩
        rw [hrest, List.append_assoc]
        rfl
      cases p with
      | char c => exact hstep h fun n r hr => by cases hr; exact ⟨rfl, rfl⟩
      | percent => exact hstep h fun n r hr => by cases hr; exact ⟨rfl, rfl⟩
      | space => exact hstep h fun n r hr => by cases hr; exact ⟨rfl, rfl⟩
      | hexspace => exact hstep h fun n r hr => by cases hr; exact ⟨rfl, rfl⟩
      | stray => exact hstep h fun n r hr => by cases hr; exact ⟨rfl, rfl⟩
      | subst body =>
          have hone : ∀ n r, runParts e domain_p n h out [.subst body] = some r →
              spfsubst e n h out body domain_p = some r := by
            intro n r hr
            rw [runParts] at hr
            obtain ⟨q, hq, hqr⟩ := Option.bind_eq_some_iff.mp hr
            rw [hq, ← hqr]
            rfl
          rw [AllExact]
          cases hread : Macro.read body with
          | none =>
              have hnil : (Part.subst body).stands e errormsg domain_p = [] := by
                rw [Part.stands, hread]
              have := hstep h fun n r hr => by
                have hres := spfsubst_some (hone n r hr)
                rw [hread] at hres
                rw [hres, hnil, List.append_nil]
                exact ⟨rfl, rfl⟩
              rwa [hnil, List.append_nil] at this
          | some m =>
              obtain ⟨n, h', hrun⟩ := hall [.subst body] ps rfl
              have hres := spfsubst_some (hone n _ hrun)
              rw [hread] at hres
              obtain ⟨hnumber, hres⟩ := hres
              have hstands : standsAll e errormsg domain_p [.subst body] =
                  (Part.subst body).stands e errormsg domain_p := by
                rw [standsAll, List.flatMap_singleton]
              have hout := (congrArg Prod.snd hres).symm
              rw [hstands, stands_subst hread] at hout
              obtain ⟨huntouched, hsettled⟩ := result_iff.mp hout
              refine ⟨⟨hnumber, huntouched, hsettled⟩, hstep _ fun n r hr => ?_⟩
              have hres' := spfsubst_some (hone n r hr)
              rw [hread] at hres'
              rw [hres'.2, stands_subst hread]
              exact ⟨rfl, hout⟩

theorem AllExact.front {h : Held} {out : Bytes} {pre post : List Part}
    (hexact : AllExact e errormsg domain_p h out (pre ++ post)) :
    AllExact e errormsg domain_p h out pre := by
  induction pre generalizing h out with
  | nil => trivial
  | cons p pre ih =>
      cases p with
      | char c => exact ih hexact
      | percent => exact ih hexact
      | space => exact ih hexact
      | hexspace => exact ih hexact
      | stray => exact ih hexact
      | subst body =>
          rw [List.cons_append, AllExact] at hexact
          rw [AllExact]
          cases hread : Macro.read body with
          | none =>
              rw [hread] at hexact
              exact ih hexact
          | some m =>
              rw [hread] at hexact
              exact ⟨hexact.1, ih hexact.2⟩

/-- **Expansion is compositional** on a text and on what is in front of each of its parts if and only
if every macro of the text is exact. -/
theorem expansion_is_compositional_iff (e : Site) (h : Held) (domain_p text : Bytes) :
    (∃ ps, Separate ps ∧ writeAll ps = text) ∧
      ∀ ps, Separate ps → writeAll ps = text →
        ((∀ pre post, ps = pre ++ post → ∃ n h', spfexpand e n h (writeAll pre) domain_p =
            some (h', standsAll e h.errormsg domain_p pre)) ↔
          AllExact e h.errormsg domain_p h [] ps) := by
  refine ⟨exists_parts text, fun ps hps _ => ⟨fun hall => ?_, fun hexact => ?_⟩⟩
  · refine exact_of_runParts fun pre post hpre => ?_
    obtain ⟨n, h', hrun⟩ := hall pre post hpre
    subst hpre
    rw [spfexpand_parts hps.front] at hrun
    exact ⟨n, h', hrun⟩
  · rintro pre post rfl
    obtain ⟨h', hrun⟩ := runParts_exact hexact.front (Nat.lt_succ_self _)
    refine ⟨(writeAll pre).length + 1, h', ?_⟩
    rw [spfexpand_parts hps.front]
    exact hrun

/-- A client whose sender has no domain. -/
def siteWithoutDomain : Site where
  tx := texts
  addr := asc "bob"
  helohost := asc "mx"
  localhost := asc "192.0.2.9"
  expdomain := asc "example.org"
  statics := ⟨client, fresh.ip6, false⟩
  now := 0
  dns_ptr := .DNS_HARD
  dns_ip := fun _ => .DNS_HARD

/-- The domain of a sender without one is the value in front of it, a delimiter is replaced in what
is literal, and a number of eight digits is read forever. -/
theorem values_are_left_over :
    ((∃ h', spfexpand siteWithoutDomain 9 ⟨[], [], []⟩ (asc "%{h}%{o}") (asc "example.org") =
          some (h', asc "mxmx")) ∧
        Part.stands siteWithoutDomain [] (asc "example.org") (.subst (asc "o")) = []) ∧
      ((∃ h', spfexpand siteWithoutDomain 9 ⟨[], [], []⟩ (asc "a-b.%{d-}") (asc "example.org") =
          some (h', asc "a.b.example.org")) ∧
        Part.stands siteWithoutDomain [] (asc "example.org") (.subst (asc "d-")) =
          asc "example.org") ∧
      ∀ n, spfexpand siteWithoutDomain n ⟨[], [], []⟩ (asc "%{d10000000}") (asc "example.org") =
        none := by
  refine ⟨⟨⟨⟨asc "mx", [], []⟩, by decide +kernel⟩, by decide +kernel⟩,
    ⟨⟨⟨asc "example.org", [], []⟩, by decide +kernel⟩, by decide +kernel⟩, fun n => ?_⟩
  have hsep : Separate [.subst (asc "d10000000")] := ⟨by decide, trivial⟩
  have htext : asc "%{d10000000}" = writeAll [.subst (asc "d10000000")] := by decide
  have hread : Macro.read (asc "d10000000") = some ⟨100, false, asc "10000000", false, [46]⟩ := by
    decide
  rw [htext, spfexpand_parts hsep, runParts]
  cases hrun : spfsubst siteWithoutDomain n ⟨[], [], []⟩ [] (asc "d10000000") (asc "example.org") with
  | none => rfl
  | some r =>
      have hres := spfsubst_some hrun
      rw [hread] at hres
      exact absurd (hres.1 7 (by decide)) (by decide)

end IndimailMta.Spf
