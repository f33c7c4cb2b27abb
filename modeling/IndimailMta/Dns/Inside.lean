import Mathlib.Tactic.SplitIfs
import IndimailMta.Dns.Records

/-!
# The answers are inside of the response

A call does what it is to do with a record that is inside of the response. The data of a record may
reach behind its end, and only a few of the functions look for that.
-/

namespace IndimailMta.Dns

open IndimailMta

variable (rsp : Response)

/-! ## What a call is to do -/

/-- The type of the record at a position, where its data begins, and how long that is. -/
def recordAt (pos : Nat) : Option (Nat × Nat × Nat) :=
  match rsp.expand pos with
  | none => none
  | some (i, _) =>
      if rsp.len < pos + i + 10 then none
      else some (rsp.getShort (pos + i), pos + i + 10, rsp.getShort (pos + i + 8))

/-- What is read is inside of the response, and one record is consumed, that is whole: a response
that is cut off in it is a soft error. -/
structure Sound (wanttype : Nat) (s : State) (a : Answer) : Prop where
  inside : ∀ p ∈ a.reads, p < rsp.len
  none_left : s.numanswers = 0 → a.code = 2
  one : 0 < s.numanswers → a.state.numanswers + 1 = s.numanswers
  whole : 0 < s.numanswers → a.code ≠ dnsSoft →
    ∃ rrtype start rrdlen, recordAt rsp s.responsepos = some (rrtype, start, rrdlen) ∧
      start + rrdlen ≤ rsp.len ∧ a.state.responsepos = start + rrdlen ∧
      ((a.code = 1 ∧ rrtype = wanttype) ∨ (a.code = 0 ∧ rrtype ≠ wanttype))

/-- What is done with the data is inside of the response too, and no record is taken that is not. -/
def DataSound (start rrdlen : Nat) (a : Answer) : Prop :=
  (∀ p ∈ a.reads, p < rsp.len) ∧ (a.code = 1 → start + rrdlen ≤ rsp.len)

/-- What a function does with data is a result or a soft error, and leaves the position. -/
structure Wanted (f : Nat → State → Answer) : Prop where
  code : ∀ rrdlen s, (f rrdlen s).code = 1 ∨ (f rrdlen s).code = dnsSoft
  pos : ∀ rrdlen s, (f rrdlen s).state.responsepos = s.responsepos
  left : ∀ rrdlen s, (f rrdlen s).state.numanswers = s.numanswers

variable {rsp} {f : Nat → State → Answer} {wanttype : Nat} {s : State}

theorem find_none_left (h : s.numanswers = 0) : find rsp f wanttype s = ⟨2, [], s⟩ := by
  rw [find, if_pos h]

/-- A record whose header is cut off is a soft error. -/
theorem sound_no_record (hleft : 0 < s.numanswers) (h : recordAt rsp s.responsepos = none) :
    Sound rsp wanttype s (find rsp f wanttype s) := by
  have hsoft : ∀ t : State, t.numanswers = s.numanswers - 1 →
      Sound rsp wanttype s ⟨dnsSoft, [], t⟩ := fun t ht =>
    ⟨fun p hp => absurd hp List.not_mem_nil, fun h0 => absurd h0 (Nat.ne_of_gt hleft),
      fun _ => by rw [ht]; omega, fun _ hne => absurd rfl hne⟩
  rw [recordAt] at h
  rw [find, if_neg (Nat.ne_of_gt hleft)]
  dsimp only
  split_ifs
  · exact hsoft _ rfl
  · cases hexpand : rsp.expand s.responsepos with
    | none => exact hsoft _ rfl
    | some r =>
        obtain ⟨i, name⟩ := r
        rw [hexpand] at h
        dsimp only at h ⊢
        by_cases hshort : rsp.len < s.responsepos + i + 10
        · rw [if_pos hshort]
          exact hsoft _ rfl
        · rw [if_neg hshort] at h
          exact absurd h (Option.some_ne_none _)

/-- A record whose header is inside. -/
theorem find_record (hleft : 0 < s.numanswers) {rrtype start rrdlen : Nat}
    (h : recordAt rsp s.responsepos = some (rrtype, start, rrdlen)) :
    ∃ (t : State) (reads : List Nat), t.responsepos = start ∧ t.numanswers + 1 = s.numanswers ∧
      (∀ p ∈ reads, p < rsp.len) ∧
      find rsp f wanttype s =
        if rrtype = wanttype then
          let a := f rrdlen t
          if a.code = 1 then
            ⟨1, reads ++ a.reads, { a.state with responsepos := a.state.responsepos + rrdlen }⟩
          else ⟨a.code, reads ++ a.reads, a.state⟩
        else ⟨0, reads, { t with responsepos := t.responsepos + rrdlen }⟩ := by
  rw [recordAt] at h
  cases hexpand : rsp.expand s.responsepos with
  | none =>
      rw [hexpand] at h
      exact absurd h (Option.some_ne_none _).symm
  | some r =>
      obtain ⟨i, name⟩ := r
      rw [hexpand] at h
      dsimp only at h
      by_cases hshort : rsp.len < s.responsepos + i + 10
      · rw [if_pos hshort] at h
        exact absurd h (Option.some_ne_none _).symm
      · rw [if_neg hshort] at h
        obtain ⟨rfl, rfl, rfl⟩ : _ ∧ _ ∧ _ := by simpa using h
        refine ⟨{ s with
          name := name, numanswers := s.numanswers - 1, responsepos := s.responsepos + i + 10 },
          [s.responsepos + i, s.responsepos + i + 1, s.responsepos + i + 8, s.responsepos + i + 9],
          rfl, ?_, fun p hp => ?_, ?_⟩
        · dsimp only
          omega
        · simp only [List.mem_cons, List.not_mem_nil, or_false] at hp
          omega
        · rw [find, if_neg (Nat.ne_of_gt hleft)]
          dsimp only
          rw [if_neg (show s.responsepos ≠ rsp.len by omega), hexpand]
          dsimp only
          rw [if_neg hshort]

/-- **A record whose header is inside** is handled well if and only if its data is inside, or what is
done with it finds out. -/
theorem sound_record_iff (hw : Wanted f) (hleft : 0 < s.numanswers)
    {rrtype start rrdlen : Nat} (h : recordAt rsp s.responsepos = some (rrtype, start, rrdlen)) :
    ∃ t : State, t.responsepos = start ∧
      (Sound rsp wanttype s (find rsp f wanttype s) ↔
        if rrtype = wanttype then DataSound rsp start rrdlen (f rrdlen t)
        else start + rrdlen ≤ rsp.len) := by
  obtain ⟨t, reads, hpos, hnum, hreads, hfind⟩ := @find_record rsp f wanttype s hleft _ _ _ h
  refine ⟨t, hpos, ?_⟩
  have hwhole : ∀ {a : Answer}, Sound rsp wanttype s a → a.code ≠ dnsSoft →
      start + rrdlen ≤ rsp.len := by
    intro a ha hcode
    obtain ⟨ty, st, dl, hrecord, hle, -, -⟩ := ha.whole hleft hcode
    rw [h] at hrecord
    obtain ⟨-, rfl, rfl⟩ : _ ∧ _ ∧ _ := by simpa using hrecord
    exact hle
  have hnone : ∀ {c : Int}, s.numanswers = 0 → c = 2 := fun h0 => absurd h0 (Nat.ne_of_gt hleft)
  rw [hfind]
  by_cases htype : rrtype = wanttype
  · rw [if_pos htype, if_pos htype]
    dsimp only
    have hcode := hw.code rrdlen t
    have hdata := hw.pos rrdlen t
    have hcount := hw.left rrdlen t
    generalize f rrdlen t = a at hcode hdata hcount ⊢
    rcases hcode with hcode | hcode
    · rw [if_pos hcode]
      constructor
      · intro hs
        exact ⟨fun p hp => hs.inside p (List.mem_append_right _ hp),
          fun _ => hwhole hs (by decide : (1 : Int) ≠ dnsSoft)⟩
      · rintro ⟨hin, hle⟩
        refine ⟨fun p hp => (List.mem_append.mp hp).elim (hreads p) (hin p), hnone, fun _ => ?_,
          fun _ _ => ⟨rrtype, start, rrdlen, h, hle hcode, ?_, .inl ⟨rfl, htype⟩⟩⟩
        · dsimp only
          rw [hcount, hnum]
        · dsimp only
          rw [hdata, hpos]
    · have hne : a.code ≠ 1 := by rw [hcode]; decide
      rw [if_neg hne]
      constructor
      · intro hs
        exact ⟨fun p hp => hs.inside p (List.mem_append_right _ hp), fun h1 => absurd h1 hne⟩
      · rintro ⟨hin, -⟩
        refine ⟨fun p hp => (List.mem_append.mp hp).elim (hreads p) (hin p), hnone, fun _ => ?_,
          fun _ h1 => absurd hcode h1⟩
        dsimp only
        rw [hcount, hnum]
  · rw [if_neg htype, if_neg htype]
    constructor
    · exact fun hs => hwhole hs (by decide : (0 : Int) ≠ dnsSoft)
    · intro hle
      exact ⟨hreads, hnone, fun _ => hnum, fun _ _ =>
        ⟨rrtype, start, rrdlen, h, hle, by rw [hpos], .inr ⟨rfl, htype⟩⟩⟩

/-! ## The functions -/

/-- The data is inside, or the function finds out that it is not. -/
def Find.Fits (k : Find) (rsp : Response) (start rrdlen : Nat) : Prop :=
  match k with
  | .name => start + rrdlen ≤ rsp.len ∨ rsp.expand start = none
  | .ip => start + rrdlen ≤ rsp.len ∨ rrdlen < 4
  | .ip6 => start + rrdlen ≤ rsp.len ∨ rrdlen < 16
  | .mx =>
      rrdlen < 3 ∨
        (start + 2 ≤ rsp.len ∧ (start + rrdlen ≤ rsp.len ∨ rsp.expand (start + 2) = none))
  | .txt => start + rrdlen ≤ rsp.len
  | .string =>
      start < rsp.len ∧
        (rsp.len < start + (rsp.mem start).toNat ∨
          (start + (rsp.mem start).toNat < rsp.len ∧ start + rrdlen ≤ rsp.len))

/-- What a function does with the data of a record of the type. -/
def Find.data (k : Find) (rsp : Response) (rrdlen : Nat) (s : State) : Answer :=
  match k with
  | .name =>
      match rsp.expand s.responsepos with
      | none => ⟨dnsSoft, [], s⟩
      | some r => ⟨1, [], { s with name := r.2 }⟩
  | .ip => address rsp 4 (fun b s => { s with ip := b }) rrdlen s
  | .ip6 => address rsp 16 (fun b s => { s with ip6 := b }) rrdlen s
  | .mx =>
      if rrdlen < 3 then ⟨dnsSoft, [], s⟩
      else
        match rsp.expand (s.responsepos + 2) with
        | none =>
            ⟨dnsSoft, [s.responsepos, s.responsepos + 1],
              { s with pref := rsp.getShort s.responsepos }⟩
        | some r =>
            ⟨1, [s.responsepos, s.responsepos + 1],
              { s with pref := rsp.getShort s.responsepos, name := r.2 }⟩
  | .txt =>
      ⟨1, (txtLoop rsp s.responsepos rrdlen rrdlen 0).2,
        { s with txt := (txtLoop rsp s.responsepos rrdlen rrdlen 0).1 }⟩
  | .string =>
      if maxdname - 1 < (rsp.mem s.responsepos).toNat then ⟨dnsSoft, [s.responsepos], s⟩
      else if rsp.len < s.responsepos + (rsp.mem s.responsepos).toNat then
        ⟨dnsSoft, [s.responsepos], s⟩
      else
        ⟨1, s.responsepos ::
          (List.range (rsp.mem s.responsepos).toNat).map (s.responsepos + 1 + ·),
          { s with name := rsp.bytes (s.responsepos + 1) (rsp.mem s.responsepos).toNat }⟩

theorem Find.run_eq (k : Find) (rsp : Response) :
    k.run rsp = find rsp (k.data rsp) := by
  cases k with
  | name =>
      rw [Find.run, findname]
      refine congrArg (find rsp) (funext fun rrdlen => funext fun s => ?_)
      rw [Find.data]
      cases rsp.expand s.responsepos <;> rfl
  | mx =>
      rw [Find.run, findmx]
      refine congrArg (find rsp) (funext fun rrdlen => funext fun s => ?_)
      rw [Find.data]
      dsimp only
      cases rsp.expand (s.responsepos + 2) <;> rfl
  | ip => rfl
  | ip6 => rfl
  | txt => rfl
  | string => rfl

theorem dnsSoft_ne_one : dnsSoft ≠ 1 := by decide

theorem Find.wanted_data (k : Find) (rsp : Response) : Wanted (k.data rsp) := by
  have hcases : ∀ rrdlen s, ((k.data rsp rrdlen s).code = 1 ∨ (k.data rsp rrdlen s).code = dnsSoft) ∧
      (k.data rsp rrdlen s).state.responsepos = s.responsepos ∧
      (k.data rsp rrdlen s).state.numanswers = s.numanswers := by
    intro rrdlen s
    cases k with
    | name =>
        rw [Find.data]
        cases rsp.expand s.responsepos with
        | none => exact ⟨.inr rfl, rfl, rfl⟩
        | some r => exact ⟨.inl rfl, rfl, rfl⟩
    | ip =>
        rw [Find.data, address]
        split_ifs
        · exact ⟨.inr rfl, rfl, rfl⟩
        · exact ⟨.inl rfl, rfl, rfl⟩
    | ip6 =>
        rw [Find.data, address]
        split_ifs
        · exact ⟨.inr rfl, rfl, rfl⟩
        · exact ⟨.inl rfl, rfl, rfl⟩
    | mx =>
        rw [Find.data]
        split_ifs
        · exact ⟨.inr rfl, rfl, rfl⟩
        · cases rsp.expand (s.responsepos + 2) with
          | none => exact ⟨.inr rfl, rfl, rfl⟩
          | some r => exact ⟨.inl rfl, rfl, rfl⟩
    | txt => exact ⟨.inl rfl, rfl, rfl⟩
    | string =>
        rw [Find.data]
        split_ifs
        · exact ⟨.inr rfl, rfl, rfl⟩
        · exact ⟨.inr rfl, rfl, rfl⟩
        · exact ⟨.inl rfl, rfl, rfl⟩
  exact ⟨fun n s => (hcases n s).1, fun n s => (hcases n s).2.1, fun n s => (hcases n s).2.2⟩

/-- The loop over the strings reads the data. -/
theorem txtLoop_reads (start rrdlen turns txtpos : Nat) :
    ∀ p ∈ (txtLoop rsp start rrdlen turns txtpos).2, p < start + rrdlen := by
  induction turns generalizing txtpos with
  | zero => exact fun p hp => absurd hp List.not_mem_nil
  | succ turns ih =>
      intro p hp
      rw [txtLoop] at hp
      by_cases hlt : txtpos < rrdlen
      · rw [if_pos hlt] at hp
        dsimp only at hp
        rcases List.mem_append.mp hp with hp | hp
        · rcases List.mem_cons.mp hp with rfl | hp
          · omega
          · obtain ⟨k, hk, rfl⟩ := List.mem_map.mp hp
            have := List.mem_range.mp hk
            omega
        · exact ih _ p hp
      · rw [if_neg hlt] at hp
        exact absurd hp List.not_mem_nil

theorem Find.dataSound_iff (k : Find) {start rrdlen : Nat} {t : State}
    (ht : t.responsepos = start) :
    DataSound rsp start rrdlen (k.data rsp rrdlen t) ↔ k.Fits rsp start rrdlen := by
  subst ht
  have hsoft : ∀ u : State, DataSound rsp t.responsepos rrdlen ⟨dnsSoft, [], u⟩ := fun u =>
    ⟨fun p hp => absurd hp List.not_mem_nil, fun h => absurd h dnsSoft_ne_one⟩
  have haddress : ∀ size store, 0 < size →
      (DataSound rsp t.responsepos rrdlen (address rsp size store rrdlen t) ↔
        t.responsepos + rrdlen ≤ rsp.len ∨ rrdlen < size) := by
    intro size store hsize
    rw [address]
    by_cases hshort : rrdlen < size
    · rw [if_pos hshort]
      exact iff_of_true (hsoft t) (.inr hshort)
    · rw [if_neg hshort]
      constructor
      · exact fun h => .inl (h.2 rfl)
      · intro h
        have hle := h.resolve_right hshort
        refine ⟨fun p hp => ?_, fun _ => hle⟩
        obtain ⟨n, hn, rfl⟩ := List.mem_map.mp hp
        have := List.mem_range.mp hn
        omega
  cases k with
  | name =>
      rw [Find.data, Find.Fits]
      cases rsp.expand t.responsepos with
      | none => exact iff_of_true (hsoft t) (.inr rfl)
      | some r =>
          exact ⟨fun h => .inl (h.2 rfl), fun h => ⟨fun p hp => absurd hp List.not_mem_nil,
            fun _ => h.resolve_right (Option.some_ne_none r)⟩⟩
  | ip => exact haddress 4 _ (by decide)
  | ip6 => exact haddress 16 _ (by decide)
  | mx =>
      rw [Find.data, Find.Fits]
      by_cases hshort : rrdlen < 3
      · rw [if_pos hshort]
        exact iff_of_true (hsoft t) (.inl hshort)
      · rw [if_neg hshort]
        have hreads : (∀ p ∈ [t.responsepos, t.responsepos + 1], p < rsp.len) ↔
            t.responsepos + 2 ≤ rsp.len := by
          simp only [List.mem_cons, List.not_mem_nil, or_false, forall_eq_or_imp, forall_eq]
          omega
        cases rsp.expand (t.responsepos + 2) with
        | none =>
            constructor
            · exact fun h => .inr ⟨hreads.mp h.1, .inr rfl⟩
            · exact fun h => ⟨hreads.mpr (h.resolve_left hshort).1, fun h => absurd h dnsSoft_ne_one⟩
        | some r =>
            constructor
            · exact fun h => .inr ⟨hreads.mp h.1, .inl (h.2 rfl)⟩
            · exact fun h => ⟨hreads.mpr (h.resolve_left hshort).1,
                fun _ => (h.resolve_left hshort).2.resolve_right (Option.some_ne_none r)⟩
  | txt =>
      constructor
      · exact fun h => h.2 rfl
      · exact fun h => ⟨fun p hp => Nat.lt_of_lt_of_le (txtLoop_reads _ _ _ _ p hp) h, fun _ => h⟩
  | string =>
      have hbyte : ¬ maxdname - 1 < (rsp.mem t.responsepos).toNat := by
        have := (rsp.mem t.responsepos).toNat_lt
        rw [maxdname]
        omega
      rw [Find.data, Find.Fits, if_neg hbyte]
      by_cases hlong : rsp.len < t.responsepos + (rsp.mem t.responsepos).toNat
      · rw [if_pos hlong]
        constructor
        · exact fun h => ⟨h.1 _ List.mem_cons_self, .inl hlong⟩
        · exact fun h => ⟨fun p hp => by rw [List.mem_singleton.mp hp]; exact h.1,
            fun h => absurd h dnsSoft_ne_one⟩
      · rw [if_neg hlong]
        constructor
        · intro h
          have hfirst := h.1 _ List.mem_cons_self
          refine ⟨hfirst, .inr ⟨?_, h.2 rfl⟩⟩
          by_contra hend
          have hlast := h.1 (t.responsepos + 1 + ((rsp.mem t.responsepos).toNat - 1))
            (List.mem_cons_of_mem _ (List.mem_map.mpr
              ⟨_, List.mem_range.mpr (by omega), rfl⟩))
          omega
        · rintro ⟨hfirst, hrest⟩
          obtain ⟨hend, hle⟩ := hrest.resolve_left hlong
          refine ⟨fun p hp => ?_, fun _ => hle⟩
          rcases List.mem_cons.mp hp with rfl | hp
          · exact hfirst
          · obtain ⟨n, hn, rfl⟩ := List.mem_map.mp hp
            have := List.mem_range.mp hn
            omega

/-- A record that does not lead out of the response: of another type it is whole, and of the type its
data is inside or the function finds out. -/
def Complete (rsp : Response) (k : Find) (wanttype : Nat) (s : State) : Prop :=
  0 < s.numanswers → ∀ rrtype start rrdlen,
    recordAt rsp s.responsepos = some (rrtype, start, rrdlen) →
      if rrtype = wanttype then k.Fits rsp start rrdlen else start + rrdlen ≤ rsp.len

/-- **A call** is sound if and only if the record does not lead out of the response. -/
theorem run_sound_iff (rsp : Response) (k : Find) (wanttype : Nat) (s : State) :
    Sound rsp wanttype s (k.run rsp wanttype s) ↔ Complete rsp k wanttype s := by
  rw [Find.run_eq]
  rcases Nat.eq_zero_or_pos s.numanswers with h0 | hleft
  · rw [find_none_left h0]
    refine iff_of_true ⟨fun p hp => absurd hp List.not_mem_nil, fun _ => rfl,
      fun h => absurd h0 (Nat.ne_of_gt h), fun h => absurd h0 (Nat.ne_of_gt h)⟩
      fun h => absurd h0 (Nat.ne_of_gt h)
  · cases hrecord : recordAt rsp s.responsepos with
    | none =>
        refine iff_of_true (sound_no_record hleft hrecord) fun _ ty st dl h => ?_
        rw [hrecord] at h
        exact absurd h (Option.some_ne_none _).symm
    | some r =>
        obtain ⟨rrtype, start, rrdlen⟩ := r
        obtain ⟨t, ht, hiff⟩ := @sound_record_iff rsp _ wanttype s (k.wanted_data rsp) hleft _ _ _
          hrecord
        rw [hiff, k.dataSound_iff ht]
        constructor
        · intro h _ ty st dl hsome
          rw [hrecord] at hsome
          obtain ⟨rfl, rfl, rfl⟩ : _ ∧ _ ∧ _ := by simpa using hsome
          exact h
        · exact fun h => h hleft _ _ _ hrecord

/-! ## `resolve` -/

/-- The response that `resolve` goes on with, and the one before. -/
def Lookup.HasHeader : Lookup → Prop
  | .fails _ => True
  | .answers rsp => 6 ≤ rsp.len ∧ (8 ≤ rsp.len ∨ 0 < rsp.getShort 4)

/-- A response has the bytes of its header that are looked at. -/
def HasHeaders (net : Net) : Prop :=
  ¬ (net.responsebuflen = 0 ∧ net.alloc = false) →
    let responsebuflen := if net.responsebuflen = 0 then 513 else net.responsebuflen
    match net.first with
    | .fails _ => True
    | .answers rsp =>
        (responsebuflen ≤ rsp.len ∨ 2 < rsp.len) ∧
          if responsebuflen ≤ rsp.len ∨ rsp.tc = true then
            (responsebuflen < 65536 ∧ net.alloc_re = false) ∨ net.second.HasHeader
          else (Lookup.answers rsp).HasHeader

def Resolved.Sound (r : Resolved) : Prop := ∀ x ∈ r.reads, x.2 < x.1.len

theorem questions_short {n : Nat} (hlen : rsp.len < 12) : questions rsp (n + 1) 12 = none := by
  rw [questions]
  cases hexpand : rsp.expand 12 with
  | none => rfl
  | some r =>
      have := rsp.inside 12 r.1 r.2 hexpand
      omega

theorem header_reads {reads : List (Response × Nat)} (h : (header rsp reads).Sound) :
    ∀ x ∈ reads, x.2 < x.1.len := by
  intro x hx
  rw [header] at h
  cases hq : questions rsp (rsp.getShort 4) 12 with
  | none =>
      rw [hq] at h
      exact h x (List.mem_append_left _ hx)
  | some pos =>
      rw [hq] at h
      exact h x (List.mem_append_left _ (List.mem_append_left _ hx))

theorem header_sound_iff (rsp : Response) {reads : List (Response × Nat)}
    (hreads : ∀ x ∈ reads, x.2 < x.1.len) :
    (header rsp reads).Sound ↔ (Lookup.answers rsp).HasHeader := by
  have hall : ∀ last : List Nat, (∀ x ∈ reads ++ last.map fun p => (rsp, p), x.2 < x.1.len) ↔
      ∀ p ∈ last, p < rsp.len := by
    intro last
    constructor
    · exact fun h p hp => h (rsp, p) (List.mem_append_right _ (List.mem_map_of_mem hp))
    · intro h x hx
      rcases List.mem_append.mp hx with hx | hx
      · exact hreads x hx
      · obtain ⟨p, hp, rfl⟩ := List.mem_map.mp hx
        exact h p hp
  rw [header, Lookup.HasHeader]
  cases hq : questions rsp (rsp.getShort 4) 12 with
  | none =>
      have hpos : 0 < rsp.getShort 4 := by
        by_contra h0
        rw [Nat.eq_zero_of_not_pos h0] at hq
        exact absurd hq (Option.some_ne_none _)
      refine (hall [4, 5]).trans ?_
      simp only [List.mem_cons, List.not_mem_nil, or_false, forall_eq_or_imp, forall_eq]
      omega
  | some pos =>
      have hlong : 0 < rsp.getShort 4 → 12 ≤ rsp.len := by
        intro hpos
        by_contra hlen
        obtain ⟨n, hn⟩ : ∃ n, rsp.getShort 4 = n + 1 := ⟨rsp.getShort 4 - 1, by omega⟩
        rw [hn, questions_short (by omega)] at hq
        exact absurd hq (Option.some_ne_none _).symm
      rw [Resolved.Sound, List.append_assoc]
      refine (hall [4, 5, 6, 7]).trans ?_
      simp only [List.mem_cons, List.not_mem_nil, or_false, forall_eq_or_imp, forall_eq]
      omega

theorem resolve_sound_iff (net : Net) : (resolve net).Sound ↔ HasHeaders net := by
  have hfails : ∀ {code : Int}, (⟨code, [], none⟩ : Resolved).Sound :=
    fun x hx => absurd hx List.not_mem_nil
  rw [resolve, HasHeaders]
  by_cases hmem : net.responsebuflen = 0 ∧ net.alloc = false
  · rw [if_pos hmem]
    exact iff_of_true hfails fun h => absurd hmem h
  rw [if_neg hmem]
  simp only [hmem, not_false_eq_true, forall_true_left]
  generalize (if net.responsebuflen = 0 then 513 else net.responsebuflen) = buflen
  cases net.first with
  | fails soft => exact iff_of_true hfails trivial
  | answers rsp =>
      dsimp only
      -- the flag that tells that the response is a part
      have hflag : (∀ x ∈ (if buflen ≤ rsp.len then [] else [(rsp, 2)] : List (Response × Nat)),
          x.2 < x.1.len) ↔ buflen ≤ rsp.len ∨ 2 < rsp.len := by
        by_cases hbig : buflen ≤ rsp.len
        · rw [if_pos hbig]
          exact iff_of_true (fun x hx => absurd hx List.not_mem_nil) (.inl hbig)
        · rw [if_neg hbig]
          simp [hbig]
      generalize (if buflen ≤ rsp.len then [] else [(rsp, 2)] : List (Response × Nat)) = reads
        at hflag ⊢
      have hheader : ∀ rsp' : Response, (header rsp' reads).Sound ↔
          (buflen ≤ rsp.len ∨ 2 < rsp.len) ∧ (Lookup.answers rsp').HasHeader := by
        intro rsp'
        constructor
        · intro h
          have hreads := header_reads h
          exact ⟨hflag.mp hreads, (header_sound_iff rsp' hreads).mp h⟩
        · exact fun h => (header_sound_iff rsp' (hflag.mpr h.1)).mpr h.2
      by_cases htc : buflen ≤ rsp.len ∨ rsp.tc = true
      · rw [if_pos htc, if_pos htc]
        by_cases halloc : buflen < 65536 ∧ net.alloc_re = false
        · rw [if_pos halloc]
          exact hflag.trans (and_iff_left (.inl halloc)).symm
        · rw [if_neg halloc]
          cases net.second with
          | fails soft => exact hflag.trans (and_iff_left (.inr trivial)).symm
          | answers rsp' =>
              refine (hheader rsp').trans (and_congr_right fun _ => ?_)
              exact ⟨.inr, fun h => h.resolve_left halloc⟩
      · rw [if_neg htc, if_neg htc]
        exact hheader rsp

/-- **The answers of the DNS are read inside of the response**, and one record after the other, if and
only if the response has its header and no record that is met leads out of it. -/
theorem answers_read_inside_iff (net : Net) (todo : List (Find × Nat)) :
    ((resolve net).Sound ∧ ∀ rsp s, (resolve net).found = some (rsp, s) →
      ∀ x ∈ calls rsp s todo, Sound rsp x.2.1 x.2.2 (x.1.run rsp x.2.1 x.2.2)) ↔
    HasHeaders net ∧ ∀ rsp s, (resolve net).found = some (rsp, s) →
      ∀ x ∈ calls rsp s todo, Complete rsp x.1 x.2.1 x.2.2 := by
  rw [resolve_sound_iff]
  simp only [run_sound_iff]

/-- A response without a question: one answer with an address of 4 bytes, that is cut off behind its
header. -/
def cutOff : Response where
  mem p := [0, 0, 0, 0, 0, 0, 0, 1, 0, 0, 0, 0, 0, 0, 1, 0, 1, 0, 0, 0, 0, 0, 4].getD p 7
  len := 23
  expand pos := if pos = 12 then some (1, []) else none
  len_pos := by decide
  inside pos i name h := by
    split_ifs at h with hpos
    · obtain ⟨rfl, -⟩ : 1 = i ∧ _ := by simpa using h
      omega

def cutOffNet : Net := ⟨513, true, true, .answers cutOff, .fails true⟩

/-- An address is read behind the end of the response. -/
theorem address_is_invented :
    ¬ ((resolve cutOffNet).Sound ∧ ∀ rsp s, (resolve cutOffNet).found = some (rsp, s) →
      ∀ x ∈ calls rsp s [(.ip, 1)], Sound rsp x.2.1 x.2.2 (x.1.run rsp x.2.1 x.2.2)) := by
  rintro ⟨-, h⟩
  have hcall := h cutOff ⟨12, 1, [], [], [], 0, []⟩ rfl _ List.mem_cons_self
  have hread : 23 < cutOff.len := hcall.inside 23 (by decide)
  exact absurd hread (by decide)

end IndimailMta.Dns
