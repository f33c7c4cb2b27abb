import IndimailMta.Dkim.Buffers
import IndimailMta.Dkim.Limits
import Mathlib.Data.List.DropRight
import Mathlib.Data.List.Induction

/-!
# Canonical bodies

The signer and the verifier hash the lines of a body as they come. Empty lines are counted, and
hashed when a line that is not empty follows; what is to be done at the end of the body is done only
if `bEOF` says so, that is, if the last line has no end. The reference is RFC 6376: the body without
the empty lines at its end, `simple` with one CRLF for a body that has nothing else.
-/

namespace IndimailMta.Dkim

open IndimailMta

/-! ## `CDKIMSign` -/

/-- What the signer has hashed of a body. -/
structure Signer where
  hashed : Bytes := []
  emptyLineCount : Nat := 0
  nBodyLength : Int := 0
  deriving DecidableEq, Repr

/-- `Hash`, and the count of it. -/
def Signer.hash (b : Bytes) (s : Signer) : Signer :=
  { s with hashed := s.hashed ++ b, nBodyLength := int32 (s.nBodyLength + b.length) }

/-- The empty lines that were put off. -/
def Signer.emptyLines : Nat → Signer → Signer
  | 0, s => { s with emptyLineCount := 0 }
  | n + 1, s => emptyLines n (s.hash [13, 10])

/-- `ProcessBody`. -/
def Signer.processBody (c : Canon) (s : Signer) (call : Bytes × Bool) : Signer :=
  let b := canonLine c call.1
  match c with
  | .simple =>
      if b ≠ [] then ((s.emptyLines s.emptyLineCount).hash b).hash [13, 10]
      else
        let s := { s with emptyLineCount := s.emptyLineCount + 1 }
        if call.2 then s.hash [13, 10] else s
  | .nowsp => if b ≠ [] then s.hash b else s
  | .relaxed =>
      if b ≠ [] then
        let s := (s.emptyLines s.emptyLineCount).hash b
        if call.2 then s else s.hash [13, 10]
      else { s with emptyLineCount := s.emptyLineCount + 1 }

def signer (c : Canon) (calls : List (Bytes × Bool)) : Signer :=
  calls.foldl (Signer.processBody c) {}

/-! ## RFC 6376 -/

def isWsp (ch : Byte) : Bool := ch = 32 || ch = 9

/-- Each sequence of blanks is one space. -/
def squeeze : Bytes → Bytes
  | [] => []
  | ch :: rest =>
      if isWsp ch then if rest.head?.any isWsp then squeeze rest else 32 :: squeeze rest
      else ch :: squeeze rest

/-- Without the blanks at the end of the line. -/
def relaxedLine (line : Bytes) : Bytes := squeeze (line.rdropWhile isWsp)

def crlf (lines : List Bytes) : Bytes := lines.flatMap fun line => line ++ [13, 10]

/-- Without the empty lines at the end. -/
def kept (lines : List Bytes) : List Bytes := lines.rdropWhile (· = [])

/-- A body with CRLF line ends: its lines, and what is behind the last line end. -/
structure Body where
  lines : List Bytes
  tail : Bytes
  plain : ∀ line ∈ tail :: lines, 13 ∉ line ∧ 10 ∉ line

namespace Body

def text (b : Body) : Bytes := crlf b.lines ++ b.tail

/-- The lines, the last of which may be without an end. -/
def allLines (b : Body) : List Bytes := b.lines ++ if b.tail = [] then [] else [b.tail]

def canonical (c : Canon) (b : Body) : Bytes :=
  match c with
  | .simple => if kept b.allLines = [] then [13, 10] else crlf (kept b.allLines)
  | .relaxed => crlf (kept (b.allLines.map relaxedLine))
  | .nowsp => b.text.filter fun ch => !isswsp ch

/-- What is handed to `ProcessBody`. -/
def calls (b : Body) : List (Bytes × Bool) :=
  b.lines.map (·, false) ++ if b.tail = [] then [] else [(b.tail, true)]

end Body

/-- A message with CRLF line ends; without a body it ends in its header. -/
structure Message where
  header : List Bytes
  body : Option Body
  plain : ∀ line ∈ header, line ≠ [] ∧ 13 ∉ line ∧ 10 ∉ line

namespace Message

def text (m : Message) : Bytes :=
  crlf m.header ++ (m.body.map fun b => [13, 10] ++ b.text).getD []

/-- The canonical body; where there is none, that of the empty body. -/
def canonical (c : Canon) (m : Message) : Bytes :=
  match m.body with
  | some b => b.canonical c
  | none => if c = .simple then [13, 10] else []

def calls (m : Message) : List (Bytes × Bool) := (m.body.map Body.calls).getD [([], true)]

/-- For `simple` the body has a line that is not empty; for `relaxed` there are only blanks behind
its last line end. -/
def Meets (c : Canon) (m : Message) : Prop :=
  ∀ b ∈ m.body,
    match c with
    | .simple => ∃ line ∈ b.allLines, line ≠ []
    | .relaxed => ∀ ch ∈ b.tail, isWsp ch = true
    | .nowsp => True

end Message

/-! ## Lines -/

theorem crlf_append (s t : List Bytes) : crlf (s ++ t) = crlf s ++ crlf t := List.flatMap_append

@[simp] theorem crlf_cons (line : Bytes) (t : List Bytes) :
    crlf (line :: t) = line ++ 13 :: 10 :: crlf t := by
  rw [crlf, List.flatMap_cons, List.append_assoc]
  rfl

@[simp] theorem crlf_nil : crlf [] = [] := rfl

theorem rdropWhile_cons {α : Type} (p : α → Bool) (a : α) (l : List α) :
    (a :: l).rdropWhile p =
      if l.rdropWhile p = [] then if p a then [] else [a] else a :: l.rdropWhile p := by
  have hl : (a :: l).rdropWhile p = ((l.reverse ++ [a]).dropWhile p).reverse := by
    rw [List.rdropWhile, List.reverse_cons]
  rw [hl, List.rdropWhile, List.dropWhile_append]
  cases l.reverse.dropWhile p with
  | nil => cases hp : p a <;> simp [hp]
  | cons x xs => simp

theorem isWsp_space : isWsp 32 = true := rfl

theorem squeeze_space (rest : Bytes) (ch : Byte) (h : isWsp ch = true) :
    squeeze (ch :: rest) = squeeze (32 :: rest) := by
  rw [squeeze, squeeze, if_pos h, if_pos isWsp_space]

/-- The loop of `CompressSWSP`. -/
theorem compressLoop_eq {b : Bytes} (hb : 13 ∉ b ∧ 10 ∉ b) (ws : Bool) :
    compressLoop ws b =
      if b.rdropWhile isWsp = [] then []
      else if ws then squeeze (32 :: b.rdropWhile isWsp) else squeeze (b.rdropWhile isWsp) := by
  induction b generalizing ws with
  | nil => rfl
  | cons ch rest ih =>
      have hrest : 13 ∉ rest ∧ 10 ∉ rest :=
        ⟨fun h => hb.1 (List.mem_cons_of_mem _ h), fun h => hb.2 (List.mem_cons_of_mem _ h)⟩
      have hws : isswsp ch = isWsp ch := by
        have h13 : ch ≠ 13 := fun h => hb.1 (h ▸ List.mem_cons_self)
        have h10 : ch ≠ 10 := fun h => hb.2 (h ▸ List.mem_cons_self)
        simp [isswsp, isWsp, h13, h10]
      rw [compressLoop, hws, rdropWhile_cons]
      cases hch : isWsp ch with
      | true =>
          rw [if_pos rfl, ih hrest]
          by_cases hnil : rest.rdropWhile isWsp = []
          · simp [hnil]
          · rw [if_neg hnil, if_neg hnil, if_neg (List.cons_ne_nil _ _), if_pos rfl,
              squeeze_space _ ch hch]
            cases ws with
            | false => rfl
            | true =>
                have hhead : ((ch :: rest.rdropWhile isWsp).head?.any isWsp) = true := hch
                have hskip : squeeze (32 :: ch :: rest.rdropWhile isWsp) =
                    squeeze (ch :: rest.rdropWhile isWsp) := by
                  rw [squeeze.eq_2 32, if_pos isWsp_space, if_pos hhead]
                rw [if_pos rfl, hskip, squeeze_space _ ch hch]
      | false =>
          have hcons : ∀ x : Bytes, squeeze (ch :: x) = ch :: squeeze x := by
            intro x
            rw [squeeze, hch, if_neg Bool.false_ne_true]
          have hspace : ∀ x : Bytes, squeeze (32 :: ch :: x) = 32 :: ch :: squeeze x := by
            intro x
            have hhead : ¬ ((ch :: x).head?.any isWsp) = true := by simp [hch]
            rw [squeeze.eq_2 32, if_pos isWsp_space, if_neg hhead, hcons]
          rw [if_neg Bool.false_ne_true, ih hrest]
          by_cases hnil : rest.rdropWhile isWsp = []
          · rw [if_pos hnil, if_pos hnil, if_neg Bool.false_ne_true, if_neg (List.cons_ne_nil _ _)]
            cases ws with
            | true => exact (hspace []).symm
            | false => exact (hcons []).symm
          · rw [if_neg hnil, if_neg hnil, if_neg (List.cons_ne_nil _ _)]
            cases ws with
            | true => exact (hspace _).symm
            | false => exact (hcons _).symm

theorem compressSWSP_eq {b : Bytes} (hb : 13 ∉ b ∧ 10 ∉ b) : compressSWSP b = relaxedLine b := by
  rw [compressSWSP, compressLoop_eq hb, relaxedLine]
  by_cases h : b.rdropWhile isWsp = []
  · rw [if_pos h, h]
    rfl
  · rw [if_neg h]
    rfl

/-! ## What the signer hashes -/

section Signer

variable {c : Canon} {s : Signer}

@[simp] theorem Signer.hash_hashed (b : Bytes) : (s.hash b).hashed = s.hashed ++ b := rfl

@[simp] theorem Signer.hash_emptyLineCount (b : Bytes) :
    (s.hash b).emptyLineCount = s.emptyLineCount := rfl

theorem Signer.emptyLines_eq (n : Nat) :
    (s.emptyLines n).hashed = s.hashed ++ crlf (List.replicate n []) ∧
      (s.emptyLines n).emptyLineCount = 0 := by
  induction n generalizing s with
  | zero => exact ⟨(List.append_nil _).symm, rfl⟩
  | succ n ih =>
      obtain ⟨hh, he⟩ := @ih (s.hash [13, 10])
      refine ⟨?_, he⟩
      rw [Signer.emptyLines, hh, Signer.hash_hashed, List.replicate_succ, crlf_cons,
        List.append_assoc]
      rfl

/-- The lines that were seen, as they are hashed: `hashed` is what is kept of them, and the others
are counted. -/
structure Seen (c : Canon) (s : Signer) (lines : List Bytes) : Prop where
  hashed : s.hashed = crlf (kept lines)
  counted : lines = kept lines ++ List.replicate s.emptyLineCount []

theorem Seen.flush {lines : List Bytes} (h : Seen c s lines) :
    (s.emptyLines s.emptyLineCount).hashed = crlf lines := by
  rw [(Signer.emptyLines_eq _).1, h.hashed, ← crlf_append, ← h.counted]

theorem kept_concat {lines : List Bytes} {line : Bytes} (h : line ≠ []) :
    kept (lines ++ [line]) = lines ++ [line] :=
  List.rdropWhile_concat_neg _ _ _ (by simpa using h)

theorem kept_concat_nil (lines : List Bytes) : kept (lines ++ [[]]) = kept lines :=
  List.rdropWhile_concat_pos _ _ _ (by simp)

/-- A line with its end. -/
theorem Seen.step {lines : List Bytes} (h : Seen c s lines) (hc : c ≠ .nowsp) (line : Bytes) :
    Seen c (s.processBody c (line, false)) (lines ++ [canonLine c line]) := by
  by_cases hline : canonLine c line = []
  · have hstep : s.processBody c (line, false) =
        { s with emptyLineCount := s.emptyLineCount + 1 } := by
      cases c with
      | nowsp => exact absurd rfl hc
      | simple => simp [Signer.processBody, hline]
      | relaxed => simp [Signer.processBody, hline]
    rw [hstep, hline]
    refine ⟨?_, ?_⟩
    · rw [kept_concat_nil]
      exact h.hashed
    · rw [kept_concat_nil, List.replicate_succ', ← List.append_assoc, ← h.counted]
  · have hstep : s.processBody c (line, false) =
        ((s.emptyLines s.emptyLineCount).hash (canonLine c line)).hash [13, 10] := by
      cases c with
      | nowsp => exact absurd rfl hc
      | simple => simp [Signer.processBody, hline]
      | relaxed => simp [Signer.processBody, hline]
    rw [hstep]
    refine ⟨?_, ?_⟩
    · rw [Signer.hash_hashed, Signer.hash_hashed, h.flush, kept_concat hline, crlf_append,
        crlf_cons, crlf_nil, List.append_assoc]
    · rw [kept_concat hline, Signer.hash_emptyLineCount, Signer.hash_emptyLineCount,
        (Signer.emptyLines_eq _).2]
      simp

theorem Seen.run (hc : c ≠ .nowsp) (lines : List Bytes) :
    Seen c (signer c (lines.map (·, false))) (lines.map (canonLine c)) := by
  induction lines using List.reverseRecOn with
  | nil => exact ⟨rfl, rfl⟩
  | append_singleton lines line ih =>
      rw [signer, List.map_append, List.map_append, List.foldl_append]
      exact ih.step hc line

/-- The signer's count, as an `int`. -/
theorem int32_add (a b : Int) : int32 (int32 a + b) = int32 (a + b) := by
  simp only [int32]
  split <;> split <;> split <;> omega

theorem Signer.hash_length (b : Bytes) (h : s.nBodyLength = int32 s.hashed.length) :
    (s.hash b).nBodyLength = int32 (s.hash b).hashed.length := by
  rw [Signer.hash_hashed, List.length_append, Int.natCast_add, ← int32_add, ← h]
  rfl

theorem Signer.emptyLines_length (n : Nat) (h : s.nBodyLength = int32 s.hashed.length) :
    (s.emptyLines n).nBodyLength = int32 (s.emptyLines n).hashed.length := by
  induction n generalizing s with
  | zero => exact h
  | succ n ih => exact ih (hash_length _ h)

theorem Signer.processBody_length (call : Bytes × Bool)
    (h : s.nBodyLength = int32 s.hashed.length) :
    (s.processBody c call).nBodyLength = int32 (s.processBody c call).hashed.length := by
  have hlines := emptyLines_length s.emptyLineCount h
  cases c with
  | simple =>
      rw [processBody]
      dsimp only
      split
      · exact hash_length _ (hash_length _ hlines)
      · split
        · exact hash_length _ h
        · exact h
  | nowsp =>
      rw [processBody]
      split
      · exact hash_length _ h
      · exact h
  | relaxed =>
      rw [processBody]
      dsimp only
      split
      · split
        · exact hash_length _ hlines
        · exact hash_length _ (hash_length _ hlines)
      · exact h

theorem signer_length (c : Canon) (calls : List (Bytes × Bool)) :
    (signer c calls).nBodyLength = int32 (signer c calls).hashed.length := by
  induction calls using List.reverseRecOn with
  | nil => simp [signer, int32]
  | append_singleton calls call ih =>
      rw [signer, List.foldl_append]
      exact Signer.processBody_length call ih

end Signer

/-! ## Against the reference -/

section Reference

variable {c : Canon} {b : Body} {m : Message}

theorem squeeze_eq_nil {line : Bytes} (h : squeeze line = []) : line = [] := by
  induction line with
  | nil => rfl
  | cons ch rest ih =>
      rw [squeeze] at h
      split at h
      · split at h
        · rename_i hhead
          rw [ih h] at hhead
          exact absurd hhead Bool.false_ne_true
        · exact nomatch h
      · exact nomatch h

theorem relaxedLine_eq_nil {line : Bytes} :
    relaxedLine line = [] ↔ ∀ ch ∈ line, isWsp ch = true := by
  rw [← List.rdropWhile_eq_nil_iff, relaxedLine]
  constructor
  · exact squeeze_eq_nil
  · intro h
    rw [h]
    rfl

theorem kept_eq_nil {lines : List Bytes} : kept lines = [] ↔ ¬ ∃ line ∈ lines, line ≠ [] := by
  rw [kept, List.rdropWhile_eq_nil_iff]
  simp

theorem canonLine_relaxed {lines : List Bytes} (h : ∀ line ∈ lines, 13 ∉ line ∧ 10 ∉ line) :
    lines.map (canonLine .relaxed) = lines.map relaxedLine :=
  List.map_congr_left fun line hline => compressSWSP_eq (h line hline)

theorem Body.plain_tail (b : Body) : 13 ∉ b.tail ∧ 10 ∉ b.tail := b.plain _ List.mem_cons_self

theorem Body.plain_lines (b : Body) : ∀ line ∈ b.lines, 13 ∉ line ∧ 10 ∉ line :=
  fun line h => b.plain line (List.mem_cons_of_mem _ h)

/-- The last line, if it has no end. -/
theorem signer_calls (c : Canon) (b : Body) :
    signer c b.calls =
      if b.tail = [] then signer c (b.lines.map (·, false))
      else (signer c (b.lines.map (·, false))).processBody c (b.tail, true) := by
  rw [signer, Body.calls, List.foldl_append]
  split <;> rfl

/-- `simple` is right unless there are only empty lines. -/
theorem signer_simple : (signer .simple b.calls).hashed = b.canonical .simple ↔
    ∃ line ∈ b.allLines, line ≠ [] := by
  have hid : b.lines.map (canonLine .simple) = b.lines := List.map_id _
  have hseen := Seen.run (c := .simple) (by decide) b.lines
  rw [hid] at hseen
  rw [signer_calls, Body.canonical, Body.allLines]
  by_cases htail : b.tail = []
  · rw [if_pos htail, if_pos htail, List.append_nil, hseen.hashed]
    by_cases hkept : kept b.lines = []
    · rw [if_pos hkept, hkept]
      exact iff_of_false nofun (kept_eq_nil.mp hkept)
    · rw [if_neg hkept]
      exact iff_of_true rfl (not_not.mp fun h => hkept (kept_eq_nil.mpr h))
  · have hlast : (signer .simple (b.lines.map (·, false))).processBody .simple (b.tail, true) =
        (signer .simple (b.lines.map (·, false))).processBody .simple (b.tail, false) := by
      simp [Signer.processBody, canonLine, htail]
    have hne : b.lines ++ [b.tail] ≠ [] := by simp
    rw [if_neg htail, if_neg htail, hlast, kept_concat htail, if_neg hne,
      (hseen.step (by decide) b.tail).hashed]
    refine iff_of_true ?_ ⟨b.tail, by simp, htail⟩
    exact congrArg crlf (kept_concat htail)

/-- `relaxed` is right unless there is more than blanks behind the last line end. -/
theorem signer_relaxed : (signer .relaxed b.calls).hashed = b.canonical .relaxed ↔
    ∀ ch ∈ b.tail, isWsp ch = true := by
  have hseen := Seen.run (c := .relaxed) (by decide) b.lines
  rw [canonLine_relaxed b.plain_lines] at hseen
  rw [signer_calls, Body.canonical, Body.allLines]
  by_cases htail : b.tail = []
  · rw [if_pos htail, if_pos htail, List.append_nil, hseen.hashed, htail]
    exact iff_of_true rfl nofun
  · have hline : canonLine .relaxed b.tail = relaxedLine b.tail := compressSWSP_eq b.plain_tail
    rw [if_neg htail, if_neg htail, List.map_append, List.map_singleton, ← relaxedLine_eq_nil]
    by_cases hnil : relaxedLine b.tail = []
    · refine iff_of_true ?_ hnil
      rw [hnil, kept_concat_nil, ← hseen.hashed]
      simp [Signer.processBody, hline, hnil]
    · refine iff_of_false ?_ hnil
      have hhash : ((signer .relaxed (b.lines.map (·, false))).processBody .relaxed
          (b.tail, true)).hashed = crlf (b.lines.map relaxedLine) ++ relaxedLine b.tail := by
        rw [← hseen.flush]
        simp [Signer.processBody, hline, hnil]
      rw [hhash, kept_concat hnil, crlf_append]
      intro heq
      have hlen := congrArg List.length (List.append_cancel_left heq)
      rw [crlf_cons, List.length_append] at hlen
      simp at hlen

/-- What the signer hashes of a message. -/
theorem signer_iff (hc : c ≠ .nowsp) :
    (signer c m.calls).hashed = m.canonical c ↔ m.Meets c := by
  rw [Message.calls, Message.canonical, Message.Meets]
  cases m.body with
  | none =>
      cases c with
      | nowsp => exact absurd rfl hc
      | simple => exact iff_of_true rfl nofun
      | relaxed => exact iff_of_true rfl nofun
  | some b =>
      have hone : ∀ P : Body → Prop, (∀ x ∈ some b, P x) ↔ P b := by simp
      rw [hone]
      cases c with
      | nowsp => exact absurd rfl hc
      | simple => exact signer_simple
      | relaxed => exact signer_relaxed

end Reference

end IndimailMta.Dkim
