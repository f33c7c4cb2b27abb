import IndimailMta.Base
import IndimailMta.Lib.Transducer

/-!
# The body of a message as qmail-remote sends it

`blast` reads the message in chunks, ends every line in CR LF, puts a second dot
before a dot at the start of a line, and ends the data with a dot on a line of its
own. Only `eom` (the next byte starts a line) is kept between chunks, so that the
chunks do not matter (`blast_chunks`).
-/

namespace IndimailMta.Remote

open IndimailMta Transducer

def BUFSIZE_REMOTE : Nat := 4096

/-- The size of the array `out`. -/
def OUTSIZE : Nat := BUFSIZE_REMOTE * 2 + 1

/-- One byte of the two loops over `inbuf`, which are one loop with `eom`: it is 1 where the
outer loop starts a line and 0 in the inner one. The bytes are those stored in `out`. -/
def blastByte (eom : Bool) (ch : Byte) : Bool × Bytes :=
  if ch = 10 then (true, [13, 10])
  else (false, if eom ∧ ch = 46 then [46, 46] else [ch])

/-- The header lines that `blast` puts in front. -/
def qqehBytes (qqeh : Bytes) : Bytes :=
  qqeh.flatMap fun ch => if ch = 10 then [13, 10] else [ch]

/-- `blast`, on the chunks `substdio_get` returns: what is written to the server, and whether
the data was ended. A partial line at the end is an error (`perm_partialline`). -/
def blast (qqeh : Bytes) (chunks : List Bytes) : Bytes × Bool :=
  let r := feedChunks blastByte true chunks
  if r.1 then (qqehBytes qqeh ++ r.2 ++ asc ".\r\n", true)
  else (qqehBytes qqeh ++ r.2, false)

/-- **How the message is cut into chunks does not matter.** -/
theorem blast_chunks (qqeh : Bytes) (chunks : List Bytes) :
    blast qqeh chunks = blast qqeh [chunks.flatten] := by
  have h : feedChunks blastByte true chunks = feedChunks blastByte true [chunks.flatten] := by
    rw [feedChunks_eq_feed, feedChunks_eq_feed]
    simp
  rw [blast, blast, h]

/-- No byte of a chunk is stored as more than two. -/
theorem length_blastByte (eom : Bool) (ch : Byte) : (blastByte eom ch).2.length ≤ 2 := by
  unfold blastByte
  split
  · simp
  · split <;> simp

/-- `o` never passes twice the number of bytes read. -/
theorem length_feed_blastByte (eom : Bool) (inbuf : Bytes) :
    (feed blastByte eom inbuf).2.length ≤ 2 * inbuf.length := by
  induction inbuf generalizing eom with
  | nil => simp
  | cons ch inbuf ih =>
      have hch := length_blastByte eom ch
      have htail := ih (blastByte eom ch).1
      rw [feed_cons]
      simp only [List.length_append, List.length_cons]
      omega

/-- At the end of the loops `eom` tells whether the last byte ended a line. -/
theorem feed_blastByte_eom (eom : Bool) (msg : Bytes) :
    (feed blastByte eom msg).1 = if msg = [] then eom else decide (msg.getLast? = some 10) := by
  induction msg generalizing eom with
  | nil => rfl
  | cons ch msg ih =>
      rw [feed_cons]
      simp only [ih, List.cons_ne_nil, if_false]
      rcases msg with _ | ⟨b, msg⟩
      · unfold blastByte
        by_cases h : ch = 10 <;> simp [h]
      · simp [List.getLast?_cons_cons]

end IndimailMta.Remote
