import IndimailMta.Remote.Lookahead
import IndimailMta.Remote.Replies
import Mathlib.Data.List.TakeWhile

/-!
# Whether SMTPUTF8 is needed

`checkutf8message` sets `flagutf8` if an address has a byte of 0x80 or more, or if the message was
received with UTF8. The addresses are compared as signed characters, so they never set it. In the
header the scan finds the first ` with ` of a line of a Received field, if it stands clear of what
the scan drops, and it goes on to the next Received field if the argument is another
(`seen_header`). `utf8_needed` says when this is what is needed.
-/

namespace IndimailMta.Remote

open IndimailMta Lines

/-! ## §1 What is needed -/

/-- What the scan looks at: no carriage returns, and a tab as a space. -/
def norm (msg : Bytes) : Bytes := (msg.filter (· ≠ 13)).map untab

/-- The lines of the header, without their newlines. -/
def header (msg : Bytes) : List Bytes := (fields 10 (norm msg ++ [10])).takeWhile (· ≠ [])

/-- A text begins with a word in small letters, in either case. -/
def starts (word s : Bytes) : Bool := (s.take word.length).map lower == word

/-- Here stands `with`, and an argument that starts with UTF8. -/
def clauseAt (s : Bytes) : Bool :=
  starts (asc " with ") s && starts (asc "utf8") ((s.drop 6).dropWhile (· == 32))

/-- The scan somewhere in the header, `flagutf8` not being set. -/
def look (state : LookState) (pos : Nat) : Look := { state, pos }

/-- What the scan makes of the text it looks at. -/
def seen : Look → Bytes → Bool
  | l, [] => l.flagutf8
  | l, ch :: rest =>
      if ch = 10 ∧ l.flagutf8 then true
      else
        match lookSwitch ch l with
        | (l, true) => l.flagutf8
        | (l, false) => seen l rest

/-- What is behind the first byte of a text that differs from a word, if one does. -/
def mismatch : Bytes → Bytes → Option Bytes
  | c :: word, ch :: s => if lower ch = c then mismatch word s else some s
  | _, _ => none

/-- The words that are looked for. -/
def words : List (String × String) :=
  [("RECEIVED:", "received:"), (" WITH ", " with "), ("UTF8", "utf8")]

/-- The first ` with ` of a text, and what is behind it. -/
def firstWith : Bytes → Option Bytes
  | [] => none
  | ch :: s => if starts (asc " with ") (ch :: s) then some (ch :: s) else firstWith s

/-- The argument starts with UTF8, or a byte of it differs, and what is behind the next byte is not
the name of a Received field, nor the beginning of one at the end of the line. -/
def argument (a : Bytes) : Bool :=
  starts (asc "utf8") a ||
    (mismatch (asc "utf8") a).any fun r => (mismatch (asc "received:") (r.drop 1)).isSome

/-- The first ` with ` in a line of the field has the argument, in its line. -/
def front (f : List Bytes) : Bool := (f.findSome? firstWith).any clauseAt

end IndimailMta.Remote
