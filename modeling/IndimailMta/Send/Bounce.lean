import IndimailMta.Base

/-!
# The text of a bounce

`addbounce` writes one paragraph to `bounce/id` for a recipient that failed: the
address without the prefix a virtual domain put in front of it, and the report,
with every blank line inside the paragraph turned into a slash.
-/

namespace IndimailMta.Send

open IndimailMta

/-- `stripvdomprepend`: the first suffix of the domain (the whole domain, a part after a
dot, the empty suffix) with an entry decides. -/
def stripvdomprepend (mapvdoms : Bytes → Option Bytes) (recip : Bytes) : Bytes :=
  let i := byteRchr recip 64
  if i = recip.length then recip
  else
    let domain := recip.drop (i + 1)
    let entry := (List.range (domain.length + 1)).findSome? fun i =>
      if i = 0 ∨ i = domain.length ∨ domain[i]? = some 46 then mapvdoms (domain.drop i)
      else none
    match entry with
    | none => recip
    | some prepend =>
        if prepend = [] then recip
        else if recip.take prepend.length ≠ prepend then recip
        else if recip[prepend.length]? ≠ some 45 then recip
        else recip.drop (prepend.length + 1)

/-- The backwards loop of `addbounce`, at positions `pos` to 1: a newline behind a newline
becomes a slash. -/
def slashBlankLines : Nat → Bytes → Bytes
  | 0, t => t
  | pos + 1, t =>
      slashBlankLines pos
        (if t[pos + 1]? = some 10 ∧ t[pos]? = some 10 then t.set (pos + 1) 47 else t)

def bounceText (mapvdoms : Bytes → Option Bytes) (recip report : Bytes) : Bytes :=
  let t := (60 :: stripvdomprepend mapvdoms recip).map fun b => if b = 10 then 95 else b
  let t := t ++ asc ">:\n" ++ report
  let t := if report ≠ [] ∧ report.getLast? ≠ some 10 then t ++ [10] else t
  slashBlankLines (t.length - 2) t ++ [10]

example : bounceText (fun _ => none) (asc "u@h") (asc "no\n\nway") =
    asc "<u@h>:\nno\n/way\n\n" := by decide

end IndimailMta.Send
