/-!
Replacing every occurrence of a pattern, from left to right and without overlaps.
-/
namespace QueryBindings.Text

/-- The rest of `cs` after `pattern`, if `cs` starts with it. -/
def dropPattern? : List Char → List Char → Option (List Char)
  | [], cs => some cs
  | _ :: _, [] => none
  | p :: ps, c :: cs => if p = c then dropPattern? ps cs else none

/-- Replaces occurrences; `skip` counts the characters of one that are still to be passed over. -/
def replaceFrom (pattern replacement : List Char) : Nat → List Char → List Char
  | _, [] => []
  | skip + 1, _ :: cs => replaceFrom pattern replacement skip cs
  | 0, c :: cs =>
    match dropPattern? pattern (c :: cs) with
    | some _ => replacement ++ replaceFrom pattern replacement (pattern.length - 1) cs
    | none => c :: replaceFrom pattern replacement 0 cs

def replaceAll (pattern replacement cs : List Char) : List Char :=
  replaceFrom pattern replacement 0 cs

end QueryBindings.Text
