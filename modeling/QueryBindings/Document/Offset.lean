import QueryBindings.Syntax.Position
import QueryBindings.Text.Size
/-!
Byte offsets in a text.

`offset?` finds the place of a position whose line and column count line feeds and characters from
one. A column may be one past the last character of its line. `slice?` is the part of a text between
two offsets, which must both lie between characters.
-/
namespace QueryBindings.Text

/-- The offset of a column, counted from zero, in the first line of a text. -/
def columnOffset? : (column : Nat) → List Char → Option Nat
  | 0, _ => some 0
  | _ + 1, [] => none
  | n + 1, c :: cs => if c = '\n' then none else (columnOffset? n cs).map (c.utf8Size + ·)

/-- The offset of a column in the line after a number of line feeds. -/
def lineOffset? (column : Nat) : (feeds : Nat) → List Char → Option Nat
  | 0, cs => columnOffset? column cs
  | _ + 1, [] => none
  | n + 1, c :: cs =>
    (lineOffset? column (if c = '\n' then n else n + 1) cs).map (c.utf8Size + ·)

/-- The offset of a position, if the text has it. -/
def offset? (cs : List Char) (p : Position) : Option Nat :=
  if p.line = 0 ∨ p.column = 0 then none else lineOffset? (p.column - 1) (p.line - 1) cs

/-- The text from an offset on. -/
def dropBytes? : (n : Nat) → List Char → Option (List Char)
  | 0, cs => some cs
  | _ + 1, [] => none
  | n + 1, c :: cs => if c.utf8Size ≤ n + 1 then dropBytes? (n + 1 - c.utf8Size) cs else none

def takeBytes? : (n : Nat) → List Char → Option (List Char)
  | 0, _ => some []
  | _ + 1, [] => none
  | n + 1, c :: cs =>
    if c.utf8Size ≤ n + 1 then (takeBytes? (n + 1 - c.utf8Size) cs).map (c :: ·) else none

def slice? (cs : List Char) (start stop : Nat) : Option (List Char) :=
  if start ≤ stop then (dropBytes? start cs).bind (takeBytes? (stop - start)) else none

end QueryBindings.Text
