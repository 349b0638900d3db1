/-!
Pieces of a text between separators, and its lines.

`pieces` cuts at every separator, so a text with `n` separators has `n + 1` pieces. `lines` are the
pieces between line feeds as a reader counts them: a line feed at the very end opens no further
line, and a carriage return right before a line feed belongs to the line's end.
-/
namespace QueryBindings.Text

def pieces (separator : Char) : List Char → List (List Char)
  | [] => [[]]
  | c :: cs =>
    if c = separator then [] :: pieces separator cs
    else match pieces separator cs with
      | [] => [[c]]
      | piece :: rest => (c :: piece) :: rest

theorem pieces_ne_nil (separator : Char) (cs : List Char) : pieces separator cs ≠ [] := by
  cases cs with
  | nil => simp [pieces]
  | cons c cs =>
    by_cases h : c = separator
    · simp [pieces, h]
    · simp only [pieces, h, if_false]
      split <;> simp

def split (separator : Char) (s : String) : List String :=
  (pieces separator s.toList).map String.ofList

/-- A piece that a line feed ended, without a carriage return as its last character. -/
def dropReturn (piece : List Char) : List Char :=
  match piece.reverse with
  | '\r' :: rest => rest.reverse
  | _ => piece

/-- Turns the pieces between line feeds into lines. -/
def linesOfPieces : List (List Char) → List (List Char)
  | [] => []
  | [last] => if last.isEmpty then [] else [last]
  | piece :: rest => dropReturn piece :: linesOfPieces rest

def lines (cs : List Char) : List (List Char) := linesOfPieces (pieces '\n' cs)

end QueryBindings.Text
