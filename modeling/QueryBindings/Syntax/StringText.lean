import QueryBindings.Text.Blank
import QueryBindings.Text.Hex
import QueryBindings.Text.Lines
import QueryBindings.Text.Replace
import QueryBindings.Text.Size
import QueryBindings.Syntax.Token
/-!
Strings in GraphQL texts.

A string between single quotes resolves its escapes; `\b` stands for the character U+0010, and four
hexadecimal places may start with a plus sign. A block string between triple quotes keeps its lines:
the indentation that all lines after the first share is removed, and so are the blank lines at both
ends.
-/
namespace QueryBindings.Token

/-- The character with a code in hexadecimal, unless the code is a surrogate. -/
def charOfHex? (places : List Char) : Option Char :=
  let digits := match places with
    | '+' :: rest => rest
    | _ => places
  match Text.hexValue? digits with
  | none => none
  | some n => if n < 0xD800 ∨ 0xDFFF < n then some (Char.ofNat n) else none

def unescape? : List Char → Option (List Char)
  | [] => some []
  | '\\' :: 'u' :: a :: b :: c :: d :: rest => do
    let char ← charOfHex? [a, b, c, d]
    let chars ← unescape? rest
    return char :: chars
  | '\\' :: e :: rest => do
    let char ← match e with
      | '"' => some '"'
      | '\\' => some '\\'
      | '/' => some '/'
      | 'b' => some '\x10'
      | 'f' => some '\x0c'
      | 'n' => some '\n'
      | 'r' => some '\r'
      | 't' => some '\t'
      | _ => none
    let chars ← unescape? rest
    return char :: chars
  | '\\' :: [] => none
  | c :: rest => (unescape? rest).map (c :: ·)

/-- The content of a string up to its closing quote, which no line feed may precede. -/
def quotedContent? (escaped : Bool) : List Char → Option (List Char)
  | [] => none
  | c :: rest =>
    if c = '"' ∧ !escaped then some []
    else if c = '\n' then none
    else (quotedContent? (!escaped && c = '\\') rest).map (c :: ·)

/-- The content of a block string up to the first three quotes that no backslash precedes. -/
def blockContent? (previous : Char) : List Char → Option (List Char)
  | [] => none
  | '"' :: '"' :: '"' :: rest =>
    if previous = '\\' then (blockContent? '"' rest).map ('"' :: '"' :: '"' :: ·) else some []
  | c :: rest => (blockContent? c rest).map (c :: ·)

/-- The size of a line's leading blanks; none for a blank line. -/
def indentation? (line : List Char) : Option Nat :=
  if Text.allBlank line then none
  else some (Text.size (line.takeWhile Text.isBlank))

/-- Removes leading characters of a given total size. -/
def dropSize : Nat → List Char → List Char
  | 0, cs => cs
  | _, [] => []
  | n, c :: cs => dropSize (n - c.utf8Size) cs

/-- A line without an indentation of a given size; a line that is shorter stays as it is. -/
def dropIndentation (n : Nat) (line : List Char) : List Char :=
  if Text.size line < n then line else dropSize n line

def dropBlankEnds (ls : List (List Char)) : List (List Char) :=
  ((ls.dropWhile Text.allBlank).reverse.dropWhile Text.allBlank).reverse

def blockValue (content : List Char) : List Char :=
  let ls := Text.lines content
  let common := ((ls.drop 1).filterMap indentation?).min?.getD 0
  let shifted := match ls with
    | [] => []
    | first :: rest => first :: rest.map (dropIndentation common)
  let value := List.intercalate ['\n'] (dropBlankEnds shifted)
  Text.replaceAll ['\\', '"', '"', '"'] ['"', '"', '"'] value

end QueryBindings.Token
