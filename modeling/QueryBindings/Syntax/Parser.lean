import QueryBindings.Syntax.Scanner
/-!
Reading GraphQL grammars from a list of tokens.

One token of lookahead decides between alternatives, and an alternative that is entered must
succeed. Brackets may be nested to a fixed depth only: a grammar takes the room that is left, and a
bracket needs one unit of it.
-/
namespace QueryBindings

abbrev Parser (α : Type) := StateT (List PlacedToken) Option α

namespace Parser

/-- The number of brackets that may be open at once. -/
def maxDepth : Nat := 50

def peek : Parser (Option Token) := fun tokens => some (tokens.head?.map (·.token), tokens)

/-- Takes the next token if `f` accepts it. -/
def take (f : Token → Option α) : Parser α
  | [] => none
  | t :: rest => (f t.token).map (·, rest)

def position : Parser Position := fun tokens => tokens.head?.map (·.position, tokens)

def punctuator (c : Char) : Parser Unit :=
  take fun t => if t = .punctuator c then some () else none

def keyword (word : String) : Parser Unit :=
  take fun t => if t = .name word then some () else none

def name : Parser String :=
  take fun
    | .name text => some text
    | _ => none

def sees (t : Token) : Parser Bool := do return (← peek) = some t

def seesPunctuator (c : Char) : Parser Bool := sees (.punctuator c)

def whenSeen (t : Token) (p : Parser α) : Parser (Option α) := do
  if ← sees t then some <$> p else return none

/-- Items up to a closing punctuator, which is taken too; `n` bounds their number. -/
def itemsWithin (close : Char) (item : Parser α) : Nat → Parser (List α)
  | 0 => failure
  | n + 1 => do
    if ← seesPunctuator close then
      punctuator close
      return []
    else
      let x ← item
      let xs ← itemsWithin close item n
      return x :: xs

/-- Items, possibly none, up to a closing punctuator. Every item takes a token, so their number is
less than the number of tokens. -/
def itemsUntil (close : Char) (item : Parser α) : Parser (List α) := fun tokens =>
  itemsWithin close item (tokens.length + 1) tokens

def someUntil (close : Char) (item : Parser α) : Parser (List α) := do
  if ← seesPunctuator close then failure
  itemsUntil close item

/-- Items for as long as the next token starts one; `n` bounds their number. -/
def itemsWhileWithin (starts : Token → Bool) (item : Parser α) : Nat → Parser (List α)
  | 0 => failure
  | n + 1 => do
    if (← peek).any starts then
      let x ← item
      let xs ← itemsWhileWithin starts item n
      return x :: xs
    else return []

def itemsWhile (starts : Token → Bool) (item : Parser α) : Parser (List α) := fun tokens =>
  itemsWhileWithin starts item (tokens.length + 1) tokens

/-- At least one item in brackets, which take one unit of room. -/
def bracketed (opening closing : Char) (item : Nat → Parser α) : Nat → Parser (List α)
  | 0 => failure
  | room + 1 => do
    punctuator opening
    someUntil closing (item room)

def optionalBracketed (opening closing : Char) (item : Nat → Parser α) (room : Nat) :
    Parser (List α) := do
  if ← seesPunctuator opening then bracketed opening closing item room else return []

/-- At least one item, and one more after every separator; a separator may lead. -/
def separatedBy (separator : Char) (item : Parser α) : Parser (List α) := do
  if ← seesPunctuator separator then punctuator separator
  let first ← item
  let rest ← itemsWhile (· = .punctuator separator) (do punctuator separator; item)
  return first :: rest

def parseAll (item : Parser α) (text : String) : Option (List α) := do
  let tokens ← Token.scan text
  let (items, rest) ← itemsWhile (fun _ => true) item tokens
  if rest.isEmpty ∧ ¬items.isEmpty then some items else none

end Parser

end QueryBindings
