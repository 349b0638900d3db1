import QueryBindings.Syntax.Token
/-!
Numbers in GraphQL texts.

A whole number has no leading zeros and fits 64 bits with a sign. A number with a fraction or an
exponent stands for the nearest 64 bit floating point number; a fraction has at least one digit, and
an exponent without a sign starts with a digit from 1 to 8.
-/
namespace QueryBindings.Token

def allDigits (cs : List Char) : Bool := cs.all Char.isDigit

def digitsValue (cs : List Char) : Nat := cs.foldl (fun n c => 10 * n + (c.toNat - '0'.toNat)) 0

/-- Reads `0` or digits without a leading zero, after an optional minus sign. -/
def wholePart? (cs : List Char) : Option (Bool × List Char) :=
  let negative := cs.head? = some '-'
  let digits := if negative then cs.tail else cs
  if digits = ['0'] then some (negative, digits)
  else if digits.isEmpty || digits.head? = some '0' || !allDigits digits then none
  else some (negative, digits)

/-- Reads what follows the letter of an exponent. -/
def exponent? : List Char → Option Int
  | [] => none
  | c :: digits =>
    if c = '+' ∨ c = '-' then
      if digits.isEmpty || !allDigits digits then none
      else some (if c = '-' then -(digitsValue digits) else digitsValue digits)
    else if '1' ≤ c ∧ c ≤ '8' ∧ allDigits digits then some (digitsValue (c :: digits))
    else none

def isExponentLetter (c : Char) : Bool := c = 'e' || c = 'E'

def floatToken (negative : Bool) (whole fraction : List Char) (exponent : Int) : Token :=
  .float ⟨negative, .ofDecimal (digitsValue (whole ++ fraction)) (exponent - fraction.length)⟩

/-- The whole number with the given digits, if it is from `-2 ^ 63` to `2 ^ 63 - 1`. -/
def intToken? (negative : Bool) (digits : List Char) : Option Token :=
  let value : Int := if negative then -(digitsValue digits) else digitsValue digits
  if -9223372036854775808 ≤ value ∧ value ≤ 9223372036854775807 then some (.int value) else none

/-- The number that a whole lexeme stands for. -/
def number? (lexeme : List Char) : Option Token :=
  let stops (c : Char) : Bool := c = '.' || isExponentLetter c
  match wholePart? (lexeme.takeWhile (!stops ·)) with
  | none => none
  | some (negative, whole) =>
    match lexeme.dropWhile (!stops ·) with
    | [] => intToken? negative whole
    | '.' :: rest =>
      let fraction := rest.takeWhile (!isExponentLetter ·)
      if fraction.isEmpty || !allDigits fraction then none
      else match rest.dropWhile (!isExponentLetter ·) with
        | [] => some (floatToken negative whole fraction 0)
        | _ :: power => (exponent? power).map (floatToken negative whole fraction)
    | _ :: power => (exponent? power).map (floatToken negative whole [])

end QueryBindings.Token
