/-!
Positions in a GraphQL text, by line and column, both counted from one.

A character of a token moves one column to the right, and a line feed inside a token starts a new
line. Between tokens the count is coarser: a tab moves eight columns, a carriage return and a byte
order mark move none, and the character that ends a comment always starts a new line.
-/
namespace QueryBindings

structure Position where
  line : Nat
  column : Nat
deriving DecidableEq

namespace Position

def start : Position := ⟨1, 1⟩

def right (p : Position) (n : Nat) : Position := ⟨p.line, p.column + n⟩

def nextLine (p : Position) : Position := ⟨p.line + 1, 1⟩

def afterChar (p : Position) (c : Char) : Position := if c = '\n' then p.nextLine else p.right 1

def afterLexeme (p : Position) (lexeme : List Char) : Position := lexeme.foldl afterChar p

def afterIgnored (p : Position) (c : Char) : Position :=
  if c = '\n' then p.nextLine
  else if c = '\t' then p.right 8
  else if c = ' ' ∨ c = ',' then p.right 1
  else p

@[simp] theorem afterLexeme_nil (p : Position) : p.afterLexeme [] = p := rfl

@[simp] theorem afterLexeme_cons (p : Position) (c : Char) (cs : List Char) :
    p.afterLexeme (c :: cs) = (p.afterChar c).afterLexeme cs := rfl

theorem afterLexeme_append (p : Position) (as bs : List Char) :
    p.afterLexeme (as ++ bs) = (p.afterLexeme as).afterLexeme bs := by
  simp [afterLexeme, List.foldl_append]

end Position

end QueryBindings
