import QueryBindings.Decimal.Integer
import QueryBindings.Syntax.Position
/-!
Where something is written: a position in a file, or in a text that has no file. What the type
system defines by itself comes from no text.
-/
namespace QueryBindings

structure Location where
  path : Option String
  line : Nat
  column : Nat
deriving DecidableEq

inductive Origin
  | builtin
  | at (location : Location)
deriving DecidableEq

namespace Location

def ofPosition (path : Option String) (p : Position) : Location := ⟨path, p.line, p.column⟩

def text (l : Location) : String :=
  l.path.getD "<unknown>" ++ ":" ++ Decimal.natural l.line ++ ":" ++ Decimal.natural l.column

end Location

def Origin.text : Origin → String
  | .builtin => "<builtin>"
  | .at l => l.text

end QueryBindings
