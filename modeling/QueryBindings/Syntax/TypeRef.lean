import QueryBindings.Syntax.Parser
/-!
References to types as they are written: a name, a list in brackets, or either of them with an
exclamation mark, which may not be doubled.
-/
namespace QueryBindings

inductive TypeRef
  | named (name : String)
  | list (item : TypeRef)
  | nonNull (inner : TypeRef)
deriving DecidableEq

namespace TypeRef

/-- The reference, marked as non-null if an exclamation mark follows. -/
def readBang (inner : TypeRef) : Parser TypeRef := do
  if ← Parser.seesPunctuator '!' then
    Parser.punctuator '!'
    return .nonNull inner
  else return inner

def read : Nat → Parser TypeRef
  | 0 => do readBang (.named (← Parser.name))
  | room + 1 => do
    if ← Parser.seesPunctuator '[' then
      Parser.punctuator '['
      let item ← read room
      Parser.punctuator ']'
      readBang (.list item)
    else readBang (.named (← Parser.name))

def text : TypeRef → String
  | named name => name
  | list item => "[" ++ item.text ++ "]"
  | nonNull inner => inner.text ++ "!"

end TypeRef

end QueryBindings
