import QueryBindings.Syntax.Executable
/-!
Reading executable definitions.

After three dots the word `on` always starts a type condition, any other name is a spread, and
everything else is an inline fragment without a condition.  Brackets are never empty.
-/
namespace QueryBindings

open QueryBindings.Parser

def Argument.readAll (allowVariables : Bool) (room : Nat) : Parser (List Argument) :=
  optionalBracketed '(' ')' (fun room => Value.readField (Value.read allowVariables room)) room

namespace Directive

def read (allowVariables : Bool) (room : Nat) : Parser Directive := do
  punctuator '@'
  let name ← Parser.name
  return ⟨name, ← Argument.readAll allowVariables room⟩

def readAll (allowVariables : Bool) (room : Nat) : Parser (List Directive) :=
  itemsWhile (· = .punctuator '@') (read allowVariables room)

end Directive

namespace Selection

/-- Reads a field; `selectionSet` reads the selections below it. -/
def readField (room : Nat) (selectionSet : Parser (List Selection)) : Parser Selection := do
  let position ← Parser.position
  let first ← Parser.name
  let second ← whenSeen (.punctuator ':') (do punctuator ':'; Parser.name)
  let arguments ← Argument.readAll true room
  let directives ← Directive.readAll true room
  let selections ← whenSeen (.punctuator '\x7b') selectionSet
  return match second with
    | some name => .field position (some first) name arguments directives (selections.getD [])
    | none => .field position none first arguments directives (selections.getD [])

/-- Reads what follows three dots. -/
def readFragment (room : Nat) (selectionSet : Parser (List Selection)) : Parser Selection := do
  let position ← Parser.position
  if ← sees (.name "on") then
    keyword "on"
    let condition ← Parser.name
    let directives ← Directive.readAll true room
    return .inline position (some condition) directives (← selectionSet)
  else match ← peek with
    | some (.name _) =>
      let fragment ← Parser.name
      return .spread position fragment (← Directive.readAll true room)
    | _ =>
      let directives ← Directive.readAll true room
      return .inline position none directives (← selectionSet)

def read (room : Nat) (selectionSet : Parser (List Selection)) : Parser Selection := do
  if ← sees .ellipsis then
    take fun t => if t = .ellipsis then some () else none
    readFragment room selectionSet
  else readField room selectionSet

/-- Reads at least one selection in braces. -/
def readSet : Nat → Parser (List Selection)
  | 0 => failure
  | room + 1 => do
    punctuator '\x7b'
    someUntil '\x7d' (read room (readSet room))

end Selection

namespace VariableDefinition

def read (room : Nat) : Parser VariableDefinition := do
  let position ← Parser.position
  punctuator '$'
  let name ← Parser.name
  punctuator ':'
  let type ← TypeRef.read room
  let default? ← whenSeen (.punctuator '=') (do punctuator '='; Value.read false room)
  return ⟨position, name, type, default?⟩

end VariableDefinition

namespace Definition

def readOperation (kind : OperationKind) : Parser Definition := do
  let position ← Parser.position
  keyword kind.word
  let name? ← (do
    match ← peek with
    | some (.name _) => some <$> Parser.name
    | _ => return none)
  let parameters ← optionalBracketed '(' ')' VariableDefinition.read maxDepth
  let directives ← Directive.readAll true maxDepth
  let selections ← Selection.readSet maxDepth
  return .operation ⟨position, kind, name?, parameters, directives, selections⟩

def readFragment : Parser Definition := do
  let position ← Parser.position
  keyword "fragment"
  let name ← Parser.name
  keyword "on"
  let condition ← Parser.name
  let directives ← Directive.readAll true maxDepth
  let selections ← Selection.readSet maxDepth
  return .fragment ⟨position, name, condition, directives, selections⟩

def readShorthand : Parser Definition := do
  let position ← Parser.position
  return .shorthand position (← Selection.readSet maxDepth)

def read : Parser Definition := do
  match ← peek with
  | some (.name "query") => readOperation .query
  | some (.name "mutation") => readOperation .mutation
  | some (.name "subscription") => readOperation .subscription
  | some (.name "fragment") => readFragment
  | _ => readShorthand

def parse (text : String) : Option (List Definition) := parseAll read text

end Definition

end QueryBindings
