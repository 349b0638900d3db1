import QueryBindings.Syntax.TypeSystem
import QueryBindings.Syntax.Executable.Parser
/-!
Reading type system definitions.

A type's body may be left out but not be empty, and an extension must add something. A `schema`
block names each root at most once and may be empty.
-/
namespace QueryBindings.TypeSystem

open QueryBindings.Parser

def skipDescription : Parser Unit := do
  match ← peek with
  | some (.string _) => take (fun _ => some ())
  | _ => return ()

/-- Reads directives and tells whether there are any. -/
def readDirectives (room : Nat) : Parser Bool := do
  return !(← Directive.readAll true room).isEmpty

def skipDefault (room : Nat) : Parser Unit := do
  let _ ← whenSeen (.punctuator '=') (do punctuator '='; Value.read false room)

def readInputValue (room : Nat) : Parser FieldSyntax := do
  let position ← Parser.position
  skipDescription
  let name ← Parser.name
  punctuator ':'
  let type ← TypeRef.read room
  skipDefault room
  let _ ← readDirectives room
  return ⟨position, name, type⟩

def readField (room : Nat) : Parser FieldSyntax := do
  let position ← Parser.position
  skipDescription
  let name ← Parser.name
  let _ ← optionalBracketed '(' ')' readInputValue room
  punctuator ':'
  let type ← TypeRef.read room
  let _ ← readDirectives room
  return ⟨position, name, type⟩

def readEnumValue (room : Nat) : Parser EnumValueSyntax := do
  let position ← Parser.position
  skipDescription
  let name ← Parser.name
  let _ ← readDirectives room
  return ⟨position, name⟩

/-- Reads the list of implemented interfaces and tells whether there is one. -/
def readInterfaces : Parser Bool := do
  let names ← whenSeen (.name "implements") (do keyword "implements"; separatedBy '&' Parser.name)
  return names.isSome

def readFields (item : Nat → Parser FieldSyntax) : Parser (List FieldSyntax) :=
  optionalBracketed '\x7b' '\x7d' item maxDepth

/-- What is read of a type: its syntax, and whether it says anything beyond its name. -/
structure TypeReading where
  type : TypeSyntax
  adds : Bool

def readScalar : Parser TypeReading := do
  let position ← Parser.position
  keyword "scalar"
  let name ← Parser.name
  let directives ← readDirectives maxDepth
  return ⟨⟨position, name, .scalar⟩, directives⟩

def readObject : Parser TypeReading := do
  let position ← Parser.position
  keyword "type"
  let name ← Parser.name
  let interfaces ← readInterfaces
  let directives ← readDirectives maxDepth
  let fields ← readFields readField
  return ⟨⟨position, name, .object fields⟩, interfaces || directives || !fields.isEmpty⟩

def readInterface : Parser TypeReading := do
  let position ← Parser.position
  keyword "interface"
  let name ← Parser.name
  let _ ← readInterfaces
  let directives ← readDirectives maxDepth
  let fields ← readFields readField
  return ⟨⟨position, name, .interface fields⟩, directives || !fields.isEmpty⟩

def readUnion : Parser TypeReading := do
  let position ← Parser.position
  keyword "union"
  let name ← Parser.name
  let directives ← readDirectives maxDepth
  let members ← whenSeen (.punctuator '=') (do punctuator '='; separatedBy '|' Parser.name)
  return ⟨⟨position, name, .union (members.getD [])⟩, directives || members.isSome⟩

def readEnum : Parser TypeReading := do
  let position ← Parser.position
  keyword "enum"
  let name ← Parser.name
  let directives ← readDirectives maxDepth
  let values ← optionalBracketed '\x7b' '\x7d' readEnumValue maxDepth
  return ⟨⟨position, name, .enum values⟩, directives || !values.isEmpty⟩

def readInputObject : Parser TypeReading := do
  let position ← Parser.position
  keyword "input"
  let name ← Parser.name
  let directives ← readDirectives maxDepth
  let fields ← readFields readInputValue
  return ⟨⟨position, name, .inputObject fields⟩, directives || !fields.isEmpty⟩

def readType : Parser TypeReading := do
  match ← peek with
  | some (.name "scalar") => readScalar
  | some (.name "type") => readObject
  | some (.name "interface") => readInterface
  | some (.name "union") => readUnion
  | some (.name "enum") => readEnum
  | some (.name "input") => readInputObject
  | _ => failure

def directiveLocations : List String :=
  ["QUERY", "MUTATION", "SUBSCRIPTION", "FIELD", "FRAGMENT_DEFINITION", "FRAGMENT_SPREAD",
    "INLINE_FRAGMENT", "VARIABLE_DEFINITION", "SCHEMA", "SCALAR", "OBJECT", "FIELD_DEFINITION",
    "ARGUMENT_DEFINITION", "INTERFACE", "UNION", "ENUM", "ENUM_VALUE", "INPUT_OBJECT",
    "INPUT_FIELD_DEFINITION"]

def readDirectiveLocation : Parser Unit :=
  take fun
    | .name text => if directiveLocations.contains text then some () else none
    | _ => none

/-- Reads a directive's definition, whose list of locations may be empty. -/
def readDirectiveDefinition : Parser Definition := do
  keyword "directive"
  punctuator '@'
  let _ ← Parser.name
  let _ ← optionalBracketed '(' ')' readInputValue maxDepth
  let _ ← whenSeen (.name "repeatable") (keyword "repeatable")
  keyword "on"
  match ← peek with
  | some (.name _) | some (.punctuator '|') =>
    let _ ← separatedBy '|' readDirectiveLocation
  | _ => pure ()
  return .directive

def readRoot : Parser (OperationKind × String) := do
  let kind ← take fun
    | .name "query" => some OperationKind.query
    | .name "mutation" => some OperationKind.mutation
    | .name "subscription" => some OperationKind.subscription
    | _ => none
  punctuator ':'
  return (kind, ← Parser.name)

/-- The block with the given entries, unless two of them are for one kind. -/
def rootsOfEntries? (position : Position) (entries : List (OperationKind × String)) :
    Option RootsSyntax :=
  if (entries.map (·.1)).Nodup then
    some ⟨position, entries.lookup .query, entries.lookup .mutation, entries.lookup .subscription⟩
  else none

def readRoots : Parser Definition := do
  let position ← Parser.position
  keyword "schema"
  let _ ← readDirectives maxDepth
  punctuator '\x7b'
  let entries ← itemsUntil '\x7d' readRoot
  match rootsOfEntries? position entries with
  | some roots => return .roots roots
  | none => failure

def readExtension : Parser Definition := do
  keyword "extend"
  let reading ← readType
  if reading.adds then return .extension reading.type else failure

def readDescribed : Parser Definition := do
  skipDescription
  match ← peek with
  | some (.name "directive") => readDirectiveDefinition
  | _ => return .type (← readType).type

def Definition.read : Parser Definition := do
  match ← peek with
  | some (.name "schema") => readRoots
  | some (.name "extend") => readExtension
  | _ => readDescribed

def Definition.parse (text : String) : Option (List Definition) := parseAll Definition.read text

end QueryBindings.TypeSystem
