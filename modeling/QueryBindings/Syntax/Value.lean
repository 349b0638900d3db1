import QueryBindings.Decimal.Integer
import QueryBindings.Decimal.Shortest
import QueryBindings.Syntax.Parser
/-!
Values in GraphQL texts.

The fields of an object are kept in the order of their names, one for each name; of fields with one
name the last counts. A string is printed in quotes, and one that spans lines as a block string
indented below the line it stands on.
-/
namespace QueryBindings

inductive Value
  | variable (name : String)
  | int (value : Int)
  | float (value : Decimal.Binary64)
  | string (value : String)
  | boolean (value : Bool)
  | null
  | enum (name : String)
  | list (items : List Value)
  | object (fields : List (String × Value))

namespace Value

/-- Adds a field to fields in the order of their names, in place of one that has its name. -/
def insertField (name : String) (v : Value) : List (String × Value) → List (String × Value)
  | [] => [(name, v)]
  | (other, w) :: rest =>
    if name < other then (name, v) :: (other, w) :: rest
    else if name = other then (name, v) :: rest
    else (other, w) :: insertField name v rest

/-- An object with the given fields as written. -/
def ofFields (fields : List (String × Value)) : Value :=
  .object (fields.foldl (fun sorted f => insertField f.1 f.2 sorted) [])

def ofName : String → Value
  | "true" => boolean true
  | "false" => boolean false
  | "null" => null
  | name => enum name

/-- Reads a value that is neither a list nor an object. -/
def readSimple (allowVariables : Bool) : Parser Value := do
  if ← Parser.seesPunctuator '$' then
    if allowVariables then
      Parser.punctuator '$'
      return .variable (← Parser.name)
    else failure
  else Parser.take fun
    | .int v => some (int v)
    | .float v => some (float v)
    | .string v => some (string v)
    | .name text => some (ofName text)
    | _ => none

def readField (value : Parser Value) : Parser (String × Value) := do
  let name ← Parser.name
  Parser.punctuator ':'
  return (name, ← value)

/-- Reads a value; `allowVariables` says whether it may contain variables. -/
def read (allowVariables : Bool) : Nat → Parser Value
  | 0 => readSimple allowVariables
  | room + 1 => do
    if ← Parser.seesPunctuator '[' then
      Parser.punctuator '['
      return .list (← Parser.itemsUntil ']' (read allowVariables room))
    else if ← Parser.seesPunctuator '\x7b' then
      Parser.punctuator '\x7b'
      return ofFields (← Parser.itemsUntil '\x7d' (readField (read allowVariables room)))
    else readSimple allowVariables

end Value

namespace Printing

def indentation (n : Nat) : String := String.ofList (List.replicate n ' ')

def isPrintable (c : Char) : Bool :=
  c = '\n' || c = '\r' || c = '\t' || (' ' ≤ c && c.toNat ≤ 0xFFFF)

def fourPlaces (n : Nat) : List Char :=
  let digits := Nat.toDigits 10 n
  List.replicate (4 - digits.length) '0' ++ digits

def escapedChar (c : Char) : List Char :=
  if c = '\r' then ['\\', 'r']
  else if c = '\n' then ['\\', 'n']
  else if c = '\t' then ['\\', 't']
  else if c = '"' then ['\\', '"']
  else if c = '\\' then ['\\', '\\']
  else if isPrintable c then [c]
  else '\\' :: 'u' :: fourPlaces c.toNat

def quotedString (s : String) : String :=
  String.ofList ('"' :: s.toList.flatMap escapedChar ++ ['"'])

/-- One line of a block string; a blank line is left empty. -/
def blockLine (indent : Nat) (line : List Char) : String :=
  if Text.allBlank line then "\n"
  else indentation indent ++
    String.ofList (Text.replaceAll ['"', '"', '"'] ['\\', '"', '"', '"'] line) ++ "\n"

def blockString (indent : Nat) (s : String) : String :=
  "\"\"\"\n" ++ String.join ((Text.lines s.toList).map (blockLine (indent + 2))) ++
    indentation indent ++ "\"\"\""

def string (indent : Nat) (s : String) : String :=
  if s.toList.contains '\n' && s.toList.all isPrintable then blockString indent s
  else quotedString s

end Printing

namespace Value

mutual

def text (indent : Nat) : Value → String
  | .variable name => "$" ++ name
  | .int v => Decimal.integer v
  | .float v => v.text
  | .string s => Printing.string indent s
  | .boolean true => "true"
  | .boolean false => "false"
  | .null => "null"
  | .enum name => name
  | .list items => "[" ++ String.intercalate ", " (itemTexts indent items) ++ "]"
  | .object fields => "\x7b" ++ String.intercalate ", " (fieldTexts indent fields) ++ "\x7d"

def itemTexts (indent : Nat) : List Value → List String
  | [] => []
  | v :: rest => v.text indent :: itemTexts indent rest

def fieldTexts (indent : Nat) : List (String × Value) → List String
  | [] => []
  | (name, v) :: rest => (name ++ ": " ++ v.text indent) :: fieldTexts indent rest

end

end Value

end QueryBindings
