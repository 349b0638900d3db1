import QueryBindings.Syntax.Executable
/-!
The canonical text of executable definitions.

Every selection has a line of its own, indented two spaces deeper than the line that opens its
braces. The variables of a subscription are written one after the other and only behind its name;
those of the other operations have commas between them.
-/
namespace QueryBindings

open Printing (indentation)

def Argument.text (indent : Nat) (a : Argument) : String := a.1 ++ ": " ++ a.2.text indent

/-- Arguments in brackets, or nothing. -/
def Argument.listText (indent : Nat) (arguments : List Argument) : String :=
  if arguments.isEmpty then ""
  else "(" ++ String.intercalate ", " (arguments.map (Argument.text indent)) ++ ")"

namespace Directive

def text (indent : Nat) (d : Directive) : String :=
  " @" ++ d.name ++ Argument.listText indent d.arguments

def listText (indent : Nat) (directives : List Directive) : String :=
  String.join (directives.map (text indent))

end Directive

namespace Selection

/-- Lines in braces behind the text that opens them, or the end of its line. -/
def block (indent : Nat) (lines : List String) : String :=
  if lines.isEmpty then "\n"
  else " \x7b\n" ++ String.join lines ++ indentation indent ++ "\x7d\n"

mutual

def text (indent : Nat) : Selection → String
  | .field _ alias? name arguments directives selections =>
    indentation indent ++ (alias?.elim "" (· ++ ": ")) ++ name ++
      Argument.listText indent arguments ++ Directive.listText indent directives ++
      block indent (texts (indent + 2) selections)
  | .spread _ fragment directives =>
    indentation indent ++ "..." ++ fragment ++ Directive.listText indent directives ++ "\n"
  | .inline _ condition? directives selections =>
    indentation indent ++ "..." ++ (condition?.elim "" (" on " ++ ·)) ++
      Directive.listText indent directives ++ block indent (texts (indent + 2) selections)

def texts (indent : Nat) : List Selection → List String
  | [] => []
  | s :: rest => s.text indent :: texts indent rest

end

end Selection

namespace VariableDefinition

def text (v : VariableDefinition) : String :=
  "$" ++ v.name ++ ": " ++ v.type.text ++ v.default?.elim "" (" = " ++ ·.text 0)

end VariableDefinition

namespace OperationDefinition

def signature (o : OperationDefinition) : String :=
  let parameters := o.parameters.map VariableDefinition.text
  let inBrackets (separator : String) : String :=
    if parameters.isEmpty then "" else "(" ++ String.intercalate separator parameters ++ ")"
  match o.kind, o.name? with
  | .subscription, none => ""
  | .subscription, some name => " " ++ name ++ inBrackets ""
  | _, name? => name?.elim "" (" " ++ ·) ++ inBrackets ", "

end OperationDefinition

namespace Definition

def text : Definition → String
  | operation o =>
    o.kind.word ++ o.signature ++ Directive.listText 0 o.directives ++
      Selection.block 0 (Selection.texts 2 o.selections)
  | fragment f =>
    "fragment " ++ f.name ++ " on " ++ f.condition ++ Directive.listText 0 f.directives ++
      Selection.block 0 (Selection.texts 2 f.selections)
  | shorthand _ selections => "\x7b\n" ++ String.join (Selection.texts 2 selections) ++ "\x7d\n"

end Definition

end QueryBindings
