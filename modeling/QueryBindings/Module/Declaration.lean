import QueryBindings.Module.Template
import QueryBindings.Module.TypeExpr
import QueryBindings.Shape.Leaf
import QueryBindings.Syntax.Executable
/-!
Declarations of the generated module, and their text.

A type declaration names a leaf's text, an object shape intersected with fragments, or alternatives.
An operation is exported as a function made from its document; a fragment's document is a constant
that only other documents use.
-/
namespace QueryBindings

structure Property where
  name : String
  optional : Bool
  type : TypeExpr
deriving DecidableEq

namespace Property

/-- The property that tells a union's member apart. -/
def typename (name : String) : Property := ⟨"__typename", false, .leaf (literalType name)⟩

def text (p : Property) : String :=
  "  " ++ p.name ++ (if p.optional then "?" else "") ++ ": " ++ p.type.text ++ "\n"

end Property

inductive DeclaredType
  | leaf (text : String)
  | object (fragments : List String) (properties : List Property)
  | alternatives (declarations : List String)
deriving DecidableEq

namespace DeclaredType

def propertiesText (properties : List Property) : String :=
  if properties.isEmpty then "\x7b\x7d"
  else "\x7b\n" ++ String.join (properties.map Property.text) ++ "\x7d"

def text : DeclaredType → String
  | leaf t => t
  | object fragments properties =>
    String.join (fragments.map (· ++ " & ")) ++ propertiesText properties
  | alternatives names => if names.isEmpty then "never" else String.intercalate " | " names

end DeclaredType

inductive Declaration
  | type (name : String) (body : DeclaredType)
  | operation (name : String) (kind : OperationKind) (input data : String)
      (document : Template)
  | fragment (name : String) (document : Template)
deriving DecidableEq

/-- The function that makes an operation of a kind from its document. -/
def OperationKind.definer : OperationKind → String
  | .query => "defineQuery"
  | .mutation => "defineMutation"
  | .subscription => "defineSubscription"

def Declaration.text : Declaration → String
  | type name body => "export type " ++ name ++ " = " ++ body.text ++ "\n"
  | operation name kind input data document =>
    "export const " ++ name ++ " = " ++ kind.definer ++ "<" ++ input ++ ", " ++ data ++ ">(" ++
      document.text ++ ")\n"
  | fragment name document =>
    "const " ++ Template.bindingName name ++ " = " ++ document.text ++ "\n"

end QueryBindings
