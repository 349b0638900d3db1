import QueryBindings.Syntax.TypeRef
import QueryBindings.Syntax.Value
/-!
Executable definitions: operations and fragments, and the selections in them.

A field, a variable and a definition stand at their first token. A spread and an inline fragment
stand at the token after the three dots.
-/
namespace QueryBindings

inductive OperationKind
  | query
  | mutation
  | subscription
deriving DecidableEq

def OperationKind.word : OperationKind → String
  | .query => "query"
  | .mutation => "mutation"
  | .subscription => "subscription"

abbrev Argument := String × Value

structure Directive where
  name : String
  arguments : List Argument

inductive Selection
  | field (position : Position) (alias? : Option String) (name : String)
      (arguments : List Argument) (directives : List Directive) (selections : List Selection)
  | spread (position : Position) (fragment : String) (directives : List Directive)
  | inline (position : Position) (condition? : Option String) (directives : List Directive)
      (selections : List Selection)

structure VariableDefinition where
  position : Position
  name : String
  type : TypeRef
  default? : Option Value

structure OperationDefinition where
  position : Position
  kind : OperationKind
  name? : Option String
  parameters : List VariableDefinition
  directives : List Directive
  selections : List Selection

structure FragmentDefinition where
  position : Position
  name : String
  condition : String
  directives : List Directive
  selections : List Selection

inductive Definition
  | operation (o : OperationDefinition)
  | fragment (f : FragmentDefinition)
  | shorthand (position : Position) (selections : List Selection)

namespace Definition

def position : Definition → Position
  | operation o => o.position
  | fragment f => f.position
  | shorthand p _ => p

end Definition

end QueryBindings
