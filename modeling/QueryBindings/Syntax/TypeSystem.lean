import QueryBindings.Syntax.TypeRef
/-!
Type system definitions as they are written, as far as bindings depend on them: descriptions,
arguments, directives and implemented interfaces leave no trace.

Definitions stand at their keyword, and an extension at the keyword after `extend`. Fields and enum
values stand at their description if they have one.
-/
namespace QueryBindings.TypeSystem

structure FieldSyntax where
  position : Position
  name : String
  type : TypeRef
deriving DecidableEq

structure EnumValueSyntax where
  position : Position
  name : String
deriving DecidableEq

inductive TypeBody
  | scalar
  | object (fields : List FieldSyntax)
  | interface (fields : List FieldSyntax)
  | union (members : List String)
  | enum (values : List EnumValueSyntax)
  | inputObject (fields : List FieldSyntax)
deriving DecidableEq

structure TypeSyntax where
  position : Position
  name : String
  body : TypeBody
deriving DecidableEq

structure RootsSyntax where
  position : Position
  query : Option String
  mutation : Option String
  subscription : Option String
deriving DecidableEq

inductive Definition
  | roots (r : RootsSyntax)
  | type (t : TypeSyntax)
  | extension (t : TypeSyntax)
  | directive
deriving DecidableEq

end QueryBindings.TypeSystem
