import QueryBindings.Schema.Location
import QueryBindings.Schema.TypeAnnotation
/-!
The types that a schema holds.

Objects, interfaces and input objects have fields, in the order in which they were defined. Every
type knows its own name, so a schema is a list of types in which names are looked up.
-/
namespace QueryBindings

inductive Builtin
  | boolean
  | float
  | id
  | int
  | string
deriving DecidableEq

def Builtin.name : Builtin → String
  | .boolean => "Boolean"
  | .float => "Float"
  | .id => "ID"
  | .int => "Int"
  | .string => "String"

/-- A field; `location` is where its type is written. -/
structure Field where
  name : String
  origin : Origin
  type : TypeAnnotation
  location : Location
deriving DecidableEq

/-- What objects, interfaces and input objects have in common. -/
structure FieldedType where
  name : String
  location : Location
  fields : List Field
deriving DecidableEq

structure EnumValue where
  name : String
  location : Location
deriving DecidableEq

structure EnumType where
  name : String
  location : Location
  values : List EnumValue
deriving DecidableEq

structure UnionType where
  name : String
  location : Location
  members : List String
deriving DecidableEq

inductive SchemaType
  | builtin (b : Builtin)
  | scalar (name : String) (location : Location)
  | object (t : FieldedType)
  | interface (t : FieldedType)
  | union (t : UnionType)
  | enum (t : EnumType)
  | inputObject (t : FieldedType)
deriving DecidableEq

/-- The kinds of types; each builtin is a kind of its own. -/
inductive TypeKind
  | builtin (b : Builtin)
  | scalar
  | object
  | interface
  | union
  | enum
  | inputObject
deriving DecidableEq

def TypeKind.name : TypeKind → String
  | .builtin b => b.name
  | .scalar => "Scalar"
  | .object => "Object"
  | .interface => "Interface"
  | .union => "Union"
  | .enum => "Enum"
  | .inputObject => "InputObject"

namespace FieldedType

def field? (t : FieldedType) (name : String) : Option Field := t.fields.find? (·.name == name)

end FieldedType

namespace SchemaType

def name : SchemaType → String
  | builtin b => b.name
  | scalar n _ => n
  | object t => t.name
  | interface t => t.name
  | union t => t.name
  | enum t => t.name
  | inputObject t => t.name

def kind : SchemaType → TypeKind
  | builtin b => .builtin b
  | scalar _ _ => .scalar
  | object _ => .object
  | interface _ => .interface
  | union _ => .union
  | enum _ => .enum
  | inputObject _ => .inputObject

def origin : SchemaType → Origin
  | builtin _ => .builtin
  | scalar _ l => .at l
  | object t => .at t.location
  | interface t => .at t.location
  | union t => .at t.location
  | enum t => .at t.location
  | inputObject t => .at t.location

def find? (types : List SchemaType) (name : String) : Option SchemaType :=
  types.find? (·.name == name)

theorem name_of_find?_eq_some {types : List SchemaType} {n : String} {t : SchemaType}
    (h : find? types n = some t) : t.name = n := by
  simpa using List.find?_some h

theorem mem_of_find?_eq_some {types : List SchemaType} {n : String} {t : SchemaType}
    (h : find? types n = some t) : t ∈ types := List.mem_of_find?_eq_some h

def builtins : List SchemaType :=
  [.builtin .boolean, .builtin .float, .builtin .id, .builtin .int, .builtin .string]

end SchemaType

end QueryBindings
