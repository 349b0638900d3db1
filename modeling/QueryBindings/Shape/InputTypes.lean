import QueryBindings.Search
import QueryBindings.Shape.Error
import QueryBindings.Shape.Leaf
import QueryBindings.Shape.Node
/-!
The input object types that variables need, directly or through the fields of other input objects.

Each type is declared once, in the order in which a breadth-first search from the requested types
finds them. The fields of a declaration are leaves: scalars, enums, and names of input objects.
-/
namespace QueryBindings

structure InputRequest where
  type : String
  location : Location
deriving DecidableEq

structure InputLeaf where
  type : String
  request? : Option InputRequest

/-- The leaf for a type that input is to have. -/
def SchemaType.inputLeaf (config : Config) (use : TypeUse) (location : Location)
    (t : SchemaType) : Except BindingError InputLeaf :=
  match t with
  | .inputObject i => .ok ⟨i.name, some ⟨i.name, location⟩⟩
  | other =>
    match other.leafType? config with
    | some type => .ok ⟨type, none⟩
    | none => .error (.unsupportedType other.name other.kind use location)

namespace Schema

def inputLeaf (s : Schema) (config : Config) (use : TypeUse) (location : Location)
    (declared : TypeAnnotation) : Except BindingError InputLeaf :=
  match s.find? declared.baseName with
  | none => .error (.undefinedType declared.baseName location)
  | some t => t.inputLeaf config use location

end Schema

namespace FieldedType

def inputField (s : Schema) (config : Config) (t : FieldedType) (f : Field) :
    Except BindingError (Node × Option InputRequest) := do
  let found ← s.inputLeaf config .inputField f.location f.type
  return (.leaf ⟨f.name, [t.name], f.type.modifiers, [], none⟩ found.type, found.request?)

/-- The declaration of an input object type, and the requests that its fields make. -/
def inputDeclaration (s : Schema) (config : Config) (t : FieldedType) :
    Except BindingError (Node × List InputRequest) := do
  let fields ← t.fields.mapM (t.inputField s config)
  return (.object (.plain [] t.name) (fields.map (·.1)), fields.filterMap (·.2))

end FieldedType

namespace InputRequest

def expand (s : Schema) (config : Config) (r : InputRequest) (t : SchemaType) :
    Except BindingError (Node × List InputRequest) :=
  match t with
  | .inputObject i => i.inputDeclaration s config
  | other => .error (.unsupportedType r.type other.kind .variable r.location)

def search (s : Schema) (config : Config) : Search InputRequest SchemaType Node BindingError where
  table := s.types.map fun t => (t.name, t)
  name := InputRequest.type
  missing r := .undefinedType r.type r.location
  expand := expand s config

/-- One declaration for each type that is reached from the requests. -/
def declarations (s : Schema) (config : Config) (requests : List InputRequest) :
    Except BindingError (List Node) := do
  return ((← (search s config).run requests).map (·.2))

end InputRequest

end QueryBindings
