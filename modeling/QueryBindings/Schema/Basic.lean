import QueryBindings.Schema.Types
import QueryBindings.Syntax.Executable
/-!
A schema: its types, and the names of the types that operations start from.
-/
namespace QueryBindings

structure Schema where
  query : String
  mutation : Option String
  subscription : Option String
  types : List SchemaType
deriving DecidableEq

namespace Schema

def find? (s : Schema) (name : String) : Option SchemaType := SchemaType.find? s.types name

def object? (s : Schema) (name : String) : Option FieldedType :=
  match s.find? name with
  | some (.object t) => some t
  | _ => none

def inputObject? (s : Schema) (name : String) : Option FieldedType :=
  match s.find? name with
  | some (.inputObject t) => some t
  | _ => none

def rootName? (s : Schema) : OperationKind → Option String
  | .query => some s.query
  | .mutation => s.mutation
  | .subscription => s.subscription

def root? (s : Schema) (kind : OperationKind) : Option FieldedType :=
  (s.rootName? kind).bind s.object?

def sortedTypes (s : Schema) : List SchemaType := s.types.mergeSort fun a b => a.name ≤ b.name

end Schema

end QueryBindings
