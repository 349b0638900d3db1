import QueryBindings.Shape.Error
import QueryBindings.Shape.Node
/-!
Bindings: what is generated for the documents of one run, before it is written as text.
-/
namespace QueryBindings

/-- A fragment: its shape's fields, and the fragments spread directly into it. -/
structure FragmentBinding where
  name : String
  condition : String
  location : Location
  source : String
  fragments : List String
  fields : List Node

/-- An operation: the shapes of its variables and its data, and the fragments that its document
needs. -/
structure OperationBinding where
  name : String
  kind : OperationKind
  location : Location
  source : String
  fragments : List String
  input : Node
  data : Node

structure FileBindings where
  path : String
  fragments : List FragmentBinding
  operations : List OperationBinding

structure Bindings where
  files : List FileBindings
  inputTypes : List Node

namespace FragmentBinding

/-- The names of the fragments that a fragment spreads, at any depth. -/
def spreads (f : FragmentBinding) : List String :=
  Names.union f.fragments (Node.fragmentNamesOf f.fields)

def declarations (f : FragmentBinding) : List String := f.name :: Node.declarationsOf f.fields

end FragmentBinding

namespace OperationBinding

/-- The names of the fragments that an operation's own selections spread, at any depth. -/
def spreads (o : OperationBinding) : List String := Names.union [] o.data.fragmentNames

def declarations (o : OperationBinding) : List String :=
  o.input.declarations ++ o.data.declarations

end OperationBinding

namespace Bindings

def fragmentCount (b : Bindings) : Nat := (b.files.flatMap (·.fragments)).length

def operationCount (b : Bindings) : Nat := (b.files.flatMap (·.operations)).length

end Bindings

end QueryBindings
