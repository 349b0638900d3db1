import QueryBindings.Bindings.Basic
import QueryBindings.Document.Basic
import QueryBindings.Shape.InputTypes
import QueryBindings.Shape.Selection
/-!
The bindings of each document by itself.

Operations need a name, a root type of their kind, and variables of input types; fragments need an
object type as their condition. The fragments recorded for an operation are those that its own
selections spread, until the files are linked.
-/
namespace QueryBindings

/-- The binding of one definition; an operation also asks for the input types of its variables. -/
inductive Extracted
  | operation (o : OperationBinding) (requests : List InputRequest)
  | fragment (f : FragmentBinding)

structure ExtractedFile where
  file : FileBindings
  requests : List InputRequest

namespace Scope

/-- The type condition of the fragments in documents; of several with one name the first counts. -/
def fragmentConditions (documents : List Document) : List (String × String) :=
  documents.flatMap fun d => d.definitions.filterMap fun
    | .fragment f => some (f.name, f.condition)
    | _ => none

/-- The object type that an operation starts from. -/
def rootObject (s : Scope) (kind : OperationKind) (name : String) (location : Location) :
    Except BindingError FieldedType :=
  if kind = .subscription ∧ s.config.subscriptions = false then
    .error (.disabledKind kind name location)
  else match s.schema.root? kind with
    | some t => .ok t
    | none => .error (.noRoot kind name location)

/-- The node of a variable, and the input type that it asks for. -/
def variableNode (s : Scope) (operation : String) (v : VariableDefinition) :
    Except BindingError (Node × Option InputRequest) := do
  let declared := TypeAnnotation.ofRef v.type
  let found ← s.schema.inputLeaf s.config .variable (s.locate v.position) declared
  return (.leaf ⟨v.name, [operation, "variables"], declared.modifiers, [], none⟩ found.type,
    found.request?)

def extractOperation (s : Scope) (o : OperationDefinition) (source : String) :
    Except BindingError Extracted := do
  let location := s.locate o.position
  match o.name? with
  | none => .error (.anonymousOperation o.kind location)
  | some name =>
    let root ← s.rootObject o.kind name location
    let parameters ← o.parameters.mapM (s.variableNode name)
    let selected ← s.selectOnObject root [name, "data"] o.selections
    let data := .object ⟨"data", [name], [], selected.fragments, none⟩ selected.nodes
    return .operation
      { name := name
        kind := o.kind
        location := location
        source := source
        fragments := Names.union [] data.fragmentNames
        input := .object (.plain [name] "variables") (parameters.map (·.1))
        data := data }
      (parameters.filterMap (·.2))

def conditionObject (s : Scope) (condition : String) (location : Location) :
    Except BindingError FieldedType :=
  match s.schema.find? condition with
  | some (.object t) => .ok t
  | some other => .error (.unsupportedType condition other.kind .fragmentCondition location)
  | none => .error (.undefinedType condition location)

def extractFragment (s : Scope) (f : FragmentDefinition) (source : String) :
    Except BindingError Extracted := do
  let location := s.locate f.position
  let t ← s.conditionObject f.condition location
  let selected ← s.selectOnObject t [f.name] f.selections
  return .fragment
    { name := f.name
      condition := f.condition
      location := location
      source := source
      fragments := selected.fragments
      fields := selected.nodes }

def extract (s : Scope) (d : Definition × String) : Except BindingError Extracted :=
  match d.1 with
  | .operation o => s.extractOperation o d.2
  | .fragment f => s.extractFragment f d.2
  | .shorthand p _ => .error (.shorthandOperation (s.locate p))

end Scope

namespace Extracted

def operation? : Extracted → Option OperationBinding
  | operation o _ => some o
  | fragment _ => none

def fragment? : Extracted → Option FragmentBinding
  | operation _ _ => none
  | fragment f => some f

def requests : Extracted → List InputRequest
  | operation _ r => r
  | fragment _ => []

end Extracted

namespace ExtractedFile

def ofExtracted (path : String) (parts : List Extracted) : ExtractedFile where
  file := ⟨path, parts.filterMap Extracted.fragment?, parts.filterMap Extracted.operation?⟩
  requests := parts.flatMap Extracted.requests

/-- The bindings of a document, next to documents whose fragments have the given conditions. -/
def ofDocument (schema : Schema) (config : Config) (conditions : List (String × String))
    (d : Document) : Except BindingError ExtractedFile := do
  let parts ← (d.definitions.zip d.definitionSources).mapM
    (Scope.extract ⟨schema, config, conditions, d.path⟩)
  return ofExtracted d.path parts

end ExtractedFile

end QueryBindings
