import QueryBindings.Schema.Types
import QueryBindings.Syntax.Executable
/-!
Why no bindings can be generated for documents.
-/
namespace QueryBindings

inductive TypeUse
  | fragmentCondition
  | inputField
  | responseField
  | variable
deriving DecidableEq

def TypeUse.description : TypeUse → String
  | fragmentCondition => "fragment type condition"
  | inputField => "input field"
  | responseField => "response field"
  | .variable => "variable"

/-- The selections that a selection set may be unable to hold. -/
inductive SelectionKind
  | field
  | inlineFragment
deriving DecidableEq

def SelectionKind.description : SelectionKind → String
  | field => "field"
  | inlineFragment => "inline fragment"

inductive BindingError
  | duplicateName (name : String) (first second : Location)
  | noRoot (kind : OperationKind) (operation : String) (location : Location)
  | undefinedField (type field : String) (location : Location)
  | undefinedFragment (fragment usedBy : String)
  | disabledKind (kind : OperationKind) (operation : String) (location : Location)
  | undefinedType (type : String) (location : Location)
  | shorthandOperation (location : Location)
  | anonymousOperation (kind : OperationKind) (location : Location)
  | unsupportedSelection (kind : SelectionKind) (type : String) (location : Location)
  | unsupportedType (type : String) (kind : TypeKind) (use : TypeUse) (location : Location)
deriving DecidableEq

namespace BindingError

def message : BindingError → String
  | duplicateName name first second =>
    s!"`{name}` is defined more than once ({first.text} and {second.text})"
  | noRoot kind operation l =>
    s!"The schema defines no {kind.word} root type for operation `{operation}` ({l.text})"
  | undefinedField type field l => s!"Type `{type}` has no field named `{field}` ({l.text})"
  | undefinedFragment fragment usedBy =>
    s!"`{usedBy}` spreads fragment `{fragment}`, which is not defined in any document"
  | disabledKind kind operation l =>
    s!"{kind.word} operations are not supported by this generator configuration " ++
      s!"(`{operation}` at {l.text})"
  | undefinedType type l => s!"Type `{type}` is not defined in the schema ({l.text})"
  | shorthandOperation l =>
    "Unsupported definition: shorthand query operations have no name to generate declarations " ++
      s!"under ({l.text})"
  | anonymousOperation kind l =>
    s!"Unsupported definition: anonymous {kind.word} operation ({l.text})"
  | unsupportedSelection kind type l =>
    s!"Unsupported {kind.description} in a selection set on `{type}` ({l.text})"
  | unsupportedType type kind use l =>
    s!"Type `{type}` ({kind.name}) can't be used as a {use.description} ({l.text})"

end BindingError

end QueryBindings
