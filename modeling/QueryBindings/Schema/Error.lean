import QueryBindings.Files.Error
import QueryBindings.Schema.Types
import QueryBindings.Syntax.Executable
/-!
Why a schema can't be loaded or built.
-/
namespace QueryBindings

inductive SchemaError
  | duplicateEnumValue (enum value : String) (location : Location)
  | duplicateField (type field : String) (location : Location)
  | duplicateRoot (kind : OperationKind) (first second : Location)
  | duplicateType (name : String) (first second : Origin)
  | duplicateMember (union member : String) (location : Location)
  | extensionOfUndefined (type : String) (location : Location)
  | extensionOfOtherKind (type : String) (kind : TypeKind) (location : Location)
  | noQueryRoot
  | rootNotAnObject (operation : OperationKind) (type : String) (kind : TypeKind)
      (location : Location)
  | rootUndefined (operation : OperationKind) (type : String) (location : Location)
  | unreadable (reason : ReadError)
  | malformed (path : Option String)

namespace SchemaError

/-- The error's text.  What a malformed text violates is not told. -/
def message : SchemaError → String
  | duplicateEnumValue enum value l =>
    s!"Enum value `{enum}.{value}` is defined more than once ({l.text})"
  | duplicateField type field l => s!"Field `{type}.{field}` is defined more than once ({l.text})"
  | duplicateRoot kind first second =>
    s!"The {kind.word} root type is declared twice ({first.text} and {second.text})"
  | duplicateType name first second =>
    s!"Type `{name}` is defined more than once ({first.text} and {second.text})"
  | duplicateMember union member l =>
    s!"Union `{union}` lists member `{member}` more than once ({l.text})"
  | extensionOfUndefined type l => s!"Extension of undefined type `{type}` ({l.text})"
  | extensionOfOtherKind type kind l =>
    s!"Type `{type}` is a {kind.name} type and can't be extended this way ({l.text})"
  | noQueryRoot => "No query root type is defined in the schema"
  | rootNotAnObject operation type kind l =>
    s!"The {operation.word} root type `{type}` is a {kind.name} type, not an object type ({l.text})"
  | rootUndefined operation type l =>
    s!"The {operation.word} root type `{type}` is not defined ({l.text})"
  | unreadable reason => "Failure while trying to read a schema file from disk: " ++ reason.message
  | malformed none => "Error parsing schema: "
  | malformed (some path) => s!"Error parsing schema `{path}`: "

end SchemaError

end QueryBindings
