import QueryBindings.Schema.Basic
import QueryBindings.Schema.Error
import QueryBindings.Syntax.TypeSystem.Parser
/-!
Building a schema from any number of texts.

Definitions take effect when they are loaded. Extensions are kept until the schema is built and are
then merged in the order in which they were loaded, so an extension may come before the type that it
extends. A load that fails keeps what it has defined so far.

Every object and interface type has the field `__typename: String!` before its own fields.
-/
namespace QueryBindings

open TypeSystem (TypeSyntax FieldSyntax EnumValueSyntax)

/-- A root that a `schema` block names. -/
structure RootDefinition where
  type : String
  location : Location
deriving DecidableEq

structure SchemaBuilder where
  query : Option RootDefinition
  mutation : Option RootDefinition
  subscription : Option RootDefinition
  types : List SchemaType
  extensions : List (Option String × TypeSyntax)
deriving DecidableEq

/-- The field that every object and interface type starts with. -/
def Field.typename (location : Location) : Field :=
  ⟨"__typename", .builtin, .named "String" false, location⟩

def Field.ofSyntax (path : Option String) (f : FieldSyntax) : Field :=
  let location := .ofPosition path f.position
  ⟨f.name, .at location, .ofRef f.type, location⟩

namespace FieldedType

def addFields (path : Option String) (t : FieldedType) :
    List FieldSyntax → Except SchemaError FieldedType
  | [] => .ok t
  | f :: rest =>
    if (t.field? f.name).isSome then
      .error (.duplicateField t.name f.name (.ofPosition path f.position))
    else addFields path { t with fields := t.fields ++ [Field.ofSyntax path f] } rest

end FieldedType

namespace EnumType

def addValues (path : Option String) (t : EnumType) :
    List EnumValueSyntax → Except SchemaError EnumType
  | [] => .ok t
  | v :: rest =>
    let location := .ofPosition path v.position
    if t.values.any (·.name == v.name) then .error (.duplicateEnumValue t.name v.name location)
    else addValues path { t with values := t.values ++ [⟨v.name, location⟩] } rest

end EnumType

namespace UnionType

def addMembers (location : Location) (t : UnionType) :
    List String → Except SchemaError UnionType
  | [] => .ok t
  | m :: rest =>
    if t.members.contains m then .error (.duplicateMember t.name m location)
    else addMembers location { t with members := t.members ++ [m] } rest

end UnionType

namespace SchemaType

/-- The type that a definition stands for. -/
def ofSyntax (path : Option String) (t : TypeSyntax) : Except SchemaError SchemaType :=
  let location := .ofPosition path t.position
  match t.body with
  | .scalar => .ok (.scalar t.name location)
  | .object fields =>
    (FieldedType.addFields path ⟨t.name, location, [.typename location]⟩ fields).map .object
  | .interface fields =>
    (FieldedType.addFields path ⟨t.name, location, [.typename location]⟩ fields).map .interface
  | .union members => (UnionType.addMembers location ⟨t.name, location, []⟩ members).map .union
  | .enum values => (EnumType.addValues path ⟨t.name, location, []⟩ values).map .enum
  | .inputObject fields =>
    (FieldedType.addFields path ⟨t.name, location, []⟩ fields).map .inputObject

/-- The type with the additions of an extension, which must be of the type's kind. -/
def extend (path : Option String) (extension : TypeSyntax) (t : SchemaType) :
    Except SchemaError SchemaType :=
  let location := .ofPosition path extension.position
  match t, extension.body with
  | .scalar name at_, .scalar => .ok (.scalar name at_)
  | .object o, .object fields => (o.addFields path fields).map .object
  | .interface i, .interface fields => (i.addFields path fields).map .interface
  | .union u, .union members => (u.addMembers location members).map .union
  | .enum e, .enum values => (e.addValues path values).map .enum
  | .inputObject i, .inputObject fields => (i.addFields path fields).map .inputObject
  | t, _ => .error (.extensionOfOtherKind extension.name t.kind location)

def mergeExtension (types : List SchemaType) (extension : Option String × TypeSyntax) :
    Except SchemaError (List SchemaType) :=
  let (path, e) := extension
  match find? types e.name with
  | none => .error (.extensionOfUndefined e.name (.ofPosition path e.position))
  | some t => do
    let extended ← t.extend path e
    return types.map fun other => if other.name = e.name then extended else other

end SchemaType

namespace SchemaBuilder

def empty : SchemaBuilder := ⟨none, none, none, SchemaType.builtins, []⟩

def root? (b : SchemaBuilder) : OperationKind → Option RootDefinition
  | .query => b.query
  | .mutation => b.mutation
  | .subscription => b.subscription

def setRoot (b : SchemaBuilder) (kind : OperationKind) (root : RootDefinition) : SchemaBuilder :=
  match kind with
  | .query => { b with query := some root }
  | .mutation => { b with mutation := some root }
  | .subscription => { b with subscription := some root }

def nameRoot (b : SchemaBuilder) (location : Location) (kind : OperationKind)
    (type : Option String) : Except SchemaError SchemaBuilder :=
  match type, b.root? kind with
  | none, _ => .ok b
  | some name, none => .ok (b.setRoot kind ⟨name, location⟩)
  | some _, some existing => .error (.duplicateRoot kind existing.location location)

/-- What a step leaves behind: the builder, and the reason why the step stopped short. -/
abbrev Step := SchemaBuilder × Option SchemaError

/-- Names one root after the other and stops at the first that has been named before. -/
def nameRoots (b : SchemaBuilder) (location : Location) :
    List (OperationKind × Option String) → Step
  | [] => (b, none)
  | (kind, type) :: rest =>
    match b.nameRoot location kind type with
    | .ok b => b.nameRoots location rest
    | .error e => (b, some e)

def addType (b : SchemaBuilder) (t : SchemaType) : Except SchemaError SchemaBuilder :=
  match SchemaType.find? b.types t.name with
  | some other => .error (.duplicateType t.name other.origin t.origin)
  | none => .ok { b with types := b.types ++ [t] }

def define (b : SchemaBuilder) (path : Option String) : TypeSystem.Definition → Step
  | .roots r =>
    b.nameRoots (.ofPosition path r.position)
      [(.query, r.query), (.mutation, r.mutation), (.subscription, r.subscription)]
  | .type t =>
    match SchemaType.ofSyntax path t >>= b.addType with
    | .ok b => (b, none)
    | .error e => (b, some e)
  | .extension t => ({ b with extensions := b.extensions ++ [(path, t)] }, none)
  | .directive => (b, none)

def defineAll (b : SchemaBuilder) (path : Option String) :
    List TypeSystem.Definition → Step
  | [] => (b, none)
  | d :: rest =>
    match b.define path d with
    | (b, none) => b.defineAll path rest
    | (b, some e) => (b, some e)

def load (b : SchemaBuilder) (path : Option String) (text : String) : Step :=
  match TypeSystem.Definition.parse text with
  | some definitions => b.defineAll path definitions
  | none => (b, some (.malformed path))

def defaultRootName : OperationKind → String
  | .query => "Query"
  | .mutation => "Mutation"
  | .subscription => "Subscription"

/-- The root of a kind: the named type, which must be an object, else the object type with the
default name, if there is one. -/
def resolveRoot (b : SchemaBuilder) (types : List SchemaType) (kind : OperationKind) :
    Except SchemaError (Option String) :=
  match b.root? kind with
  | some root =>
    match SchemaType.find? types root.type with
    | some (.object _) => .ok (some root.type)
    | some other => .error (.rootNotAnObject kind root.type other.kind root.location)
    | none => .error (.rootUndefined kind root.type root.location)
  | none =>
    match SchemaType.find? types (defaultRootName kind) with
    | some (.object _) => .ok (some (defaultRootName kind))
    | _ => .ok none

def build (b : SchemaBuilder) : Except SchemaError Schema := do
  let types ← b.extensions.foldlM SchemaType.mergeExtension b.types
  match ← b.resolveRoot types .query with
  | none => .error .noQueryRoot
  | some query =>
    let mutation ← b.resolveRoot types .mutation
    let subscription ← b.resolveRoot types .subscription
    return ⟨query, mutation, subscription, types⟩

end SchemaBuilder

namespace Schema

def ofTexts (texts : List (Option String × String)) : Except SchemaError Schema :=
  go .empty texts
where
  go (b : SchemaBuilder) : List (Option String × String) → Except SchemaError Schema
    | [] => b.build
    | (path, text) :: rest =>
      match b.load path text with
      | (b, none) => go b rest
      | (_, some e) => .error e

end Schema

end QueryBindings
