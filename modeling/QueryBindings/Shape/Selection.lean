import QueryBindings.Shape.Error
import QueryBindings.Shape.Leaf
import QueryBindings.Shape.Merge
/-!
The shape that a selection set has on a type.

On an object every field becomes a node named by its alias, else by its own name; a spread is
recorded by name and never opened. On a union an inline fragment selects the member that it names,
and a spread selects the member that its fragment's condition names; each selected member becomes
one variant. Inline fragments that name no member select nothing, and so does everything in them.

Below a leaf, and below `__typename`, no selection is looked at.
-/
namespace QueryBindings

/-- What selections are resolved against: the schema, the options, the type conditions of the
fragments of all documents, and the file that the selections are in. -/
structure Scope where
  schema : Schema
  config : Config
  conditions : List (String × String)
  path : String

namespace Scope

def locate (s : Scope) (p : Position) : Location := .ofPosition (some s.path) p

def memberObject (s : Scope) (member : String) (p : Position) :
    Except BindingError FieldedType :=
  match s.schema.find? member with
  | some (.object t) => .ok t
  | some other => .error (.unsupportedType member other.kind .responseField (s.locate p))
  | none => .error (.undefinedType member (s.locate p))

def spreadMember? (s : Scope) (union : UnionType) (fragment : String) : Option String :=
  (s.conditions.lookup fragment).filter (union.members.contains ·)

def selectedField (s : Scope) (parent : FieldedType) (name : String) (p : Position) :
    Except BindingError Field :=
  match parent.field? name with
  | some f => .ok f
  | none => .error (.undefinedField parent.name name (s.locate p))

end Scope

namespace Node

def ofTypename (path : List String) (name typename : String) : Node :=
  leaf (.plain path name) (literalType typename)

def fieldHead (path : List String) (name : String) (f : Field) (fragments : List String) :
    NodeHead :=
  ⟨name, path, f.type.modifiers, fragments, none⟩

def variant (path : List String) (member : String) (selected : Selected) : Node :=
  object ⟨member, path, [], selected.fragments, some member⟩ selected.nodes

end Node

namespace Scope

mutual

/-- What one selection on an object type contributes to the shape at `path`. -/
def onObject (s : Scope) (parent : FieldedType) (path : List String) :
    Selection → Except BindingError (List Contribution)
  | .inline p _ _ _ =>
    .error (.unsupportedSelection .inlineFragment parent.name (s.locate p))
  | .spread _ fragment _ => .ok [.spread fragment]
  | .field p alias? name _ _ selections =>
    let response := alias?.getD name
    if name = "__typename" then .ok [.node (.ofTypename path response parent.name)]
    else do
      let f ← s.selectedField parent name p
      match s.schema.find? f.type.baseName with
      | none => .error (.undefinedType f.type.baseName (s.locate p))
      | some (.object t) =>
        let selected := Selected.ofContributions (← onObjectAll s t (path ++ [response]) selections)
        .ok [.node (.object (Node.fieldHead path response f selected.fragments) selected.nodes)]
      | some (.union t) =>
        let selected := Selected.ofContributions (← onUnionAll s t (path ++ [response]) selections)
        .ok [.node (.union (Node.fieldHead path response f selected.fragments) selected.nodes)]
      | some other =>
        match other.leafType? s.config with
        | some type => .ok [.node (.leaf (Node.fieldHead path response f []) type)]
        | none =>
          .error (.unsupportedType other.name other.kind .responseField (s.locate p))

def onObjectAll (s : Scope) (parent : FieldedType) (path : List String) :
    List Selection → Except BindingError (List Contribution)
  | [] => .ok []
  | selection :: rest => do
    let first ← onObject s parent path selection
    let others ← onObjectAll s parent path rest
    .ok (first ++ others)

/-- What one selection on a union contributes to the variants at `path`. -/
def onUnion (s : Scope) (union : UnionType) (path : List String) :
    Selection → Except BindingError (List Contribution)
  | .inline _ none _ _ => .ok []
  | .inline p (some member) _ selections =>
    if union.members.contains member then do
      let t ← s.memberObject member p
      let selected := Selected.ofContributions (← onObjectAll s t (path ++ [member]) selections)
      .ok [.node (.variant path member selected)]
    else .ok []
  | .spread p fragment _ =>
    match s.spreadMember? union fragment with
    | some member => do
      let _ ← s.memberObject member p
      .ok [.node (.variant path member ⟨[], [fragment]⟩), .spread fragment]
    | none => .ok [.spread fragment]
  | .field p _ name _ _ _ =>
    if name = "__typename" then .ok []
    else .error (.unsupportedSelection .field union.name (s.locate p))

def onUnionAll (s : Scope) (union : UnionType) (path : List String) :
    List Selection → Except BindingError (List Contribution)
  | [] => .ok []
  | selection :: rest => do
    let first ← onUnion s union path selection
    let others ← onUnionAll s union path rest
    .ok (first ++ others)

end

/-- The nodes and fragments that a selection set has on an object type. -/
def selectOnObject (s : Scope) (parent : FieldedType) (path : List String)
    (selections : List Selection) : Except BindingError Selected := do
  return .ofContributions (← s.onObjectAll parent path selections)

def selectOnUnion (s : Scope) (union : UnionType) (path : List String)
    (selections : List Selection) : Except BindingError Selected := do
  return .ofContributions (← s.onUnionAll union path selections)

end Scope

end QueryBindings
