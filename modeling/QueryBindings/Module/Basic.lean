import QueryBindings.Bindings.Basic
import QueryBindings.Config.Basic
import QueryBindings.Module.Boilerplate
import QueryBindings.Module.Declaration
/-!
The generated module.

Every node of a shape becomes a type declaration, and an object's properties refer to the
declarations of its children by name. The sections hold the input types, then the fragments of each
file, then the operations of each file: an operation's document uses the constants of its fragments,
so these come first.
-/
namespace QueryBindings

/-- Whether values are sent or received.  What may be null may be left out when it is sent. -/
inductive Direction
  | input
  | output
deriving DecidableEq

namespace Property

def ofNode (direction : Direction) (n : Node) : Property where
  name := n.name
  optional := direction = .input ∧ n.head.modifiers.head? = some .nullable
  type := TypeExpr.wrap n.head.modifiers (.reference n.declaration)

end Property

namespace DeclaredType

/-- The object shape with the given fields, and the type name that tells it apart, if there is one.
-/
def ofFields (direction : Direction) (fragments : List String) (typename? : Option String)
    (fields : List Node) : DeclaredType :=
  .object fragments
    ((typename?.map Property.typename).toList ++ fields.map (Property.ofNode direction))

end DeclaredType

namespace Node

mutual

/-- The declarations of a node and of all nodes below it, depth first. -/
def typeDeclarations (direction : Direction) : Node → List Declaration
  | leaf h type => [.type (declarationName h.path h.name) (.leaf type)]
  | object h fields =>
    .type (declarationName h.path h.name)
      (.ofFields direction h.fragments h.typename? fields) :: typeDeclarationsOf direction fields
  | union h variants =>
    .type (declarationName h.path h.name)
      (.alternatives (variants.map declaration)) :: typeDeclarationsOf direction variants

def typeDeclarationsOf (direction : Direction) : List Node → List Declaration
  | [] => []
  | n :: rest => n.typeDeclarations direction ++ typeDeclarationsOf direction rest

end

end Node

namespace FragmentBinding

/-- A fragment's shape, the shapes below it, and its document. -/
def moduleDeclarations (f : FragmentBinding) : List Declaration :=
  .type f.name (.ofFields .output f.fragments none f.fields) ::
    (Node.typeDeclarationsOf .output f.fields ++ [.fragment f.name ⟨f.source, []⟩])

end FragmentBinding

namespace OperationBinding

/-- An operation, and the shapes of its variables and its data. -/
def moduleDeclarations (o : OperationBinding) : List Declaration :=
  .operation o.name o.kind o.input.declaration o.data.declaration ⟨o.source, o.fragments⟩ ::
    (o.input.typeDeclarations .input ++ o.data.typeDeclarations .output)

end OperationBinding

/-- A titled part of the module; an empty line stands between groups of declarations. -/
structure Section where
  title : String
  groups : List (List Declaration)

namespace Section

def groupText (declarations : List Declaration) : String :=
  String.join (declarations.map Declaration.text)

def text (s : Section) : String :=
  "/*\n * " ++ s.title ++ "\n */\n\n" ++ String.intercalate "\n" (s.groups.map groupText)

end Section

structure Module where
  subscriptions : Bool
  sections : List Section

namespace Module

def inputSections (inputTypes : List Node) : List Section :=
  if inputTypes.isEmpty then []
  else [⟨"GraphQL Input Types", [Node.typeDeclarationsOf .input inputTypes]⟩]

def fragmentSection (file : FileBindings) : Section :=
  ⟨"Fragments from " ++ file.path, file.fragments.map FragmentBinding.moduleDeclarations⟩

def operationSection (file : FileBindings) : Section :=
  ⟨"Operations from " ++ file.path, file.operations.map OperationBinding.moduleDeclarations⟩

def ofBindings (config : Config) (b : Bindings) : Module where
  subscriptions := config.subscriptions
  sections := inputSections b.inputTypes ++ b.files.map fragmentSection ++
    b.files.map operationSection

def opening (m : Module) : String :=
  Boilerplate.disclaimer ++ "\n" ++ Boilerplate.importsText Boilerplate.imports ++
    if m.subscriptions then Boilerplate.importsText Boilerplate.subscriptionImports else ""

def body (m : Module) : String := String.join (m.sections.map fun s => "\n" ++ s.text)

def closing (m : Module) : String :=
  "\n" ++ Boilerplate.definitionsText Boilerplate.runtime ++
    if m.subscriptions then "\n" ++ Boilerplate.definitionsText Boilerplate.subscriptionRuntime
    else ""

def text (m : Module) : String := m.opening ++ m.body ++ m.closing

end Module

end QueryBindings
