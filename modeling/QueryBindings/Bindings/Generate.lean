import QueryBindings.Bindings.Extract
import QueryBindings.Bindings.Linking
/-!
The bindings of all documents of a run.

Operations have names of their own, and so have fragments. All declarations of a run land in one
module, so their names, which are made of paths and need not be different, are checked once all are
known.
-/
namespace QueryBindings

/-- Fails at the first name that has come before. -/
def checkDistinct : (seen : List (String × Location)) → List (String × Location) →
    Except BindingError Unit
  | _, [] => .ok ()
  | seen, (name, location) :: rest =>
    match seen.lookup name with
    | some first => .error (.duplicateName name first location)
    | none => checkDistinct ((name, location) :: seen) rest

namespace Bindings

def operationNames (files : List FileBindings) : List (String × Location) :=
  files.flatMap fun file => file.operations.map fun o => (o.name, o.location)

def fragmentNames (files : List FileBindings) : List (String × Location) :=
  files.flatMap fun file => file.fragments.map fun f => (f.name, f.location)

/-- The declarations of an input type, at the place of the type's definition. -/
def inputDeclarations (schema : Schema) (n : Node) : List (String × Location) :=
  match schema.inputObject? n.name with
  | some t => n.declarations.map (·, t.location)
  | none => []

def fileDeclarations (file : FileBindings) : List (String × Location) :=
  (file.fragments.flatMap fun f => f.declarations.map (·, f.location)) ++
    file.operations.flatMap fun o => o.declarations.map (·, o.location)

/-- The names of all declarations of a run, each with the place of the definition that it comes
from. -/
def declarations (schema : Schema) (b : Bindings) : List (String × Location) :=
  b.inputTypes.flatMap (inputDeclarations schema) ++ b.files.flatMap fileDeclarations

/-- The bindings of documents; the first error counts. -/
def generate (schema : Schema) (config : Config) (documents : List Document) :
    Except BindingError Bindings := do
  let conditions := Scope.fragmentConditions documents
  let extracted ← documents.mapM (ExtractedFile.ofDocument schema config conditions)
  let files := extracted.map (·.file)
  checkDistinct [] (operationNames files)
  checkDistinct [] (fragmentNames files)
  let linked ← Linking.link files
  let inputTypes ←
    InputRequest.declarations schema config (extracted.flatMap (·.requests))
  let b : Bindings := ⟨linked, inputTypes⟩
  checkDistinct [] (b.declarations schema)
  return b

end Bindings

end QueryBindings
