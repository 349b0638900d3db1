import QueryBindings.Bindings.Basic
import QueryBindings.Search
/-!
Linking: which fragments the document of an operation needs.

These are the fragments that the operation spreads, and those that they spread in turn, in
breadth-first order. Every fragment that is spread anywhere must be defined in some file.
-/
namespace QueryBindings

namespace FileBindings

/-- The fragments of all files, each with the names that it spreads. -/
def spreadTable (files : List FileBindings) : List (String × List String) :=
  files.flatMap fun file => file.fragments.map fun f => (f.name, f.spreads)

end FileBindings

namespace Linking

/-- The search for fragments on behalf of an operation. -/
def search (table : List (String × List String)) (operation : String) :
    Search String (List String) Unit BindingError where
  table := table
  name := id
  missing fragment := .undefinedFragment fragment operation
  expand _ spreads := .ok ((), spreads)

/-- The first name among those that a fragment spreads that no fragment has. -/
def undefinedSpread? (table : List (String × List String)) :
    List (String × List String) → Option BindingError
  | [] => none
  | (fragment, spreads) :: rest =>
    match spreads.find? (fun f => (table.lookup f).isNone) with
    | some f => some (.undefinedFragment f fragment)
    | none => undefinedSpread? table rest

/-- The operation with all fragments that its document needs. -/
def linkOperation (table : List (String × List String)) (o : OperationBinding) :
    Except BindingError OperationBinding := do
  let found ← (search table o.name).run o.fragments
  return { o with fragments := found.map (·.1) }

def linkFile (table : List (String × List String)) (file : FileBindings) :
    Except BindingError FileBindings := do
  return { file with operations := ← file.operations.mapM (linkOperation table) }

def link (files : List FileBindings) : Except BindingError (List FileBindings) :=
  let table := FileBindings.spreadTable files
  match undefinedSpread? table table with
  | some e => .error e
  | none => files.mapM (linkFile table)

end Linking

end QueryBindings
