import QueryBindings.Config.Basic
import QueryBindings.Config.Json
/-!
Reading options from JSON.

Options stand in an object under their names, or in an array in a fixed order. Every option may be
left out; unknown names are passed over, and a known one must not come twice.
-/
namespace QueryBindings.Config

def idTypeOf? : Json → Option (Option String)
  | .null => some none
  | .string (some text) => some (some text)
  | _ => none

def textOf? : Json → Option String
  | .string text? => text?
  | _ => none

def scalarEntries? (members : List (Option String × Json)) : Option (List (String × String)) :=
  members.mapM fun m => do return (← m.1, ← textOf? m.2)

def scalarTypesOf? : Json → Option (List (String × String))
  | .object members => (scalarEntries? members).map scalarTable
  | _ => none

def subscriptionsOf? : Json → Option Bool
  | .bool value => some value
  | _ => none

/-- Options of which some have been given. -/
structure Partial where
  idType : Option (Option String)
  scalarTypes : Option (List (String × String))
  subscriptions : Option Bool

namespace Partial

def empty : Partial := ⟨none, none, none⟩

/-- The options with defaults for those that have not been given. -/
def complete (p : Partial) : Config :=
  ⟨p.idType.getD none, p.scalarTypes.getD [], p.subscriptions.getD false⟩

/-- Takes one member of an object of options. -/
def addMember (p : Partial) (m : Option String × Json) : Option Partial := do
  match ← m.1 with
  | "idType" =>
    if p.idType.isSome then none else return { p with idType := some (← idTypeOf? m.2) }
  | "scalarTypes" =>
    if p.scalarTypes.isSome then none
    else return { p with scalarTypes := some (← scalarTypesOf? m.2) }
  | "subscriptions" =>
    if p.subscriptions.isSome then none
    else return { p with subscriptions := some (← subscriptionsOf? m.2) }
  | _ => return p

end Partial

/-- Reads options from a list in the order of their declaration. -/
def ofItems? : List Json → Option Config
  | [] => some default
  | [i] => do return ⟨← idTypeOf? i, [], false⟩
  | [i, t] => do return ⟨← idTypeOf? i, ← scalarTypesOf? t, false⟩
  | [i, t, s] => do return ⟨← idTypeOf? i, ← scalarTypesOf? t, ← subscriptionsOf? s⟩
  | _ => none

def ofJson? : Json → Option Config
  | .array items => ofItems? items
  | .object members => (members.foldlM Partial.addMember .empty).map Partial.complete
  | _ => none

def parse (text : String) : Option Config := (Json.parse text).bind ofJson?

end QueryBindings.Config
