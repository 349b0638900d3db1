/-!
Options of the generator.

The type of the builtin `ID` is `string` unless an option says otherwise. Custom scalars have the
types that the table gives them; of two entries for one name the later counts, at the place of the
first.
-/
namespace QueryBindings

structure Config where
  idType : Option String
  scalarTypes : List (String × String)
  subscriptions : Bool
deriving DecidableEq

namespace Config

def default : Config := ⟨none, [], false⟩

/-- The type of the builtin `ID`. -/
def effectiveIdType (c : Config) : String := c.idType.getD "string"

def scalarType? (c : Config) (name : String) : Option String := c.scalarTypes.lookup name

def setScalar (name type : String) : List (String × String) → List (String × String)
  | [] => [(name, type)]
  | (other, t) :: rest =>
    if other = name then (name, type) :: rest else (other, t) :: setScalar name type rest

/-- The table with the given entries, later ones first taking effect in place of earlier ones. -/
def scalarTable (entries : List (String × String)) : List (String × String) :=
  entries.foldl (fun table e => setScalar e.1 e.2 table) []

/-- The options with those given on a command line taking precedence. -/
def override (c : Config) (idType : Option String) (scalars : List (String × String))
    (subscriptions : Bool) : Config where
  idType := idType.or c.idType
  scalarTypes := scalars.foldl (fun table e => setScalar e.1 e.2 table) c.scalarTypes
  subscriptions := c.subscriptions || subscriptions

end Config

end QueryBindings
