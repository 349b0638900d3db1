import QueryBindings.Config.Basic
import QueryBindings.Schema.Basic
/-!
The types of leaves: scalars and enums.

A custom scalar without a configured type can hold anything. An enum is the union of its values as
string literals, and an enum without values has no value at all.
-/
namespace QueryBindings

def literalType (name : String) : String := "'" ++ name ++ "'"

def EnumType.leafType (t : EnumType) : String :=
  if t.values.isEmpty then "never"
  else String.intercalate " | " (t.values.map (literalType ·.name))

def Builtin.leafType (config : Config) : Builtin → String
  | .boolean => "boolean"
  | .float => "number"
  | .id => config.effectiveIdType
  | .int => "number"
  | .string => "string"

/-- The type text of a leaf; other types have none. -/
def SchemaType.leafType? (config : Config) : SchemaType → Option String
  | .builtin b => some (b.leafType config)
  | .scalar name _ => some ((config.scalarType? name).getD "any")
  | .enum t => some t.leafType
  | .object _ => none
  | .interface _ => none
  | .union _ => none
  | .inputObject _ => none

end QueryBindings
