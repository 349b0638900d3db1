import QueryBindings.Syntax.TypeRef
/-!
Type annotations: list layers around a name, where every layer says whether it may be null.

`ofRef` folds the exclamation marks of a written type into the layers that they mark, and `text`
writes them back behind those layers.
-/
namespace QueryBindings

inductive TypeAnnotation
  | named (name : String) (nullable : Bool)
  | list (item : TypeAnnotation) (nullable : Bool)
deriving DecidableEq

namespace TypeAnnotation

/-- The annotation of a written type whose outermost layer has the given nullability. -/
def ofRefWith (nullable : Bool) : TypeRef → TypeAnnotation
  | .named name => named name nullable
  | .list item => list (ofRefWith true item) nullable
  | .nonNull inner => ofRefWith false inner

def ofRef (t : TypeRef) : TypeAnnotation := ofRefWith true t

def nullable : TypeAnnotation → Bool
  | named _ n => n
  | list _ n => n

def baseName : TypeAnnotation → String
  | named name _ => name
  | list item _ => item.baseName

def bang (nullable : Bool) : String := if nullable then "" else "!"

def text : TypeAnnotation → String
  | named name n => name ++ bang n
  | list item n => "[" ++ item.text ++ "]" ++ bang n

@[simp] theorem baseName_ofRefWith_nonNull (n : Bool) (t : TypeRef) :
    (ofRefWith n (.nonNull t)).baseName = (ofRefWith false t).baseName := rfl

@[simp] theorem nullable_named (name : String) (n : Bool) : (named name n).nullable = n := rfl
@[simp] theorem nullable_list (item : TypeAnnotation) (n : Bool) : (list item n).nullable = n := rfl

end TypeAnnotation

end QueryBindings
