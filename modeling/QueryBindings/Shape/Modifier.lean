import QueryBindings.Schema.TypeAnnotation
/-!
Modifiers: the layers around a type's name as a list from the outermost to the innermost.

A layer that may be null contributes `nullable`, and a list layer contributes `arrayOf` after it. A
layer that may not be null contributes nothing for that.
-/
namespace QueryBindings

inductive Modifier
  | arrayOf
  | nullable
deriving DecidableEq

namespace TypeAnnotation

def nullableModifier (nullable : Bool) : List Modifier := if nullable then [.nullable] else []

def modifiers : TypeAnnotation → List Modifier
  | named _ n => nullableModifier n
  | list item n => nullableModifier n ++ .arrayOf :: item.modifiers

@[simp] theorem modifiers_named (name : String) (n : Bool) :
    (named name n).modifiers = nullableModifier n := rfl

@[simp] theorem modifiers_list (item : TypeAnnotation) (n : Bool) :
    (list item n).modifiers = nullableModifier n ++ .arrayOf :: item.modifiers := rfl

end TypeAnnotation

end QueryBindings
