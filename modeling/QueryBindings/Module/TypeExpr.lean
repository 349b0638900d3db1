import QueryBindings.Shape.Modifier
/-!
Type expressions of the generated module.

`wrap` puts modifiers around an expression, the innermost first, so the first modifier of the list
ends up outermost.
-/
namespace QueryBindings

inductive TypeExpr
  | leaf (text : String)
  | reference (declaration : String)
  | array (item : TypeExpr)
  | orNull (inner : TypeExpr)
deriving DecidableEq

namespace TypeExpr

def text : TypeExpr → String
  | leaf t => t
  | reference name => name
  | array item => "Array<" ++ item.text ++ ">"
  | orNull inner => inner.text ++ " | null"

def wrapOne : Modifier → TypeExpr → TypeExpr
  | .arrayOf, t => array t
  | .nullable, t => orNull t

def wrap (modifiers : List Modifier) (base : TypeExpr) : TypeExpr :=
  modifiers.foldr wrapOne base

@[simp] theorem wrap_nil (base : TypeExpr) : wrap [] base = base := rfl

@[simp] theorem wrap_cons (m : Modifier) (modifiers : List Modifier) (base : TypeExpr) :
    wrap (m :: modifiers) base = wrapOne m (wrap modifiers base) := rfl

end TypeExpr

end QueryBindings
