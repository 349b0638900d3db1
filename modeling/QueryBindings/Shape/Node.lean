import QueryBindings.Names
import QueryBindings.Shape.Modifier
/-!
Shape trees: what a selection set, the variables of an operation or an input object look like.

A node is a leaf with a type text, an object with one child for each field, or a union with one
child for each member that is selected. Every node is declared under a name of its own, made of the
path that leads to it and its name.
-/
namespace QueryBindings

/-- What all nodes have: a name below a path, the modifiers of its type, the fragments that its
shape is intersected with, and for a union's member the type name that tells it apart. -/
structure NodeHead where
  name : String
  path : List String
  modifiers : List Modifier
  fragments : List String
  typename? : Option String
deriving DecidableEq

inductive Node
  | leaf (head : NodeHead) (type : String)
  | object (head : NodeHead) (fields : List Node)
  | union (head : NodeHead) (variants : List Node)

/-- The parts of a path and a name with underscores between them. -/
def declarationName (path : List String) (name : String) : String :=
  let joined := String.intercalate "_" path
  if joined.isEmpty then name else joined ++ "_" ++ name

namespace NodeHead

/-- The head of a node without modifiers, fragments or type name. -/
def plain (path : List String) (name : String) : NodeHead := ⟨name, path, [], [], none⟩

def addFragments (h : NodeHead) (names : List String) : NodeHead :=
  { h with fragments := Names.union h.fragments names }

end NodeHead

namespace Node

def head : Node → NodeHead
  | leaf h _ => h
  | object h _ => h
  | union h _ => h

def withHead (h : NodeHead) : Node → Node
  | leaf _ t => leaf h t
  | object _ fields => object h fields
  | union _ variants => union h variants

def name (n : Node) : String := n.head.name

def declaration (n : Node) : String := declarationName n.head.path n.head.name

def children : Node → List Node
  | leaf _ _ => []
  | object _ fields => fields
  | union _ variants => variants

@[simp] theorem head_leaf (h : NodeHead) (t : String) : (leaf h t).head = h := rfl
@[simp] theorem head_object (h : NodeHead) (l : List Node) : (object h l).head = h := rfl
@[simp] theorem head_union (h : NodeHead) (l : List Node) : (union h l).head = h := rfl
@[simp] theorem head_withHead (h : NodeHead) (n : Node) : (n.withHead h).head = h := by
  cases n <;> rfl

mutual

def declarations : Node → List String
  | leaf h _ => [declarationName h.path h.name]
  | object h fields => declarationName h.path h.name :: declarationsOf fields
  | union h variants => declarationName h.path h.name :: declarationsOf variants

def declarationsOf : List Node → List String
  | [] => []
  | n :: rest => n.declarations ++ declarationsOf rest

end

mutual

/-- The fragment names recorded on a node and on all nodes below it, depth first. -/
def fragmentNames : Node → List String
  | leaf h _ => h.fragments
  | object h fields => h.fragments ++ fragmentNamesOf fields
  | union h variants => h.fragments ++ fragmentNamesOf variants

def fragmentNamesOf : List Node → List String
  | [] => []
  | n :: rest => n.fragmentNames ++ fragmentNamesOf rest

end

end Node

end QueryBindings
