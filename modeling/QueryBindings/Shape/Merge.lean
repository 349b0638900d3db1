import QueryBindings.Shape.Node
/-!
Merging shapes.

Two nodes with one response name become one node: the fragments of both, and where both are objects
or both are unions, the children of both, merged by name in turn. In every other case the first node
keeps its own children. A list of nodes therefore declares every name once, in the order in which
the names came first.
-/
namespace QueryBindings

/-- Changes the first node with a name, or adds a node behind the others if there is none. -/
def Node.upsert (name : String) (change : Node → Node) (new : Node) : List Node → List Node
  | [] => [new]
  | n :: rest => if n.name = name then change n :: rest else n :: upsert name change new rest

namespace Node

mutual

def mergeInto : (incoming : Node) → (existing : Node) → Node
  | leaf h _, e => e.withHead (e.head.addFragments h.fragments)
  | object h fields, object h' fields' =>
    object (h'.addFragments h.fragments) (mergeAllInto fields fields')
  | object h _, e => e.withHead (e.head.addFragments h.fragments)
  | union h variants, union h' variants' =>
    union (h'.addFragments h.fragments) (mergeAllInto variants variants')
  | union h _, e => e.withHead (e.head.addFragments h.fragments)

def mergeAllInto : (incoming : List Node) → (existing : List Node) → List Node
  | [], existing => existing
  | n :: rest, existing => mergeAllInto rest (upsert n.name (mergeInto n) n existing)

end

def mergeOne (existing : List Node) (n : Node) : List Node :=
  upsert n.name (mergeInto n) n existing

@[simp] theorem mergeAllInto_nil (existing : List Node) : mergeAllInto [] existing = existing := by
  simp [mergeAllInto]

@[simp] theorem mergeAllInto_cons (n : Node) (rest existing : List Node) :
    mergeAllInto (n :: rest) existing = mergeAllInto rest (mergeOne existing n) := by
  simp [mergeAllInto, mergeOne]

/-- Merging nodes is merging them one by one. -/
theorem mergeAllInto_eq_foldl (incoming existing : List Node) :
    mergeAllInto incoming existing = incoming.foldl mergeOne existing := by
  induction incoming generalizing existing with
  | nil => simp
  | cons n rest ih => simp [ih]

end Node

/-- What a selection adds to the shape around it: a node, or the name of a spread fragment. -/
inductive Contribution
  | node (n : Node)
  | spread (fragment : String)

/-- The nodes that a selection set contributes, and the fragments spread directly into it. -/
structure Selected where
  nodes : List Node
  fragments : List String

namespace Selected

def empty : Selected := ⟨[], []⟩

def add (s : Selected) : Contribution → Selected
  | .node n => { s with nodes := Node.mergeOne s.nodes n }
  | .spread f => { s with fragments := Names.insert s.fragments f }

def ofContributions (contributions : List Contribution) : Selected :=
  contributions.foldl add empty

@[simp] theorem nodes_add_node (s : Selected) (n : Node) :
    (s.add (.node n)).nodes = Node.mergeOne s.nodes n := rfl
@[simp] theorem fragments_add_node (s : Selected) (n : Node) :
    (s.add (.node n)).fragments = s.fragments := rfl
@[simp] theorem nodes_add_spread (s : Selected) (f : String) :
    (s.add (.spread f)).nodes = s.nodes := rfl
@[simp] theorem fragments_add_spread (s : Selected) (f : String) :
    (s.add (.spread f)).fragments = Names.insert s.fragments f := rfl

end Selected

end QueryBindings
