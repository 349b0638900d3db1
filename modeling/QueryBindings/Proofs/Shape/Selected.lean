import QueryBindings.Proofs.Shape.Merging
/-!
What a list of contributions makes.

The nodes of all contributions are merged in their order, and so are the names of the spread
fragments; nodes and names don't get in each other's way. Two lists of contributions one after the
other make what the merge of their results is.
-/
namespace QueryBindings

open Node

namespace Contribution

def node? : Contribution → Option Node
  | node n => some n
  | spread _ => none

def spread? : Contribution → Option String
  | node _ => none
  | spread f => some f

/-- The nodes that contributions bring, before they are merged. -/
def nodesOf (l : List Contribution) : List Node := l.filterMap node?

def spreadsOf (l : List Contribution) : List String := l.filterMap spread?

@[simp] theorem nodesOf_nil : nodesOf [] = [] := rfl
@[simp] theorem spreadsOf_nil : spreadsOf [] = [] := rfl
@[simp] theorem nodesOf_append (a b : List Contribution) : nodesOf (a ++ b) = nodesOf a ++ nodesOf b :=
  List.filterMap_append
@[simp] theorem spreadsOf_append (a b : List Contribution) :
    spreadsOf (a ++ b) = spreadsOf a ++ spreadsOf b := List.filterMap_append
@[simp] theorem nodesOf_node (n : Node) (l : List Contribution) :
    nodesOf (node n :: l) = n :: nodesOf l := rfl
@[simp] theorem nodesOf_spread (f : String) (l : List Contribution) :
    nodesOf (spread f :: l) = nodesOf l := rfl
@[simp] theorem spreadsOf_node (n : Node) (l : List Contribution) :
    spreadsOf (node n :: l) = spreadsOf l := rfl
@[simp] theorem spreadsOf_spread (f : String) (l : List Contribution) :
    spreadsOf (spread f :: l) = f :: spreadsOf l := rfl

/-- The fragments that contributions spread or record on their nodes. -/
def recorded (l : List Contribution) : List String := spreadsOf l ++ fragmentNamesOf (nodesOf l)

@[simp] theorem recorded_nil : recorded [] = [] := by simp [recorded]

theorem mem_recorded_append {a b : List Contribution} {f : String} :
    f ∈ recorded (a ++ b) ↔ f ∈ recorded a ∨ f ∈ recorded b := by
  simp only [recorded, spreadsOf_append, nodesOf_append, fragmentNamesOf_append, List.mem_append]
  exact or_or_or_comm

@[simp] theorem recorded_spread (f : String) : recorded [spread f] = [f] := by simp [recorded]

@[simp] theorem recorded_node (n : Node) : recorded [node n] = n.fragmentNames := by
  simp [recorded]

/-- The contributions' nodes have distinct names below them and the kinds that `kindAt` gives. -/
structure Regular (kindAt : List String → Kind) (l : List Contribution) : Prop where
  distinct : ∀ n ∈ nodesOf l, n.Distinct
  conforms : ConformAll kindAt (nodesOf l)

theorem Regular.append {kindAt : List String → Kind} {a b : List Contribution}
    (ha : Regular kindAt a) (hb : Regular kindAt b) : Regular kindAt (a ++ b) where
  distinct := by
    rw [nodesOf_append]
    exact List.forall_mem_append.mpr ⟨ha.distinct, hb.distinct⟩
  conforms := by
    rw [nodesOf_append, conformAll_append]
    exact ⟨ha.conforms, hb.conforms⟩

end Contribution

namespace Selected

open Contribution (nodesOf spreadsOf)

/-- Contributions add their nodes by merging, and their spreads by union. -/
theorem foldl_add (l : List Contribution) (s : Selected) :
    l.foldl add s =
      ⟨mergeAllInto (nodesOf l) s.nodes, Names.union s.fragments (spreadsOf l)⟩ := by
  induction l generalizing s with
  | nil => simp
  | cons c rest ih =>
    rw [List.foldl_cons, ih]
    cases c <;> simp

theorem ofContributions_eq (l : List Contribution) :
    ofContributions l = ⟨mergeAllInto (nodesOf l) [], Names.union [] (spreadsOf l)⟩ := by
  simp [ofContributions, foldl_add, empty]

@[simp] theorem nodes_ofContributions (l : List Contribution) :
    (ofContributions l).nodes = mergeAllInto (nodesOf l) [] := by rw [ofContributions_eq]

@[simp] theorem fragments_ofContributions (l : List Contribution) :
    (ofContributions l).fragments = Names.union [] (spreadsOf l) := by rw [ofContributions_eq]

/-- What two selection sets make together, the first before the second. -/
def append (a b : Selected) : Selected :=
  ⟨mergeAllInto b.nodes a.nodes, Names.union a.fragments b.fragments⟩

structure Regular (kindAt : List String → Kind) (s : Selected) : Prop where
  distinct : DistinctAll s.nodes
  conforms : ConformAll kindAt s.nodes

/-- Merging contributions makes nodes with distinct names. -/
theorem distinct_ofContributions {l : List Contribution} (h : ∀ n ∈ nodesOf l, n.Distinct) :
    DistinctAll (ofContributions l).nodes := by
  rw [nodes_ofContributions]
  exact distinctAll_mergeAllInto_nil h

theorem regular_ofContributions {kindAt : List String → Kind} {l : List Contribution}
    (h : Contribution.Regular kindAt l) : Regular kindAt (ofContributions l) where
  distinct := distinct_ofContributions h.distinct
  conforms := by
    rw [nodes_ofContributions]
    exact conformAll_mergeAllInto kindAt _ _ h.conforms trivial

/-- Contributions may be merged in two groups. -/
theorem ofContributions_append {kindAt : List String → Kind} {a b : List Contribution}
    (ha : Contribution.Regular kindAt a) (hb : Contribution.Regular kindAt b) :
    ofContributions (a ++ b) = (ofContributions a).append (ofContributions b) := by
  have hnodes : mergeAllInto (nodesOf b) (mergeAllInto (nodesOf a) []) =
      mergeAllInto (mergeAllInto (nodesOf b) []) (mergeAllInto (nodesOf a) []) :=
    mergeAllInto_mergeAllInto kindAt (nodesOf b) [] _ hb.distinct trivial hb.conforms trivial
      (conformAll_mergeAllInto kindAt _ _ ha.conforms trivial)
  have hspreads : Names.union (Names.union [] (spreadsOf a)) (spreadsOf b) =
      Names.union (Names.union [] (spreadsOf a)) (Names.union [] (spreadsOf b)) := by
    rw [Names.union_union, Names.union_nil]
  simp only [ofContributions_eq, append, Contribution.nodesOf_append, Contribution.spreadsOf_append,
    mergeAllInto_append, Names.union_append, hnodes, hspreads]

def recorded (s : Selected) : List String := s.fragments ++ fragmentNamesOf s.nodes

/-- Merging contributions keeps the fragments that are recorded in them. -/
theorem mem_recorded_ofContributions {kindAt : List String → Kind} {l : List Contribution}
    (h : Contribution.Regular kindAt l) (f : String) :
    f ∈ (ofContributions l).recorded ↔ f ∈ Contribution.recorded l := by
  have hn := mem_fragmentNamesOf_mergeAllInto kindAt (nodesOf l) [] h.conforms trivial f
  simp only [fragmentNamesOf, List.not_mem_nil, false_or] at hn
  simp only [recorded, Contribution.recorded, fragments_ofContributions, nodes_ofContributions,
    List.mem_append, Names.mem_union, List.not_mem_nil, false_or, hn]

end Selected

end QueryBindings
