import QueryBindings.Proofs.Shape.Selected
/-!
The nodes of a shape and the paths of names that lead to them.

A node's label is what it says itself: its place, its modifiers, its tag and its content, but not
its fragments or the nodes below it. Merging invents no label at any path, and as long as the nodes
at the same place are of the same kind, it loses no path.
-/
namespace QueryBindings

namespace Node

/-- What holds of a node as soon as it holds of the nodes right below it holds of every node. -/
theorem induct {motive : Node → Prop} (h : ∀ n : Node, (∀ c ∈ n.children, motive c) → motive n)
    (n : Node) : motive n :=
  node n
where
  node : (n : Node) → motive n
    | leaf _ _ => h _ (by simp [children])
    | object _ fields => h _ (nodes fields)
    | union _ variants => h _ (nodes variants)
  nodes : (l : List Node) → ∀ c ∈ l, motive c
    | [] => by simp
    | n :: l => List.forall_mem_cons.mpr ⟨node n, nodes l⟩

/-- A path of names leads from a node, whose own name comes first, to a node in it. -/
inductive Leads : Node → List String → Node → Prop
  | here (n : Node) : Leads n [n.name] n
  | child {n c m : Node} {p : List String} (hc : c ∈ n.children) (h : Leads c p m) :
    Leads n (n.name :: p) m

theorem Leads.snoc {n m c : Node} {p : List String} (h : n.Leads p m) (hc : c ∈ m.children) :
    n.Leads (p ++ [c.name]) c := by
  induction h with
  | here => exact .child hc (.here c)
  | child hc' _ ih => exact .child hc' (ih hc)

theorem Leads.ne_nil {n m : Node} {p : List String} (h : n.Leads p m) : p ≠ [] := by
  cases h <;> simp

/-- What a node is to hold: a value with a type text, an object, or a value of a union. -/
inductive Content
  | leaf (text : String)
  | object
  | union
deriving DecidableEq

def content : Node → Content
  | leaf _ text => .leaf text
  | object _ _ => .object
  | union _ _ => .union

/-- What a node says itself. -/
structure Label where
  path : List String
  modifiers : List Modifier
  typename? : Option String
  content : Content
deriving DecidableEq

def label (n : Node) : Label := ⟨n.head.path, n.head.modifiers, n.head.typename?, n.content⟩

def HasLabel (p : List String) (l : Label) (n : Node) : Prop := ∃ m, n.Leads p m ∧ m.label = l

def HasPath (p : List String) (n : Node) : Prop := ∃ m, n.Leads p m

theorem hasLabel_here (n : Node) : n.HasLabel [n.name] n.label := ⟨n, .here n, rfl⟩

theorem hasPath_here (n : Node) : n.HasPath [n.name] := ⟨n, .here n⟩

theorem HasLabel.child {n c : Node} {p : List String} {l : Label} (hc : c ∈ n.children)
    (h : c.HasLabel p l) : n.HasLabel (n.name :: p) l := by
  obtain ⟨m, hm, hl⟩ := h
  exact ⟨m, .child hc hm, hl⟩

theorem HasPath.child {n c : Node} {p : List String} (hc : c ∈ n.children) (h : c.HasPath p) :
    n.HasPath (n.name :: p) := by
  obtain ⟨m, hm⟩ := h
  exact ⟨m, .child hc hm⟩

/-- A label in a node is its own or that of a node below it. -/
theorem HasLabel.cases {n : Node} {p : List String} {l : Label} (h : n.HasLabel p l) :
    (p = [n.name] ∧ l = n.label) ∨ ∃ c ∈ n.children, ∃ q, p = n.name :: q ∧ c.HasLabel q l := by
  obtain ⟨m, hm, hl⟩ := h
  cases hm with
  | here => exact Or.inl ⟨rfl, hl.symm⟩
  | child hc hm => exact Or.inr ⟨_, hc, _, rfl, m, hm, hl⟩

theorem HasPath.cases {n : Node} {p : List String} (h : n.HasPath p) :
    p = [n.name] ∨ ∃ c ∈ n.children, ∃ q, p = n.name :: q ∧ c.HasPath q := by
  obtain ⟨m, hm⟩ := h
  cases hm with
  | here => exact Or.inl rfl
  | child hc hm => exact Or.inr ⟨_, hc, _, rfl, m, hm⟩

theorem HasLabel.ne_nil {n : Node} {p : List String} {l : Label} (h : n.HasLabel p l) :
    p ≠ [] := by
  obtain ⟨m, hm, -⟩ := h
  exact hm.ne_nil

/-! ### Declarations -/

theorem declarationsOf_eq_flatMap (l : List Node) : declarationsOf l = l.flatMap declarations := by
  induction l with
  | nil => simp [declarationsOf]
  | cons n l ih => simp [declarationsOf, ih]

theorem declarations_eq (n : Node) :
    n.declarations = n.declaration :: n.children.flatMap declarations := by
  cases n <;> simp [declarations, declaration, children, declarationsOf_eq_flatMap]

theorem declaration_mem_declarations (n : Node) : n.declaration ∈ n.declarations := by
  rw [declarations_eq]
  exact List.mem_cons_self

/-- The names that a node declares are those of the nodes that paths lead to. -/
theorem mem_declarations_iff (n : Node) {name : String} :
    name ∈ n.declarations ↔ ∃ p m, n.Leads p m ∧ m.declaration = name := by
  induction n using induct with
  | h n ih =>
    rw [declarations_eq, List.mem_cons, List.mem_flatMap]
    constructor
    · rintro (rfl | ⟨c, hc, hname⟩)
      · exact ⟨_, n, .here n, rfl⟩
      · obtain ⟨p, m, hm, rfl⟩ := (ih c hc).mp hname
        exact ⟨_, m, .child hc hm, rfl⟩
    · rintro ⟨p, m, hm, rfl⟩
      cases hm with
      | here => exact Or.inl rfl
      | child hc hm => exact Or.inr ⟨_, hc, (ih _ hc).mpr ⟨_, m, hm, rfl⟩⟩

/-! ### Fragments -/

theorem fragmentNames_eq (n : Node) :
    n.fragmentNames = n.head.fragments ++ n.children.flatMap fragmentNames := by
  cases n <;> simp [fragmentNames, children, fragmentNamesOf_eq_flatMap]

/-- The fragments that a node records are those on the nodes that paths lead to. -/
theorem mem_fragmentNames_iff (n : Node) {f : String} :
    f ∈ n.fragmentNames ↔ ∃ p m, n.Leads p m ∧ f ∈ m.head.fragments := by
  induction n using induct with
  | h n ih =>
    rw [fragmentNames_eq, List.mem_append, List.mem_flatMap]
    constructor
    · rintro (hf | ⟨c, hc, hf⟩)
      · exact ⟨_, n, .here n, hf⟩
      · obtain ⟨p, m, hm, hf⟩ := (ih c hc).mp hf
        exact ⟨_, m, .child hc hm, hf⟩
    · rintro ⟨p, m, hm, hf⟩
      cases hm with
      | here => exact Or.inl hf
      | child hc hm => exact Or.inr ⟨_, hc, (ih _ hc).mpr ⟨_, m, hm, hf⟩⟩

/-! ### Merging -/

theorem label_mergeInto (n e : Node) : (mergeInto n e).label = e.label := by
  cases n <;> cases e <;> rfl

/-- A merged node has the existing children, or those of both nodes merged. -/
theorem children_mergeInto (n e : Node) : (mergeInto n e).children = e.children ∨
    (mergeInto n e).children = mergeAllInto n.children e.children := by
  cases n <;> cases e <;> simp [mergeInto, withHead, children]

/-- Two nodes of one kind are merged below as well. -/
theorem children_mergeInto_of_conforms {kindAt : List String → Kind} {n e : Node}
    (heq : e.name = n.name) (hn : n.Conforms kindAt) (he : e.Conforms kindAt) :
    (mergeInto n e).children = mergeAllInto n.children e.children := by
  cases n <;> cases e <;> simp_all [Conforms, name, mergeInto, withHead, children]

theorem Conforms.children {kindAt : List String → Kind} {n : Node} (h : n.Conforms kindAt) :
    ConformAll (kindAt <| n.name :: ·) n.children := by
  cases n with
  | leaf => exact conformAll_nil _
  | object | union => exact h.2

/-- The labels in a merged node are those in the nodes that were merged. -/
theorem hasLabel_of_mergeInto (n : Node) {e : Node} {p : List String} {l : Label}
    (heq : e.name = n.name) (h : (mergeInto n e).HasLabel p l) :
    e.HasLabel p l ∨ n.HasLabel p l := by
  induction n using induct generalizing e p with
  | h n ih =>
    have hname := name_mergeInto n e
    rcases h.cases with ⟨rfl, rfl⟩ | ⟨c, hc, q, rfl, hl⟩
    · rw [label_mergeInto, hname]
      exact Or.inl e.hasLabel_here
    · rw [hname]
      rcases children_mergeInto n e with hchildren | hchildren
      · rw [hchildren] at hc
        exact Or.inl (hl.child hc)
      · rw [hchildren] at hc
        rcases exists_mem_of_mergeAllInto (fun n' hn' e' heq' => ih n' hn' heq') ⟨c, hc, hl⟩ with
          ⟨v, hv, hl⟩ | ⟨v, hv, hl⟩
        · exact Or.inl (hl.child hv)
        · rw [heq]
          exact Or.inr (hl.child hv)

/-- The paths in nodes of the same kinds are all there when they are merged. -/
theorem hasPath_mergeInto {kindAt : List String → Kind} (n : Node) {e : Node} {p : List String}
    (heq : e.name = n.name) (hn : n.Conforms kindAt) (he : e.Conforms kindAt)
    (h : e.HasPath p ∨ n.HasPath p) : (mergeInto n e).HasPath p := by
  induction n using induct generalizing e p kindAt with
  | h n ih =>
    have hname := name_mergeInto n e
    have hchildren := children_mergeInto_of_conforms heq hn he
    have hbelow : ∀ q, (∃ c ∈ e.children, c.HasPath q) ∨ (∃ c ∈ n.children, c.HasPath q) →
        (mergeInto n e).HasPath (e.name :: q) := by
      intro q hq
      have hconforms : ConformAll (kindAt <| n.name :: ·) e.children := heq ▸ he.children
      obtain ⟨c, hc, hpath⟩ := exists_mem_mergeAllInto hn.children hconforms
        (fun n' hn' e' heq' hn'' he'' => ih n' hn' heq' hn'' he'') hq
      rw [← hchildren] at hc
      rw [← hname]
      exact hpath.child hc
    have hhere : (mergeInto n e).HasPath [e.name] := by
      rw [← hname]
      exact hasPath_here _
    rcases h with h | h
    · rcases h.cases with rfl | ⟨c, hc, q, rfl, hpath⟩
      · exact hhere
      · exact hbelow q (Or.inl ⟨c, hc, hpath⟩)
    · rcases h.cases with rfl | ⟨c, hc, q, rfl, hpath⟩
      · rw [← heq]
        exact hhere
      · rw [← heq]
        exact hbelow q (Or.inr ⟨c, hc, hpath⟩)

end Node

namespace Selected

variable {c : List Contribution} {p : List String}

/-- The labels in the shape of contributions are those in their nodes. -/
theorem exists_hasLabel_of_ofContributions {l : Node.Label} {n : Node}
    (hn : n ∈ (ofContributions c).nodes) (h : n.HasLabel p l) :
    ∃ v ∈ Contribution.nodesOf c, v.HasLabel p l := by
  rw [nodes_ofContributions] at hn
  have hmerged := Node.exists_mem_of_mergeAllInto
    (fun n _ _ heq => Node.hasLabel_of_mergeInto n heq) ⟨n, hn, h⟩
  exact hmerged.resolve_left (by simp)

/-- The shape of contributions of the same kinds has all paths in their nodes. -/
theorem exists_hasPath_ofContributions {kindAt : List String → Node.Kind}
    (hc : Contribution.Regular kindAt c) (h : ∃ n ∈ Contribution.nodesOf c, n.HasPath p) :
    ∃ n ∈ (ofContributions c).nodes, n.HasPath p := by
  rw [nodes_ofContributions]
  exact Node.exists_mem_mergeAllInto hc.conforms (Node.conformAll_nil _)
    (fun n _ _ heq hn he => Node.hasPath_mergeInto n heq hn he) (Or.inr h)

end Selected

end QueryBindings
