import QueryBindings.Proofs.Shape.Paths
import QueryBindings.Proofs.Shape.Rules
/-!
Well-formed shapes.

The names under which nodes are declared are made of their paths, and variants are told apart by
their tags, so every node has to say correctly where it stands. The nodes of one shape are made in
different places and then merged. Merging keeps the place of a node that is there and adds to the
nodes below it only what stands right there, and so shapes stay well formed.
-/
namespace QueryBindings

/-- No layer is said twice to be nullable. -/
def Modifier.Undoubled (l : List Modifier) : Prop := ¬ [nullable, nullable] <:+: l

theorem Modifier.undoubled_nil : Undoubled [] := by simp [Undoubled]

/-- No layer of an annotation is said twice to be nullable. -/
theorem TypeAnnotation.undoubled_modifiers (t : TypeAnnotation) :
    Modifier.Undoubled t.modifiers := by
  unfold Modifier.Undoubled
  induction t with
  | named name n => cases n <;> simp [nullableModifier, List.infix_cons_iff]
  | list item n ih => cases n <;> simpa [nullableModifier, List.infix_cons_iff] using ih

namespace Node

/-- What a node's place requires of it: its path, and that it is a variant or that it is none. A
variant is an object without modifiers and has its own name as its tag. -/
structure StandsAt (path : List String) (variant : Bool) (n : Node) : Prop where
  path : n.head.path = path
  typename : n.head.typename? = if variant then some n.name else none
  content : variant = true → n.content = .object
  modifiers : variant = true → n.head.modifiers = []

/-- What is required of a node and of the places of the nodes right below it. The variants of a
union, and no other nodes, stand there as variants. -/
structure Sound (n : Node) : Prop where
  fragments : n.head.fragments.Nodup
  modifiers : Modifier.Undoubled n.head.modifiers
  names : (n.children.map name).Nodup
  children : ∀ c ∈ n.children, c.StandsAt (n.head.path ++ [n.name]) (n.content = .union)

def WellFormed (n : Node) : Prop := ∀ p m, n.Leads p m → m.Sound

/-- Nodes at one place, each with a name of its own. -/
structure WellFormedAll (path : List String) (variants : Bool) (l : List Node) : Prop where
  names : (l.map name).Nodup
  standing : ∀ n ∈ l, n.StandsAt path variants
  wellFormed : ∀ n ∈ l, n.WellFormed

variable {n e : Node} {path : List String} {variant : Bool} {l : List Node}

theorem wellFormed_iff : n.WellFormed ↔ n.Sound ∧ ∀ c ∈ n.children, c.WellFormed := by
  constructor
  · intro h
    exact ⟨h _ n (.here n), fun c hc p m hm => h _ m (.child hc hm)⟩
  · rintro ⟨hn, hchildren⟩ p m hm
    cases hm with
    | here => exact hn
    | child hc hm => exact hchildren _ hc _ m hm

/-- A node is well formed if it is by itself and the nodes right below it are at their place. -/
theorem wellFormed_of_children (hf : n.head.fragments.Nodup)
    (hm : Modifier.Undoubled n.head.modifiers)
    (hc : WellFormedAll (n.head.path ++ [n.name]) (n.content = .union) n.children) :
    n.WellFormed :=
  wellFormed_iff.mpr ⟨⟨hf, hm, hc.names, hc.standing⟩, hc.wellFormed⟩

/-- What is below a well-formed node is well formed. -/
theorem WellFormed.children (h : n.WellFormed) :
    WellFormedAll (n.head.path ++ [n.name]) (n.content = .union) n.children := by
  obtain ⟨hsound, hbelow⟩ := wellFormed_iff.mp h
  exact ⟨hsound.names, hsound.children, hbelow⟩

theorem wellFormedAll_nil (path : List String) (variants : Bool) : WellFormedAll path variants [] :=
  ⟨by simp, by simp, by simp⟩

/-! ### Merging -/

theorem content_mergeInto (n e : Node) : (mergeInto n e).content = e.content :=
  congrArg Label.content (label_mergeInto n e)

/-- Below a node that another is merged into are its own children, merged with those of the other if
they hold the same. -/
theorem children_mergeInto_of_content (n e : Node) : (mergeInto n e).children = e.children ∨
    n.content = e.content ∧ (mergeInto n e).children = mergeAllInto n.children e.children := by
  cases n <;> cases e <;> simp [mergeInto, withHead, Node.children, content]

/-- A merged node stands where the existing one stood. -/
theorem StandsAt.mergeInto (n : Node) (he : e.StandsAt path variant) :
    (mergeInto n e).StandsAt path variant where
  path := by
    rw [head_mergeInto]
    exact he.path
  typename := by
    rw [name_mergeInto, head_mergeInto]
    exact he.typename
  content h := by
    rw [content_mergeInto]
    exact he.content h
  modifiers h := by
    rw [head_mergeInto]
    exact he.modifiers h

theorem forall_mem_mergeAllInto {p : Node → Prop} {incoming : List Node}
    (hm : ∀ n ∈ incoming, ∀ e : Node, e.name = n.name → p e → p (mergeInto n e))
    (hi : ∀ n ∈ incoming, p n) (hl : ∀ e ∈ l, p e) : ∀ v ∈ mergeAllInto incoming l, p v := by
  induction incoming generalizing l with
  | nil => simpa using hl
  | cons n rest ih =>
    obtain ⟨hmn, hmr⟩ := List.forall_mem_cons.mp hm
    obtain ⟨hn, hr⟩ := List.forall_mem_cons.mp hi
    rw [mergeAllInto_cons]
    exact ih hmr hr (forall_mem_mergeOne hl hn fun e he heq => hmn e heq (hl e he))

/-- Nodes that are merged at one place stay well formed there if single nodes do. -/
theorem WellFormedAll.of_mergeAllInto {incoming : List Node} (hl : WellFormedAll path variant l)
    (hs : ∀ n ∈ incoming, n.StandsAt path variant) (hw : ∀ n ∈ incoming, n.WellFormed)
    (hm : ∀ n ∈ incoming, ∀ e : Node, e.name = n.name → n.StandsAt path variant →
      e.StandsAt path variant → e.WellFormed → (mergeInto n e).WellFormed) :
    WellFormedAll path variant (mergeAllInto incoming l) := by
  have hboth : ∀ v ∈ mergeAllInto incoming l, v.StandsAt path variant ∧ v.WellFormed :=
    forall_mem_mergeAllInto
      (fun n hn e heq he => ⟨he.1.mergeInto n, hm n hn e heq (hs n hn) he.1 he.2⟩)
      (fun n hn => ⟨hs n hn, hw n hn⟩) (fun e he => ⟨hl.standing e he, hl.wellFormed e he⟩)
  refine ⟨?_, fun v hv => (hboth v hv).1, fun v hv => (hboth v hv).2⟩
  rw [map_name_mergeAllInto]
  exact Names.nodup_union hl.names _

/-- Two nodes at one place make a well-formed node. -/
theorem WellFormed.mergeInto (hn : n.WellFormed) (he : e.WellFormed) (hname : e.name = n.name)
    (hpath : e.head.path = n.head.path) : (mergeInto n e).WellFormed := by
  induction n using induct generalizing e with
  | h n ih =>
    have hhead := head_mergeInto n e
    refine wellFormed_of_children ?_ ?_ ?_
    · rw [hhead]
      exact Names.nodup_union (wellFormed_iff.mp he).1.fragments _
    · rw [hhead]
      exact (wellFormed_iff.mp he).1.modifiers
    · rw [name_mergeInto, content_mergeInto, hhead]
      rcases children_mergeInto_of_content n e with hchildren | ⟨hcontent, hchildren⟩
      · rw [hchildren]
        exact he.children
      · rw [hchildren]
        have hbelow := hn.children
        rw [← hname, ← hpath, hcontent] at hbelow
        refine he.children.of_mergeAllInto hbelow.standing hbelow.wellFormed ?_
        intro c hc c' hname' hs hs' hw
        exact ih c hc (hbelow.wellFormed c hc) hw hname' (hs'.path.trans hs.path.symm)

/-- Whatever well-formed nodes at one place are merged, they are well formed together. -/
theorem wellFormedAll_mergeAllInto_nil {incoming : List Node}
    (hs : ∀ n ∈ incoming, n.StandsAt path variant) (hw : ∀ n ∈ incoming, n.WellFormed) :
    WellFormedAll path variant (mergeAllInto incoming []) := by
  refine (wellFormedAll_nil path variant).of_mergeAllInto hs hw ?_
  intro n hn e hname hs' hs'' he
  exact (hw n hn).mergeInto he hname (hs''.path.trans hs'.path.symm)

end Node

/-! ### Selections -/

open Contribution (nodesOf)

/-- The nodes that contributions bring are well formed where they stand. -/
structure Contribution.WellFormed (path : List String) (variants : Bool) (c : List Contribution) :
    Prop where
  standing : ∀ n ∈ nodesOf c, n.StandsAt path variants
  wellFormed : ∀ n ∈ nodesOf c, n.WellFormed

namespace Contribution

variable {path : List String} {variants : Bool} {a b : List Contribution}

theorem wellFormed_nil (path : List String) (variants : Bool) : WellFormed path variants [] :=
  ⟨by simp, by simp⟩

theorem wellFormed_spread (path : List String) (variants : Bool) (f : String) :
    WellFormed path variants [.spread f] := ⟨by simp, by simp⟩

theorem wellFormed_node {n : Node} (hs : n.StandsAt path variants) (hw : n.WellFormed) :
    WellFormed path variants [.node n] := ⟨by simpa using hs, by simpa using hw⟩

theorem WellFormed.append (ha : WellFormed path variants a) (hb : WellFormed path variants b) :
    WellFormed path variants (a ++ b) where
  standing := by
    rw [nodesOf_append]
    exact List.forall_mem_append.mpr ⟨ha.standing, hb.standing⟩
  wellFormed := by
    rw [nodesOf_append]
    exact List.forall_mem_append.mpr ⟨ha.wellFormed, hb.wellFormed⟩

/-- Merged contributions are well formed, and record no fragment twice. -/
theorem WellFormed.ofContributions (h : WellFormed path variants a) :
    Node.WellFormedAll path variants (Selected.ofContributions a).nodes := by
  rw [Selected.nodes_ofContributions]
  exact Node.wellFormedAll_mergeAllInto_nil h.standing h.wellFormed

end Contribution

/-- A shape records every fragment once. -/
theorem Selected.nodup_fragments (c : List Contribution) :
    (Selected.ofContributions c).fragments.Nodup := by
  rw [Selected.fragments_ofContributions]
  exact Names.nodup_union List.nodup_nil _

namespace Node

variable {path : List String} {name : String}

theorem wellFormed_leaf {h : NodeHead} {text : String} (hf : h.fragments.Nodup)
    (hm : Modifier.Undoubled h.modifiers) : (leaf h text).WellFormed :=
  wellFormed_of_children hf hm (wellFormedAll_nil _ _)

theorem standsAt_field {n : Node} {f : Field} {fragments : List String}
    (h : n.head = fieldHead path name f fragments) : n.StandsAt path false := by
  refine ⟨?_, ?_, by simp, by simp⟩ <;> rw [h] <;> rfl

theorem standsAt_variant (path : List String) (member : String) (selected : Selected) :
    (variant path member selected).StandsAt path true :=
  ⟨rfl, rfl, fun _ => rfl, fun _ => rfl⟩

/-- The variant of a well-formed shape is well formed. -/
theorem wellFormed_variant {member : String} {selected : Selected}
    (hf : selected.fragments.Nodup)
    (h : WellFormedAll (path ++ [member]) false selected.nodes) :
    (variant path member selected).WellFormed :=
  wellFormed_of_children hf Modifier.undoubled_nil h

end Node

namespace Scope

variable {s : Scope}

/-- Whatever selections contribute is well formed. -/
theorem wellFormed (s : Scope) : s.Invariant
    (fun _ path _ c => Contribution.WellFormed path false c)
    (fun _ path _ c => Contribution.WellFormed path true c) where
  nil := by
    intro t path
    exact Contribution.wellFormed_nil path false
  cons := by
    intro t path x l c c' hx hl
    exact hx.append hl
  spread := by
    intro t path p f d
    exact Contribution.wellFormed_spread path false f
  typename := by
    intro t path p alias? a d l
    refine Contribution.wellFormed_node ⟨rfl, rfl, by simp, by simp⟩ ?_
    exact Node.wellFormed_leaf List.nodup_nil Modifier.undoubled_nil
  leaf := by
    intro t path p alias? name a d l f type text _ _ _ _ _
    refine Contribution.wellFormed_node (Node.standsAt_field rfl) ?_
    exact Node.wellFormed_leaf List.nodup_nil f.type.undoubled_modifiers
  object := by
    intro t path p alias? name a d l f o c _ _ _ ih
    refine Contribution.wellFormed_node (Node.standsAt_field rfl) ?_
    exact Node.wellFormed_of_children (Selected.nodup_fragments c) f.type.undoubled_modifiers
      ih.ofContributions
  union := by
    intro t path p alias? name a d l f u c _ _ _ ih
    refine Contribution.wellFormed_node (Node.standsAt_field rfl) ?_
    exact Node.wellFormed_of_children (Selected.nodup_fragments c) f.type.undoubled_modifiers
      ih.ofContributions
  unionNil := by
    intro u path
    exact Contribution.wellFormed_nil path true
  unionCons := by
    intro u path x l c c' hx hl
    exact hx.append hl
  unionTypename := by
    intro u path p alias? a d l
    exact Contribution.wellFormed_nil path true
  unselected := by
    intro u path p condition? d l _
    exact Contribution.wellFormed_nil path true
  unionSpread := by
    intro u path p f d _
    exact Contribution.wellFormed_spread path true f
  spreadMember := by
    intro u path p f d member t _ _
    refine Contribution.WellFormed.append (a := [_]) ?_ (Contribution.wellFormed_spread path true f)
    refine Contribution.wellFormed_node (Node.standsAt_variant path member _) ?_
    exact Node.wellFormed_variant (by simp) (Node.wellFormedAll_nil _ _)
  variant := by
    intro u path p member d l t c _ _ _ ih
    refine Contribution.wellFormed_node (Node.standsAt_variant path member _) ?_
    exact Node.wellFormed_variant (Selected.nodup_fragments c) ih.ofContributions

/-- The shape of any selections is well formed, and records no fragment twice. -/
theorem wellFormed_of_selectOnObject {t : FieldedType} {path : List String} {l : List Selection}
    {shape : Selected} (h : s.selectOnObject t path l = .ok shape) :
    shape.fragments.Nodup ∧ Node.WellFormedAll path false shape.nodes := by
  rw [← Except.toOption_eq_some, toOption_selectOnObject] at h
  obtain ⟨c, hc, rfl⟩ := Option.map_eq_some_iff.mp h
  exact ⟨Selected.nodup_fragments c, (s.wellFormed.of_parts l t path c hc).ofContributions⟩

end Scope

end QueryBindings
