import QueryBindings.Proofs.Shape.Rules
/-!
How shapes depend on the type conditions of fragments.

Resolving a selection asks for a condition only where a fragment is spread into a union. Conditions
that are the same for every fragment give the same shapes. Further fragments may change shapes:
a spread of one of them then selects a variant. But the spread is recorded on the union as well, so
a shape that records only fragments that were known before is not changed.

Merging drops what stands below a node of another kind, so a shape need not record all fragments that
its selections spread. This is why shapes are compared node by node, and variants are compared only
where their union records no unknown fragment.
-/
namespace QueryBindings

namespace Node

mutual

/-- The nodes are the same, except for the variants of unions that record fragments not known. -/
def Alike (known : String → Prop) : Node → Node → Prop
  | leaf h text, n => n = leaf h text
  | object h fields, n => ∃ fields', n = object h fields' ∧ AlikeAll known fields fields'
  | union h variants, n => ∃ variants', n = union h variants' ∧
      ((∀ f ∈ h.fragments, known f) → AlikeAll known variants variants')

def AlikeAll (known : String → Prop) : List Node → List Node → Prop
  | [], l => l = []
  | n :: rest, l => ∃ n' rest', l = n' :: rest' ∧ n.Alike known n' ∧ AlikeAll known rest rest'

end

variable {known : String → Prop}

theorem alikeAll_nil : AlikeAll known [] [] := by simp [AlikeAll]

theorem AlikeAll.cons {n n' : Node} {l l' : List Node} (hn : n.Alike known n')
    (hl : AlikeAll known l l') : AlikeAll known (n :: l) (n' :: l') := by
  rw [AlikeAll]
  exact ⟨n', l', rfl, hn, hl⟩

theorem AlikeAll.append {a a' b b' : List Node} (ha : AlikeAll known a a')
    (hb : AlikeAll known b b') : AlikeAll known (a ++ b) (a' ++ b') := by
  induction a generalizing a' with
  | nil =>
    rw [AlikeAll] at ha
    rw [ha]
    exact hb
  | cons n a ih =>
    rw [AlikeAll] at ha
    obtain ⟨n', rest', rfl, hn, hrest⟩ := ha
    exact (ih hrest).cons hn

theorem Alike.head {n n' : Node} (h : n.Alike known n') : n'.head = n.head := by
  cases n with
  | leaf =>
    rw [Alike] at h
    rw [h]
  | object | union =>
    rw [Alike] at h
    obtain ⟨_, rfl, _⟩ := h
    rfl

mutual

/-- Nodes are the same if no unknown fragment is recorded in one of them. -/
theorem eq_of_alike : (n n' : Node) → n.Alike known n' → (∀ f ∈ n.fragmentNames, known f) → n' = n
  | leaf _ _, n', h, _ => by
    rw [Alike] at h
    exact h
  | object h fields, n', hn, hknown => by
    rw [Alike] at hn
    obtain ⟨fields', rfl, hfields⟩ := hn
    rw [fragmentNames, List.forall_mem_append] at hknown
    rw [eq_of_alikeAll fields fields' hfields hknown.2]
  | union h variants, n', hn, hknown => by
    rw [Alike] at hn
    obtain ⟨variants', rfl, hvariants⟩ := hn
    rw [fragmentNames, List.forall_mem_append] at hknown
    rw [eq_of_alikeAll variants variants' (hvariants hknown.1) hknown.2]

/-- Nodes that are alike are the same if they record known fragments only. -/
theorem eq_of_alikeAll : (l l' : List Node) → AlikeAll known l l' →
    (∀ f ∈ fragmentNamesOf l, known f) → l' = l
  | [], l', h, _ => by
    rw [AlikeAll] at h
    exact h
  | n :: rest, l', h, hknown => by
    rw [AlikeAll] at h
    obtain ⟨n', rest', rfl, hn, hrest⟩ := h
    rw [fragmentNamesOf, List.forall_mem_append] at hknown
    rw [eq_of_alike n n' hn hknown.1, eq_of_alikeAll rest rest' hrest hknown.2]

end

/-! ### Merging -/

/-- Recording more fragments keeps nodes alike. -/
theorem Alike.addFragments {e e' : Node} (h : e.Alike known e') (names : List String) :
    (e.withHead (e.head.addFragments names)).Alike known
      (e'.withHead (e'.head.addFragments names)) := by
  cases e with
  | leaf =>
    rw [Alike] at h
    simp [h, withHead, Alike]
  | object =>
    rw [Alike] at h
    obtain ⟨fields', rfl, hfields⟩ := h
    simp only [withHead, head_object, Alike]
    exact ⟨fields', rfl, hfields⟩
  | union =>
    rw [Alike] at h
    obtain ⟨variants', rfl, hvariants⟩ := h
    simp only [withHead, head_union, Alike]
    refine ⟨variants', rfl, fun hknown => hvariants fun f hf => hknown f ?_⟩
    exact Names.mem_union.mpr (Or.inl hf)

theorem alikeAll_mergeOne {n n' : Node} {l l' : List Node} (hl : AlikeAll known l l')
    (hn : n.Alike known n') (hm : ∀ e e' : Node, e.Alike known e' →
      (mergeInto n e).Alike known (mergeInto n' e')) :
    AlikeAll known (mergeOne l n) (mergeOne l' n') := by
  induction l generalizing l' with
  | nil =>
    rw [AlikeAll] at hl
    rw [hl]
    exact alikeAll_nil.cons hn
  | cons e rest ih =>
    rw [AlikeAll] at hl
    obtain ⟨e', rest', rfl, he, hrest⟩ := hl
    have hname : e'.name = n'.name ↔ e.name = n.name := by simp only [name, he.head, hn.head]
    by_cases h : e.name = n.name
    · rw [mergeOne_cons_of_eq rest h, mergeOne_cons_of_eq rest' (hname.mpr h)]
      exact hrest.cons (hm e e' he)
    · rw [mergeOne_cons_of_ne rest h, mergeOne_cons_of_ne rest' (fun h' => h (hname.mp h'))]
      exact (ih hrest).cons he

mutual

/-- Merging keeps nodes alike. -/
theorem alike_mergeInto : (n n' e e' : Node) → n.Alike known n' → e.Alike known e' →
    (mergeInto n e).Alike known (mergeInto n' e')
  | leaf h text, n', e, e', hn, he => by
    rw [Alike] at hn
    rw [hn, mergeInto, mergeInto]
    exact he.addFragments h.fragments
  | object h fields, n', e, e', hn, he => by
    rw [Alike] at hn
    obtain ⟨fields', rfl, hfields⟩ := hn
    have hhead := he.addFragments h.fragments
    cases e with
    | leaf =>
      rw [Alike] at he
      rw [he] at hhead ⊢
      simpa only [mergeInto] using hhead
    | union =>
      rw [Alike] at he
      obtain ⟨variants', rfl, -⟩ := he
      simpa only [mergeInto] using hhead
    | object g below =>
      rw [Alike] at he
      obtain ⟨below', rfl, hbelow⟩ := he
      simp only [mergeInto, Alike]
      exact ⟨_, rfl, alikeAll_mergeAllInto fields fields' below below' hfields hbelow⟩
  | union h variants, n', e, e', hn, he => by
    rw [Alike] at hn
    obtain ⟨variants', rfl, hvariants⟩ := hn
    have hhead := he.addFragments h.fragments
    cases e with
    | leaf =>
      rw [Alike] at he
      rw [he] at hhead ⊢
      simpa only [mergeInto] using hhead
    | object =>
      rw [Alike] at he
      obtain ⟨fields', rfl, -⟩ := he
      simpa only [mergeInto] using hhead
    | union g below =>
      rw [Alike] at he
      obtain ⟨below', rfl, hbelow⟩ := he
      simp only [mergeInto, Alike]
      refine ⟨_, rfl, fun hknown => ?_⟩
      -- The merged union records the fragments of both.
      have hincoming := hvariants fun f hf => hknown f (Names.mem_union.mpr (Or.inr hf))
      have hexisting := hbelow fun f hf => hknown f (Names.mem_union.mpr (Or.inl hf))
      exact alikeAll_mergeAllInto variants variants' below below' hincoming hexisting

theorem alikeAll_mergeAllInto : (incoming incoming' l l' : List Node) →
    AlikeAll known incoming incoming' → AlikeAll known l l' →
    AlikeAll known (mergeAllInto incoming l) (mergeAllInto incoming' l')
  | [], incoming', l, l', hi, hl => by
    rw [AlikeAll] at hi
    simpa [hi] using hl
  | n :: rest, incoming', l, l', hi, hl => by
    rw [AlikeAll] at hi
    obtain ⟨n', rest', rfl, hn, hrest⟩ := hi
    rw [mergeAllInto_cons, mergeAllInto_cons]
    apply alikeAll_mergeAllInto rest rest' _ _ hrest
    exact alikeAll_mergeOne hl hn fun e e' he => alike_mergeInto n n' e e' hn he

end

end Node

open Node (AlikeAll)

/-! ### Contributions -/

namespace Contribution

variable {known : String → Prop}

/-- Contributions that spread the same fragments and have the same nodes, up to unknown fragments.
`shown` says when the nodes are to be compared. -/
structure Alike (known : String → Prop) (shown : Prop) (c c' : List Contribution) : Prop where
  spreads : spreadsOf c' = spreadsOf c
  nodes : shown → AlikeAll known (nodesOf c) (nodesOf c')

abbrev AlikeOnObject (known : String → Prop) (c c' : List Contribution) : Prop :=
  Alike known True c c'

/-- Contributions to a union: an unknown fragment that is spread into it may select a variant. -/
abbrev AlikeOnUnion (known : String → Prop) (c c' : List Contribution) : Prop :=
  Alike known (∀ f ∈ spreadsOf c, known f) c c'

theorem Alike.append {first second both : Prop} {a a' b b' : List Contribution}
    (ha : Alike known first a a') (hb : Alike known second b b') (h : both → first ∧ second) :
    Alike known both (a ++ b) (a' ++ b') where
  spreads := by rw [spreadsOf_append, spreadsOf_append, ha.spreads, hb.spreads]
  nodes hboth := by
    rw [nodesOf_append, nodesOf_append]
    exact (ha.nodes (h hboth).1).append (hb.nodes (h hboth).2)

theorem alike_of_node {shown : Prop} {n n' : Node} (h : n.Alike known n') :
    Alike known shown [.node n] [.node n'] where
  spreads := rfl
  nodes _ := Node.alikeAll_nil.cons h

theorem alike_of_spread {shown : Prop} (f : String) :
    Alike known shown [.spread f] [.spread f] where
  spreads := rfl
  nodes _ := Node.alikeAll_nil

theorem alike_nil {shown : Prop} : Alike known shown [] [] where
  spreads := rfl
  nodes _ := Node.alikeAll_nil

variable {shown : Prop} {c c' : List Contribution}

/-- Alike contributions spread the same fragments. -/
theorem Alike.fragments (h : Alike known shown c c') :
    (Selected.ofContributions c').fragments = (Selected.ofContributions c).fragments := by
  rw [Selected.fragments_ofContributions, Selected.fragments_ofContributions, h.spreads]

/-- Alike contributions merge into alike nodes. -/
theorem Alike.merged (h : Alike known shown c c') (hs : shown) :
    AlikeAll known (Selected.ofContributions c).nodes (Selected.ofContributions c').nodes := by
  rw [Selected.nodes_ofContributions, Selected.nodes_ofContributions]
  exact Node.alikeAll_mergeAllInto _ _ [] [] (h.nodes hs) Node.alikeAll_nil

end Contribution

/-! ### Scopes -/

namespace Scope

def withConditions (s : Scope) (conditions : List (String × String)) : Scope :=
  { s with conditions := conditions }

def Knows (s : Scope) (fragment : String) : Prop :=
  ∃ condition, s.conditions.lookup fragment = some condition

variable {s : Scope} {conditions : List (String × String)}

theorem parts?_field {t : FieldedType} {name : String} {type : SchemaType} {f : Field}
    (ht : s.schema.fieldType? t name = some type) (hf : t.field? name = some f)
    (path : List String) (p : Position) (alias? : Option String) (a : List Argument)
    (d : List Directive) (l : List Selection) :
    s.parts? t path [.field p alias? name a d l] =
      (s.typedNode? path (alias?.getD name) f type l).map fun n => [.node n] := by
  have hn : name ≠ "__typename" := by
    rintro rfl
    simp [Schema.fieldType?_typename] at ht
  simp only [Schema.fieldType?, hn, if_false, hf, Option.bind_some] at ht
  simp only [parts?_cons, part?_field, fieldNode?, hn, if_false, hf, ht, Option.bind_some, parts?_nil]
  cases s.typedNode? path (alias?.getD name) f type l <;> rfl

/-- Selections on an object are resolved one after the other. -/
theorem parts?_cons_eq_some {t : FieldedType} {path : List String} {x : Selection}
    {l : List Selection} {c : List Contribution} (h : s.parts? t path (x :: l) = some c) :
    ∃ a b, s.parts? t path [x] = some a ∧ s.parts? t path l = some b ∧ c = a ++ b := by
  rw [← List.singleton_append, parts?_append] at h
  obtain ⟨a, ha, h⟩ := Option.bind_eq_some_iff.mp h
  obtain ⟨b, hb, rfl⟩ := Option.map_eq_some_iff.mp h
  exact ⟨a, b, ha, hb, rfl⟩

theorem unionParts?_cons_eq_some {u : UnionType} {path : List String} {x : Selection}
    {l : List Selection} {c : List Contribution} (h : s.unionParts? u path (x :: l) = some c) :
    ∃ a b, s.unionParts? u path [x] = some a ∧ s.unionParts? u path l = some b ∧ c = a ++ b := by
  rw [← List.singleton_append, unionParts?_append] at h
  obtain ⟨a, ha, h⟩ := Option.bind_eq_some_iff.mp h
  obtain ⟨b, hb, rfl⟩ := Option.map_eq_some_iff.mp h
  exact ⟨a, b, ha, hb, rfl⟩

theorem unionParts?_singleton (u : UnionType) (path : List String) (x : Selection) :
    s.unionParts? u path [x] = s.unionPart? u path x := by
  rw [unionParts?_cons, unionParts?_nil]
  cases s.unionPart? u path x <;> simp

/-- A spread that selects a member has a condition. -/
theorem knows_of_spreadMember? {u : UnionType} {f member : String}
    (h : s.spreadMember? u f = some member) : s.Knows f :=
  ⟨member, Option.eq_some_of_filter_eq_some h⟩

/-- Further conditions don't change what a known fragment selects. -/
theorem spreadMember?_of_knows (h : ∀ f condition, s.conditions.lookup f = some condition →
    conditions.lookup f = some condition) (u : UnionType) {f : String} (hf : s.Knows f) :
    (s.withConditions conditions).spreadMember? u f = s.spreadMember? u f := by
  obtain ⟨condition, hf⟩ := hf
  simp only [spreadMember?, withConditions, hf, h f condition hf]

/-- Where conditions are known already, further ones change nothing but what unknown fragments
select. -/
theorem alike_withConditions (h : ∀ f condition, s.conditions.lookup f = some condition →
      conditions.lookup f = some condition) : s.Invariant
    (fun t path l c => ∀ c', (s.withConditions conditions).parts? t path l = some c' →
      Contribution.AlikeOnObject s.Knows c c')
    (fun u path l c => ∀ c', (s.withConditions conditions).unionParts? u path l = some c' →
      Contribution.AlikeOnUnion s.Knows c c') where
  nil := by
    intro t path c' hc'
    rw [parts?_nil, Option.some.injEq] at hc'
    exact hc' ▸ Contribution.alike_nil
  cons := by
    intro t path x l a b ha hb c' hc'
    obtain ⟨a', b', ha', hb', rfl⟩ := parts?_cons_eq_some hc'
    exact (ha a' ha').append (hb b' hb') fun _ => ⟨trivial, trivial⟩
  spread := by
    intro t path p f d c' hc'
    simp only [parts?_cons, part?_spread, parts?_nil, Option.bind_some, Option.map_some,
      List.append_nil, Option.some.injEq] at hc'
    exact hc' ▸ Contribution.alike_of_spread f
  typename := by
    intro t path p alias? a d l c' hc'
    simp only [parts?_cons, part?_field, fieldNode?, if_true, parts?_nil, Option.bind_some,
      Option.map_some, List.append_nil, Option.some.injEq] at hc'
    exact hc' ▸ Contribution.alike_of_node (by simp [Node.ofTypename, Node.Alike])
  leaf := by
    intro t path p alias? name a d l f type text ht ho hu hf htext c' hc'
    have ht' : (s.withConditions conditions).schema.fieldType? t name = some type := ht
    rw [parts?_field ht' hf] at hc'
    obtain ⟨n, hn, rfl⟩ := Option.map_eq_some_iff.mp hc'
    rcases typedNode?_eq_some hn with ⟨o, _, rfl, -⟩ | ⟨u, _, rfl, -⟩ | ⟨text', -, -, htext', rfl⟩
    · exact absurd rfl (ho o)
    · exact absurd rfl (hu u)
    · rw [show (s.withConditions conditions).config = s.config from rfl, htext,
        Option.some.injEq] at htext'
      exact Contribution.alike_of_node (by simp [htext', Node.Alike])
  object := by
    intro t path p alias? name a d l f o c ht hf hc ih c' hc'
    have ht' : (s.withConditions conditions).schema.fieldType? t name = some (.object o) := ht
    rw [parts?_field ht' hf] at hc'
    obtain ⟨n, hn, rfl⟩ := Option.map_eq_some_iff.mp hc'
    obtain ⟨shape, hshape, rfl⟩ := Option.map_eq_some_iff.mp hn
    obtain ⟨parts, hparts, rfl⟩ := Option.map_eq_some_iff.mp hshape
    have halike := ih parts hparts
    apply Contribution.alike_of_node
    rw [Node.Alike, halike.fragments]
    exact ⟨_, rfl, halike.merged trivial⟩
  union := by
    intro t path p alias? name a d l f u c ht hf hc ih c' hc'
    have ht' : (s.withConditions conditions).schema.fieldType? t name = some (.union u) := ht
    rw [parts?_field ht' hf] at hc'
    obtain ⟨n, hn, rfl⟩ := Option.map_eq_some_iff.mp hc'
    obtain ⟨shape, hshape, rfl⟩ := Option.map_eq_some_iff.mp hn
    obtain ⟨parts, hparts, rfl⟩ := Option.map_eq_some_iff.mp hshape
    have halike := ih parts hparts
    apply Contribution.alike_of_node
    rw [Node.Alike, halike.fragments]
    refine ⟨_, rfl, fun hknown => halike.merged fun f hf => hknown f ?_⟩
    rw [Node.fieldHead, Selected.fragments_ofContributions]
    exact Names.mem_union.mpr (Or.inr hf)
  unionNil := by
    intro u path c' hc'
    rw [unionParts?_nil, Option.some.injEq] at hc'
    exact hc' ▸ Contribution.alike_nil
  unionCons := by
    intro u path x l a b ha hb c' hc'
    obtain ⟨a', b', ha', hb', rfl⟩ := unionParts?_cons_eq_some hc'
    refine (ha a' ha').append (hb b' hb') fun hknown => ?_
    rwa [Contribution.spreadsOf_append, List.forall_mem_append] at hknown
  unionTypename := by
    intro u path p alias? a d l c' hc'
    simp only [unionParts?_singleton, unionPart?_field, if_true, Option.some.injEq] at hc'
    exact hc' ▸ Contribution.alike_nil
  unselected := by
    intro u path p condition? d l hm c' hc'
    rw [unionParts?_singleton] at hc'
    cases condition? with
    | none =>
      rw [unionPart?_inline_none, Option.some.injEq] at hc'
      exact hc' ▸ Contribution.alike_nil
    | some member =>
      simp only [unionPart?_inline_some, hm member rfl, Bool.false_eq_true, if_false,
        Option.some.injEq] at hc'
      exact hc' ▸ Contribution.alike_nil
  unionSpread := by
    intro u path p f d hm c' hc'
    rw [unionParts?_singleton, unionPart?_spread] at hc'
    cases hm' : (s.withConditions conditions).spreadMember? u f with
    | none =>
      simp only [hm', Option.some.injEq] at hc'
      exact hc' ▸ Contribution.alike_of_spread f
    | some member =>
      simp only [hm', Option.map_eq_some_iff] at hc'
      obtain ⟨t, -, rfl⟩ := hc'
      refine ⟨rfl, fun hknown => ?_⟩
      have hsame := spreadMember?_of_knows h u (hknown f (by simp))
      rw [hm, hm'] at hsame
      exact absurd hsame (by simp)
  spreadMember := by
    intro u path p f d member t hm ht c' hc'
    have hm' := (spreadMember?_of_knows h u (knows_of_spreadMember? hm)).trans hm
    have ht' : (s.withConditions conditions).schema.object? member = some t := ht
    simp only [unionParts?_singleton, unionPart?_spread, hm', ht', Option.map_some,
      Option.some.injEq] at hc'
    subst hc'
    refine ⟨rfl, fun _ => Node.alikeAll_nil.cons ?_⟩
    simp [Node.variant, Node.Alike, Node.alikeAll_nil]
  variant := by
    intro u path p member d l t c hm ht hc ih c' hc'
    have ht' : (s.withConditions conditions).schema.object? member = some t := ht
    simp only [unionParts?_singleton, unionPart?_inline_some, hm, if_true, inlineVariant?, ht',
      Option.bind_some, Option.map_eq_some_iff] at hc'
    obtain ⟨n, ⟨shape, hshape, rfl⟩, rfl⟩ := hc'
    obtain ⟨parts, hparts, rfl⟩ := Option.map_eq_some_iff.mp hshape
    have halike := ih parts hparts
    apply Contribution.alike_of_node
    rw [Node.variant, Node.Alike, Node.variant, halike.fragments]
    exact ⟨_, rfl, halike.merged trivial⟩

/-- Further conditions don't change a shape that records known fragments only. -/
theorem selectOnObject_withConditions (h : ∀ f condition,
      s.conditions.lookup f = some condition → conditions.lookup f = some condition)
    {t : FieldedType} {path : List String} {l : List Selection} {shape shape' : Selected}
    (hs : s.selectOnObject t path l = .ok shape)
    (hs' : (s.withConditions conditions).selectOnObject t path l = .ok shape')
    (hknown : ∀ f ∈ Node.fragmentNamesOf shape.nodes, s.Knows f) : shape' = shape := by
  rw [← Except.toOption_eq_some, toOption_selectOnObject] at hs hs'
  obtain ⟨c, hc, rfl⟩ := Option.map_eq_some_iff.mp hs
  obtain ⟨c', hc', rfl⟩ := Option.map_eq_some_iff.mp hs'
  have halike := (alike_withConditions h).of_parts l t path c hc c' hc'
  have hnodes := Node.eq_of_alikeAll _ _ (halike.merged trivial) hknown
  have hfragments := halike.fragments
  cases hshape : Selected.ofContributions c
  cases hshape' : Selected.ofContributions c'
  simp only [hshape, hshape'] at hnodes hfragments
  rw [hnodes, hfragments]

/-! ### The same conditions -/

theorem spreadMember?_congr (h : ∀ f, conditions.lookup f = s.conditions.lookup f)
    (u : UnionType) (f : String) :
    (s.withConditions conditions).spreadMember? u f = s.spreadMember? u f := by
  simp only [spreadMember?, withConditions, h]

mutual

/-- Resolution depends on what is found in the conditions only. -/
theorem onObject_congr (h : ∀ f, conditions.lookup f = s.conditions.lookup f) :
    (x : Selection) → (t : FieldedType) → (path : List String) →
    (s.withConditions conditions).onObject t path x = s.onObject t path x
  | .inline _ _ _ _, t, path => by
    simp only [onObject]
    rfl
  | .spread _ _ _, t, path => by simp only [onObject]
  | .field p alias? name a d l, t, path => by
    simp only [onObject, onObjectAll_congr h l, onUnionAll_congr h l]
    rfl

theorem onObjectAll_congr (h : ∀ f, conditions.lookup f = s.conditions.lookup f) :
    (l : List Selection) → (t : FieldedType) → (path : List String) →
    (s.withConditions conditions).onObjectAll t path l = s.onObjectAll t path l
  | [], t, path => by simp only [onObjectAll]
  | x :: l, t, path => by simp only [onObjectAll, onObject_congr h x, onObjectAll_congr h l]

theorem onUnion_congr (h : ∀ f, conditions.lookup f = s.conditions.lookup f) :
    (x : Selection) → (u : UnionType) → (path : List String) →
    (s.withConditions conditions).onUnion u path x = s.onUnion u path x
  | .inline _ none _ _, u, path => by simp only [onUnion]
  | .inline p (some member) _ l, u, path => by
    simp only [onUnion, onObjectAll_congr h l]
    rfl
  | .spread p f _, u, path => by
    simp only [onUnion, spreadMember?_congr h]
    rfl
  | .field _ _ _ _ _ _, u, path => by
    simp only [onUnion]
    rfl

theorem onUnionAll_congr (h : ∀ f, conditions.lookup f = s.conditions.lookup f) :
    (l : List Selection) → (u : UnionType) → (path : List String) →
    (s.withConditions conditions).onUnionAll u path l = s.onUnionAll u path l
  | [], u, path => by simp only [onUnionAll]
  | x :: l, u, path => by simp only [onUnionAll, onUnion_congr h x, onUnionAll_congr h l]

end

/-- Shapes don't depend on how conditions are listed. -/
theorem selectOnObject_congr (h : ∀ f, conditions.lookup f = s.conditions.lookup f)
    (t : FieldedType) (path : List String) (l : List Selection) :
    (s.withConditions conditions).selectOnObject t path l = s.selectOnObject t path l := by
  simp only [selectOnObject, onObjectAll_congr h]

end Scope

end QueryBindings
