import QueryBindings.Proofs.Shape.Resolution
/-!
Induction on how selections are resolved.

Every selection is resolved by one of a few rules: a spread is recorded, a field becomes a leaf or
takes what the selections below it contribute, and on a union a member's selections become a
variant or are left out. What all rules preserve holds of all selections that are resolved.
-/
namespace QueryBindings.Scope

open Node (ofTypename fieldHead variant)

/-- Two properties of selections and what they contribute, one for objects and one for unions, that
every rule of resolution preserves. -/
structure Invariant (s : Scope)
    (onObject : FieldedType → List String → List Selection → List Contribution → Prop)
    (onUnion : UnionType → List String → List Selection → List Contribution → Prop) : Prop where
  nil : ∀ t path, onObject t path [] []
  cons : ∀ t path x l c c', onObject t path [x] c → onObject t path l c' →
    onObject t path (x :: l) (c ++ c')
  spread : ∀ t path p f d, onObject t path [.spread p f d] [.spread f]
  typename : ∀ t path p alias? a d l, onObject t path [.field p alias? "__typename" a d l]
    [.node (ofTypename path (alias?.getD "__typename") t.name)]
  leaf : ∀ t path p alias? name a d l f type text, s.schema.fieldType? t name = some type →
    (∀ o, type ≠ .object o) → (∀ u, type ≠ .union u) → t.field? name = some f →
    type.leafType? s.config = some text →
    onObject t path [.field p alias? name a d l]
      [.node (.leaf (fieldHead path (alias?.getD name) f []) text)]
  object : ∀ t path p alias? name a d l f o c, s.schema.fieldType? t name = some (.object o) →
    t.field? name = some f → s.parts? o (path ++ [alias?.getD name]) l = some c →
    onObject o (path ++ [alias?.getD name]) l c →
    onObject t path [.field p alias? name a d l]
      [.node (.object (fieldHead path (alias?.getD name) f (Selected.ofContributions c).fragments)
        (Selected.ofContributions c).nodes)]
  union : ∀ t path p alias? name a d l f u c, s.schema.fieldType? t name = some (.union u) →
    t.field? name = some f → s.unionParts? u (path ++ [alias?.getD name]) l = some c →
    onUnion u (path ++ [alias?.getD name]) l c →
    onObject t path [.field p alias? name a d l]
      [.node (.union (fieldHead path (alias?.getD name) f (Selected.ofContributions c).fragments)
        (Selected.ofContributions c).nodes)]
  unionNil : ∀ u path, onUnion u path [] []
  unionCons : ∀ u path x l c c', onUnion u path [x] c → onUnion u path l c' →
    onUnion u path (x :: l) (c ++ c')
  unionTypename : ∀ u path p alias? a d l, onUnion u path [.field p alias? "__typename" a d l] []
  unselected : ∀ u path p condition? d l, (∀ m ∈ condition?, u.members.contains m = false) →
    onUnion u path [.inline p condition? d l] []
  unionSpread : ∀ u path p f d, s.spreadMember? u f = none →
    onUnion u path [.spread p f d] [.spread f]
  spreadMember : ∀ u path p f d member t, s.spreadMember? u f = some member →
    s.schema.object? member = some t →
    onUnion u path [.spread p f d] [.node (variant path member ⟨[], [f]⟩), .spread f]
  variant : ∀ u path p member d l t c, u.members.contains member = true →
    s.schema.object? member = some t → s.parts? t (path ++ [member]) l = some c →
    onObject t (path ++ [member]) l c →
    onUnion u path [.inline p (some member) d l]
      [.node (variant path member (Selected.ofContributions c))]

namespace Invariant

variable {s : Scope}
  {onObject : FieldedType → List String → List Selection → List Contribution → Prop}
  {onUnion : UnionType → List String → List Selection → List Contribution → Prop}

mutual

/-- An invariant holds for every selection on an object that is resolved. -/
theorem of_part (h : s.Invariant onObject onUnion) : (x : Selection) → (t : FieldedType) →
    (path : List String) → (c : List Contribution) → s.part? t path x = some c →
    onObject t path [x] c
  | .inline _ _ _ _, _, _, _, hx => by simp at hx
  | .spread p f d, t, path, c, hx => by
    simp only [part?_spread, Option.some.injEq] at hx
    exact hx ▸ h.spread t path p f d
  | .field p alias? name a d l, t, path, c, hx => by
    rw [part?_field, Option.map_eq_some_iff] at hx
    obtain ⟨n, hn, rfl⟩ := hx
    rcases fieldNode?_eq_some hn with ⟨rfl, rfl⟩ | ⟨f, type, ht, hf, hnode⟩
    · exact h.typename t path p alias? a d l
    · rcases typedNode?_eq_some hnode with ⟨o, shape, rfl, hs, rfl⟩ | ⟨u, shape, rfl, hs, rfl⟩ |
        ⟨text, ho, hu, htext, rfl⟩
      · obtain ⟨c, hc, rfl⟩ := Option.map_eq_some_iff.mp hs
        exact h.object t path p alias? name a d l f o c ht hf hc (of_parts h l o _ c hc)
      · obtain ⟨c, hc, rfl⟩ := Option.map_eq_some_iff.mp hs
        exact h.union t path p alias? name a d l f u c ht hf hc (of_unionParts h l u _ c hc)
      · exact h.leaf t path p alias? name a d l f type text ht ho hu hf htext

/-- What the rules preserve holds of selections on an object. -/
theorem of_parts (h : s.Invariant onObject onUnion) : (l : List Selection) → (t : FieldedType) →
    (path : List String) → (c : List Contribution) → s.parts? t path l = some c →
    onObject t path l c
  | [], t, path, c, hl => by
    simp only [parts?_nil, Option.some.injEq] at hl
    exact hl ▸ h.nil t path
  | x :: l, t, path, c, hl => by
    simp only [parts?_cons, Option.bind_eq_some_iff, Option.map_eq_some_iff] at hl
    obtain ⟨cx, hx, cl, hl, rfl⟩ := hl
    exact h.cons t path x l cx cl (of_part h x t path cx hx) (of_parts h l t path cl hl)

/-- An invariant holds for every selection on a union that is resolved. -/
theorem of_unionPart (h : s.Invariant onObject onUnion) : (x : Selection) → (u : UnionType) →
    (path : List String) → (c : List Contribution) → s.unionPart? u path x = some c →
    onUnion u path [x] c
  | .field p alias? name a d l, u, path, c, hx => by
    simp only [unionPart?_field, Option.ite_none_right_eq_some, Option.some.injEq] at hx
    obtain ⟨rfl, rfl⟩ := hx
    exact h.unionTypename u path p alias? a d l
  | .inline p none d l, u, path, c, hx => by
    simp only [unionPart?_inline_none, Option.some.injEq] at hx
    exact hx ▸ h.unselected u path p none d l (by simp)
  | .spread p f d, u, path, c, hx => by
    rw [unionPart?_spread] at hx
    cases hm : s.spreadMember? u f with
    | none =>
      simp only [hm, Option.some.injEq] at hx
      exact hx ▸ h.unionSpread u path p f d hm
    | some member =>
      simp only [hm, Option.map_eq_some_iff] at hx
      obtain ⟨t, ht, rfl⟩ := hx
      exact h.spreadMember u path p f d member t hm ht
  | .inline p (some member) d l, u, path, c, hx => by
    rw [unionPart?_inline_some] at hx
    by_cases hm : u.members.contains member = true
    · simp only [hm, if_true] at hx
      obtain ⟨n, hn, rfl⟩ := Option.map_eq_some_iff.mp hx
      simp only [inlineVariant?, Option.bind_eq_some_iff, Option.map_eq_some_iff] at hn
      obtain ⟨t, ht, shape, hs, rfl⟩ := hn
      obtain ⟨c, hc, rfl⟩ := Option.map_eq_some_iff.mp hs
      exact h.variant u path p member d l t c hm ht hc (of_parts h l t _ c hc)
    · simp only [hm, if_false, Bool.false_eq_true, Option.some.injEq] at hx
      exact hx ▸ h.unselected u path p (some member) d l (by simpa using hm)

/-- What the rules preserve holds of selections on a union. -/
theorem of_unionParts (h : s.Invariant onObject onUnion) : (l : List Selection) →
    (u : UnionType) → (path : List String) → (c : List Contribution) →
    s.unionParts? u path l = some c → onUnion u path l c
  | [], u, path, c, hl => by
    simp only [unionParts?_nil, Option.some.injEq] at hl
    exact hl ▸ h.unionNil u path
  | x :: l, u, path, c, hl => by
    simp only [unionParts?_cons, Option.bind_eq_some_iff, Option.map_eq_some_iff] at hl
    obtain ⟨cx, hx, cl, hl, rfl⟩ := hl
    exact h.unionCons u path x l cx cl (of_unionPart h x u path cx hx)
      (of_unionParts h l u path cl hl)

end

end Invariant

end QueryBindings.Scope
