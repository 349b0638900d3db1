import QueryBindings.Shape.Selection
import QueryBindings.Proofs.Failure
import QueryBindings.Proofs.Shape.Selected
/-!
What selections contribute, without the reasons for which they fail.

The contributions of a list of selections are those of its members one after the other, and there
are none when one of the members has none. A field contributes one node, which depends on its
response name, its own name and the selections below it, but not on its place or its arguments.
-/
namespace QueryBindings

/-- The name under which a field's value comes back. -/
def Selection.response? : Selection → Option String
  | .field _ alias? name _ _ _ => some (alias?.getD name)
  | .spread _ _ _ => none
  | .inline _ _ _ _ => none

/-- The type that the selections below a field are resolved on. -/
def Schema.fieldType? (s : Schema) (parent : FieldedType) (name : String) : Option SchemaType :=
  if name = "__typename" then none
  else (parent.field? name).bind fun f => s.find? f.type.baseName

theorem Schema.fieldType?_typename (s : Schema) (parent : FieldedType) :
    s.fieldType? parent "__typename" = none := by simp [fieldType?]

namespace Scope

open Node (ofTypename fieldHead variant)

variable (s : Scope)

/-- What a selection on an object contributes, if it is resolved. -/
def part? (parent : FieldedType) (path : List String) (x : Selection) :
    Option (List Contribution) := (s.onObject parent path x).toOption

def parts? (parent : FieldedType) (path : List String) (l : List Selection) :
    Option (List Contribution) := (s.onObjectAll parent path l).toOption

def unionPart? (union : UnionType) (path : List String) (x : Selection) :
    Option (List Contribution) := (s.onUnion union path x).toOption

def unionParts? (union : UnionType) (path : List String) (l : List Selection) :
    Option (List Contribution) := (s.onUnionAll union path l).toOption

def objectShape? (parent : FieldedType) (path : List String) (l : List Selection) :
    Option Selected := (s.parts? parent path l).map .ofContributions

def unionShape? (union : UnionType) (path : List String) (l : List Selection) :
    Option Selected := (s.unionParts? union path l).map .ofContributions

/-- Selections are resolved if and only if they have a shape, which is the result. -/
theorem toOption_selectOnObject (parent : FieldedType) (path : List String)
    (l : List Selection) :
    (s.selectOnObject parent path l).toOption = s.objectShape? parent path l := by
  simp only [selectOnObject, objectShape?, parts?, Except.toOption_bind]
  cases (s.onObjectAll parent path l).toOption <;> rfl

def typedNode? (path : List String) (response : String) (f : Field) (t : SchemaType)
    (selections : List Selection) : Option Node :=
  match t with
  | .object o => (s.objectShape? o (path ++ [response]) selections).map fun shape =>
      .object (fieldHead path response f shape.fragments) shape.nodes
  | .union u => (s.unionShape? u (path ++ [response]) selections).map fun shape =>
      .union (fieldHead path response f shape.fragments) shape.nodes
  | other => (other.leafType? s.config).map (.leaf (fieldHead path response f []))

def fieldNode? (parent : FieldedType) (path : List String) (response name : String)
    (selections : List Selection) : Option Node :=
  if name = "__typename" then some (ofTypename path response parent.name)
  else (parent.field? name).bind fun f =>
    (s.schema.find? f.type.baseName).bind fun t => s.typedNode? path response f t selections

def inlineVariant? (path : List String) (member : String) (selections : List Selection) :
    Option Node :=
  (s.schema.object? member).bind fun t =>
    (s.objectShape? t (path ++ [member]) selections).map (variant path member)

/-! ### Selections on an object -/

@[simp] theorem parts?_nil (parent : FieldedType) (path : List String) :
    s.parts? parent path [] = some [] := by simp [parts?, onObjectAll]

theorem parts?_cons (parent : FieldedType) (path : List String) (x : Selection)
    (l : List Selection) :
    s.parts? parent path (x :: l) =
      (s.part? parent path x).bind fun a => (s.parts? parent path l).map (a ++ ·) := by
  simp only [parts?, part?, onObjectAll, Except.toOption_bind, Except.toOption_ok,
    Option.map_eq_bind, Function.comp_def]

theorem parts?_append (parent : FieldedType) (path : List String) (a b : List Selection) :
    s.parts? parent path (a ++ b) =
      (s.parts? parent path a).bind fun c => (s.parts? parent path b).map (c ++ ·) := by
  induction a with
  | nil => simp
  | cons x a ih =>
    rw [List.cons_append, parts?_cons, parts?_cons, ih]
    cases s.part? parent path x <;> cases s.parts? parent path a <;>
      cases s.parts? parent path b <;> simp

@[simp] theorem part?_spread (parent : FieldedType) (path : List String) (p : Position)
    (fragment : String) (d : List Directive) :
    s.part? parent path (.spread p fragment d) = some [.spread fragment] := by
  simp [part?, onObject]

@[simp] theorem part?_inline (parent : FieldedType) (path : List String) (p : Position)
    (c : Option String) (d : List Directive) (l : List Selection) :
    s.part? parent path (.inline p c d l) = none := by simp [part?, onObject]

theorem part?_field (parent : FieldedType) (path : List String) (p : Position)
    (alias? : Option String) (name : String) (a : List Argument) (d : List Directive)
    (l : List Selection) :
    s.part? parent path (.field p alias? name a d l) =
      (s.fieldNode? parent path (alias?.getD name) name l).map fun n => [.node n] := by
  unfold part? onObject fieldNode?
  by_cases hn : name = "__typename"
  · simp [hn]
  · simp only [hn, if_false, Except.toOption_bind, selectedField]
    cases hf : parent.field? name with
    | none => simp
    | some f =>
      cases ht : s.schema.find? f.type.baseName with
      | none => simp [ht]
      | some t =>
        cases t <;> simp only [ht, Except.toOption_ok, Option.bind_some, typedNode?]
        case object o =>
          simp only [objectShape?, parts?, Except.toOption_bind]
          cases (s.onObjectAll o (path ++ [alias?.getD name]) l).toOption <;> simp
        case union u =>
          simp only [unionShape?, unionParts?, Except.toOption_bind]
          cases (s.onUnionAll u (path ++ [alias?.getD name]) l).toOption <;> simp
        all_goals simp [SchemaType.leafType?]

/-! ### Selections on a union -/

@[simp] theorem unionParts?_nil (union : UnionType) (path : List String) :
    s.unionParts? union path [] = some [] := by simp [unionParts?, onUnionAll]

theorem unionParts?_cons (union : UnionType) (path : List String) (x : Selection)
    (l : List Selection) :
    s.unionParts? union path (x :: l) =
      (s.unionPart? union path x).bind fun a => (s.unionParts? union path l).map (a ++ ·) := by
  simp only [unionParts?, unionPart?, onUnionAll, Except.toOption_bind, Except.toOption_ok,
    Option.map_eq_bind, Function.comp_def]

theorem unionParts?_append (union : UnionType) (path : List String) (a b : List Selection) :
    s.unionParts? union path (a ++ b) =
      (s.unionParts? union path a).bind fun c => (s.unionParts? union path b).map (c ++ ·) := by
  induction a with
  | nil => simp
  | cons x a ih =>
    rw [List.cons_append, unionParts?_cons, unionParts?_cons, ih]
    cases s.unionPart? union path x <;> cases s.unionParts? union path a <;>
      cases s.unionParts? union path b <;> simp

theorem toOption_memberObject (member : String) (p : Position) :
    (s.memberObject member p).toOption = s.schema.object? member := by
  unfold memberObject Schema.object?
  split <;> simp_all

@[simp] theorem unionPart?_field (union : UnionType) (path : List String) (p : Position)
    (alias? : Option String) (name : String) (a : List Argument) (d : List Directive)
    (l : List Selection) :
    s.unionPart? union path (.field p alias? name a d l) =
      if name = "__typename" then some [] else none := by
  unfold unionPart? onUnion
  split <;> simp

/-- A spread contributes the fragment's name, and a variant if it selects a member. -/
@[simp] theorem unionPart?_spread (union : UnionType) (path : List String) (p : Position)
    (fragment : String) (d : List Directive) :
    s.unionPart? union path (.spread p fragment d) =
      match s.spreadMember? union fragment with
      | none => some [.spread fragment]
      | some member => (s.schema.object? member).map fun _ =>
          [.node (variant path member ⟨[], [fragment]⟩), .spread fragment] := by
  unfold unionPart? onUnion
  cases s.spreadMember? union fragment with
  | none => simp
  | some member =>
    simp only [Except.toOption_bind, toOption_memberObject]
    cases s.schema.object? member <;> simp

@[simp] theorem unionPart?_inline_none (union : UnionType) (path : List String) (p : Position)
    (d : List Directive) (l : List Selection) :
    s.unionPart? union path (.inline p none d l) = some [] := by simp [unionPart?, onUnion]

/-- An inline fragment on a member contributes a variant, one on another type nothing. -/
theorem unionPart?_inline_some (union : UnionType) (path : List String) (p : Position)
    (member : String) (d : List Directive) (l : List Selection) :
    s.unionPart? union path (.inline p (some member) d l) =
      if union.members.contains member then
        (s.inlineVariant? path member l).map fun n => [.node n]
      else some [] := by
  unfold unionPart? onUnion
  split
  · simp only [Except.toOption_bind, toOption_memberObject, inlineVariant?, objectShape?, parts?]
    cases s.schema.object? member with
    | none => rfl
    | some t =>
      simp only [Option.bind_some]
      cases (s.onObjectAll t (path ++ [member]) l).toOption <;> simp
  · simp

/-! ### Nodes of fields -/

variable {s}

/-- The node of a field is that of `__typename` or that of a field of the parent. -/
theorem fieldNode?_eq_some {parent : FieldedType} {path : List String} {r name : String}
    {l : List Selection} {n : Node} (h : s.fieldNode? parent path r name l = some n) :
    (name = "__typename" ∧ n = .ofTypename path r parent.name) ∨
      ∃ f t, s.schema.fieldType? parent name = some t ∧ parent.field? name = some f ∧
        s.typedNode? path r f t l = some n := by
  unfold fieldNode? at h
  by_cases hn : name = "__typename"
  · simp only [hn, if_true, Option.some.injEq] at h
    exact Or.inl ⟨hn, h.symm⟩
  · simp only [hn, if_false, Option.bind_eq_some_iff] at h
    obtain ⟨f, hf, t, ht, hnode⟩ := h
    exact Or.inr ⟨f, t, by simp [Schema.fieldType?, hn, hf, ht], hf, hnode⟩

/-- The name and the kind of a field's node. -/
theorem typedNode?_eq_some {path : List String} {r : String} {f : Field} {t : SchemaType}
    {l : List Selection} {n : Node} (h : s.typedNode? path r f t l = some n) :
    (∃ o shape, t = .object o ∧ s.objectShape? o (path ++ [r]) l = some shape ∧
        n = .object (Node.fieldHead path r f shape.fragments) shape.nodes) ∨
      (∃ u shape, t = .union u ∧ s.unionShape? u (path ++ [r]) l = some shape ∧
        n = .union (Node.fieldHead path r f shape.fragments) shape.nodes) ∨
      ∃ type, (∀ o, t ≠ .object o) ∧ (∀ u, t ≠ .union u) ∧ t.leafType? s.config = some type ∧
        n = .leaf (Node.fieldHead path r f []) type := by
  unfold typedNode? at h
  split at h
  · obtain ⟨shape, hs, rfl⟩ := Option.map_eq_some_iff.mp h
    exact Or.inl ⟨_, shape, rfl, hs, rfl⟩
  · obtain ⟨shape, hs, rfl⟩ := Option.map_eq_some_iff.mp h
    exact Or.inr (Or.inl ⟨_, shape, rfl, hs, rfl⟩)
  · rename_i ho hu
    obtain ⟨type, ht, rfl⟩ := Option.map_eq_some_iff.mp h
    exact Or.inr (Or.inr ⟨type, fun o e => ho o e, fun u e => hu u e, ht, rfl⟩)

theorem name_of_fieldNode? {parent : FieldedType} {path : List String} {r name : String}
    {l : List Selection} {n : Node} (h : s.fieldNode? parent path r name l = some n) :
    n.name = r := by
  rcases fieldNode?_eq_some h with ⟨-, rfl⟩ | ⟨f, t, -, -, hn⟩
  · rfl
  · rcases typedNode?_eq_some hn with ⟨_, _, _, _, rfl⟩ | ⟨_, _, _, _, rfl⟩ | ⟨_, _, _, _, rfl⟩ <;>
      rfl

/-- A field contributes one node that has its response name, anything else a spread. -/
theorem part?_eq_some {parent : FieldedType} {path : List String} {x : Selection}
    {c : List Contribution} (h : s.part? parent path x = some c) :
    (∃ n, x.response? = some n.name ∧ c = [.node n]) ∨
      (x.response? = none ∧ ∃ f, c = [.spread f]) := by
  cases x with
  | field p alias? name a d l =>
    rw [part?_field, Option.map_eq_some_iff] at h
    obtain ⟨n, hn, rfl⟩ := h
    exact Or.inl ⟨n, by simp [Selection.response?, name_of_fieldNode? hn], rfl⟩
  | spread p f d =>
    simp only [part?_spread, Option.some.injEq] at h
    exact Or.inr ⟨rfl, f, h.symm⟩
  | inline => simp at h

/-- The nodes of selections have the response names of the fields among them. -/
theorem map_name_of_parts? {parent : FieldedType} {path : List String} {l : List Selection}
    {c : List Contribution} (h : s.parts? parent path l = some c) :
    (Contribution.nodesOf c).map Node.name = l.filterMap Selection.response? := by
  induction l generalizing c with
  | nil =>
    simp only [parts?_nil, Option.some.injEq] at h
    simp [← h]
  | cons x l ih =>
    simp only [parts?_cons, Option.bind_eq_some_iff, Option.map_eq_some_iff] at h
    obtain ⟨cx, hcx, cl, hcl, rfl⟩ := h
    rw [Contribution.nodesOf_append, List.map_append, ih hcl]
    rcases part?_eq_some hcx with ⟨n, hn, rfl⟩ | ⟨hn, f, rfl⟩
    · simp [hn]
    · simp [hn]

/-- Fields spread nothing beside their nodes. -/
theorem spreadsOf_parts?_of_fields {parent : FieldedType} {path : List String}
    {l : List Selection} {c : List Contribution} (h : s.parts? parent path l = some c)
    (hl : ∀ x ∈ l, x.response? ≠ none) : Contribution.spreadsOf c = [] := by
  induction l generalizing c with
  | nil =>
    simp only [parts?_nil, Option.some.injEq] at h
    simp [← h]
  | cons x l ih =>
    obtain ⟨hx, hl⟩ := List.forall_mem_cons.mp hl
    simp only [parts?_cons, Option.bind_eq_some_iff, Option.map_eq_some_iff] at h
    obtain ⟨cx, hcx, cl, hcl, rfl⟩ := h
    rcases part?_eq_some hcx with ⟨n, -, rfl⟩ | ⟨hn, -⟩
    · simpa using ih hcl hl
    · exact absurd hn hx

end Scope

end QueryBindings
