import QueryBindings.Proofs.Shape.Compatible
/-!
The tags of union members.

A variant of a union is told apart by a tag, which is declared under the name `__typename` when the
shape is written. No other node has a tag. A variant is retagged when it has a field of that name as
well, and this is so exactly when an inline fragment on a member selects something under it.
-/
namespace QueryBindings

def tagName : String := "__typename"

namespace Node

def fieldNames : Node → List String
  | leaf _ _ => []
  | object _ fields => fields.map name
  | union _ _ => []

mutual

/-- Below a node, the variants of unions have tags, and no other node has one. -/
def Tagged : Node → Prop
  | leaf _ _ => True
  | object _ fields => TaggedAll false fields
  | union _ variants => TaggedAll true variants

def TaggedAll (tagged : Bool) : List Node → Prop
  | [] => True
  | n :: rest => (n.head.typename?.isSome = tagged ∧ n.Tagged) ∧ TaggedAll tagged rest

end

mutual

/-- Below a node, some variant of a union has a field under the name of its tag. -/
def Retagged : Node → Prop
  | leaf _ _ => False
  | object _ fields => RetaggedAny fields
  | union _ variants => (∃ v ∈ variants, tagName ∈ v.fieldNames) ∨ RetaggedAny variants

def RetaggedAny : List Node → Prop
  | [] => False
  | n :: rest => n.Retagged ∨ RetaggedAny rest

end

theorem taggedAll_iff {tagged : Bool} {l : List Node} :
    TaggedAll tagged l ↔ ∀ n ∈ l, n.head.typename?.isSome = tagged ∧ n.Tagged := by
  induction l with
  | nil => simp [TaggedAll]
  | cons n l ih => simp [TaggedAll, ih]

theorem retaggedAny_iff {l : List Node} : RetaggedAny l ↔ ∃ n ∈ l, n.Retagged := by
  induction l with
  | nil => simp [RetaggedAny]
  | cons n l ih => simp [RetaggedAny, ih]

@[simp] theorem retaggedAny_nil : ¬ RetaggedAny [] := by simp [RetaggedAny]

theorem retaggedAny_singleton {n : Node} : RetaggedAny [n] ↔ n.Retagged := by simp [RetaggedAny]

theorem retaggedAny_append {a b : List Node} :
    RetaggedAny (a ++ b) ↔ RetaggedAny a ∨ RetaggedAny b := by
  simp only [retaggedAny_iff, List.mem_append, or_and_right, exists_or]

/-! ### Merging -/

theorem typename?_mergeInto (n e : Node) : (mergeInto n e).head.typename? = e.head.typename? := by
  rw [head_mergeInto]
  rfl

mutual

theorem tagged_mergeInto : (n e : Node) → n.Tagged → e.Tagged → (mergeInto n e).Tagged
  | leaf _ _, e, _, he => by cases e <;> simp_all [mergeInto, withHead, Tagged]
  | object _ fields, e, hn, he => by
    cases e with
    | leaf | union => simp_all [mergeInto, withHead, Tagged]
    | object _ fields' =>
      simp only [mergeInto, Tagged] at hn he ⊢
      exact taggedAll_mergeAllInto false fields fields' hn he
  | union _ variants, e, hn, he => by
    cases e with
    | leaf | object => simp_all [mergeInto, withHead, Tagged]
    | union _ variants' =>
      simp only [mergeInto, Tagged] at hn he ⊢
      exact taggedAll_mergeAllInto true variants variants' hn he

/-- Merging leaves every tag where it is. -/
theorem taggedAll_mergeAllInto : (tagged : Bool) → (incoming l : List Node) →
    TaggedAll tagged incoming → TaggedAll tagged l → TaggedAll tagged (mergeAllInto incoming l)
  | _, [], _, _, hl => by simpa using hl
  | tagged, n :: rest, l, hi, hl => by
    obtain ⟨hn, hr⟩ := hi
    rw [mergeAllInto_cons]
    apply taggedAll_mergeAllInto tagged rest _ hr
    rw [taggedAll_iff] at hl ⊢
    refine forall_mem_mergeOne hl hn ?_
    intro e he _
    obtain ⟨htag, hbelow⟩ := hl e he
    exact ⟨by rw [typename?_mergeInto, htag], tagged_mergeInto n e hn.2 hbelow⟩

end

/-- A merged node has only fields that one of the two nodes has. -/
theorem mem_fieldNames_of_mergeInto {n e : Node} {f : String}
    (h : f ∈ (mergeInto n e).fieldNames) : f ∈ e.fieldNames ∨ f ∈ n.fieldNames := by
  cases n with
  | leaf => cases e <;> simp_all [mergeInto, withHead, fieldNames]
  | object h fields =>
    cases e with
    | leaf | union => simp_all [mergeInto, withHead, fieldNames]
    | object h' fields' =>
      rw [mergeInto, fieldNames, map_name_mergeAllInto] at h
      exact Names.mem_union.mp h
  | union => cases e <;> simp_all [mergeInto, withHead, fieldNames]

/-- A merged node has all fields of two nodes of one kind. -/
theorem mem_fieldNames_mergeInto {kindAt : List String → Kind} {n e : Node} {f : String}
    (heq : e.name = n.name) (hn : n.Conforms kindAt) (he : e.Conforms kindAt)
    (h : f ∈ e.fieldNames ∨ f ∈ n.fieldNames) : f ∈ (mergeInto n e).fieldNames := by
  cases n with
  | leaf => cases e <;> simp_all [mergeInto, withHead, fieldNames]
  | object h fields =>
    cases e with
    | leaf | union => simp_all [Conforms, name]
    | object h' fields' =>
      rw [mergeInto, fieldNames, map_name_mergeAllInto]
      exact Names.mem_union.mpr h
  | union => cases e <;> simp_all [mergeInto, withHead, fieldNames]

theorem exists_fieldName_of_mergeAllInto {f : String} {incoming l : List Node}
    (h : ∃ v ∈ mergeAllInto incoming l, f ∈ v.fieldNames) :
    (∃ v ∈ l, f ∈ v.fieldNames) ∨ ∃ v ∈ incoming, f ∈ v.fieldNames :=
  exists_mem_of_mergeAllInto (fun _ _ _ _ => mem_fieldNames_of_mergeInto) h

theorem exists_fieldName_mergeAllInto {kindAt : List String → Kind} {f : String}
    {incoming l : List Node} (hi : ConformAll kindAt incoming) (hl : ConformAll kindAt l)
    (h : (∃ v ∈ l, f ∈ v.fieldNames) ∨ ∃ v ∈ incoming, f ∈ v.fieldNames) :
    ∃ v ∈ mergeAllInto incoming l, f ∈ v.fieldNames :=
  exists_mem_mergeAllInto hi hl (fun _ _ _ => mem_fieldNames_mergeInto) h

mutual

/-- A merged node has a doubled tag below it only if one of the two nodes has. -/
theorem retagged_of_mergeInto : (n e : Node) → (mergeInto n e).Retagged →
    e.Retagged ∨ n.Retagged
  | leaf _ _, e, h => by cases e <;> simp_all [mergeInto, withHead, Retagged]
  | object _ fields, e, h => by
    cases e with
    | leaf | union => simp_all [mergeInto, withHead, Retagged]
    | object _ fields' =>
      simp only [mergeInto, Retagged] at h ⊢
      exact retaggedAny_of_mergeAllInto fields fields' h
  | union _ variants, e, h => by
    cases e with
    | leaf | object => simp_all [mergeInto, withHead, Retagged]
    | union _ variants' =>
      simp only [mergeInto, Retagged] at h ⊢
      rcases h with h | h
      · exact (exists_fieldName_of_mergeAllInto h).imp Or.inl Or.inl
      · exact (retaggedAny_of_mergeAllInto variants variants' h).imp Or.inr Or.inr

/-- Merging retags no variants by itself. -/
theorem retaggedAny_of_mergeAllInto : (incoming l : List Node) →
    RetaggedAny (mergeAllInto incoming l) → RetaggedAny l ∨ RetaggedAny incoming
  | [], l, h => by simpa [RetaggedAny] using h
  | n :: rest, l, h => by
    rw [mergeAllInto_cons] at h
    rw [RetaggedAny]
    rcases retaggedAny_of_mergeAllInto rest (mergeOne l n) h with hone | hrest
    · rw [retaggedAny_iff] at hone
      rcases exists_mem_of_mergeOne (fun e _ _ => retagged_of_mergeInto n e) hone with hl | hn
      · exact Or.inl (retaggedAny_iff.mpr hl)
      · exact Or.inr (Or.inl hn)
    · exact Or.inr (Or.inr hrest)

end

mutual

/-- A doubled tag stays below a node that is merged with one of the same kind. -/
theorem retagged_mergeInto : (kindAt : List String → Kind) → (n e : Node) → e.name = n.name →
    n.Conforms kindAt → e.Conforms kindAt → e.Retagged ∨ n.Retagged → (mergeInto n e).Retagged
  | _, leaf _ _, e, _, _, _, h => by cases e <;> simp_all [mergeInto, withHead, Retagged]
  | kindAt, object h fields, e, heq, hn, he, hr => by
    cases e with
    | leaf | union => simp_all [Conforms, name]
    | object h' fields' =>
      have hh : h'.name = h.name := heq
      simp only [Conforms, hh] at hn he
      simp only [mergeInto, Retagged] at hr ⊢
      exact retaggedAny_mergeAllInto _ fields fields' hn.2 he.2 hr
  | kindAt, union h variants, e, heq, hn, he, hr => by
    cases e with
    | leaf | object => simp_all [Conforms, name]
    | union h' variants' =>
      have hh : h'.name = h.name := heq
      simp only [Conforms, hh] at hn he
      simp only [mergeInto, Retagged] at hr ⊢
      rcases hr with (hv | hr) | (hv | hr)
      · exact Or.inl (exists_fieldName_mergeAllInto hn.2 he.2 (Or.inl hv))
      · exact Or.inr (retaggedAny_mergeAllInto _ variants variants' hn.2 he.2 (Or.inl hr))
      · exact Or.inl (exists_fieldName_mergeAllInto hn.2 he.2 (Or.inr hv))
      · exact Or.inr (retaggedAny_mergeAllInto _ variants variants' hn.2 he.2 (Or.inr hr))

/-- Merging nodes of the same kinds keeps retagged variants. -/
theorem retaggedAny_mergeAllInto : (kindAt : List String → Kind) → (incoming l : List Node) →
    ConformAll kindAt incoming → ConformAll kindAt l → RetaggedAny l ∨ RetaggedAny incoming →
    RetaggedAny (mergeAllInto incoming l)
  | _, [], l, _, _, h => by simpa [RetaggedAny] using h
  | kindAt, n :: rest, l, hi, hl, h => by
    obtain ⟨hn, hr⟩ := conformAll_cons.mp hi
    have hone : (∃ v ∈ l, v.Retagged) ∨ n.Retagged → ∃ v ∈ mergeOne l n, v.Retagged :=
      exists_mem_mergeOne fun e he heq =>
        retagged_mergeInto kindAt n e heq hn (conformAll_iff.mp hl e he)
    rw [RetaggedAny] at h
    rw [mergeAllInto_cons]
    apply retaggedAny_mergeAllInto kindAt rest _ hr (conformAll_mergeOne hl hn)
    rw [retaggedAny_iff]
    rw [retaggedAny_iff] at h
    rcases h with hl | hn | hr
    · exact Or.inl (hone (Or.inl hl))
    · exact Or.inl (hone (Or.inr hn))
    · exact Or.inr hr

end

end Node

open Contribution (nodesOf)

/-! ### Selections -/

namespace Schema

open Selection

variable (s : Schema)

mutual

/-- Below a selection on an object, some inline fragment on a member of a union selects something
under the name of the tag. -/
def retags (parent : FieldedType) : Selection → Bool
  | .inline _ _ _ _ => false
  | .spread _ _ _ => false
  | .field _ _ name _ _ l =>
    match s.fieldType? parent name with
    | some (.object t) => retagsAll t l
    | some (.union u) => retagsInAll u l
    | _ => false

def retagsAll (parent : FieldedType) : List Selection → Bool
  | [] => false
  | x :: rest => retags parent x || retagsAll parent rest

def retagsIn (union : UnionType) : Selection → Bool
  | .inline _ (some member) _ l =>
    if union.members.contains member then
      match s.object? member with
      | some t => l.any (·.response? == some tagName) || retagsAll t l
      | none => false
    else false
  | .inline _ none _ _ => false
  | .spread _ _ _ => false
  | .field _ _ _ _ _ _ => false

def retagsInAll (union : UnionType) : List Selection → Bool
  | [] => false
  | x :: rest => retagsIn union x || retagsInAll union rest

end

@[simp] theorem retagsAll_nil (parent : FieldedType) : s.retagsAll parent [] = false := by
  simp [retagsAll]

@[simp] theorem retagsAll_cons (parent : FieldedType) (x : Selection) (l : List Selection) :
    s.retagsAll parent (x :: l) = (s.retags parent x || s.retagsAll parent l) := by
  simp [retagsAll]

@[simp] theorem retagsInAll_nil (union : UnionType) : s.retagsInAll union [] = false := by
  simp [retagsInAll]

@[simp] theorem retagsInAll_cons (union : UnionType) (x : Selection) (l : List Selection) :
    s.retagsInAll union (x :: l) = (s.retagsIn union x || s.retagsInAll union l) := by
  simp [retagsInAll]

end Schema

/-- The contributions' nodes have distinct names below them, and tags where they belong. -/
structure Contribution.Tidy (tagged : Bool) (c : List Contribution) : Prop where
  distinct : ∀ n ∈ nodesOf c, n.Distinct
  tagged : Node.TaggedAll tagged (nodesOf c)

namespace Contribution

theorem tidy_nil (tagged : Bool) : Tidy tagged [] := ⟨by simp, trivial⟩

theorem tidy_spread (tagged : Bool) (f : String) : Tidy tagged [.spread f] := ⟨by simp, trivial⟩

theorem tidy_node {tagged : Bool} {n : Node} (ht : n.head.typename?.isSome = tagged)
    (hd : n.Distinct) (hb : n.Tagged) : Tidy tagged [.node n] where
  distinct := by simpa using hd
  tagged := Node.taggedAll_iff.mpr (by simpa using ⟨ht, hb⟩)

theorem Tidy.append {tagged : Bool} {a b : List Contribution} (ha : Tidy tagged a)
    (hb : Tidy tagged b) : Tidy tagged (a ++ b) where
  distinct := by
    rw [nodesOf_append]
    exact List.forall_mem_append.mpr ⟨ha.distinct, hb.distinct⟩
  tagged := by
    rw [nodesOf_append, Node.taggedAll_iff]
    exact List.forall_mem_append.mpr
      ⟨Node.taggedAll_iff.mp ha.tagged, Node.taggedAll_iff.mp hb.tagged⟩

end Contribution

namespace Selected

variable {c : List Contribution}

/-- Merging contributions keeps tags where they are. -/
theorem taggedAll_ofContributions {tagged : Bool} (h : Node.TaggedAll tagged (nodesOf c)) :
    Node.TaggedAll tagged (ofContributions c).nodes := by
  rw [nodes_ofContributions]
  exact Node.taggedAll_mergeAllInto tagged _ _ h trivial

theorem retaggedAny_of_ofContributions (h : Node.RetaggedAny (ofContributions c).nodes) :
    Node.RetaggedAny (nodesOf c) := by
  rw [nodes_ofContributions] at h
  exact (Node.retaggedAny_of_mergeAllInto _ _ h).resolve_left Node.retaggedAny_nil

theorem exists_fieldName_of_ofContributions {f : String}
    (h : ∃ v ∈ (ofContributions c).nodes, f ∈ v.fieldNames) :
    ∃ v ∈ nodesOf c, f ∈ v.fieldNames := by
  rw [nodes_ofContributions] at h
  exact (Node.exists_fieldName_of_mergeAllInto h).resolve_left (by simp)

theorem retaggedAny_ofContributions {kindAt : List String → Node.Kind}
    (hr : Contribution.Regular kindAt c) (h : Node.RetaggedAny (nodesOf c)) :
    Node.RetaggedAny (ofContributions c).nodes := by
  rw [nodes_ofContributions]
  exact Node.retaggedAny_mergeAllInto kindAt _ _ hr.conforms trivial (Or.inr h)

theorem exists_fieldName_ofContributions {kindAt : List String → Node.Kind} {f : String}
    (hr : Contribution.Regular kindAt c) (h : ∃ v ∈ nodesOf c, f ∈ v.fieldNames) :
    ∃ v ∈ (ofContributions c).nodes, f ∈ v.fieldNames := by
  rw [nodes_ofContributions]
  exact Node.exists_fieldName_mergeAllInto hr.conforms trivial (Or.inr h)

end Selected

namespace Scope

open Schema

variable {s : Scope}

/-- The names among the nodes of resolved selections are the response names of the fields. -/
theorem mem_map_name_ofContributions {t : FieldedType} {path : List String} {l : List Selection}
    {c : List Contribution} (h : s.parts? t path l = some c) {r : String} :
    r ∈ (Selected.ofContributions c).nodes.map Node.name ↔
      l.any (·.response? == some r) = true := by
  rw [Selected.nodes_ofContributions, Node.map_name_mergeAllInto, Names.mem_union,
    map_name_of_parts? h]
  simp

/-- Whatever selections contribute has distinct names and tags in order. -/
theorem tidy (s : Scope) : s.Invariant (fun _ _ _ c => Contribution.Tidy false c)
    (fun _ _ _ c => Contribution.Tidy true c) where
  nil := by
    intro t path
    exact Contribution.tidy_nil false
  cons := by
    intro t path x l c c' hx hl
    exact hx.append hl
  spread := by
    intro t path p f d
    exact Contribution.tidy_spread false f
  typename := by
    intro t path p alias? a d l
    exact Contribution.tidy_node rfl (by simp [Node.ofTypename]) (by simp [Node.ofTypename, Node.Tagged])
  leaf := by
    intro t path p alias? name a d l f type text _ _ _ _ _
    exact Contribution.tidy_node rfl (by simp) (by simp [Node.Tagged])
  object := by
    intro t path p alias? name a d l f o c _ _ _ ih
    refine Contribution.tidy_node (by rfl) ?_ ?_
    · rw [Node.distinct_object]
      exact Selected.distinct_ofContributions ih.distinct
    · rw [Node.Tagged]
      exact Selected.taggedAll_ofContributions ih.tagged
  union := by
    intro t path p alias? name a d l f u c _ _ _ ih
    refine Contribution.tidy_node (by rfl) ?_ ?_
    · rw [Node.distinct_union]
      exact Selected.distinct_ofContributions ih.distinct
    · rw [Node.Tagged]
      exact Selected.taggedAll_ofContributions ih.tagged
  unionNil := by
    intro u path
    exact Contribution.tidy_nil true
  unionCons := by
    intro u path x l c c' hx hl
    exact hx.append hl
  unionTypename := by
    intro u path p alias? a d l
    exact Contribution.tidy_nil true
  unselected := by
    intro u path p condition? d l _
    exact Contribution.tidy_nil true
  unionSpread := by
    intro u path p f d _
    exact Contribution.tidy_spread true f
  spreadMember := by
    intro u path p f d member t _ _
    refine Contribution.Tidy.append (a := [_]) ?_ (Contribution.tidy_spread true f)
    exact Contribution.tidy_node rfl (by simp [Node.variant]) (by simp [Node.variant, Node.Tagged, Node.TaggedAll])
  variant := by
    intro u path p member d l t c _ _ _ ih
    refine Contribution.tidy_node (by rfl) ?_ ?_
    · rw [Node.variant, Node.distinct_object]
      exact Selected.distinct_ofContributions ih.distinct
    · rw [Node.variant, Node.Tagged]
      exact Selected.taggedAll_ofContributions ih.tagged

/-- A field of an object type doubles a tag below it if the selections in it do. -/
theorem retagsAll_object {s : Schema} {parent o : FieldedType} {name : String} {p : Position}
    {alias? : Option String} {a : List Argument} {d : List Directive} {l : List Selection}
    (h : s.fieldType? parent name = some (.object o)) :
    s.retagsAll parent [.field p alias? name a d l] = s.retagsAll o l := by
  simp only [retagsAll_cons, retagsAll_nil, Bool.or_false, retags, h]

theorem retagsAll_union {s : Schema} {parent : FieldedType} {u : UnionType} {name : String}
    {p : Position} {alias? : Option String} {a : List Argument} {d : List Directive}
    {l : List Selection} (h : s.fieldType? parent name = some (.union u)) :
    s.retagsAll parent [.field p alias? name a d l] = s.retagsInAll u l := by
  simp only [retagsAll_cons, retagsAll_nil, Bool.or_false, retags, h]

/-- A retagged variant comes from selections that retag it. -/
theorem retags_of_retagged (s : Scope) : s.Invariant
    (fun t _ l c => Node.RetaggedAny (nodesOf c) → s.schema.retagsAll t l = true)
    (fun u _ l c => (∃ v ∈ nodesOf c, tagName ∈ v.fieldNames) ∨ Node.RetaggedAny (nodesOf c) →
      s.schema.retagsInAll u l = true) where
  nil := by
    intro t path h
    exact absurd h Node.retaggedAny_nil
  cons := by
    intro t path x l c c' hx hl h
    rw [Contribution.nodesOf_append, Node.retaggedAny_append] at h
    rw [retagsAll_cons, Bool.or_eq_true]
    refine h.imp (fun h => ?_) hl
    simpa using hx h
  spread := by
    intro t path p f d h
    exact absurd h Node.retaggedAny_nil
  typename := by
    intro t path p alias? a d l h
    simp [Node.RetaggedAny, Node.ofTypename, Node.Retagged] at h
  leaf := by
    intro t path p alias? name a d l f type text _ _ _ _ _ h
    simp [Node.RetaggedAny, Node.Retagged] at h
  object := by
    intro t path p alias? name a d l f o c ht _ _ ih h
    simp only [Contribution.nodesOf_node, Contribution.nodesOf_nil, Node.retaggedAny_singleton,
      Node.Retagged] at h
    rw [retagsAll_object ht]
    exact ih (Selected.retaggedAny_of_ofContributions h)
  union := by
    intro t path p alias? name a d l f u c ht _ _ ih h
    simp only [Contribution.nodesOf_node, Contribution.nodesOf_nil, Node.retaggedAny_singleton,
      Node.Retagged] at h
    rw [retagsAll_union ht]
    exact ih (h.imp Selected.exists_fieldName_of_ofContributions
      Selected.retaggedAny_of_ofContributions)
  unionNil := by
    intro u path h
    simp at h
  unionCons := by
    intro u path x l c c' hx hl h
    rw [Contribution.nodesOf_append, Node.retaggedAny_append] at h
    simp only [List.mem_append, or_and_right, exists_or] at h
    rw [retagsInAll_cons, Bool.or_eq_true]
    have hfirst := hx
    rw [retagsInAll_cons, retagsInAll_nil, Bool.or_false] at hfirst
    rcases h with (h | h) | (h | h)
    · exact Or.inl (hfirst (Or.inl h))
    · exact Or.inr (hl (Or.inl h))
    · exact Or.inl (hfirst (Or.inr h))
    · exact Or.inr (hl (Or.inr h))
  unionTypename := by
    intro u path p alias? a d l h
    simp at h
  unselected := by
    intro u path p condition? d l _ h
    simp at h
  unionSpread := by
    intro u path p f d _ h
    simp at h
  spreadMember := by
    intro u path p f d member t _ _ h
    simp [Node.RetaggedAny, Node.variant, Node.Retagged, Node.fieldNames] at h
  variant := by
    intro u path p member d l t c hm ht hc ih h
    simp only [Contribution.nodesOf_node, Contribution.nodesOf_nil, Node.retaggedAny_singleton,
      Node.variant, Node.Retagged, List.mem_singleton, exists_eq_left, Node.fieldNames] at h
    simp only [retagsInAll_cons, retagsInAll_nil, Bool.or_false, retagsIn, hm, if_true, ht,
      Bool.or_eq_true]
    exact h.imp (mem_map_name_ofContributions hc).mp
      (fun h => ih (Selected.retaggedAny_of_ofContributions h))

/-- Compatible selections that retag a variant make a variant that is retagged. -/
theorem retagged_of_retags (s : Scope) : s.Invariant
    (fun t _ l c => ∀ fieldAt, Agrees fieldAt (s.schema.landedAll t l) →
      s.schema.retagsAll t l = true → Node.RetaggedAny (nodesOf c))
    (fun u _ l c => ∀ fieldAt, Agrees fieldAt (s.schema.landedInAll u l) →
      s.schema.retagsInAll u l = true →
      (∃ v ∈ nodesOf c, tagName ∈ v.fieldNames) ∨ Node.RetaggedAny (nodesOf c)) where
  nil := by
    intro t path fieldAt _ h
    simp at h
  cons := by
    intro t path x l c c' hx hl fieldAt hag h
    rw [landedAll_cons, agrees_append] at hag
    rw [retagsAll_cons, Bool.or_eq_true] at h
    rw [Contribution.nodesOf_append, Node.retaggedAny_append]
    have hfirst := hx fieldAt (by simpa using hag.1)
    rw [retagsAll_cons, retagsAll_nil, Bool.or_false] at hfirst
    exact h.imp hfirst (hl fieldAt hag.2)
  spread := by
    intro t path p f d fieldAt _ h
    simp [retags] at h
  typename := by
    intro t path p alias? a d l fieldAt _ h
    simp [retags, fieldType?_typename] at h
  leaf := by
    intro t path p alias? name a d l f type text ht ho hu _ _ fieldAt _ h
    simp only [retagsAll_cons, retagsAll_nil, Bool.or_false, retags, ht] at h
    cases type with
    | object o => exact absurd rfl (ho o)
    | union u => exact absurd rfl (hu u)
    | builtin | scalar | interface | enum | inputObject => simp at h
  object := by
    intro t path p alias? name a d l f o c ht _ hc ih fieldAt hag h
    rw [agrees_object ht] at hag
    rw [retagsAll_object ht] at h
    simp only [Contribution.nodesOf_node, Contribution.nodesOf_nil, Node.retaggedAny_singleton,
      Node.Retagged]
    exact Selected.retaggedAny_ofContributions (regular_parts hag.2 hc) (ih _ hag.2 h)
  union := by
    intro t path p alias? name a d l f u c ht _ hc ih fieldAt hag h
    rw [agrees_union ht] at hag
    rw [retagsAll_union ht] at h
    simp only [Contribution.nodesOf_node, Contribution.nodesOf_nil, Node.retaggedAny_singleton,
      Node.Retagged]
    have hreg := regular_unionParts hag.2 hc
    exact (ih _ hag.2 h).imp (Selected.exists_fieldName_ofContributions hreg)
      (Selected.retaggedAny_ofContributions hreg)
  unionNil := by
    intro u path fieldAt _ h
    simp at h
  unionCons := by
    intro u path x l c c' hx hl fieldAt hag h
    rw [landedInAll_cons, agrees_append] at hag
    rw [retagsInAll_cons, Bool.or_eq_true] at h
    rw [Contribution.nodesOf_append, Node.retaggedAny_append]
    simp only [List.mem_append, or_and_right, exists_or]
    have hfirst := hx fieldAt (by simpa using hag.1)
    rw [retagsInAll_cons, retagsInAll_nil, Bool.or_false] at hfirst
    rcases h with h | h
    · exact (hfirst h).imp Or.inl Or.inl
    · exact (hl fieldAt hag.2 h).imp Or.inr Or.inr
  unionTypename := by
    intro u path p alias? a d l fieldAt _ h
    simp [retagsIn] at h
  unselected := by
    intro u path p condition? d l hm fieldAt _ h
    cases condition? with
    | none => simp [retagsIn] at h
    | some member =>
      have hmember : u.members.contains member = false := hm member rfl
      simp only [retagsInAll_cons, retagsInAll_nil, retagsIn, hmember, Bool.false_eq_true,
        if_false, Bool.or_false] at h
  unionSpread := by
    intro u path p f d _ fieldAt _ h
    simp [retagsIn] at h
  spreadMember := by
    intro u path p f d member t _ _ fieldAt _ h
    simp [retagsIn] at h
  variant := by
    intro u path p member d l t c hm ht hc ih fieldAt hag h
    rw [agrees_variant hm ht] at hag
    simp only [retagsInAll_cons, retagsInAll_nil, Bool.or_false, retagsIn, hm, if_true, ht,
      Bool.or_eq_true] at h
    simp only [Contribution.nodesOf_node, Contribution.nodesOf_nil, Node.retaggedAny_singleton,
      Node.variant, Node.Retagged, List.mem_singleton, exists_eq_left, Node.fieldNames]
    exact h.imp (mem_map_name_ofContributions hc).mpr
      fun h => Selected.retaggedAny_ofContributions (regular_parts hag hc) (ih _ hag h)

/-- The shape of any selections has distinct names and tags in order, and no variant in it is
retagged if the selections retag none. -/
theorem tidy_of_selectOnObject {t : FieldedType} {path : List String} {l : List Selection}
    {shape : Selected} (h : s.selectOnObject t path l = .ok shape) :
    Node.DistinctAll shape.nodes ∧ Node.TaggedAll false shape.nodes ∧
      (Node.RetaggedAny shape.nodes → s.schema.retagsAll t l = true) := by
  rw [← Except.toOption_eq_some, toOption_selectOnObject] at h
  obtain ⟨c, hc, rfl⟩ := Option.map_eq_some_iff.mp h
  have htidy := s.tidy.of_parts l t path c hc
  have hretags := s.retags_of_retagged.of_parts l t path c hc
  exact ⟨Selected.distinct_ofContributions htidy.distinct,
    Selected.taggedAll_ofContributions htidy.tagged,
    fun hr => hretags (Selected.retaggedAny_of_ofContributions hr)⟩

/-- The shape of compatible selections that retag a variant has a retagged variant. -/
theorem retaggedAny_of_selectOnObject {t : FieldedType} {path : List String}
    {l : List Selection} {shape : Selected} (hc : s.schema.Compatible t l)
    (h : s.selectOnObject t path l = .ok shape) (hr : s.schema.retagsAll t l = true) :
    Node.RetaggedAny shape.nodes := by
  obtain ⟨fieldAt, hagrees⟩ := s.schema.exists_agrees hc
  rw [← Except.toOption_eq_some, toOption_selectOnObject] at h
  obtain ⟨c, hparts, rfl⟩ := Option.map_eq_some_iff.mp h
  have hretagged := s.retagged_of_retags.of_parts l t path c hparts fieldAt hagrees hr
  exact Selected.retaggedAny_ofContributions (regular_parts hagrees hparts) hretagged

end Scope

end QueryBindings
