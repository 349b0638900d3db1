import QueryBindings.Proofs.Shape.Compatible
/-!
The fragments that selections spread, and those that a shape records.

A spread is shown when it is resolved together with what is around it, and hidden when it stands
where no selection is looked at: in an inline fragment that selects no member of a union, or below a
leaf. The shape of compatible selections records the shown spreads and no others, whatever is merged
on the way.
-/
namespace QueryBindings

namespace Selection

mutual

def spreads : Selection → List String
  | .field _ _ _ _ _ l => spreadsOf l
  | .spread _ fragment _ => [fragment]
  | .inline _ _ _ l => spreadsOf l

def spreadsOf : List Selection → List String
  | [] => []
  | x :: rest => x.spreads ++ spreadsOf rest

end

end Selection

namespace Schema

open Selection

variable (s : Schema)

mutual

/-- The fragments that a selection on an object spreads where selections are resolved. -/
def shown (parent : FieldedType) : Selection → List String
  | .inline _ _ _ _ => []
  | .spread _ fragment _ => [fragment]
  | .field _ _ name _ _ l =>
    match s.fieldType? parent name with
    | some (.object t) => shownAll t l
    | some (.union u) => shownInAll u l
    | _ => []

def shownAll (parent : FieldedType) : List Selection → List String
  | [] => []
  | x :: rest => shown parent x ++ shownAll parent rest

def shownIn (union : UnionType) : Selection → List String
  | .inline _ (some member) _ l =>
    if union.members.contains member then
      match s.object? member with
      | some t => shownAll t l
      | none => []
    else []
  | .inline _ none _ _ => []
  | .spread _ fragment _ => [fragment]
  | .field _ _ _ _ _ _ => []

def shownInAll (union : UnionType) : List Selection → List String
  | [] => []
  | x :: rest => shownIn union x ++ shownInAll union rest

end

mutual

/-- The fragments that a selection on an object spreads where no selection is looked at. -/
def hidden (parent : FieldedType) : Selection → List String
  | .inline _ _ _ l => spreadsOf l
  | .spread _ _ _ => []
  | .field _ _ name _ _ l =>
    match s.fieldType? parent name with
    | some (.object t) => hiddenAll t l
    | some (.union u) => hiddenInAll u l
    | _ => spreadsOf l

def hiddenAll (parent : FieldedType) : List Selection → List String
  | [] => []
  | x :: rest => hidden parent x ++ hiddenAll parent rest

def hiddenIn (union : UnionType) : Selection → List String
  | .inline _ (some member) _ l =>
    if union.members.contains member then
      match s.object? member with
      | some t => hiddenAll t l
      | none => spreadsOf l
    else spreadsOf l
  | .inline _ none _ l => spreadsOf l
  | .spread _ _ _ => []
  | .field _ _ _ _ _ l => spreadsOf l

def hiddenInAll (union : UnionType) : List Selection → List String
  | [] => []
  | x :: rest => hiddenIn union x ++ hiddenInAll union rest

end

@[simp] theorem shownAll_nil (parent : FieldedType) : s.shownAll parent [] = [] := by
  simp [shownAll]

@[simp] theorem shownAll_cons (parent : FieldedType) (x : Selection) (l : List Selection) :
    s.shownAll parent (x :: l) = s.shown parent x ++ s.shownAll parent l := by simp [shownAll]

@[simp] theorem shownInAll_nil (union : UnionType) : s.shownInAll union [] = [] := by
  simp [shownInAll]

@[simp] theorem shownInAll_cons (union : UnionType) (x : Selection) (l : List Selection) :
    s.shownInAll union (x :: l) = s.shownIn union x ++ s.shownInAll union l := by
  simp [shownInAll]

/-! ### Every spread is shown or hidden -/

mutual

/-- Every spread in a selection on an object is shown or hidden. -/
theorem mem_spreads_iff : (x : Selection) → (parent : FieldedType) → (f : String) →
    (f ∈ x.spreads ↔ f ∈ s.shown parent x ∨ f ∈ s.hidden parent x)
  | .inline _ _ _ _, _, _ => by simp [spreads, shown, hidden]
  | .spread _ _ _, _, _ => by simp [spreads, shown, hidden]
  | .field _ _ name _ _ l, parent, f => by
    simp only [spreads, shown, hidden]
    cases s.fieldType? parent name with
    | none => simp
    | some t =>
      cases t with
      | object o => exact mem_spreadsOf_iff l o f
      | union u => exact mem_spreadsOf_iff_in l u f
      | builtin | scalar | interface | enum | inputObject => simp

/-- A fragment is spread by selections on an object where it is shown or where it is hidden. -/
theorem mem_spreadsOf_iff : (l : List Selection) → (parent : FieldedType) → (f : String) →
    (f ∈ spreadsOf l ↔ f ∈ s.shownAll parent l ∨ f ∈ s.hiddenAll parent l)
  | [], _, _ => by simp [spreadsOf, shownAll, hiddenAll]
  | x :: l, parent, f => by
    simp only [spreadsOf, shownAll, hiddenAll, List.mem_append, mem_spreads_iff x parent f,
      mem_spreadsOf_iff l parent f]
    exact or_or_or_comm

/-- Every spread in a selection on a union is shown or hidden. -/
theorem mem_spreads_iff_in : (x : Selection) → (union : UnionType) → (f : String) →
    (f ∈ x.spreads ↔ f ∈ s.shownIn union x ∨ f ∈ s.hiddenIn union x)
  | .inline _ none _ _, _, _ => by simp [spreads, shownIn, hiddenIn]
  | .inline _ (some member) _ l, union, f => by
    simp only [spreads, shownIn, hiddenIn]
    by_cases hm : union.members.contains member = true
    · simp only [hm, if_true]
      cases s.object? member with
      | none => simp
      | some t => exact mem_spreadsOf_iff l t f
    · simp only [hm, if_false, Bool.false_eq_true, List.not_mem_nil, false_or]
  | .spread _ _ _, _, _ => by simp [spreads, shownIn, hiddenIn]
  | .field _ _ _ _ _ _, _, _ => by simp [spreads, shownIn, hiddenIn]

/-- A fragment is spread by selections on a union where it is shown or where it is hidden. -/
theorem mem_spreadsOf_iff_in : (l : List Selection) → (union : UnionType) → (f : String) →
    (f ∈ spreadsOf l ↔ f ∈ s.shownInAll union l ∨ f ∈ s.hiddenInAll union l)
  | [], _, _ => by simp [spreadsOf, shownInAll, hiddenInAll]
  | x :: l, union, f => by
    simp only [spreadsOf, shownInAll, hiddenInAll, List.mem_append, mem_spreads_iff_in x union f,
      mem_spreadsOf_iff_in l union f]
    exact or_or_or_comm

end

end Schema

/-! ### What a shape records -/

namespace Node

@[simp] theorem fragmentNames_ofTypename (path : List String) (name typename : String) :
    (ofTypename path name typename).fragmentNames = [] := by
  simp [ofTypename, fragmentNames, NodeHead.plain]

@[simp] theorem fragmentNames_variant (path : List String) (member : String) (shape : Selected) :
    (variant path member shape).fragmentNames = shape.recorded := by
  simp [variant, fragmentNames, Selected.recorded]

end Node

namespace Scope

open Schema

variable {s : Scope}

/-- Compatible selections record the fragments that they show. -/
theorem recorded_iff_shown (s : Scope) : s.Invariant
    (fun t _ l c => ∀ fieldAt, Agrees fieldAt (s.schema.landedAll t l) →
      ∀ f, f ∈ Contribution.recorded c ↔ f ∈ s.schema.shownAll t l)
    (fun u _ l c => ∀ fieldAt, Agrees fieldAt (s.schema.landedInAll u l) →
      ∀ f, f ∈ Contribution.recorded c ↔ f ∈ s.schema.shownInAll u l) where
  nil := by
    intro t path fieldAt _ f
    simp
  cons := by
    intro t path x l c c' hx hl fieldAt hag f
    rw [landedAll_cons, agrees_append] at hag
    have hfirst := hx fieldAt (by simpa using hag.1) f
    rw [shownAll_cons, shownAll_nil, List.append_nil] at hfirst
    rw [Contribution.mem_recorded_append, hfirst, hl fieldAt hag.2 f, shownAll_cons,
      List.mem_append]
  spread := by
    intro t path p fragment d fieldAt _ f
    simp [shown]
  typename := by
    intro t path p alias? a d l fieldAt _ f
    simp [shown, fieldType?_typename]
  leaf := by
    intro t path p alias? name a d l field type text ht ho hu _ _ fieldAt _ f
    simp only [shownAll_cons, shownAll_nil, List.append_nil, shown, ht]
    cases type with
    | object o => exact absurd rfl (ho o)
    | union u => exact absurd rfl (hu u)
    | builtin | scalar | interface | enum | inputObject =>
      simp [Node.fragmentNames, Node.fieldHead]
  object := by
    intro t path p alias? name a d l field o c ht _ hc ih fieldAt hag f
    rw [agrees_object ht] at hag
    have hshape := Selected.mem_recorded_ofContributions (regular_parts hag.2 hc) f
    simp only [shownAll_cons, shownAll_nil, List.append_nil, shown, ht, Contribution.recorded_node]
    exact hshape.trans (ih _ hag.2 f)
  union := by
    intro t path p alias? name a d l field u c ht _ hc ih fieldAt hag f
    rw [agrees_union ht] at hag
    have hshape := Selected.mem_recorded_ofContributions (regular_unionParts hag.2 hc) f
    simp only [shownAll_cons, shownAll_nil, List.append_nil, shown, ht, Contribution.recorded_node]
    exact hshape.trans (ih _ hag.2 f)
  unionNil := by
    intro u path fieldAt _ f
    simp
  unionCons := by
    intro u path x l c c' hx hl fieldAt hag f
    rw [landedInAll_cons, agrees_append] at hag
    have hfirst := hx fieldAt (by simpa using hag.1) f
    rw [shownInAll_cons, shownInAll_nil, List.append_nil] at hfirst
    rw [Contribution.mem_recorded_append, hfirst, hl fieldAt hag.2 f, shownInAll_cons,
      List.mem_append]
  unionTypename := by
    intro u path p alias? a d l fieldAt _ f
    simp [shownIn]
  unselected := by
    intro u path p condition? d l hm fieldAt _ f
    cases condition? with
    | none => simp [shownIn]
    | some member =>
      have hmember : u.members.contains member = false := hm member rfl
      simp only [shownInAll_cons, shownInAll_nil, List.append_nil, shownIn, hmember,
        Contribution.recorded_nil, Bool.false_eq_true, if_false]
  unionSpread := by
    intro u path p fragment d _ fieldAt _ f
    simp [shownIn]
  spreadMember := by
    intro u path p fragment d member t _ _ fieldAt _ f
    simp [shownIn, Contribution.recorded, Selected.recorded]
  variant := by
    intro u path p member d l t c hm ht hc ih fieldAt hag f
    rw [agrees_variant hm ht] at hag
    simp only [shownInAll_cons, shownInAll_nil, List.append_nil, shownIn, hm, if_true, ht,
      Contribution.recorded_node, Node.fragmentNames_variant]
    rw [Selected.mem_recorded_ofContributions (regular_parts hag hc) f]
    exact ih _ hag f

/-- The shape of compatible selections records the fragments that they show. -/
theorem mem_recorded_of_selectOnObject {parent : FieldedType} {path : List String}
    {l : List Selection} {shape : Selected} (hc : s.schema.Compatible parent l)
    (h : s.selectOnObject parent path l = .ok shape) (f : String) :
    f ∈ shape.recorded ↔ f ∈ s.schema.shownAll parent l := by
  obtain ⟨fieldAt, hagrees⟩ := s.schema.exists_agrees hc
  rw [← Except.toOption_eq_some, toOption_selectOnObject] at h
  obtain ⟨c, hparts, rfl⟩ := Option.map_eq_some_iff.mp h
  rw [Selected.mem_recorded_ofContributions (regular_parts hagrees hparts)]
  exact s.recorded_iff_shown.of_parts l parent path c hparts fieldAt hagrees f

end Scope

end QueryBindings
