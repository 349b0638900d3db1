import QueryBindings.Proofs.Shape.Rules
/-!
Response paths, and selections that agree on them.

A field selection lands on the response path that leads to its value: response names, and the name
of the member wherever a union is passed. Selections are compatible when those that land on one path
select one field. Their nodes then have one kind at every path, so merging them loses nothing.

Only selections that can show in the shape land somewhere: what stands in an inline fragment that
selects no member of a union, or below a leaf, does not.
-/
namespace QueryBindings

open Node (Kind)

namespace Schema

variable (s : Schema)

def under (name : String) (landed : List (List String × String)) : List (List String × String) :=
  landed.map fun q => (name :: q.1, q.2)

mutual

/-- The response paths of a selection on an object and of all below it, each with the field that is
selected there. -/
def landed (parent : FieldedType) : Selection → List (List String × String)
  | .inline _ _ _ _ => []
  | .spread _ _ _ => []
  | .field _ alias? name _ _ selections =>
    ([alias?.getD name], name) :: under (alias?.getD name)
      (match s.fieldType? parent name with
      | some (.object t) => landedAll t selections
      | some (.union u) => landedInAll u selections
      | _ => [])

def landedAll (parent : FieldedType) : List Selection → List (List String × String)
  | [] => []
  | x :: rest => landed parent x ++ landedAll parent rest

def landedIn (union : UnionType) : Selection → List (List String × String)
  | .inline _ (some member) _ selections =>
    if union.members.contains member then
      match s.object? member with
      | some t => under member (landedAll t selections)
      | none => []
    else []
  | .inline _ none _ _ => []
  | .spread _ _ _ => []
  | .field _ _ _ _ _ _ => []

def landedInAll (union : UnionType) : List Selection → List (List String × String)
  | [] => []
  | x :: rest => landedIn union x ++ landedInAll union rest

end

/-- Selections that land on the same response path select the same field. -/
def Compatible (parent : FieldedType) (selections : List Selection) : Prop :=
  ∀ q ∈ s.landedAll parent selections, ∀ q' ∈ s.landedAll parent selections,
    q.1 = q'.1 → q.2 = q'.2

instance (parent : FieldedType) (selections : List Selection) :
    Decidable (s.Compatible parent selections) := by unfold Compatible; infer_instance

def CompatibleIn (union : UnionType) (selections : List Selection) : Prop :=
  ∀ q ∈ s.landedInAll union selections, ∀ q' ∈ s.landedInAll union selections,
    q.1 = q'.1 → q.2 = q'.2

instance (union : UnionType) (selections : List Selection) :
    Decidable (s.CompatibleIn union selections) := by unfold CompatibleIn; infer_instance

/-- The fields that are selected are those that `fieldAt` gives to the response paths. -/
def Agrees (fieldAt : List String → String) (landed : List (List String × String)) : Prop :=
  ∀ q ∈ landed, q.2 = fieldAt q.1

/-- Fields that are the same wherever the paths are come from one assignment of fields to paths. -/
theorem exists_agrees_of_unique {landed : List (List String × String)}
    (h : ∀ q ∈ landed, ∀ q' ∈ landed, q.1 = q'.1 → q.2 = q'.2) :
    ∃ fieldAt, Agrees fieldAt landed := by
  refine ⟨fun path => (landed.lookup path).getD "", ?_⟩
  rintro ⟨path, field⟩ hq
  cases hl : landed.lookup path with
  | none =>
    rw [List.lookup_eq_none_iff] at hl
    exact absurd (hl _ hq) (by simp)
  | some other =>
    obtain ⟨before, after, he, -⟩ := List.lookup_eq_some_iff.mp hl
    have hother : field = other := h _ hq (path, other) (by simp [he]) rfl
    simp [hl, hother]

/-- Compatible selections take their fields from one assignment of fields to paths. -/
theorem exists_agrees {parent : FieldedType} {l : List Selection} (h : s.Compatible parent l) :
    ∃ fieldAt, Agrees fieldAt (s.landedAll parent l) := exists_agrees_of_unique h

@[simp] theorem agrees_nil (fieldAt : List String → String) : Agrees fieldAt [] := by
  simp [Agrees]

@[simp] theorem agrees_append {fieldAt : List String → String}
    {a b : List (List String × String)} :
    Agrees fieldAt (a ++ b) ↔ Agrees fieldAt a ∧ Agrees fieldAt b := List.forall_mem_append

@[simp] theorem agrees_cons {fieldAt : List String → String} {q : List String × String}
    {l : List (List String × String)} :
    Agrees fieldAt (q :: l) ↔ q.2 = fieldAt q.1 ∧ Agrees fieldAt l := List.forall_mem_cons

@[simp] theorem agrees_under {fieldAt : List String → String} {name : String}
    {l : List (List String × String)} :
    Agrees fieldAt (under name l) ↔ Agrees (fieldAt <| name :: ·) l := by
  simp only [Agrees, under, List.forall_mem_map]

@[simp] theorem landedAll_nil (parent : FieldedType) : s.landedAll parent [] = [] := by
  simp [landedAll]

@[simp] theorem landedAll_cons (parent : FieldedType) (x : Selection) (l : List Selection) :
    s.landedAll parent (x :: l) = s.landed parent x ++ s.landedAll parent l := by
  simp [landedAll]

@[simp] theorem landedInAll_nil (union : UnionType) : s.landedInAll union [] = [] := by
  simp [landedInAll]

@[simp] theorem landedInAll_cons (union : UnionType) (x : Selection) (l : List Selection) :
    s.landedInAll union (x :: l) = s.landedIn union x ++ s.landedInAll union l := by
  simp [landedInAll]

@[simp] theorem landedAll_append (parent : FieldedType) (a b : List Selection) :
    s.landedAll parent (a ++ b) = s.landedAll parent a ++ s.landedAll parent b := by
  induction a with
  | nil => simp
  | cons x a ih => simp [ih]

@[simp] theorem landedInAll_append (union : UnionType) (a b : List Selection) :
    s.landedInAll union (a ++ b) = s.landedInAll union a ++ s.landedInAll union b := by
  induction a with
  | nil => simp
  | cons x a ih => simp [ih]

def landedBelow (parent : FieldedType) (name : String) (l : List Selection) :
    List (List String × String) :=
  match s.fieldType? parent name with
  | some (.object t) => s.landedAll t l
  | some (.union u) => s.landedInAll u l
  | _ => []

theorem landed_field (parent : FieldedType) (p : Position) (alias? : Option String)
    (name : String) (a : List Argument) (d : List Directive) (l : List Selection) :
    s.landed parent (.field p alias? name a d l) =
      ([alias?.getD name], name) :: under (alias?.getD name) (s.landedBelow parent name l) := by
  cases h : s.fieldType? parent name with
  | none => simp [landed, landedBelow, h]
  | some t => cases t <;> simp [landed, landedBelow, h]

theorem landedBelow_append (parent : FieldedType) (name : String) (a b : List Selection) :
    s.landedBelow parent name (a ++ b) =
      s.landedBelow parent name a ++ s.landedBelow parent name b := by
  unfold landedBelow
  split <;> simp

variable {s} in
/-- Selections agree with a choice of fields if each of them does. -/
theorem agrees_landedAll_iff {parent : FieldedType} {fieldAt : List String → String}
    {l : List Selection} :
    Agrees fieldAt (s.landedAll parent l) ↔ ∀ x ∈ l, Agrees fieldAt (s.landed parent x) := by
  induction l with
  | nil => simp
  | cons x l ih => simp [ih]

variable {s} in
theorem agrees_landedInAll {union : UnionType} {fieldAt : List String → String}
    {l : List Selection} (h : Agrees fieldAt (s.landedInAll union l)) :
    ∀ x ∈ l, Agrees fieldAt (s.landedIn union x) := by
  induction l with
  | nil => simp
  | cons x l ih =>
    rw [landedInAll_cons, agrees_append] at h
    exact List.forall_mem_cons.mpr ⟨h.1, ih h.2⟩

section Agreement

variable {s} {fieldAt : List String → String} {parent o : FieldedType} {u : UnionType}
  {p : Position} {alias? : Option String} {name member : String} {a : List Argument}
  {d : List Directive} {l : List Selection}

/-- A single field agrees if its own name does and the selections below it do. -/
theorem agrees_object (h : s.fieldType? parent name = some (.object o)) :
    Agrees fieldAt (s.landedAll parent [.field p alias? name a d l]) ↔
      name = fieldAt [alias?.getD name] ∧
        Agrees (fieldAt <| alias?.getD name :: ·) (s.landedAll o l) := by
  simp only [landedAll_cons, landedAll_nil, List.append_nil, landed_field, agrees_cons,
    agrees_under, landedBelow, h]

theorem agrees_union (h : s.fieldType? parent name = some (.union u)) :
    Agrees fieldAt (s.landedAll parent [.field p alias? name a d l]) ↔
      name = fieldAt [alias?.getD name] ∧
        Agrees (fieldAt <| alias?.getD name :: ·) (s.landedInAll u l) := by
  simp only [landedAll_cons, landedAll_nil, List.append_nil, landed_field, agrees_cons,
    agrees_under, landedBelow, h]

theorem agrees_variant (hm : u.members.contains member = true) (h : s.object? member = some o) :
    Agrees fieldAt (s.landedInAll u [.inline p (some member) d l]) ↔
      Agrees (fieldAt <| member :: ·) (s.landedAll o l) := by
  simp only [landedInAll_cons, landedInAll_nil, List.append_nil, landedIn, hm, if_true, h,
    agrees_under]

end Agreement

/-! ### Kinds -/

mutual

/-- The kind of the node at a path below an object, when `fieldAt` gives the fields. -/
def kindOn (parent : FieldedType) (fieldAt : List String → String) : List String → Kind
  | [] => .object
  | r :: rest =>
    match s.fieldType? parent (fieldAt [r]) with
    | some (.object t) => kindOn t (fieldAt <| r :: ·) rest
    | some (.union _) => kindIn (fieldAt <| r :: ·) rest
    | _ => .leaf

def kindIn (fieldAt : List String → String) : List String → Kind
  | [] => .union
  | member :: rest =>
    match s.object? member with
    | some t => kindOn t (fieldAt <| member :: ·) rest
    | none => .object

end

@[simp] theorem kindOn_nil (parent : FieldedType) (fieldAt : List String → String) :
    s.kindOn parent fieldAt [] = .object := by simp [kindOn]

@[simp] theorem kindIn_nil (fieldAt : List String → String) :
    s.kindIn fieldAt [] = .union := by simp [kindIn]

variable {s}

theorem kindOn_of_object {parent t : FieldedType} {fieldAt : List String → String} {r : String}
    (h : s.fieldType? parent (fieldAt [r]) = some (.object t)) :
    (fun rest => s.kindOn parent fieldAt (r :: rest)) = s.kindOn t (fieldAt <| r :: ·) := by
  funext rest
  simp [kindOn, h]

theorem kindOn_of_union {parent : FieldedType} {u : UnionType} {fieldAt : List String → String}
    {r : String} (h : s.fieldType? parent (fieldAt [r]) = some (.union u)) :
    (fun rest => s.kindOn parent fieldAt (r :: rest)) = s.kindIn (fieldAt <| r :: ·) := by
  funext rest
  simp [kindOn, h]

theorem kindIn_of_object {t : FieldedType} {fieldAt : List String → String}
    {member : String} (h : s.object? member = some t) :
    (fun rest => s.kindIn fieldAt (member :: rest)) =
      s.kindOn t (fieldAt <| member :: ·) := by
  funext rest
  simp [kindIn, h]

def sampleObject (name : String) (fields : List (String × String)) : FieldedType :=
  ⟨name, ⟨none, 1, 1⟩, fields.map fun f => ⟨f.1, .builtin, .named f.2 true, ⟨none, 1, 1⟩⟩⟩

def sampleRoot : FieldedType := sampleObject "Query" [("owner", "Owner"), ("pet", "Pet")]

def sampleSchema : Schema where
  query := "Query"
  mutation := none
  subscription := none
  types := [.builtin .string, .object sampleRoot,
    .object (sampleObject "Owner" [("name", "String"), ("pet", "Pet")]),
    .union ⟨"Pet", ⟨none, 1, 1⟩, ["Cat", "Dog"]⟩,
    .object (sampleObject "Cat" [("name", "String"), ("mother", "Cat")]),
    .object (sampleObject "Dog" [("name", "String")])]

end Schema

namespace Scope

open Schema

variable {s : Scope}

/-! ### Shapes of compatible selections -/

theorem regular_singleton {kindAt : List String → Kind} {n : Node} (hd : n.Distinct)
    (hc : n.Conforms kindAt) : Contribution.Regular kindAt [.node n] where
  distinct := by simpa using hd
  conforms := by simpa using hc

theorem regular_nil (kindAt : List String → Kind) : Contribution.Regular kindAt [] where
  distinct := by simp
  conforms := by simp

theorem regular_spread (kindAt : List String → Kind) (fragment : String) :
    Contribution.Regular kindAt [.spread fragment] where
  distinct := by simp
  conforms := by simp

/-- What compatible selections contribute has one kind at every path. -/
theorem regular (s : Scope) : s.Invariant
    (fun t _ l c => ∀ fieldAt, Agrees fieldAt (s.schema.landedAll t l) →
      Contribution.Regular (s.schema.kindOn t fieldAt) c)
    (fun u _ l c => ∀ fieldAt, Agrees fieldAt (s.schema.landedInAll u l) →
      Contribution.Regular (s.schema.kindIn fieldAt) c) where
  nil := by
    intro t path fieldAt _
    exact regular_nil _
  cons := by
    intro t path x l c c' hx hl fieldAt hag
    rw [landedAll_cons, agrees_append] at hag
    exact (hx fieldAt (by simpa using hag.1)).append (hl fieldAt hag.2)
  spread := by
    intro t path p f d fieldAt _
    exact regular_spread _ f
  typename := by
    intro t path p alias? a d l fieldAt hag
    simp only [landedAll_cons, landedAll_nil, List.append_nil, landed_field, agrees_cons] at hag
    apply regular_singleton (by simp [Node.ofTypename])
    simp only [Node.ofTypename, Node.conforms_leaf, NodeHead.plain, kindOn, ← hag.1,
      fieldType?_typename]
  leaf := by
    intro t path p alias? name a d l f type text ht ho hu _ _ fieldAt hag
    simp only [landedAll_cons, landedAll_nil, List.append_nil, landed_field, agrees_cons] at hag
    rw [hag.1] at ht
    apply regular_singleton (by simp)
    simp only [Node.conforms_leaf, Node.fieldHead, kindOn, ht]
    cases type with
    | object o => exact absurd rfl (ho o)
    | union u => exact absurd rfl (hu u)
    | builtin | scalar | interface | enum | inputObject => rfl
  object := by
    intro t path p alias? name a d l f o c ht _ _ ih fieldAt hag
    obtain ⟨hname, hbelow⟩ := (agrees_object ht).mp hag
    rw [hname] at ht
    have hreg := Selected.regular_ofContributions (ih _ hbelow)
    apply regular_singleton (by simpa using hreg.distinct)
    rw [Node.conforms_object]
    refine ⟨by simp [Node.fieldHead, kindOn, ht], ?_⟩
    simpa only [Node.fieldHead, kindOn_of_object ht] using hreg.conforms
  union := by
    intro t path p alias? name a d l f u c ht _ _ ih fieldAt hag
    obtain ⟨hname, hbelow⟩ := (agrees_union ht).mp hag
    rw [hname] at ht
    have hreg := Selected.regular_ofContributions (ih _ hbelow)
    apply regular_singleton (by simpa using hreg.distinct)
    rw [Node.conforms_union]
    refine ⟨by simp [Node.fieldHead, kindOn, ht], ?_⟩
    simpa only [Node.fieldHead, kindOn_of_union ht] using hreg.conforms
  unionNil := by
    intro u path fieldAt _
    exact regular_nil _
  unionCons := by
    intro u path x l c c' hx hl fieldAt hag
    rw [landedInAll_cons, agrees_append] at hag
    exact (hx fieldAt (by simpa using hag.1)).append (hl fieldAt hag.2)
  unionTypename := by
    intro u path p alias? a d l fieldAt _
    exact regular_nil _
  unselected := by
    intro u path p condition? d l _ fieldAt _
    exact regular_nil _
  unionSpread := by
    intro u path p f d _ fieldAt _
    exact regular_spread _ f
  spreadMember := by
    intro u path p f d member t _ ht fieldAt _
    refine ((regular_singleton ?_ ?_).append (regular_spread _ f) :)
    · simp [Node.variant]
    · simp [Node.variant, kindIn, ht]
  variant := by
    intro u path p member d l t c hm ht _ ih fieldAt hag
    rw [agrees_variant hm ht] at hag
    have hreg := Selected.regular_ofContributions (ih _ hag)
    apply regular_singleton (by simpa [Node.variant] using hreg.distinct)
    rw [Node.variant, Node.conforms_object]
    refine ⟨by simp [kindIn, ht], ?_⟩
    simpa only [kindIn_of_object ht] using hreg.conforms

/-- What compatible selections contribute has the kinds of the fields that they select. -/
theorem regular_parts {parent : FieldedType} {path : List String} {l : List Selection}
    {fieldAt : List String → String} {c : List Contribution}
    (hag : Agrees fieldAt (s.schema.landedAll parent l)) (h : s.parts? parent path l = some c) :
    Contribution.Regular (s.schema.kindOn parent fieldAt) c :=
  s.regular.of_parts l parent path c h fieldAt hag

/-- What compatible selections on a union contribute has the kinds of the fields that they select.
-/
theorem regular_unionParts {union : UnionType} {path : List String} {l : List Selection}
    {fieldAt : List String → String} {c : List Contribution}
    (hag : Agrees fieldAt (s.schema.landedInAll union l))
    (h : s.unionParts? union path l = some c) :
    Contribution.Regular (s.schema.kindIn fieldAt) c :=
  s.regular.of_unionParts l union path c h fieldAt hag

end Scope

end QueryBindings
