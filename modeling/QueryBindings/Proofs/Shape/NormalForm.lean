import QueryBindings.Proofs.Shape.Compatible
/-!
The normal form of a selection set.

`Selection.gather` puts all field selections of one response name together at the place of the first
of them, with the selections below them one after the other. `Schema.normalOn` does so at every object
of a selection set; the inline fragments on a union stay where they are, and what they hold is
brought into normal form.

The main statement: at every object below it, a normal form has each response name once.
-/
namespace QueryBindings

namespace Selection

def body : Selection → List Selection
  | .field _ _ _ _ _ l => l
  | .spread _ _ _ => []
  | .inline _ _ _ l => l

def withBody (l : List Selection) : Selection → Selection
  | .field p alias? name a d _ => .field p alias? name a d l
  | .spread p f d => .spread p f d
  | .inline p c d _ => .inline p c d l

def answers (r : String) (x : Selection) : Bool := x.response? == some r

def answering (r : String) (l : List Selection) : List Selection := l.filter (answers r)

def others (r : String) (l : List Selection) : List Selection := l.filter (!answers r ·)

theorem length_others_le (r : String) (l : List Selection) : (others r l).length ≤ l.length :=
  List.length_filter_le _ _

/-- The selections with every response name once, at the place where it comes first. -/
def gather : List Selection → List Selection
  | [] => []
  | x :: rest =>
    match x.response? with
    | none => x :: gather rest
    | some r =>
      x.withBody (x.body ++ (answering r rest).flatMap body) :: gather (others r rest)
termination_by l => l.length
decreasing_by
  · simp
  · have := length_others_le r rest
    simp only [List.length_cons]
    omega

theorem response?_withBody (l : List Selection) (x : Selection) :
    (x.withBody l).response? = x.response? := by cases x <;> rfl

/-- Gathering adds no response name. -/
theorem response?_of_mem_gather {y : Selection} {l : List Selection} (h : y ∈ gather l) :
    ∃ x ∈ l, y.response? = x.response? := by
  induction l using gather.induct with
  | case1 => simp [gather] at h
  | case2 x rest hx ih =>
    simp only [gather, hx, List.mem_cons] at h
    rcases h with rfl | h
    · exact ⟨y, by simp, rfl⟩
    · obtain ⟨z, hz, he⟩ := ih h
      exact ⟨z, by simp [hz], he⟩
  | case3 x rest r hx ih =>
    simp only [gather, hx, List.mem_cons] at h
    rcases h with rfl | h
    · exact ⟨x, by simp, response?_withBody _ x⟩
    · obtain ⟨z, hz, he⟩ := ih h
      exact ⟨z, List.mem_cons_of_mem _ (List.mem_filter.mp hz).1, he⟩

/-- Gathered selections have every response name once. -/
theorem nodup_response?_gather (l : List Selection) :
    ((gather l).filterMap response?).Nodup := by
  induction l using gather.induct with
  | case1 => simp [gather]
  | case2 x rest hx ih => simpa [gather, hx] using ih
  | case3 x rest r hx ih =>
    simp only [gather, hx, List.filterMap_cons, response?_withBody, List.nodup_cons]
    refine ⟨?_, ih⟩
    rw [List.mem_filterMap]
    rintro ⟨y, hy, hr⟩
    obtain ⟨z, hz, he⟩ := response?_of_mem_gather hy
    have hne := (List.mem_filter.mp hz).2
    simp [answers, ← he, hr] at hne

mutual

def weight : Selection → Nat
  | .field _ _ _ _ _ l => weightAll l + 1
  | .spread _ _ _ => 1
  | .inline _ _ _ l => weightAll l + 1

def weightAll : List Selection → Nat
  | [] => 0
  | x :: rest => weight x + weightAll rest

end

@[simp] theorem weightAll_nil : weightAll [] = 0 := by simp [weightAll]

@[simp] theorem weightAll_cons (x : Selection) (l : List Selection) :
    weightAll (x :: l) = x.weight + weightAll l := by simp [weightAll]

@[simp] theorem weightAll_append (a b : List Selection) :
    weightAll (a ++ b) = weightAll a + weightAll b := by
  induction a with
  | nil => simp
  | cons x a ih => simp [ih, Nat.add_assoc]

theorem weight_eq (x : Selection) : x.weight = weightAll x.body + 1 := by
  cases x <;> simp [weight, body]

theorem weight_le {x : Selection} {l : List Selection} (h : x ∈ l) :
    x.weight ≤ weightAll l := by
  induction l with
  | nil => simp at h
  | cons y l ih =>
    rw [weightAll_cons]
    rcases List.mem_cons.mp h with rfl | h
    · omega
    · have := ih h
      omega

theorem weightAll_answering (r : String) (l : List Selection) :
    weightAll (answering r l) + weightAll (others r l) = weightAll l := by
  unfold answering others
  induction l with
  | nil => simp
  | cons x l ih =>
    cases hp : x.answers r <;> simp only [List.filter_cons, hp, weightAll_cons] <;> simp <;> omega

theorem weightAll_flatMap_body_le (l : List Selection) :
    weightAll (l.flatMap body) ≤ weightAll l := by
  induction l with
  | nil => simp
  | cons x l ih =>
    simp only [List.flatMap_cons, weightAll_append, weightAll_cons, weight_eq]
    omega

theorem body_withBody {x : Selection} {r : String} (h : x.response? = some r)
    (l : List Selection) : (x.withBody l).body = l := by
  cases x <;> simp_all [response?, withBody, body]

theorem weightAll_gather_le (l : List Selection) : weightAll (gather l) ≤ weightAll l := by
  induction l using gather.induct with
  | case1 => simp [gather]
  | case2 x rest h ih =>
    simp only [gather, h, weightAll_cons]
    omega
  | case3 x rest r h ih =>
    have hf := weightAll_answering r rest
    have hb := weightAll_flatMap_body_le (answering r rest)
    simp only [gather, h, weightAll_cons, weight_eq, body_withBody h, weightAll_append]
    omega

/-- What is inside a gathered selection is smaller than the selections that were gathered. -/
theorem weightAll_body_lt {x : Selection} {l : List Selection} (h : x ∈ gather l) :
    weightAll x.body < weightAll l := by
  have hx := weight_le h
  have hl := weightAll_gather_le l
  rw [weight_eq] at hx
  omega

end Selection

open Selection

namespace Schema

variable (s : Schema)

/-- The type that the selections inside a selection on an object are resolved on. -/
def selectedType? (parent : FieldedType) : Selection → Option SchemaType
  | .field _ _ name _ _ _ => s.fieldType? parent name
  | .spread _ _ _ => none
  | .inline _ _ _ _ => none

def branchType? : Selection → Option FieldedType
  | .inline _ (some member) _ _ => s.object? member
  | .inline _ none _ _ => none
  | .field _ _ _ _ _ _ => none
  | .spread _ _ _ => none

mutual

/-- The normal form of selections on an object. -/
def normalOn (parent : FieldedType) (l : List Selection) : List Selection :=
  (gather l).attach.map fun ⟨x, _⟩ => x.withBody <|
    match s.selectedType? parent x with
    | some (.object t) => normalOn t x.body
    | some (.union _) => normalIn x.body
    | _ => x.body
termination_by weightAll l
decreasing_by all_goals exact weightAll_body_lt ‹_›

def normalIn (l : List Selection) : List Selection :=
  l.attach.map fun ⟨x, _⟩ => x.withBody <|
    match s.branchType? x with
    | some t => normalOn t x.body
    | none => x.body
termination_by weightAll l
decreasing_by
  rename_i h
  have := weight_le h
  rw [weight_eq] at this
  omega

end

def normalPart (parent : FieldedType) (x : Selection) : Selection :=
  x.withBody <|
    match s.selectedType? parent x with
    | some (.object t) => s.normalOn t x.body
    | some (.union _) => s.normalIn x.body
    | _ => x.body

def normalBranch (x : Selection) : Selection :=
  x.withBody <|
    match s.branchType? x with
    | some t => s.normalOn t x.body
    | none => x.body

/-- The normal form gathers a level, and then treats what is inside. -/
theorem normalOn_eq (parent : FieldedType) (l : List Selection) :
    s.normalOn parent l = (gather l).map (s.normalPart parent) := by
  rw [normalOn]
  exact List.attach_map_val (f := s.normalPart parent)

theorem normalIn_eq (l : List Selection) : s.normalIn l = l.map s.normalBranch := by
  rw [normalIn]
  exact List.attach_map_val (f := s.normalBranch)

/-! ### The levels of a normal form -/

/-- The selections on objects that there are in selections on an object: those themselves, what is
inside a field of an object type, and what is inside a branch of a field of a union type. -/
inductive Level (parent : FieldedType) (l : List Selection) : FieldedType → List Selection → Prop
  | here : Level parent l parent l
  | object {p t : FieldedType} {level : List Selection} {x : Selection} :
      Level parent l p level → x ∈ level → s.selectedType? p x = some (.object t) →
      Level parent l t x.body
  | branch {p t : FieldedType} {u : UnionType} {level : List Selection} {x y : Selection} :
      Level parent l p level → x ∈ level → s.selectedType? p x = some (.union u) →
      y ∈ x.body → s.branchType? y = some t → Level parent l t y.body

@[simp] theorem selectedType?_withBody (parent : FieldedType) (l : List Selection) (x : Selection) :
    s.selectedType? parent (x.withBody l) = s.selectedType? parent x := by cases x <;> rfl

@[simp] theorem branchType?_withBody (l : List Selection) (x : Selection) :
    s.branchType? (x.withBody l) = s.branchType? x := by
  cases x with
  | inline p c d l => cases c <;> rfl
  | _ => rfl

variable {s} {parent t : FieldedType} {u : UnionType} {x : Selection}

theorem body_normalPart_object (h : s.selectedType? parent x = some (.object t)) :
    (s.normalPart parent x).body = s.normalOn t x.body := by
  cases x with
  | field => simp only [normalPart, h, withBody, body]
  | _ => cases h

theorem body_normalPart_union (h : s.selectedType? parent x = some (.union u)) :
    (s.normalPart parent x).body = s.normalIn x.body := by
  cases x with
  | field => simp only [normalPart, h, withBody, body]
  | _ => cases h

/-- What is inside a branch is in normal form. -/
theorem body_normalBranch (h : s.branchType? x = some t) :
    (s.normalBranch x).body = s.normalOn t x.body := by
  cases x with
  | inline => simp only [normalBranch, h, withBody, body]
  | _ => cases h

/-- The levels of a normal form are in normal form. -/
theorem Level.exists_eq_normalOn {l level : List Selection}
    (h : s.Level parent (s.normalOn parent l) t level) : ∃ k, level = s.normalOn t k := by
  induction h with
  | here => exact ⟨l, rfl⟩
  | object _ hx ht ih =>
    obtain ⟨k, rfl⟩ := ih
    rw [normalOn_eq] at hx
    obtain ⟨x, -, rfl⟩ := List.mem_map.mp hx
    exact ⟨x.body, body_normalPart_object (by simpa [normalPart] using ht)⟩
  | branch _ hx hu hy ht ih =>
    obtain ⟨k, rfl⟩ := ih
    rw [normalOn_eq] at hx
    obtain ⟨x, -, rfl⟩ := List.mem_map.mp hx
    rw [body_normalPart_union (by simpa [normalPart] using hu), normalIn_eq] at hy
    obtain ⟨y, -, rfl⟩ := List.mem_map.mp hy
    exact ⟨y.body, body_normalBranch (by simpa [normalBranch] using ht)⟩

/-- At every level, a normal form has each response name once. -/
theorem Level.nodup_response? {l level : List Selection}
    (h : s.Level parent (s.normalOn parent l) t level) : (level.filterMap response?).Nodup := by
  obtain ⟨k, rfl⟩ := h.exists_eq_normalOn
  have hresponse : response? ∘ s.normalPart t = response? :=
    funext fun x => response?_withBody _ x
  rw [normalOn_eq, List.filterMap_map, hresponse]
  exact nodup_response?_gather k

end Schema

end QueryBindings
