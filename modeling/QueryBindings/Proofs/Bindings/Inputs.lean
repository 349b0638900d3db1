import QueryBindings.Proofs.Bindings.Extraction
import QueryBindings.Proofs.Search
import QueryBindings.Proofs.Shape.Tags
/-!
The shapes of variables and input objects.

They are objects of leaves at one path, so the leaves have distinct names if their declarations have.
-/
namespace QueryBindings

namespace Node

/-- The nodes are leaves at a path, as variables and input fields are. -/
def LeavesAt (path : List String) (l : List Node) : Prop :=
  ∀ n ∈ l, ∃ name modifiers text, n = leaf ⟨name, path, modifiers, [], none⟩ text

variable {path : List String} {l : List Node}

theorem declarationsOf_leaves (h : LeavesAt path l) :
    declarationsOf l = (l.map name).map (declarationName path) := by
  induction l with
  | nil => simp [declarationsOf]
  | cons n l ih =>
    obtain ⟨⟨n, modifiers, text, rfl⟩, hl⟩ := List.forall_mem_cons.mp h
    simp [declarationsOf, declarations, ih hl, name]

/-- Leaves that are declared under distinct names have distinct names. -/
theorem distinctAll_leaves (h : LeavesAt path l) (hn : (declarationsOf l).Nodup) :
    DistinctAll l := by
  rw [declarationsOf_leaves h] at hn
  refine distinctAll_iff.mpr ⟨hn.of_map, ?_⟩
  intro n hm
  obtain ⟨name, modifiers, text, rfl⟩ := h n hm
  exact distinct_leaf _ text

theorem taggedAll_leaves (h : LeavesAt path l) : TaggedAll false l := by
  refine taggedAll_iff.mpr ?_
  intro n hm
  obtain ⟨name, modifiers, text, rfl⟩ := h n hm
  simp [Tagged]

theorem not_retaggedAny_leaves (h : LeavesAt path l) : ¬ RetaggedAny l := by
  rw [retaggedAny_iff]
  rintro ⟨n, hm, hr⟩
  obtain ⟨name, modifiers, text, rfl⟩ := h n hm
  simp [Retagged] at hr

theorem fragmentNamesOf_leaves (h : LeavesAt path l) : fragmentNamesOf l = [] := by
  induction l with
  | nil => exact fragmentNamesOf_nil
  | cons n l ih =>
    obtain ⟨⟨name, modifiers, text, rfl⟩, hl⟩ := List.forall_mem_cons.mp h
    simp [fragmentNames, ih hl]

end Node

namespace Schema

theorem lookup_types (s : Schema) (name : String) :
    (s.types.map fun t => (t.name, t)).lookup name = s.find? name := by
  unfold find? SchemaType.find?
  induction s.types with
  | nil => rfl
  | cons t types ih =>
    rw [List.map_cons, List.lookup_cons, List.find?_cons, ih, Bool.beq_comm]

end Schema

/-- The leaves of variables are at one path. -/
theorem leavesAt_of_variables {s : Scope} {operation : String} {l : List VariableDefinition}
    {parameters : List (Node × Option InputRequest)}
    (h : l.mapM (s.variableNode operation) = .ok parameters) :
    Node.LeavesAt [operation, "variables"] (parameters.map (·.1)) := by
  intro n hn
  obtain ⟨p, hp, rfl⟩ := List.mem_map.mp hn
  obtain ⟨v, -, hv⟩ := List.Forall₂.exists_left (Except.mapM_eq_ok.mp h) hp
  obtain ⟨found, -, hv⟩ := Except.bind_eq_ok.mp hv
  have he := Except.pure_eq_ok.mp hv
  exact ⟨_, _, _, (congrArg Prod.fst he).symm⟩

/-- The nodes of input fields are leaves. -/
theorem leavesAt_of_inputFields {schema : Schema} {config : Config} {t : FieldedType}
    {fields : List (Node × Option InputRequest)}
    (h : t.fields.mapM (t.inputField schema config) = .ok fields) :
    Node.LeavesAt [t.name] (fields.map (·.1)) := by
  intro n hn
  obtain ⟨p, hp, rfl⟩ := List.mem_map.mp hn
  obtain ⟨f, -, hf⟩ := List.Forall₂.exists_left (Except.mapM_eq_ok.mp h) hp
  obtain ⟨found, -, hf⟩ := Except.bind_eq_ok.mp hf
  have he := Except.pure_eq_ok.mp hf
  exact ⟨_, _, _, (congrArg Prod.fst he).symm⟩

/-! ### Declarations of input objects -/

namespace Schema

theorem inputObject?_eq_some {s : Schema} {name : String} {t : FieldedType} :
    s.inputObject? name = some t ↔ s.find? name = some (.inputObject t) := by
  unfold inputObject?
  split <;> simp_all

theorem name_of_inputObject? {s : Schema} {name : String} {t : FieldedType}
    (h : s.inputObject? name = some t) : t.name = name :=
  SchemaType.name_of_find?_eq_some (inputObject?_eq_some.mp h)

/-- The leaf of an input object is its name, and asks for its declaration. -/
theorem inputLeaf_of_inputObject {s : Schema} {config : Config} {use : TypeUse}
    {location : Location} {declared : TypeAnnotation} {t : FieldedType}
    (h : s.inputObject? declared.baseName = some t) :
    s.inputLeaf config use location declared = .ok ⟨t.name, some ⟨t.name, location⟩⟩ := by
  rw [inputObject?_eq_some] at h
  simp only [inputLeaf, h, SchemaType.inputLeaf]

end Schema

def VariableDefinition.declared (v : VariableDefinition) : TypeAnnotation :=
  TypeAnnotation.ofRef v.type

/-- A variable for an input object is a leaf with the object's name, and asks for it. -/
theorem Scope.variableNode_of_inputObject {s : Scope} {operation : String} {v : VariableDefinition}
    {i : FieldedType} (h : s.schema.inputObject? v.declared.baseName = some i) :
    s.variableNode operation v =
      .ok (.leaf ⟨v.name, [operation, "variables"], v.declared.modifiers, [], none⟩ i.name,
        some ⟨i.name, s.locate v.position⟩) := by
  have hdeclared : TypeAnnotation.ofRef v.type = v.declared := rfl
  simp only [variableNode, hdeclared, Schema.inputLeaf_of_inputObject h]
  rfl

/-- A field that holds an input object is a leaf with the object's name, and asks for it. -/
theorem FieldedType.inputField_of_inputObject {schema : Schema} {config : Config}
    {t : FieldedType} {f : Field} {i : FieldedType}
    (h : schema.inputObject? f.type.baseName = some i) :
    t.inputField schema config f =
      .ok (.leaf ⟨f.name, [t.name], f.type.modifiers, [], none⟩ i.name,
        some ⟨i.name, f.location⟩) := by
  simp only [inputField, Schema.inputLeaf_of_inputObject h]
  rfl

namespace InputRequest

variable {schema : Schema} {config : Config} {requests : List InputRequest} {nodes : List Node}

theorem byName_search (schema : Schema) (config : Config) : (search schema config).ByName := by
  intro r r' entry result _ h
  cases entry with
  | inputObject i => exact h
  | builtin | scalar | object | interface | union | enum => simp [search, expand] at h

theorem expand_inputObject {r : InputRequest} {i : FieldedType}
    {fields : List (Node × Option InputRequest)}
    (h : i.fields.mapM (i.inputField schema config) = .ok fields) :
    (search schema config).expand r (.inputObject i) =
      .ok (.object (.plain [] i.name) (fields.map (·.1)), fields.filterMap (·.2)) := by
  simp only [search, expand, FieldedType.inputDeclaration, h]
  rfl

/-- A request is answered with the declaration of an input object in the schema. -/
theorem answered_iff {name : String} {n : Node} :
    (search schema config).Answered name n ↔ ∃ i fields, schema.inputObject? name = some i ∧
      i.fields.mapM (i.inputField schema config) = .ok fields ∧
      n = .object (.plain [] i.name) (fields.map (·.1)) := by
  constructor
  · rintro ⟨r, t, next, rfl, hl, he⟩
    have hfind : schema.find? r.type = some t := (schema.lookup_types r.type).symm.trans hl
    cases t with
    | inputObject i =>
      obtain ⟨fields, hfields, he⟩ := Except.bind_eq_ok.mp he
      have hnode := congrArg Prod.fst (Except.pure_eq_ok.mp he)
      exact ⟨i, fields, Schema.inputObject?_eq_some.mpr hfind, hfields, hnode.symm⟩
    | builtin | scalar | object | interface | union | enum => simp [search, expand] at he
  · rintro ⟨i, fields, hi, hfields, rfl⟩
    have hl := (schema.lookup_types name).trans (Schema.inputObject?_eq_some.mp hi)
    exact ⟨⟨name, ⟨none, 0, 0⟩⟩, .inputObject i, fields.filterMap (·.2), rfl, hl,
      expand_inputObject hfields⟩

/-- An input declaration is that of an input object in the schema. -/
theorem exists_inputObject (h : declarations schema config requests = .ok nodes) {n : Node}
    (hn : n ∈ nodes) : ∃ i fields, schema.inputObject? i.name = some i ∧
      i.fields.mapM (i.inputField schema config) = .ok fields ∧
      n = .object (.plain [] i.name) (fields.map (·.1)) := by
  obtain ⟨found, hfound, h⟩ := Except.bind_eq_ok.mp h
  rw [← Except.pure_eq_ok.mp h] at hn
  obtain ⟨p, hp, rfl⟩ := List.mem_map.mp hn
  obtain ⟨i, fields, hi, hfields, hnode⟩ := answered_iff.mp (Search.answered_of_run hfound p hp)
  have hname := Schema.name_of_inputObject? hi
  exact ⟨i, fields, hname.symm ▸ hi, hfields, hnode⟩

/-- The declared types are those that are reached from the requests. -/
theorem exists_declaration_iff (h : declarations schema config requests = .ok nodes)
    (name : String) : (∃ n ∈ nodes, n.name = name) ↔
      ∃ r, (search schema config).Reached requests r ∧ r.type = name := by
  obtain ⟨found, hfound, h⟩ := Except.bind_eq_ok.mp h
  have hnodes := Except.pure_eq_ok.mp h
  have hanswered := Search.answered_of_run hfound
  obtain ⟨-, hmem⟩ := Search.run_eq_ok (byName_search schema config) hfound
  have hname : ∀ p ∈ found, p.2.name = p.1 := by
    intro p hp
    obtain ⟨i, fields, hi, -, hnode⟩ := answered_iff.mp (hanswered p hp)
    rw [hnode]
    exact Schema.name_of_inputObject? hi
  refine Iff.trans ?_ (hmem name)
  subst hnodes
  constructor
  · rintro ⟨n, hn, rfl⟩
    obtain ⟨p, hp, rfl⟩ := List.mem_map.mp hn
    exact List.mem_map.mpr ⟨p, hp, (hname p hp).symm⟩
  · intro hn
    obtain ⟨p, hp, rfl⟩ := List.mem_map.mp hn
    exact ⟨p.2, List.mem_map_of_mem hp, hname p hp⟩

/-- An input object of the schema that is declared has its fields there. -/
theorem exists_fields_of_declared (h : declarations schema config requests = .ok nodes)
    {i : FieldedType} (hi : schema.inputObject? i.name = some i)
    (hn : ∃ n ∈ nodes, n.name = i.name) :
    ∃ fields, i.fields.mapM (i.inputField schema config) = .ok fields ∧
      .object (.plain [] i.name) (fields.map (·.1)) ∈ nodes := by
  obtain ⟨n, hn, hname⟩ := hn
  obtain ⟨i', fields, hi', hfields, rfl⟩ := exists_inputObject h hn
  have hsame : i'.name = i.name := hname
  rw [hsame, hi] at hi'
  obtain rfl := Option.some.inj hi'
  exact ⟨fields, hfields, hn⟩

/-- The type of a field of a declared type is declared if it is an input object. -/
theorem exists_declaration_of_field (h : declarations schema config requests = .ok nodes)
    {i : FieldedType} (hi : schema.inputObject? i.name = some i)
    (hn : ∃ n ∈ nodes, n.name = i.name) {f : Field} (hf : f ∈ i.fields) {j : FieldedType}
    (hj : schema.inputObject? f.type.baseName = some j) : ∃ n ∈ nodes, n.name = j.name := by
  obtain ⟨fields, hfields, -⟩ := exists_fields_of_declared h hi hn
  obtain ⟨r, hr, hrname⟩ := (exists_declaration_iff h i.name).mp hn
  have hp := Except.mem_of_mapM_eq_ok hfields hf (FieldedType.inputField_of_inputObject hj)
  have hl : (search schema config).table.lookup r.type = some (.inputObject i) := by
    rw [hrname]
    exact (schema.lookup_types i.name).trans (Schema.inputObject?_eq_some.mp hi)
  have hnext : (⟨j.name, f.location⟩ : InputRequest) ∈ fields.filterMap (·.2) :=
    List.mem_filterMap.mpr ⟨_, hp, rfl⟩
  have hfollows : (search schema config).Follows r ⟨j.name, f.location⟩ :=
    ⟨_, _, _, hl, expand_inputObject hfields, hnext⟩
  exact (exists_declaration_iff h j.name).mpr ⟨_, .step hr hfollows, rfl⟩

end InputRequest

end QueryBindings
