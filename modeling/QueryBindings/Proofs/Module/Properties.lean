import QueryBindings.Proofs.Bindings.Inputs
import QueryBindings.Proofs.Module.Written
/-!
The property names of written object shapes.

The names between the braces of an object shape are distinct, with one exception: a retagged variant
declares the name of its tag twice, once for the tag and once for the field. Data and fragments have
distinct names because their fields are merged, variables and input objects because the names of all
declarations are distinct.
-/
namespace QueryBindings

namespace Declaration

def properties : Declaration → List Property
  | type _ (.object _ properties) => properties
  | _ => []

/-- No name stands twice between the braces. -/
def DistinctProperties (d : Declaration) : Prop := (d.properties.map (·.name)).Nodup

/-- A variant's tag comes first, and another property with its name follows. -/
def RetaggedProperties (d : Declaration) : Prop :=
  ∃ typename rest, d.properties = .typename typename :: rest ∧ tagName ∈ rest.map (·.name)

/-- A tag that comes twice is no distinct property. -/
theorem not_distinct_of_retagged {d : Declaration} (h : d.RetaggedProperties) :
    ¬ d.DistinctProperties := by
  obtain ⟨typename, rest, hp, hm⟩ := h
  unfold DistinctProperties
  rw [hp, List.map_cons, List.nodup_cons]
  exact fun hn => hn.1 hm

variable {name : String} {direction : Direction} {fragments : List String}
  {typename? : Option String} {fields : List Node}

theorem properties_ofFields :
    (type name (.ofFields direction fragments typename? fields)).properties =
      (typename?.map Property.typename).toList ++ fields.map (Property.ofNode direction) := rfl

/-- Properties have the names of their fields. -/
theorem map_name_ofNode (direction : Direction) (fields : List Node) :
    (fields.map (Property.ofNode direction)).map (·.name) = fields.map Node.name := by
  rw [List.map_map]
  rfl

theorem ofNode_ne_typename (direction : Direction) (n : Node) (typename : String) :
    Property.ofNode direction n ≠ .typename typename := by
  intro h
  have ht : TypeExpr.wrap n.head.modifiers (.reference n.declaration) = .leaf (literalType typename) :=
    congrArg Property.type h
  cases hm : n.head.modifiers with
  | nil => simp [hm] at ht
  | cons m modifiers =>
    rw [hm, TypeExpr.wrap_cons] at ht
    cases m <;> simp [TypeExpr.wrapOne] at ht

/-- An object shape is retagged if it has a tag and a field under the tag's name. -/
theorem retagged_ofFields_iff :
    (type name (.ofFields direction fragments typename? fields)).RetaggedProperties ↔
      typename?.isSome = true ∧ tagName ∈ fields.map Node.name := by
  unfold RetaggedProperties
  rw [properties_ofFields]
  cases typename? with
  | none =>
    constructor
    · rintro ⟨typename, rest, hp, -⟩
      cases fields with
      | nil => simp at hp
      | cons n fields =>
        have hfirst := (List.cons.inj hp).1
        exact absurd hfirst (ofNode_ne_typename direction n typename)
    · rintro ⟨h, -⟩
      simp at h
  | some typename =>
    constructor
    · rintro ⟨typename', rest, hp, hm⟩
      have hrest : fields.map (Property.ofNode direction) = rest := (List.cons.inj hp).2
      refine ⟨rfl, ?_⟩
      rw [← map_name_ofNode direction, hrest]
      exact hm
    · rintro ⟨-, hm⟩
      refine ⟨typename, fields.map (Property.ofNode direction), rfl, ?_⟩
      rw [map_name_ofNode]
      exact hm

/-- An object shape of distinct fields has distinct properties unless it is retagged. -/
theorem distinct_ofFields_iff (h : (fields.map Node.name).Nodup) :
    (type name (.ofFields direction fragments typename? fields)).DistinctProperties ↔
      ¬ (type name (.ofFields direction fragments typename? fields)).RetaggedProperties := by
  constructor
  · intro hd hr
    exact not_distinct_of_retagged hr hd
  · intro hr
    rw [retagged_ofFields_iff] at hr
    unfold DistinctProperties
    rw [properties_ofFields, List.map_append, map_name_ofNode]
    cases typename? with
    | none => simpa using h
    | some typename =>
      have hm : tagName ∉ fields.map Node.name := fun hm => hr ⟨rfl, hm⟩
      exact List.nodup_cons.mpr ⟨hm, h⟩

theorem distinct_iff_of_nil {d : Declaration} (h : d.properties = []) :
    d.DistinctProperties ↔ ¬ d.RetaggedProperties := by
  simp [DistinctProperties, RetaggedProperties, h]

end Declaration

namespace Node

variable {direction : Direction}

mutual

/-- A node of distinct names is written with distinct properties where it is not retagged. -/
theorem distinctProperties_iff : (n : Node) → n.Distinct → (d : Declaration) →
    d ∈ n.typeDeclarations direction → (d.DistinctProperties ↔ ¬ d.RetaggedProperties)
  | leaf _ text, _, d, hd => by
    rw [typeDeclarations, List.mem_singleton] at hd
    rw [hd]
    exact Declaration.distinct_iff_of_nil rfl
  | object h fields, hn, d, hd => by
    rw [distinct_object] at hn
    rw [typeDeclarations] at hd
    rcases List.mem_cons.mp hd with rfl | hd
    · exact Declaration.distinct_ofFields_iff (distinctAll_iff.mp hn).1
    · exact distinctProperties_iff_of_mem fields hn d hd
  | union h variants, hn, d, hd => by
    rw [distinct_union] at hn
    rw [typeDeclarations] at hd
    rcases List.mem_cons.mp hd with rfl | hd
    · exact Declaration.distinct_iff_of_nil rfl
    · exact distinctProperties_iff_of_mem variants hn d hd

/-- A declared shape has distinct properties unless its tag comes twice. -/
theorem distinctProperties_iff_of_mem : (l : List Node) → DistinctAll l → (d : Declaration) →
    d ∈ typeDeclarationsOf direction l → (d.DistinctProperties ↔ ¬ d.RetaggedProperties)
  | [], _, d, hd => by simp [typeDeclarationsOf] at hd
  | n :: l, hl, d, hd => by
    obtain ⟨-, hn, hr⟩ := distinctAll_cons.mp hl
    rw [typeDeclarationsOf] at hd
    rcases List.mem_append.mp hd with hd | hd
    · exact distinctProperties_iff n hn d hd
    · exact distinctProperties_iff_of_mem l hr d hd

end

mutual

/-- The declarations of a node are retagged where the node is. -/
theorem exists_retagged_iff : (n : Node) → n.Tagged →
    ((∃ d ∈ n.typeDeclarations direction, d.RetaggedProperties) ↔
      (n.head.typename?.isSome = true ∧ tagName ∈ n.fieldNames) ∨ n.Retagged)
  | leaf _ text, _ => by
    simp [typeDeclarations, Declaration.RetaggedProperties, Declaration.properties, fieldNames,
      Retagged]
  | object h fields, hn => by
    rw [Tagged] at hn
    have hfields := exists_retagged_iff_of_mem false fields hn
    simp only [Bool.false_eq_true, false_and, false_or] at hfields
    simp only [typeDeclarations, List.mem_cons, or_and_right, exists_or, exists_eq_left, hfields,
      Declaration.retagged_ofFields_iff, head_object, fieldNames, Retagged]
  | union h variants, hn => by
    rw [Tagged] at hn
    have hvariants := exists_retagged_iff_of_mem true variants hn
    simp only [true_and] at hvariants
    simp only [typeDeclarations, List.mem_cons, or_and_right, exists_or, exists_eq_left, hvariants]
    simp [Declaration.RetaggedProperties, Declaration.properties, fieldNames, Retagged]

/-- A tag comes twice if and only if a variant has a field with its name. -/
theorem exists_retagged_iff_of_mem : (tagged : Bool) → (l : List Node) → TaggedAll tagged l →
    ((∃ d ∈ typeDeclarationsOf direction l, d.RetaggedProperties) ↔
      (tagged = true ∧ ∃ v ∈ l, tagName ∈ v.fieldNames) ∨ RetaggedAny l)
  | tagged, [], _ => by simp [typeDeclarationsOf]
  | tagged, n :: l, hl => by
    obtain ⟨⟨htag, hn⟩, hr⟩ := hl
    have hfirst := exists_retagged_iff n hn
    have hrest := exists_retagged_iff_of_mem tagged l hr
    simp only [typeDeclarationsOf, List.mem_append, or_and_right, exists_or, hfirst, hrest, htag,
      List.mem_cons, exists_eq_left, and_or_left, RetaggedAny]
    exact or_or_or_comm

end

end Node

/-! ### Written shapes -/

/-- A shape that is written as declarations: names are distinct below it, and tags are in order. -/
structure Node.Written (n : Node) : Prop where
  distinct : n.Distinct
  tagged : n.Tagged
  untagged : n.head.typename? = none

/-- An object of leaves that are declared under distinct names can be written. -/
theorem Node.written_of_leaves {h : NodeHead} {path : List String} {l : List Node}
    (ht : h.typename? = none) (hl : LeavesAt path l) (hn : (object h l).declarations.Nodup) :
    (object h l).Written where
  distinct := by
    rw [declarations, List.nodup_cons] at hn
    rw [distinct_object]
    exact distinctAll_leaves hl hn.2
  tagged := by
    rw [Tagged]
    exact taggedAll_leaves hl
  untagged := ht

/-- The shape of selections on an object can be written. -/
theorem Node.written_of_selectOnObject {s : Scope} {t : FieldedType} {path : List String}
    {l : List Selection} {shape : Selected} (h : s.selectOnObject t path l = .ok shape)
    {head : NodeHead} (ht : head.typename? = none) : (object head shape.nodes).Written where
  distinct := by
    rw [distinct_object]
    exact (Scope.tidy_of_selectOnObject h).1
  tagged := by
    rw [Tagged]
    exact (Scope.tidy_of_selectOnObject h).2.1
  untagged := ht

def FragmentBinding.shape (f : FragmentBinding) : Node :=
  .object ⟨f.name, [], [], f.fragments, none⟩ f.fields

namespace Bindings

def fileShapes (file : FileBindings) : List (Direction × Node) :=
  (file.fragments.map fun f => (.output, f.shape)) ++
    file.operations.flatMap fun o => [(.input, o.input), (.output, o.data)]

/-- All shapes that are written, each with its direction. -/
def shapes (b : Bindings) : List (Direction × Node) :=
  b.inputTypes.map (.input, ·) ++ b.files.flatMap fileShapes

end Bindings

/-- A written shape is that of an input object, of a fragment, or of an operation's variables or
data. -/
theorem Bindings.mem_shapes_iff {b : Bindings} {p : Direction × Node} :
    p ∈ b.shapes ↔ (∃ n ∈ b.inputTypes, p = (.input, n)) ∨
      (∃ file ∈ b.files, ∃ f ∈ file.fragments, p = (.output, f.shape)) ∨
      ∃ file ∈ b.files, ∃ o ∈ file.operations, p = (.input, o.input) ∨ p = (.output, o.data) := by
  simp only [shapes, fileShapes, List.mem_append, List.mem_map, List.mem_flatMap, List.mem_cons,
    List.not_mem_nil, or_false, and_or_left, exists_or, eq_comm]

theorem typeDeclarations_shape (f : FragmentBinding) :
    f.shape.typeDeclarations .output =
      .type f.name (.ofFields .output f.fragments none f.fields) ::
        Node.typeDeclarationsOf .output f.fields := by
  have hname : declarationName [] f.name = f.name := by simp [declarationName]
  simp [FragmentBinding.shape, Node.typeDeclarations, hname]

/-- A fragment declares its shape, and its document behind it. -/
theorem moduleDeclarations_fragment (f : FragmentBinding) :
    f.moduleDeclarations = f.shape.typeDeclarations .output ++ [.fragment f.name ⟨f.source, []⟩] := by
  rw [typeDeclarations_shape]
  rfl

theorem mem_typeDeclarationsOf {direction : Direction} {l : List Node} {d : Declaration} :
    d ∈ Node.typeDeclarationsOf direction l ↔ ∃ n ∈ l, d ∈ n.typeDeclarations direction := by
  induction l with
  | nil => simp [Node.typeDeclarationsOf]
  | cons n l ih => simp [Node.typeDeclarationsOf, ih]

namespace Module

/-- The section of input types holds the declarations of their nodes. -/
theorem declarations_inputSections (inputTypes : List Node) :
    ((inputSections inputTypes).flatMap fun s => s.groups.flatten) =
      Node.typeDeclarationsOf .input inputTypes := by
  cases inputTypes with
  | nil => simp [inputSections, Node.typeDeclarationsOf]
  | cons n l => simp [inputSections]

/-- The section of a file's fragments holds the declarations of all of them. -/
theorem flatten_groups_fragmentSection (file : FileBindings) :
    (fragmentSection file).groups.flatten =
      file.fragments.flatMap FragmentBinding.moduleDeclarations := rfl

/-- The section of a file's operations holds the declarations of all of them. -/
theorem flatten_groups_operationSection (file : FileBindings) :
    (operationSection file).groups.flatten =
      file.operations.flatMap OperationBinding.moduleDeclarations := rfl

/-- The declarations of a module, section by section. -/
theorem declarations_ofBindings (config : Config) (b : Bindings) :
    (ofBindings config b).declarations = Node.typeDeclarationsOf .input b.inputTypes ++
      (b.files.flatMap fun file => file.fragments.flatMap FragmentBinding.moduleDeclarations) ++
      b.files.flatMap fun file => file.operations.flatMap OperationBinding.moduleDeclarations := by
  simp only [declarations, ofBindings, List.flatMap_append, declarations_inputSections,
    List.flatMap_map, flatten_groups_fragmentSection, flatten_groups_operationSection]

/-- A declaration is that of a shape, that of a fragment's document, or that of an operation. -/
theorem mem_declarations_iff {config : Config} {b : Bindings} {d : Declaration} :
    d ∈ (ofBindings config b).declarations ↔
      (∃ p ∈ b.shapes, d ∈ p.2.typeDeclarations p.1) ∨
      (∃ file ∈ b.files, ∃ f ∈ file.fragments, d = .fragment f.name ⟨f.source, []⟩) ∨
      ∃ file ∈ b.files, ∃ o ∈ file.operations, d = .operation o.name o.kind o.input.declaration
        o.data.declaration ⟨o.source, o.fragments⟩ := by
  rw [declarations_ofBindings, List.mem_append, List.mem_append, mem_typeDeclarationsOf]
  constructor
  · rintro ((⟨n, hn, hd⟩ | hd) | hd)
    · exact Or.inl ⟨_, Bindings.mem_shapes_iff.mpr (Or.inl ⟨n, hn, rfl⟩), hd⟩
    · obtain ⟨file, hfile, hd⟩ := List.mem_flatMap.mp hd
      obtain ⟨f, hf, hd⟩ := List.mem_flatMap.mp hd
      rw [moduleDeclarations_fragment, List.mem_append, List.mem_singleton] at hd
      rcases hd with hd | rfl
      · have hshape := Bindings.mem_shapes_iff.mpr (Or.inr (Or.inl ⟨file, hfile, f, hf, rfl⟩))
        exact Or.inl ⟨_, hshape, hd⟩
      · exact Or.inr (Or.inl ⟨file, hfile, f, hf, rfl⟩)
    · obtain ⟨file, hfile, hd⟩ := List.mem_flatMap.mp hd
      obtain ⟨o, ho, hd⟩ := List.mem_flatMap.mp hd
      have hshapes : ∀ p, p = (.input, o.input) ∨ p = (.output, o.data) → p ∈ b.shapes :=
        fun p hp => Bindings.mem_shapes_iff.mpr (Or.inr (Or.inr ⟨file, hfile, o, ho, hp⟩))
      simp only [OperationBinding.moduleDeclarations, List.mem_cons, List.mem_append] at hd
      rcases hd with rfl | hd | hd
      · exact Or.inr (Or.inr ⟨file, hfile, o, ho, rfl⟩)
      · exact Or.inl ⟨_, hshapes _ (Or.inl rfl), hd⟩
      · exact Or.inl ⟨_, hshapes _ (Or.inr rfl), hd⟩
  · have hfragment : ∀ {file f}, file ∈ b.files → f ∈ file.fragments → d ∈ f.moduleDeclarations →
        d ∈ b.files.flatMap fun file => file.fragments.flatMap FragmentBinding.moduleDeclarations :=
      fun hfile hf hd => List.mem_flatMap.mpr ⟨_, hfile, List.mem_flatMap.mpr ⟨_, hf, hd⟩⟩
    have hoperation : ∀ {file o}, file ∈ b.files → o ∈ file.operations →
        d ∈ o.moduleDeclarations → d ∈ b.files.flatMap fun file =>
          file.operations.flatMap OperationBinding.moduleDeclarations :=
      fun hfile ho hd => List.mem_flatMap.mpr ⟨_, hfile, List.mem_flatMap.mpr ⟨_, ho, hd⟩⟩
    rintro (⟨p, hp, hd⟩ | ⟨file, hfile, f, hf, rfl⟩ | ⟨file, hfile, o, ho, rfl⟩)
    · rcases Bindings.mem_shapes_iff.mp hp with
        ⟨n, hn, rfl⟩ | ⟨file, hfile, f, hf, rfl⟩ | ⟨file, hfile, o, ho, rfl | rfl⟩
      · exact Or.inl (Or.inl ⟨n, hn, hd⟩)
      · refine Or.inl (Or.inr (hfragment hfile hf ?_))
        rw [moduleDeclarations_fragment]
        exact List.mem_append_left _ hd
      · exact Or.inr (hoperation hfile ho (List.mem_cons_of_mem _ (List.mem_append_left _ hd)))
      · exact Or.inr (hoperation hfile ho (List.mem_cons_of_mem _ (List.mem_append_right _ hd)))
    · refine Or.inl (Or.inr (hfragment hfile hf ?_))
      rw [moduleDeclarations_fragment]
      exact List.mem_append_right _ (List.mem_singleton_self _)
    · exact Or.inr (hoperation hfile ho List.mem_cons_self)

end Module

/-- A declaration that is retagged, or has properties at all, is that of a written shape. -/
theorem mem_declarations_of_mem_shapes (config : Config) {b : Bindings} {p : Direction × Node}
    (hp : p ∈ b.shapes) {d : Declaration} (hd : d ∈ p.2.typeDeclarations p.1) :
    d ∈ (Module.ofBindings config b).declarations :=
  Module.mem_declarations_iff.mpr (Or.inl ⟨p, hp, hd⟩)

/-- Whatever has properties is a declaration of a shape. -/
theorem exists_mem_shapes {config : Config} {b : Bindings} {d : Declaration}
    (hd : d ∈ (Module.ofBindings config b).declarations) :
    d.properties = [] ∨ ∃ p ∈ b.shapes, d ∈ p.2.typeDeclarations p.1 := by
  rcases Module.mem_declarations_iff.mp hd with
    hshape | ⟨file, hfile, f, hf, rfl⟩ | ⟨file, hfile, o, ho, rfl⟩
  · exact Or.inr hshape
  · exact Or.inl rfl
  · exact Or.inl rfl

/-! ### Runs -/

namespace Schema

/-- Some inline fragment on a member of a union in a definition selects something under the name of
the tag. -/
def retagsDefinition (s : Schema) (d : Definition) : Bool :=
  match s.selectedOn? d with
  | some t => s.retagsAll t d.selections
  | none => false

end Schema

namespace Bindings.MadeOf

variable {schema : Schema} {config : Config} {documents : List Document}
  {extracted : List ExtractedFile} {b : Bindings}

/-- Every shape of a run can be written, and one that is retagged comes from a definition that
retags a variant. -/
theorem written (h : b.MadeOf schema config documents extracted) :
    ∀ p ∈ b.shapes, p.2.Written ∧ (p.2.Retagged →
      ∃ d ∈ Document.allDefinitions documents, schema.retagsDefinition d = true) := by
  intro p hp
  rcases Bindings.mem_shapes_iff.mp hp with
    ⟨n, hn, rfl⟩ | ⟨file, hfile, f, hf, rfl⟩ | ⟨file, hfile, o, ho, rfl | rfl⟩
  · obtain ⟨i, fields, hi, hfields, rfl⟩ := InputRequest.exists_inputObject h.inputTypes hn
    have hl := leavesAt_of_inputFields hfields
    refine ⟨Node.written_of_leaves rfl hl (h.nodup_declarations_of_input hi hn), ?_⟩
    intro hr
    exact absurd hr (Node.not_retaggedAny_leaves hl)
  · obtain ⟨g, hg, path, hof⟩ := h.exists_of_mem_fragments hfile hf
    obtain ⟨t, selected, ht, hselected, -, hfields⟩ := hof.shape
    rw [FragmentBinding.shape, hfields]
    refine ⟨Node.written_of_selectOnObject hselected rfl, ?_⟩
    intro hr
    refine ⟨_, hg, ?_⟩
    simp only [Schema.retagsDefinition, Schema.selectedOn?, ht]
    exact (Scope.tidy_of_selectOnObject hselected).2.2 hr
  · obtain ⟨d, hd, path, hof⟩ := h.exists_of_mem_operations hfile ho
    have hnodup := h.nodup_declarations_of_operation hfile ho
    obtain ⟨parameters, hparameters, hinput⟩ := hof.input
    rw [OperationBinding.declarations, hinput, List.nodup_append] at hnodup
    have hl := leavesAt_of_variables hparameters
    rw [hinput]
    refine ⟨Node.written_of_leaves rfl hl hnodup.1, ?_⟩
    intro hr
    exact absurd hr (Node.not_retaggedAny_leaves hl)
  · obtain ⟨d, hd, path, hof⟩ := h.exists_of_mem_operations hfile ho
    obtain ⟨root, selected, hroot, hselected, hdata⟩ := hof.data
    rw [hdata]
    refine ⟨Node.written_of_selectOnObject hselected rfl, ?_⟩
    intro hr
    refine ⟨_, hd, ?_⟩
    simp only [Schema.retagsDefinition, Schema.selectedOn?, hroot]
    exact (Scope.tidy_of_selectOnObject hselected).2.2 hr

/-- A definition of compatible selections that retags a variant has a retagged shape. -/
theorem exists_retagged (h : b.MadeOf schema config documents extracted)
    (hc : schema.AllCompatible (Document.allDefinitions documents)) {d : Definition}
    (hd : d ∈ Document.allDefinitions documents) (hr : schema.retagsDefinition d = true) :
    ∃ p ∈ b.shapes, p.2.Retagged := by
  have hcompatible := hc d hd
  obtain ⟨file, hfile, path, ⟨g, f, rfl, hf, hof⟩ | ⟨o, linked, rfl, hlinked, hof⟩⟩ :=
    h.exists_binding hd
  · obtain ⟨t, selected, ht, hselected, -, hfields⟩ := hof.shape
    simp only [Schema.retagsDefinition, Schema.selectedOn?, ht] at hr
    refine ⟨(.output, f.shape), ?_, ?_⟩
    · exact Bindings.mem_shapes_iff.mpr (Or.inr (Or.inl ⟨file, hfile, f, hf, rfl⟩))
    · rw [FragmentBinding.shape, hfields]
      exact Scope.retaggedAny_of_selectOnObject (hcompatible t ht) hselected hr
  · obtain ⟨root, selected, hroot, hselected, hdata⟩ := hof.data
    simp only [Schema.retagsDefinition, Schema.selectedOn?, hroot] at hr
    refine ⟨(.output, linked.data), ?_, ?_⟩
    · exact Bindings.mem_shapes_iff.mpr
        (Or.inr (Or.inr ⟨file, hfile, linked, hlinked, Or.inr rfl⟩))
    · rw [hdata]
      exact Scope.retaggedAny_of_selectOnObject (hcompatible root hroot) hselected hr

end Bindings.MadeOf

/-- Every object shape that is written for a run has distinct property names, unless it is that of a
variant with a field under the name of the variant's tag. There is none if no inline fragment on a
member of a union selects something under that name; and for compatible selections there is one if
some inline fragment does. -/
theorem Bindings.distinctProperties_of_generate {schema : Schema} {config : Config}
    {documents : List Document} {b : Bindings}
    (h : Bindings.generate schema config documents = .ok b) :
    (∀ d ∈ (Module.ofBindings config b).declarations,
      d.DistinctProperties ↔ ¬ d.RetaggedProperties) ∧
    ((∀ e ∈ Document.allDefinitions documents, schema.retagsDefinition e = false) →
      ∀ d ∈ (Module.ofBindings config b).declarations, d.DistinctProperties) ∧
    (schema.AllCompatible (Document.allDefinitions documents) →
      (∀ d ∈ (Module.ofBindings config b).declarations, d.DistinctProperties) →
      ∀ e ∈ Document.allDefinitions documents, schema.retagsDefinition e = false) := by
  obtain ⟨extracted, hmade⟩ := Bindings.generate_eq_ok h
  have hiff : ∀ d ∈ (Module.ofBindings config b).declarations,
      d.DistinctProperties ↔ ¬ d.RetaggedProperties := by
    intro d hd
    rcases exists_mem_shapes hd with hnil | ⟨p, hp, hd⟩
    · exact Declaration.distinct_iff_of_nil hnil
    · exact Node.distinctProperties_iff p.2 (hmade.written p hp).1.distinct d hd
  have hretagged : ∀ p ∈ b.shapes,
      ((∃ d ∈ p.2.typeDeclarations p.1, d.RetaggedProperties) ↔ p.2.Retagged) := by
    intro p hp
    obtain ⟨hwritten, -⟩ := hmade.written p hp
    rw [Node.exists_retagged_iff p.2 hwritten.tagged, hwritten.untagged]
    simp
  refine ⟨hiff, ?_, ?_⟩
  · intro hnone d hd
    rw [hiff d hd]
    intro hr
    rcases exists_mem_shapes hd with hnil | ⟨p, hp, hd⟩
    · obtain ⟨typename, rest, hproperties, -⟩ := hr
      rw [hnil] at hproperties
      exact absurd hproperties (by simp)
    · obtain ⟨e, he, hretags⟩ := (hmade.written p hp).2 ((hretagged p hp).mp ⟨d, hd, hr⟩)
      rw [hnone e he] at hretags
      exact absurd hretags (by simp)
  · intro hc hdistinct e he
    by_contra hretags
    obtain ⟨p, hp, hr⟩ := hmade.exists_retagged hc he (by simpa using hretags)
    obtain ⟨d, hd, hd'⟩ := (hretagged p hp).mpr hr
    have hmem := mem_declarations_of_mem_shapes config hp hd
    exact (hiff d hmem).mp (hdistinct d hmem) hd'

def retaggingDocuments : List Document :=
  let field (name : String) (l : List Selection) : Selection := .field .start none name [] [] l
  let cat : Selection := .inline .start (some "Cat") [] [field "__typename" [], field "name" []]
  [⟨"pets", "", [.operation ⟨.start, .query, some "Q", [], [], [field "pet" [cat]]⟩]⟩]

theorem Bindings.distinctProperties_of_generate_sample :
    ∃ b, Bindings.generate Schema.sampleSchema .default retaggingDocuments = .ok b ∧
      ∃ d ∈ (Module.ofBindings .default b).declarations,
        d.RetaggedProperties ∧ ¬ d.DistinctProperties := by
  have hsome :
      (Bindings.generate Schema.sampleSchema .default retaggingDocuments).toOption.isSome := by
    decide +kernel
  have hc : Schema.sampleSchema.AllCompatible (Document.allDefinitions retaggingDocuments) := by
    decide +kernel
  have hretags : ¬ ∀ e ∈ Document.allDefinitions retaggingDocuments,
      Schema.sampleSchema.retagsDefinition e = false := by
    decide +kernel
  obtain ⟨b, hb⟩ := Option.isSome_iff_exists.mp hsome
  have h := Except.toOption_eq_some.mp hb
  obtain ⟨hiff, -, hnone⟩ := Bindings.distinctProperties_of_generate h
  refine ⟨b, h, ?_⟩
  by_contra hall
  push Not at hall
  apply hretags
  apply hnone hc
  intro d hd
  by_contra hdistinct
  have hr : d.RetaggedProperties := by
    by_contra hr
    exact hdistinct ((hiff d hd).mpr hr)
  exact hdistinct (hall d hd hr)

end QueryBindings
