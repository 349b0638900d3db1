import Mathlib.Data.List.Nodup
import QueryBindings.Bindings.Generate
import QueryBindings.Proofs.Shape.Compatible
/-!
What a run that succeeds has made of its documents.

Every definition has one binding, and the bindings of a file stand in the order of its definitions.
Linking changes nothing but the fragments of operations.
-/
namespace QueryBindings

namespace Definition

def operation? : Definition → Option OperationDefinition
  | operation o => some o
  | fragment _ => none
  | shorthand _ _ => none

def fragment? : Definition → Option FragmentDefinition
  | operation _ => none
  | fragment f => some f
  | shorthand _ _ => none

def selections : Definition → List Selection
  | operation o => o.selections
  | fragment f => f.selections
  | shorthand _ l => l

end Definition

namespace Document

def operations (d : Document) : List OperationDefinition :=
  d.definitions.filterMap Definition.operation?

def fragments (d : Document) : List FragmentDefinition :=
  d.definitions.filterMap Definition.fragment?

def allDefinitions (documents : List Document) : List Definition :=
  documents.flatMap (·.definitions)

theorem mem_operations {d : Document} {o : OperationDefinition} :
    o ∈ d.operations ↔ .operation o ∈ d.definitions := by
  rw [operations, List.mem_filterMap]
  constructor
  · rintro ⟨e, he, ho⟩
    cases e with
    | operation o' => exact Option.some.inj ho ▸ he
    | fragment | shorthand => simp [Definition.operation?] at ho
  · exact fun h => ⟨_, h, rfl⟩

theorem mem_fragments {d : Document} {f : FragmentDefinition} :
    f ∈ d.fragments ↔ .fragment f ∈ d.definitions := by
  rw [fragments, List.mem_filterMap]
  constructor
  · rintro ⟨e, he, hf⟩
    cases e with
    | fragment f' => exact Option.some.inj hf ▸ he
    | operation | shorthand => simp [Definition.fragment?] at hf
  · exact fun h => ⟨_, h, rfl⟩

theorem length_sourcesAt (cs : List Char) {ds : List Definition} {offsets : List Nat}
    (h : ds.length = offsets.length) : (sourcesAt cs ds offsets).length = ds.length := by
  induction ds generalizing offsets with
  | nil => simp [sourcesAt]
  | cons d ds ih =>
    cases offsets with
    | nil => simp at h
    | cons start starts => simpa [sourcesAt] using ih (by simpa using h)

theorem length_of_offsets? {d : Document} {offsets : List Nat} (h : d.offsets? = some offsets) :
    d.definitions.length = offsets.length := by
  unfold offsets? at h
  cases hm : d.definitions.mapM fun e => Text.offset? d.source.toList e.position with
  | none => simp [hm] at h
  | some found =>
    simp only [hm, Option.ite_none_right_eq_some, Option.some.injEq] at h
    rw [← h.2]
    exact (Option.mapM_eq_some.mp hm).length_eq

/-- Every definition has a source. -/
theorem length_definitionSources (d : Document) :
    d.definitionSources.length = d.definitions.length := by
  unfold definitionSources
  cases h : d.offsets? with
  | none => simp
  | some offsets => exact length_sourcesAt _ (length_of_offsets? h)

end Document

namespace Schema

/-- The object type that a definition's selections are resolved on. -/
def selectedOn? (s : Schema) : Definition → Option FieldedType
  | .operation o => s.root? o.kind
  | .fragment f => s.object? f.condition
  | .shorthand _ _ => s.root? .query

/-- In every definition, selections that land on the same response path select the same field. -/
def AllCompatible (s : Schema) (definitions : List Definition) : Prop :=
  ∀ d ∈ definitions, ∀ t ∈ s.selectedOn? d, s.Compatible t d.selections

instance (s : Schema) (definitions : List Definition) : Decidable (s.AllCompatible definitions) := by
  unfold AllCompatible; infer_instance

end Schema

/-! ### Single definitions -/

/-- The binding of an operation, but for the fragments that its document needs. -/
structure OperationBinding.Of (s : Scope) (o : OperationDefinition) (b : OperationBinding) :
    Prop where
  name : o.name? = some b.name
  kind : b.kind = o.kind
  enabled : o.kind = .subscription → s.config.subscriptions = true
  input : ∃ parameters, o.parameters.mapM (s.variableNode b.name) = .ok parameters ∧
    b.input = .object (.plain [b.name] "variables") (parameters.map (·.1))
  data : ∃ root selected, s.schema.root? o.kind = some root ∧
    s.selectOnObject root [b.name, "data"] o.selections = .ok selected ∧
    b.data = .object ⟨"data", [b.name], [], selected.fragments, none⟩ selected.nodes

/-- The fragments that an operation's document needs don't matter for the rest of its binding. -/
theorem OperationBinding.Of.withFragments {s : Scope} {o : OperationDefinition}
    {b : OperationBinding} (h : b.Of s o) (fragments : List String) :
    OperationBinding.Of s o { b with fragments := fragments } :=
  ⟨h.name, h.kind, h.enabled, h.input, h.data⟩

structure OperationBinding.Unlinked (s : Scope) (o : OperationDefinition) (b : OperationBinding) :
    Prop extends b.Of s o where
  fragments : b.fragments = Names.union [] b.data.fragmentNames

structure FragmentBinding.Of (s : Scope) (f : FragmentDefinition) (b : FragmentBinding) :
    Prop where
  name : b.name = f.name
  shape : ∃ t selected, s.schema.object? f.condition = some t ∧
    s.selectOnObject t [f.name] f.selections = .ok selected ∧
    b.fragments = selected.fragments ∧ b.fields = selected.nodes

namespace Scope

variable {s : Scope}

theorem rootObject_eq_ok {kind : OperationKind} {name : String} {location : Location}
    {t : FieldedType} (h : s.rootObject kind name location = .ok t) :
    s.schema.root? kind = some t := by
  unfold rootObject at h
  split at h
  · simp at h
  · cases hr : s.schema.root? kind with
    | none => simp [hr] at h
    | some root => simpa [hr] using h

/-- Subscriptions have a root only if the options allow them. -/
theorem enabled_of_rootObject {kind : OperationKind} {name : String} {location : Location}
    {t : FieldedType} (h : s.rootObject kind name location = .ok t) (hk : kind = .subscription) :
    s.config.subscriptions = true := by
  by_contra hdisabled
  rw [Bool.not_eq_true] at hdisabled
  simp [rootObject, hk, hdisabled] at h

theorem conditionObject_eq_ok {condition : String} {location : Location} {t : FieldedType}
    (h : s.conditionObject condition location = .ok t) :
    s.schema.object? condition = some t := by
  unfold conditionObject at h
  unfold Schema.object?
  split at h <;> simp_all

/-- An operation asks for the input types of its variables. -/
theorem extractOperation_eq_ok {o : OperationDefinition} {source : String} {e : Extracted}
    (h : s.extractOperation o source = .ok e) :
    ∃ b parameters, b.Unlinked s o ∧ o.parameters.mapM (s.variableNode b.name) = .ok parameters ∧
      e = .operation b (parameters.filterMap (·.2)) := by
  unfold extractOperation at h
  cases hn : o.name? with
  | none => simp [hn] at h
  | some name =>
    simp only [hn] at h
    obtain ⟨root, hroot, h⟩ := Except.bind_eq_ok.mp h
    obtain ⟨parameters, hparameters, h⟩ := Except.bind_eq_ok.mp h
    obtain ⟨selected, hselected, h⟩ := Except.bind_eq_ok.mp h
    have he := Except.pure_eq_ok.mp h
    refine ⟨_, parameters, ?_, hparameters, he.symm⟩
    exact
      { name := hn
        kind := rfl
        enabled := enabled_of_rootObject hroot
        input := ⟨parameters, hparameters, rfl⟩
        data := ⟨root, selected, rootObject_eq_ok hroot, hselected, rfl⟩
        fragments := rfl }

/-- A fragment's definition is extracted into its binding. -/
theorem extractFragment_eq_ok {f : FragmentDefinition} {source : String} {e : Extracted}
    (h : s.extractFragment f source = .ok e) : ∃ b, e = .fragment b ∧ b.Of s f := by
  unfold extractFragment at h
  obtain ⟨t, ht, h⟩ := Except.bind_eq_ok.mp h
  obtain ⟨selected, hselected, h⟩ := Except.bind_eq_ok.mp h
  have he := Except.pure_eq_ok.mp h
  refine ⟨_, he.symm, ?_⟩
  exact
    { name := rfl
      shape := ⟨t, selected, conditionObject_eq_ok ht, hselected, rfl, rfl⟩ }

/-- An operation has the binding of an operation, and nothing else has. -/
theorem operation?_of_extract {d : Definition} {source : String} {e : Extracted}
    (h : s.extract (d, source) = .ok e) :
    Option.Rel (OperationBinding.Unlinked s) d.operation? e.operation? := by
  cases d with
  | operation o =>
    obtain ⟨b, parameters, hb, -, rfl⟩ := extractOperation_eq_ok h
    exact .some hb
  | fragment f =>
    obtain ⟨b, rfl, hb⟩ := extractFragment_eq_ok h
    exact .none
  | shorthand p l => simp [extract] at h

/-- A fragment has the binding of a fragment, and nothing else has. -/
theorem fragment?_of_extract {d : Definition} {source : String} {e : Extracted}
    (h : s.extract (d, source) = .ok e) :
    Option.Rel (FragmentBinding.Of s) d.fragment? e.fragment? := by
  cases d with
  | operation o =>
    obtain ⟨b, parameters, hb, -, rfl⟩ := extractOperation_eq_ok h
    exact .none
  | fragment f =>
    obtain ⟨b, rfl, hb⟩ := extractFragment_eq_ok h
    exact .some hb
  | shorthand p l => simp [extract] at h

end Scope

/-! ### Files -/

structure FileBindings.Of (s : Scope) (d : Document) (file : FileBindings) : Prop where
  path : file.path = d.path
  operations : List.Forall₂ (OperationBinding.Unlinked s) d.operations file.operations
  fragments : List.Forall₂ (FragmentBinding.Of s) d.fragments file.fragments
  noShorthand : ∀ p l, .shorthand p l ∉ d.definitions

/-- The bindings of a document's definitions, one for each. -/
theorem ExtractedFile.exists_parts {schema : Schema} {config : Config}
    {conditions : List (String × String)} {d : Document} {e : ExtractedFile}
    (h : ofDocument schema config conditions d = .ok e) :
    ∃ parts, e = ofExtracted d.path parts ∧ List.Forall₂ (fun definition part =>
      ∃ source, Scope.extract ⟨schema, config, conditions, d.path⟩ (definition, source) = .ok part)
      d.definitions parts := by
  obtain ⟨parts, hparts, h⟩ := Except.bind_eq_ok.mp h
  have he := Except.pure_eq_ok.mp h
  have hfst : (d.definitions.zip d.definitionSources).map Prod.fst = d.definitions :=
    List.map_fst_zip (Nat.le_of_eq d.length_definitionSources.symm)
  refine ⟨parts, he.symm, ?_⟩
  rw [← hfst, List.forall₂_map_left_iff]
  exact (Except.mapM_eq_ok.mp hparts).imp fun p part hp => ⟨p.2, hp⟩

/-- The bindings of a document are those of its definitions. -/
theorem ExtractedFile.ofDocument_eq_ok {schema : Schema} {config : Config}
    {conditions : List (String × String)} {d : Document} {e : ExtractedFile}
    (h : ofDocument schema config conditions d = .ok e) :
    e.file.Of ⟨schema, config, conditions, d.path⟩ d := by
  obtain ⟨parts, rfl, hdefinitions⟩ := exists_parts h
  constructor
  case path => rfl
  case operations =>
    refine List.rel_filterMap ?_ hdefinitions
    rintro e part ⟨source, hs⟩
    exact Scope.operation?_of_extract hs
  case fragments =>
    refine List.rel_filterMap ?_ hdefinitions
    rintro e part ⟨source, hs⟩
    exact Scope.fragment?_of_extract hs
  case noShorthand =>
    intro p l hm
    obtain ⟨part, -, source, hs⟩ := List.Forall₂.exists_right hdefinitions hm
    simp [Scope.extract] at hs

/-! ### Runs -/

/-- If the check passes, no name has come before or comes twice. -/
theorem eq_none_of_checkDistinct {seen l : List (String × Location)}
    (h : checkDistinct seen l = .ok ()) :
    (∀ name ∈ l.map (·.1), seen.lookup name = none) ∧ (l.map (·.1)).Nodup := by
  induction l generalizing seen with
  | nil => simp
  | cons entry rest ih =>
    obtain ⟨name, location⟩ := entry
    unfold checkDistinct at h
    cases hs : seen.lookup name with
    | some first => simp [hs] at h
    | none =>
      simp only [hs] at h
      obtain ⟨hnew, hnodup⟩ := ih h
      have hrest : ∀ m ∈ rest.map (·.1), m ≠ name ∧ seen.lookup m = none := by
        intro m hm
        have hl := hnew m hm
        rw [List.lookup_cons] at hl
        by_cases he : m = name
        · simp [he] at hl
        · have hne : (m == name) = false := beq_false_of_ne he
          simp only [hne] at hl
          exact ⟨he, hl⟩
      constructor
      · intro m hm
        rcases List.mem_cons.mp hm with rfl | hm
        · exact hs
        · exact (hrest m hm).2
      · rw [List.map_cons, List.nodup_cons]
        exact ⟨fun hm => (hrest name hm).1 rfl, hnodup⟩

/-- Names that pass the check are distinct. -/
theorem nodup_of_checkDistinct {l : List (String × Location)} (h : checkDistinct [] l = .ok ()) :
    (l.map (·.1)).Nodup := (eq_none_of_checkDistinct h).2

/-- A check that fails names two entries with one name, in the order in which they stand. -/
theorem sublist_of_checkDistinct {seen l : List (String × Location)} {e : BindingError}
    (h : checkDistinct seen l = .error e) : ∃ name first second,
      e = .duplicateName name first second ∧
        [(name, first), (name, second)].Sublist (seen.reverse ++ l) := by
  induction l generalizing seen with
  | nil => simp [checkDistinct] at h
  | cons entry rest ih =>
    obtain ⟨name, location⟩ := entry
    unfold checkDistinct at h
    cases hs : seen.lookup name with
    | some first =>
      simp only [hs, Except.error.injEq] at h
      obtain ⟨before, after, hseen, -⟩ := List.lookup_eq_some_iff.mp hs
      have hfirst : [(name, first)].Sublist seen.reverse := by simp [hseen]
      have hsecond : [(name, location)].Sublist ((name, location) :: rest) := by simp
      exact ⟨name, first, location, h.symm, hfirst.append hsecond⟩
    | none =>
      simp only [hs] at h
      simpa using ih h

/-- Names pass the check if and only if they are distinct. -/
theorem checkDistinct_eq_ok_iff {l : List (String × Location)} :
    checkDistinct [] l = .ok () ↔ (l.map (·.1)).Nodup := by
  refine ⟨nodup_of_checkDistinct, fun hl => ?_⟩
  cases h : checkDistinct [] l with
  | ok => rfl
  | error e =>
    obtain ⟨name, first, second, -, hs⟩ := sublist_of_checkDistinct h
    have htwice : [name, name].Sublist (l.map (·.1)) := hs.map Prod.fst
    exact absurd (htwice.nodup hl) (by simp)

/-- Linking an operation changes nothing but its fragments. -/
theorem Linking.linkOperation_eq_ok {table : List (String × List String)}
    {o linked : OperationBinding} (h : linkOperation table o = .ok linked) :
    ∃ found, (search table o.name).run o.fragments = .ok found ∧
      linked = { o with fragments := found.map (·.1) } := by
  obtain ⟨found, hfound, h⟩ := Except.bind_eq_ok.mp h
  exact ⟨found, hfound, (Except.pure_eq_ok.mp h).symm⟩

/-- A file next to what linking makes of it. -/
structure FileBindings.LinkedTo (table : List (String × List String)) (file linked : FileBindings) :
    Prop where
  path : linked.path = file.path
  fragments : linked.fragments = file.fragments
  operations : List.Forall₂ (fun o o' => Linking.linkOperation table o = .ok o') file.operations
    linked.operations

/-- Files that are linked are linked one by one. -/
theorem Linking.link_eq_ok {files linked : List FileBindings} (h : link files = .ok linked) :
    List.Forall₂ (FileBindings.LinkedTo (FileBindings.spreadTable files)) files linked := by
  unfold link at h
  simp only at h
  split at h
  · simp at h
  · refine (Except.mapM_eq_ok.mp h).imp ?_
    intro file file' hf
    obtain ⟨operations, ho, hf⟩ := Except.bind_eq_ok.mp hf
    have he := Except.pure_eq_ok.mp hf
    subst he
    exact ⟨rfl, rfl, Except.mapM_eq_ok.mp ho⟩

/-- The bindings of documents before the names of their declarations are checked. -/
def Bindings.assemble (schema : Schema) (config : Config) (documents : List Document) :
    Except BindingError Bindings := do
  let extracted ← documents.mapM
    (ExtractedFile.ofDocument schema config (Scope.fragmentConditions documents))
  let files := extracted.map (·.file)
  checkDistinct [] (operationNames files)
  checkDistinct [] (fragmentNames files)
  let linked ← Linking.link files
  let inputTypes ← InputRequest.declarations schema config (extracted.flatMap (·.requests))
  return ⟨linked, inputTypes⟩

/-- Bindings are assembled, and then the names of their declarations are checked. -/
theorem Bindings.generate_eq_assemble (schema : Schema) (config : Config)
    (documents : List Document) : generate schema config documents = do
      let b ← assemble schema config documents
      checkDistinct [] (b.declarations schema)
      return b := by
  simp only [generate, assemble, bind_assoc, pure_bind]

/-- How bindings are assembled from what was extracted from documents. -/
structure Bindings.AssembledFrom (schema : Schema) (config : Config) (documents : List Document)
    (extracted : List ExtractedFile) (b : Bindings) : Prop where
  documents : List.Forall₂ (fun d e => ExtractedFile.ofDocument schema config
    (Scope.fragmentConditions documents) d = .ok e) documents extracted
  operations : ((operationNames (extracted.map (·.file))).map (·.1)).Nodup
  fragments : ((fragmentNames (extracted.map (·.file))).map (·.1)).Nodup
  linked : Linking.link (extracted.map (·.file)) = .ok b.files
  inputTypes : InputRequest.declarations schema config (extracted.flatMap (·.requests)) =
    .ok b.inputTypes

/-- Bindings are assembled from what documents are extracted into. -/
theorem Bindings.assemble_eq_ok {schema : Schema} {config : Config} {documents : List Document}
    {b : Bindings} (h : assemble schema config documents = .ok b) :
    ∃ extracted, b.AssembledFrom schema config documents extracted := by
  obtain ⟨extracted, hextracted, h⟩ := Except.bind_eq_ok.mp h
  obtain ⟨⟨⟩, hoperations, h⟩ := Except.bind_eq_ok.mp h
  obtain ⟨⟨⟩, hfragments, h⟩ := Except.bind_eq_ok.mp h
  obtain ⟨linked, hlinked, h⟩ := Except.bind_eq_ok.mp h
  obtain ⟨inputTypes, hinputTypes, h⟩ := Except.bind_eq_ok.mp h
  have he := Except.pure_eq_ok.mp h
  subst he
  refine ⟨extracted, ?_⟩
  exact
    { documents := Except.mapM_eq_ok.mp hextracted
      operations := nodup_of_checkDistinct hoperations
      fragments := nodup_of_checkDistinct hfragments
      linked := hlinked
      inputTypes := hinputTypes }

/-- Bindings that are assembled from documents are generated if their declarations have distinct
names. -/
theorem Bindings.AssembledFrom.generate_eq_ok {schema : Schema} {config : Config}
    {documents : List Document} {extracted : List ExtractedFile} {b : Bindings}
    (h : b.AssembledFrom schema config documents extracted)
    (hn : ((b.declarations schema).map (·.1)).Nodup) : generate schema config documents = .ok b := by
  have hextracted := Except.mapM_eq_ok.mpr h.documents
  have hoperations := checkDistinct_eq_ok_iff.mpr h.operations
  have hfragments := checkDistinct_eq_ok_iff.mpr h.fragments
  have hdeclarations := checkDistinct_eq_ok_iff.mpr hn
  simp only [generate, Except.bind_eq_ok]
  exact ⟨extracted, hextracted, (), hoperations, (), hfragments, b.files, h.linked, b.inputTypes,
    h.inputTypes, (), hdeclarations, rfl⟩

/-- The bindings of a run, next to what it extracted from its documents. -/
structure Bindings.MadeOf (schema : Schema) (config : Config) (documents : List Document)
    (extracted : List ExtractedFile) (b : Bindings) : Prop where
  files : List.Forall₂ (fun d e => e.file.Of ⟨schema, config, Scope.fragmentConditions documents,
    d.path⟩ d) documents extracted
  operations : ((operationNames (extracted.map (·.file))).map (·.1)).Nodup
  fragments : ((fragmentNames (extracted.map (·.file))).map (·.1)).Nodup
  linked : List.Forall₂ (fun e file => e.file.LinkedTo
    (FileBindings.spreadTable (extracted.map (·.file))) file) extracted b.files
  inputTypes : InputRequest.declarations schema config (extracted.flatMap (·.requests)) =
    .ok b.inputTypes
  declarations : ((b.declarations schema).map (·.1)).Nodup

theorem Bindings.AssembledFrom.madeOf {schema : Schema} {config : Config}
    {documents : List Document} {extracted : List ExtractedFile} {b : Bindings}
    (h : b.AssembledFrom schema config documents extracted)
    (hn : ((b.declarations schema).map (·.1)).Nodup) :
    b.MadeOf schema config documents extracted where
  files := h.documents.imp fun _ _ => ExtractedFile.ofDocument_eq_ok
  operations := h.operations
  fragments := h.fragments
  linked := List.forall₂_map_left_iff.mp (Linking.link_eq_ok h.linked)
  inputTypes := h.inputTypes
  declarations := hn

/-- A run assembles its bindings and finds their names distinct. -/
theorem Bindings.exists_assembledFrom {schema : Schema} {config : Config}
    {documents : List Document} {b : Bindings}
    (h : Bindings.generate schema config documents = .ok b) :
    ((b.declarations schema).map (·.1)).Nodup ∧
      ∃ extracted, b.AssembledFrom schema config documents extracted := by
  rw [generate_eq_assemble] at h
  obtain ⟨assembled, hassembled, h⟩ := Except.bind_eq_ok.mp h
  obtain ⟨⟨⟩, hdeclarations, h⟩ := Except.bind_eq_ok.mp h
  have he := Except.pure_eq_ok.mp h
  subst he
  exact ⟨nodup_of_checkDistinct hdeclarations, assemble_eq_ok hassembled⟩

/-- The result of a run is made of what its documents are extracted into. -/
theorem Bindings.generate_eq_ok {schema : Schema} {config : Config} {documents : List Document}
    {b : Bindings} (h : Bindings.generate schema config documents = .ok b) :
    ∃ extracted, b.MadeOf schema config documents extracted := by
  obtain ⟨hn, extracted, hassembled⟩ := exists_assembledFrom h
  exact ⟨extracted, hassembled.madeOf hn⟩

namespace Bindings.MadeOf

variable {schema : Schema} {config : Config} {documents : List Document}
  {extracted : List ExtractedFile} {b : Bindings}

/-- Every fragment of a run has the shape of the selections in its definition. -/
theorem exists_of_mem_fragments (h : b.MadeOf schema config documents extracted)
    {file : FileBindings} (hfile : file ∈ b.files) {f : FragmentBinding}
    (hf : f ∈ file.fragments) :
    ∃ g, .fragment g ∈ Document.allDefinitions documents ∧
      ∃ path, f.Of ⟨schema, config, Scope.fragmentConditions documents, path⟩ g := by
  obtain ⟨e, he, hlinked⟩ := List.Forall₂.exists_left h.linked hfile
  obtain ⟨d, hd, hof⟩ := List.Forall₂.exists_left h.files he
  rw [hlinked.fragments] at hf
  obtain ⟨g, hg, hbinding⟩ := List.Forall₂.exists_left hof.fragments hf
  exact ⟨g, List.mem_flatMap.mpr ⟨d, hd, Document.mem_fragments.mp hg⟩, d.path, hbinding⟩

/-- Every operation of a run has the shapes of the variables and the selections in its definition.
-/
theorem exists_of_mem_operations (h : b.MadeOf schema config documents extracted)
    {file : FileBindings} (hfile : file ∈ b.files) {linked : OperationBinding}
    (hlinked : linked ∈ file.operations) :
    ∃ o, .operation o ∈ Document.allDefinitions documents ∧
      ∃ path, linked.Of ⟨schema, config, Scope.fragmentConditions documents, path⟩ o := by
  obtain ⟨e, he, hfiles⟩ := List.Forall₂.exists_left h.linked hfile
  obtain ⟨d, hd, hof⟩ := List.Forall₂.exists_left h.files he
  obtain ⟨before, hbefore, hlink⟩ := List.Forall₂.exists_left hfiles.operations hlinked
  obtain ⟨o, ho, hbinding⟩ := List.Forall₂.exists_left hof.operations hbefore
  obtain ⟨found, -, rfl⟩ := Linking.linkOperation_eq_ok hlink
  exact ⟨o, List.mem_flatMap.mpr ⟨d, hd, Document.mem_operations.mp ho⟩, d.path,
    hbinding.toOf.withFragments _⟩

/-- The bindings of a run have every fragment and every operation that the documents define. -/
theorem exists_binding (h : b.MadeOf schema config documents extracted) {e : Definition}
    (he : e ∈ Document.allDefinitions documents) :
    ∃ file ∈ b.files, ∃ path,
      (∃ g f, e = .fragment g ∧ f ∈ file.fragments ∧
        FragmentBinding.Of ⟨schema, config, Scope.fragmentConditions documents, path⟩ g f) ∨
      ∃ o linked, e = .operation o ∧ linked ∈ file.operations ∧
        OperationBinding.Of ⟨schema, config, Scope.fragmentConditions documents, path⟩ o linked := by
  obtain ⟨d, hd, hm⟩ := List.mem_flatMap.mp he
  obtain ⟨before, hbefore, hof⟩ := List.Forall₂.exists_right h.files hd
  obtain ⟨file, hfile, hlinked⟩ := List.Forall₂.exists_right h.linked hbefore
  refine ⟨file, hfile, d.path, ?_⟩
  cases e with
  | shorthand p l => exact absurd hm (hof.noShorthand p l)
  | fragment g =>
    obtain ⟨f, hf, hbinding⟩ := List.Forall₂.exists_right hof.fragments (Document.mem_fragments.mpr hm)
    exact Or.inl ⟨g, f, rfl, hlinked.fragments ▸ hf, hbinding⟩
  | operation o =>
    obtain ⟨unlinked, hm, hbinding⟩ :=
      List.Forall₂.exists_right hof.operations (Document.mem_operations.mpr hm)
    obtain ⟨linked, hm, hlink⟩ := List.Forall₂.exists_right hlinked.operations hm
    obtain ⟨found, -, rfl⟩ := Linking.linkOperation_eq_ok hlink
    exact Or.inr ⟨o, _, rfl, hm, hbinding.toOf.withFragments _⟩

/-- Declarations of one operation have distinct names. -/
theorem nodup_declarations_of_operation (h : b.MadeOf schema config documents extracted)
    {file : FileBindings} (hfile : file ∈ b.files) {o : OperationBinding}
    (ho : o ∈ file.operations) : o.declarations.Nodup := by
  have hall := h.declarations
  rw [Bindings.declarations, List.map_append, List.nodup_append] at hall
  have hfiles := hall.2.1
  rw [List.map_flatMap, List.nodup_flatMap] at hfiles
  have hone := hfiles.1 file hfile
  rw [fileDeclarations, List.map_append, List.nodup_append] at hone
  have hoperations := hone.2.1
  rw [List.map_flatMap, List.nodup_flatMap] at hoperations
  simpa [Function.comp_def] using hoperations.1 o ho

/-- The declarations of one input object have distinct names. -/
theorem nodup_declarations_of_input (h : b.MadeOf schema config documents extracted)
    {i : FieldedType} {l : List Node} (hi : schema.inputObject? i.name = some i)
    (hn : Node.object (.plain [] i.name) l ∈ b.inputTypes) :
    (Node.object (.plain [] i.name) l).declarations.Nodup := by
  have hall := h.declarations
  rw [Bindings.declarations, List.map_append, List.nodup_append] at hall
  have hinputs := hall.1
  rw [List.map_flatMap, List.nodup_flatMap] at hinputs
  have hone := hinputs.1 _ hn
  have hname : (Node.object (.plain [] i.name) l).name = i.name := rfl
  simpa only [inputDeclarations, hname, hi, List.map_map, Function.comp_def, List.map_id']
    using hone

end Bindings.MadeOf

end QueryBindings
