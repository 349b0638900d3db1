import QueryBindings.Proofs.Module.Closed
import QueryBindings.Proofs.Shape.Origins
/-!
The names that a module binds.

Values and types are named apart. The values are the imported and the defined ones, the operations,
and the constants of fragments; the types are the imported and the defined ones and the declared
ones. Only the names of declared types are checked, and only against each other. So a name is bound
twice exactly if an operation has the name of a fixed value or of a fragment's constant, or if a
declared type has the name of a fixed type.
-/
namespace QueryBindings

def Declaration.valueName? : Declaration → Option String
  | type _ _ => none
  | operation name _ _ _ _ => some name
  | fragment name _ => some (Template.bindingName name)

open Declaration (valueName?)

namespace Module

def importedNames (m : Module) (meaning : Meaning → Bool) : List String :=
  ((m.imports.flatMap Import.names).filter (meaning ·.meaning)).map (·.name)

def definedNames (m : Module) (meaning : Meaning → Bool) : List String :=
  (m.definitions.filter (meaning ·.keyword.meaning)).map (·.name)

/-- The names with some meaning that are bound whatever a module declares. -/
def fixedNames (m : Module) (meaning : Meaning → Bool) : List String :=
  m.importedNames meaning ++ m.definedNames meaning

def valueNames (m : Module) : List String :=
  m.importedNames Meaning.isValue ++ m.declarations.filterMap valueName? ++
    m.definedNames Meaning.isValue

def typeNames (m : Module) : List String :=
  m.importedNames Meaning.isType ++ m.declaredTypes ++ m.definedNames Meaning.isType

end Module

/-! ### Fixed names -/

namespace Module

/-- No fixed name is bound twice. -/
theorem nodup_fixedNames (m : Module) :
    (m.fixedNames Meaning.isValue).Nodup ∧ (m.fixedNames Meaning.isType).Nodup := by
  have h : ∀ subscriptions, ((⟨subscriptions, []⟩ : Module).fixedNames Meaning.isValue).Nodup ∧
      ((⟨subscriptions, []⟩ : Module).fixedNames Meaning.isType).Nodup := by
    decide +kernel
  exact h m.subscriptions

/-- No fixed name has an underscore, and none is that of an operation's root. -/
theorem fixedNames_plain (m : Module) {meaning : Meaning → Bool}
    (hmeaning : meaning = Meaning.isValue ∨ meaning = Meaning.isType) {name : String}
    (h : name ∈ m.fixedNames meaning) :
    '_' ∉ name.toList ∧ name ≠ "variables" ∧ name ≠ "data" := by
  have hvalue : ∀ subscriptions, ∀ name ∈ (⟨subscriptions, []⟩ : Module).fixedNames Meaning.isValue,
      '_' ∉ name.toList ∧ name ≠ "variables" ∧ name ≠ "data" := by
    decide +kernel
  have htype : ∀ subscriptions, ∀ name ∈ (⟨subscriptions, []⟩ : Module).fixedNames Meaning.isType,
      '_' ∉ name.toList ∧ name ≠ "variables" ∧ name ≠ "data" := by
    decide +kernel
  rcases hmeaning with rfl | rfl
  · exact hvalue m.subscriptions name h
  · exact htype m.subscriptions name h

/-- What stands between two lists is distinct from them if it is from both together. -/
theorem nodup_between {a b c : List String} :
    (a ++ b ++ c).Nodup ↔ b.Nodup ∧ (a ++ c).Nodup ∧ ∀ x ∈ b, x ∉ a ++ c := by
  have hperm : (a ++ b ++ c).Perm (b ++ (a ++ c)) := by
    rw [← List.append_assoc]
    exact List.perm_append_comm.append_right c
  rw [hperm.nodup_iff, List.nodup_append]
  constructor
  · rintro ⟨hb, hac, hne⟩
    exact ⟨hb, hac, fun x hx hx' => hne x hx x hx' rfl⟩
  · rintro ⟨hb, hac, hne⟩
    exact ⟨hb, hac, fun x hx y hy he => hne x hx (he ▸ hy)⟩

end Module

/-! ### Declared values -/

theorem underscore_mem_bindingName (fragment : String) :
    '_' ∈ (Template.bindingName fragment).toList := by
  simp [Template.bindingName]

theorem bindingName_injective : Function.Injective Template.bindingName := by
  intro f g h
  simpa [Template.bindingName] using h

namespace FileBindings

def operationNames (files : List FileBindings) : List String :=
  files.flatMap fun file => file.operations.map (·.name)

variable {table : List (String × List String)}

/-- Linking keeps the names of operations. -/
theorem LinkedTo.map_operations {file file' : FileBindings} (h : LinkedTo table file file') :
    file'.operations.map (·.name) = file.operations.map (·.name) := by
  have hnames : List.Forall₂ (· = ·) (file'.operations.map (·.name))
      (file.operations.map (·.name)) := by
    rw [List.forall₂_map_left_iff, List.forall₂_map_right_iff]
    refine (h.operations.imp fun o o' hlink => ?_).flip
    obtain ⟨found, -, rfl⟩ := Linking.linkOperation_eq_ok hlink
    rfl
  rwa [List.forall₂_eq_eq_eq] at hnames

theorem operationNames_of_linked {files linked : List FileBindings}
    (h : List.Forall₂ (LinkedTo table) files linked) :
    operationNames linked = operationNames files :=
  flatMap_of_linked (fun _ _ hfile => hfile.map_operations) h

end FileBindings

theorem Bindings.map_fst_operationNames (files : List FileBindings) :
    (operationNames files).map (·.1) = FileBindings.operationNames files := by
  simp [operationNames, FileBindings.operationNames, List.map_flatMap, Function.comp_def]

namespace Module

theorem valueNames_typeDeclarations (direction : Direction) (n : Node) :
    (n.typeDeclarations direction).filterMap valueName? = [] := by
  rw [List.filterMap_eq_nil_iff]
  intro d hd
  obtain ⟨_, _, rfl⟩ := n.exists_type_of_mem direction hd
  rfl

/-- The declared values are the constants of fragments and the operations. -/
theorem declaredValues_ofBindings (config : Config) (b : Bindings) :
    (ofBindings config b).declarations.filterMap valueName? =
      (FileBindings.fragmentNames b.files).map Template.bindingName ++
        FileBindings.operationNames b.files := by
  have hfragment : ∀ f : FragmentBinding, f.moduleDeclarations.filterMap valueName? =
      [Template.bindingName f.name] := by
    intro f
    rw [moduleDeclarations_fragment, List.filterMap_append, valueNames_typeDeclarations]
    rfl
  have hoperation : ∀ o : OperationBinding, o.moduleDeclarations.filterMap valueName? =
      [o.name] := by
    intro o
    simp only [OperationBinding.moduleDeclarations, List.filterMap_cons, valueName?,
      List.filterMap_append, valueNames_typeDeclarations, List.append_nil]
  have hinputs : ∀ l, (Node.typeDeclarationsOf .input l).filterMap valueName? = [] := by
    intro l
    rw [Node.typeDeclarationsOf_eq_flatMap, List.filterMap_flatMap]
    simp [valueNames_typeDeclarations]
  simp only [declarations_ofBindings, List.filterMap_append, List.filterMap_flatMap, hinputs,
    hfragment, hoperation, List.nil_append, FileBindings.fragmentNames,
    FileBindings.operationNames, List.map_flatMap, List.map_map, ← List.map_eq_flatMap,
    Function.comp_def]

end Module

/-! ### Declared types -/

/-- A name that is made of a path has an underscore, unless there is nothing before it. -/
theorem underscore_mem_declarationName {path : List String} (hnil : path ≠ [])
    (hempty : path ≠ [""]) (name : String) : '_' ∈ (declarationName path name).toList := by
  have hjoined : (String.intercalate "_" path).isEmpty = false := by
    match path, hnil, hempty with
    | [first], _, hempty => simpa using hempty
    | first :: second :: rest, _, _ => simp
  simp [declarationName, hjoined]

/-- A name without an underscore that the nodes of a selection below some names declare would have
to come from an empty name. -/
theorem underscore_mem_of_selectOnObject {s : Scope} {t : FieldedType} {path : List String}
    {l : List Selection} {shape : Selected} (h : s.selectOnObject t path l = .ok shape)
    (hnil : path ≠ []) (hempty : path ≠ [""]) {n : Node} (hn : n ∈ shape.nodes) {name : String}
    (hname : name ∈ n.declarations) : '_' ∈ name.toList := by
  obtain ⟨p, m, hm, rfl⟩ := n.mem_declarations_iff.mp hname
  rw [Node.declaration, Scope.path_of_selectOnObject h hn hm]
  apply underscore_mem_declarationName
  · simp [hnil]
  · intro hsingle
    rcases List.append_eq_singleton_iff.mp hsingle with ⟨hp, -⟩ | ⟨hp, -⟩
    · exact hnil hp
    · exact hempty hp

/-- The declarations of leaves have an underscore in their names. -/
theorem underscore_mem_of_leaves {path : List String} {l : List Node} (h : Node.LeavesAt path l)
    (hnil : path ≠ []) (hempty : path ≠ [""]) {n : Node} (hn : n ∈ l) {name : String}
    (hname : name ∈ n.declarations) : '_' ∈ name.toList := by
  obtain ⟨leafName, modifiers, text, rfl⟩ := h n hn
  rw [Node.declarations, List.mem_singleton] at hname
  rw [hname]
  exact underscore_mem_declarationName hnil hempty leafName

namespace Bindings.MadeOf

variable {schema : Schema} {config : Config} {documents : List Document}
  {extracted : List ExtractedFile} {b : Bindings}

/-- A declared type without an underscore in its name is a fragment, an input object, or a root of
an operation without a name. -/
theorem root_of_mem_declaredTypes (h : b.MadeOf schema config documents extracted)
    (hfragments : ∀ f ∈ FileBindings.fragmentNames b.files, f ≠ "")
    (hinputs : ∀ n ∈ b.inputTypes, n.name ≠ "") {name : String}
    (hname : name ∈ (Module.ofBindings config b).declaredTypes) (hplain : '_' ∉ name.toList) :
    name ∈ FileBindings.fragmentNames b.files ∨ (∃ n ∈ b.inputTypes, n.name = name) ∨
      name = "variables" ∨ name = "data" := by
  have hroot : ∀ operation root, name = declarationName [operation] root → name = root := by
    intro operation root hdeclaration
    by_cases hempty : operation = ""
    · simpa [hempty, declarationName] using hdeclaration
    · rw [hdeclaration] at hplain
      exact absurd (underscore_mem_declarationName (by simp) (by simpa using hempty) root) hplain
  obtain ⟨p, hp, hname⟩ := Module.mem_declaredTypes_iff.mp hname
  rw [Node.declarations_eq, List.mem_cons, List.mem_flatMap] at hname
  rcases mem_shapes_iff.mp hp with
    ⟨n, hn, rfl⟩ | ⟨file, hfile, f, hf, rfl⟩ | ⟨file, hfile, o, ho, rfl | rfl⟩
  · have hnonempty := hinputs n hn
    obtain ⟨i, fields, -, hfields, rfl⟩ := InputRequest.exists_inputObject h.inputTypes hn
    refine Or.inr (Or.inl ⟨_, hn, ?_⟩)
    rcases hname with rfl | ⟨c, hc, hname⟩
    · simp [Node.declaration, Node.name, declarationName, NodeHead.plain]
    · exact absurd (underscore_mem_of_leaves (leavesAt_of_inputFields hfields) (by simp)
        (by simpa [Node.name, NodeHead.plain] using hnonempty) hc hname) hplain
  · have hmem := FileBindings.mem_fragmentNames.mpr ⟨file, hfile, f, hf, rfl⟩
    refine Or.inl ?_
    rcases hname with rfl | ⟨c, hc, hname⟩
    · simpa [FragmentBinding.shape, Node.declaration, declarationName] using hmem
    · obtain ⟨g, -, path, hof⟩ := h.exists_of_mem_fragments hfile hf
      obtain ⟨t, selected, -, hselected, -, hfields⟩ := hof.shape
      have hne := hfragments f.name hmem
      rw [hof.name] at hne
      replace hc : c ∈ selected.nodes := hfields ▸ hc
      exact absurd (underscore_mem_of_selectOnObject hselected (by simp) (by simpa using hne) hc
        hname) hplain
  · obtain ⟨d, -, path, hof⟩ := h.exists_of_mem_operations hfile ho
    obtain ⟨parameters, hparameters, hinput⟩ := hof.input
    rw [hinput] at hname
    rcases hname with hname | ⟨c, hc, hname⟩
    · exact Or.inr (Or.inr (Or.inl (hroot _ _ hname)))
    · exact absurd (underscore_mem_of_leaves (leavesAt_of_variables hparameters) (by simp)
        (by simp) hc hname) hplain
  · obtain ⟨d, -, path, hof⟩ := h.exists_of_mem_operations hfile ho
    obtain ⟨root, selected, -, hselected, hdata⟩ := hof.data
    rw [hdata] at hname
    rcases hname with hname | ⟨c, hc, hname⟩
    · exact Or.inr (Or.inr (Or.inr (hroot _ _ hname)))
    · exact absurd (underscore_mem_of_selectOnObject hselected (by simp) (by simp) hc hname)
        hplain

/-! ### Runs -/

/-- No two operations of a run have the same name. -/
theorem nodup_operationNames (h : b.MadeOf schema config documents extracted) :
    (FileBindings.operationNames b.files).Nodup := by
  have hlinked := List.forall₂_map_left_iff.mpr h.linked
  rw [FileBindings.operationNames_of_linked hlinked, ← map_fst_operationNames]
  exact h.operations

/-- No two fragments of a run have the same name. -/
theorem nodup_fragmentNames (h : b.MadeOf schema config documents extracted) :
    (FileBindings.fragmentNames b.files).Nodup := by
  have hlinked := List.forall₂_map_left_iff.mpr h.linked
  rw [FileBindings.fragmentNames_of_linked hlinked, ← map_fst_fragmentNames]
  exact h.fragments

end Bindings.MadeOf

/-- In the module of a run no value is bound twice if and only if no operation has the name of a
fixed value or of a fragment's constant, and no type is bound twice if and only if no fixed type has
the name of a declared one. If no fragment and no input object has an empty name, then a declared
type of such a name is a fragment or an input object. The names are those of the imports, the
declarations and the definitions that the text of the module holds in this order. -/
theorem Bindings.nodup_names_of_generate {schema : Schema} {config : Config}
    {documents : List Document} {b : Bindings} (h : generate schema config documents = .ok b) :
    ((Module.ofBindings config b).valueNames.Nodup ↔ ∀ o ∈ FileBindings.operationNames b.files,
      o ∉ (Module.ofBindings config b).fixedNames Meaning.isValue ∧
        ∀ f ∈ FileBindings.fragmentNames b.files, o ≠ Template.bindingName f) ∧
    ((Module.ofBindings config b).typeNames.Nodup ↔
      ∀ name ∈ (Module.ofBindings config b).fixedNames Meaning.isType,
        name ∉ (Module.ofBindings config b).declaredTypes) ∧
    ((∀ f ∈ FileBindings.fragmentNames b.files, f ≠ "") → (∀ n ∈ b.inputTypes, n.name ≠ "") →
      ∀ name ∈ (Module.ofBindings config b).fixedNames Meaning.isType,
        (name ∈ (Module.ofBindings config b).declaredTypes ↔
          name ∈ FileBindings.fragmentNames b.files ∨ ∃ n ∈ b.inputTypes, n.name = name)) ∧
    Text.InOrder ((Module.ofBindings config b).imports.map Import.text ++
      (Module.ofBindings config b).declarations.map Declaration.text ++
      (Module.ofBindings config b).definitions.map FixedDefinition.text)
      (Module.ofBindings config b).text := by
  obtain ⟨extracted, hmade⟩ := Bindings.generate_eq_ok h
  obtain ⟨hfixedValues, hfixedTypes⟩ := (Module.ofBindings config b).nodup_fixedNames
  refine ⟨?values, ?types, ?declared, (Module.ofBindings config b).inOrder_text⟩
  case values =>
    rw [Module.valueNames, Module.nodup_between, Module.declaredValues_ofBindings]
    have hconstants : ((FileBindings.fragmentNames b.files).map Template.bindingName).Nodup :=
      hmade.nodup_fragmentNames.map bindingName_injective
    constructor
    · rintro ⟨hdeclared, -, hfixed⟩ o ho
      refine ⟨hfixed o (List.mem_append_right _ ho), ?_⟩
      rintro f hf rfl
      exact (List.nodup_append.mp hdeclared).2.2 _ (List.mem_map_of_mem hf) _ ho rfl
    · intro hfree
      refine ⟨List.nodup_append.mpr ⟨hconstants, hmade.nodup_operationNames, ?_⟩, hfixedValues, ?_⟩
      · intro x hx o ho he
        obtain ⟨f, hf, rfl⟩ := List.mem_map.mp hx
        exact (hfree o ho).2 f hf he.symm
      · intro x hx hfixed
        rcases List.mem_append.mp hx with hx | hx
        · obtain ⟨f, -, rfl⟩ := List.mem_map.mp hx
          exact (Module.fixedNames_plain _ (Or.inl rfl) hfixed).1 (underscore_mem_bindingName f)
        · exact (hfree x hx).1 hfixed
  case types =>
    have hdeclared : (Module.ofBindings config b).declaredTypes.Nodup :=
      (declaredTypes_perm hmade.inputTypes).nodup_iff.mpr hmade.declarations
    rw [Module.typeNames, Module.nodup_between]
    constructor
    · rintro ⟨-, -, hfixed⟩ name hname hdeclared
      exact hfixed name hdeclared hname
    · intro hfree
      exact ⟨hdeclared, hfixedTypes, fun name hname hfixed => hfree name hfixed hname⟩
  case declared =>
    intro hfragments hinputs name hfixed
    obtain ⟨hplain, hvariables, hdata⟩ := Module.fixedNames_plain _ (Or.inr rfl) hfixed
    constructor
    · intro hname
      rcases hmade.root_of_mem_declaredTypes hfragments hinputs hname hplain with
        hf | hn | hroot | hroot
      · exact Or.inl hf
      · exact Or.inr hn
      · exact absurd hroot hvariables
      · exact absurd hroot hdata
    · rintro (hf | ⟨n, hn, rfl⟩)
      · exact Module.mem_declaredTypes_of_mem_fragmentNames config hf
      · exact Module.mem_declaredTypes_of_mem_inputTypes config hmade.inputTypes hn

/-- An operation named like a fragment's constant, and a fragment named like a fixed type. -/
def clashingDocuments : List Document :=
  let name : Selection := .field .start none "name" [] [] []
  let owner : Selection := .field .start none "owner" [] [] [name]
  [⟨"owners", "", [.operation ⟨.start, .query, some "_gql_F", [], [], [owner]⟩,
    .fragment ⟨.start, "F", "Cat", [], [name]⟩, .fragment ⟨.start, "Omit", "Dog", [], [name]⟩]⟩]

theorem Bindings.nodup_names_of_generate_sample :
    ∃ b, generate Schema.sampleSchema .default clashingDocuments = .ok b ∧
      ¬ (Module.ofBindings .default b).valueNames.Nodup ∧
      ¬ (Module.ofBindings .default b).typeNames.Nodup := by
  have hnames : ((generate Schema.sampleSchema .default clashingDocuments).toOption.map fun b =>
      (FileBindings.operationNames b.files, FileBindings.fragmentNames b.files,
        b.inputTypes.map Node.name)) = some (["_gql_F"], ["F", "Omit"], []) := by
    decide +kernel
  obtain ⟨b, hb, hlists⟩ := Option.map_eq_some_iff.mp hnames
  obtain ⟨hoperations, hlists⟩ := Prod.mk.inj hlists
  obtain ⟨hfragments, hinputs⟩ := Prod.mk.inj hlists
  rw [List.map_eq_nil_iff] at hinputs
  have h := Except.toOption_eq_some.mp hb
  obtain ⟨hvalues, htypes, hdeclared, -⟩ := nodup_names_of_generate h
  refine ⟨b, h, ?_, ?_⟩
  · rw [hvalues, hoperations, hfragments]
    intro hfree
    exact (hfree "_gql_F" (by simp)).2 "F" (by simp) rfl
  · have homit : "Omit" ∈ (Module.ofBindings .default b).fixedNames Meaning.isType := by
      have hfixed : "Omit" ∈ (⟨false, []⟩ : Module).fixedNames Meaning.isType := by decide +kernel
      exact hfixed
    rw [htypes]
    intro hfree
    rw [hfragments, hinputs] at hdeclared
    apply hfree "Omit" homit
    exact (hdeclared (by simp) (by simp) "Omit" homit).mpr (Or.inl (by simp))

end QueryBindings
