import QueryBindings.Proofs.Bindings.Closure
import QueryBindings.Proofs.Bindings.InputTypes
import QueryBindings.Proofs.Shape.WellFormed
/-!
The shapes of a run are well formed.

There are four kinds of them: variables and data of operations, fields of fragments, and input
types. Variables and input types are objects of leaves, so it is all a matter of their names and
their modifiers; for the others the selections tell.
-/
namespace QueryBindings

/-! ### Objects of leaves -/

namespace Node

variable {path : List String} {name : String} {l : List Node}

/-- Leaves with different declarations and proper modifiers are well formed together. -/
theorem wellFormedAll_leaves (hl : LeavesAt path l)
    (hm : ∀ n ∈ l, Modifier.Undoubled n.head.modifiers) (hn : (declarationsOf l).Nodup) :
    WellFormedAll path false l where
  names := (distinctAll_iff.mp (distinctAll_leaves hl hn)).1
  standing := by
    intro n h
    obtain ⟨name, modifiers, text, rfl⟩ := hl n h
    exact ⟨rfl, rfl, by simp, by simp⟩
  wellFormed := by
    intro n h
    have hmodifiers := hm n h
    obtain ⟨name, modifiers, text, rfl⟩ := hl n h
    exact wellFormed_leaf List.nodup_nil hmodifiers

/-- An object of leaves that are declared under distinct names is well formed. -/
theorem wellFormed_of_leaves (path : List String) (hl : LeavesAt (path ++ [name]) l)
    (hm : ∀ n ∈ l, Modifier.Undoubled n.head.modifiers)
    (hn : (object (.plain path name) l).declarations.Nodup) :
    (object (.plain path name) l).StandsAt path false ∧
      (object (.plain path name) l).WellFormed := by
  rw [declarations, List.nodup_cons] at hn
  refine ⟨⟨rfl, rfl, by simp, by simp⟩, ?_⟩
  exact wellFormed_of_children List.nodup_nil Modifier.undoubled_nil
    (wellFormedAll_leaves hl hm hn.2)

end Node

/-- The modifiers of a variable are those of its declared type. -/
theorem undoubled_of_variables {s : Scope} {operation : String} {l : List VariableDefinition}
    {parameters : List (Node × Option InputRequest)}
    (h : l.mapM (s.variableNode operation) = .ok parameters) :
    ∀ n ∈ parameters.map (·.1), Modifier.Undoubled n.head.modifiers := by
  intro n hn
  obtain ⟨p, hp, rfl⟩ := List.mem_map.mp hn
  obtain ⟨v, -, hv⟩ := List.Forall₂.exists_left (Except.mapM_eq_ok.mp h) hp
  obtain ⟨found, -, hv⟩ := Except.bind_eq_ok.mp hv
  obtain rfl := Except.pure_eq_ok.mp hv
  exact TypeAnnotation.undoubled_modifiers _

theorem undoubled_of_inputFields {schema : Schema} {config : Config} {t : FieldedType}
    {fields : List (Node × Option InputRequest)}
    (h : t.fields.mapM (t.inputField schema config) = .ok fields) :
    ∀ n ∈ fields.map (·.1), Modifier.Undoubled n.head.modifiers := by
  intro n hn
  obtain ⟨p, hp, rfl⟩ := List.mem_map.mp hn
  obtain ⟨f, -, hf⟩ := List.Forall₂.exists_left (Except.mapM_eq_ok.mp h) hp
  obtain ⟨found, -, hf⟩ := Except.bind_eq_ok.mp hf
  obtain rfl := Except.pure_eq_ok.mp hf
  exact TypeAnnotation.undoubled_modifiers _

/-! ### Runs -/

namespace Bindings

/-- All shapes are well formed: those of input types without a path, those of an operation below its
name, and the fields of a fragment below the fragment's name. -/
structure WellFormed (b : Bindings) : Prop where
  inputTypes : Node.WellFormedAll [] false b.inputTypes
  operations : ∀ file ∈ b.files, ∀ o ∈ file.operations,
    Node.WellFormedAll [o.name] false [o.input, o.data]
  fields : ∀ file ∈ b.files, ∀ f ∈ file.fragments, Node.WellFormedAll [f.name] false f.fields
  fragments : ∀ file ∈ b.files, ∀ f ∈ file.fragments, f.fragments.Nodup

namespace MadeOf

variable {schema : Schema} {config : Config} {documents : List Document}
  {extracted : List ExtractedFile} {b : Bindings}

/-- The declarations of input types are well formed. -/
theorem wellFormed_inputTypes (h : b.MadeOf schema config documents extracted) :
    Node.WellFormedAll [] false b.inputTypes := by
  have hall : ∀ n ∈ b.inputTypes, n.StandsAt [] false ∧ n.WellFormed := by
    intro n hn
    obtain ⟨i, fields, hi, hfields, rfl⟩ := InputRequest.exists_inputObject h.inputTypes hn
    exact Node.wellFormed_of_leaves [] (leavesAt_of_inputFields hfields)
      (undoubled_of_inputFields hfields) (h.nodup_declarations_of_input hi hn)
  exact ⟨(InputRequest.declaresInputs h.inputTypes).nodup, fun n hn => (hall n hn).1,
    fun n hn => (hall n hn).2⟩

/-- The shapes of an operation are well formed below its name. -/
theorem wellFormed_operation (h : b.MadeOf schema config documents extracted)
    {file : FileBindings} (hfile : file ∈ b.files) {o : OperationBinding}
    (ho : o ∈ file.operations) : Node.WellFormedAll [o.name] false [o.input, o.data] := by
  obtain ⟨d, -, path, hof⟩ := h.exists_of_mem_operations hfile ho
  have hnodup := h.nodup_declarations_of_operation hfile ho
  obtain ⟨parameters, hparameters, hinput⟩ := hof.input
  obtain ⟨root, selected, -, hselected, hdata⟩ := hof.data
  rw [OperationBinding.declarations, hinput, List.nodup_append] at hnodup
  obtain ⟨hinputStands, hinputSound⟩ := Node.wellFormed_of_leaves [o.name]
    (leavesAt_of_variables hparameters) (undoubled_of_variables hparameters) hnodup.1
  obtain ⟨hfragments, hnodes⟩ := Scope.wellFormed_of_selectOnObject hselected
  have hdataSound : (Node.object ⟨"data", [o.name], [], selected.fragments, none⟩
      selected.nodes).WellFormed :=
    Node.wellFormed_of_children hfragments Modifier.undoubled_nil hnodes
  rw [hinput, hdata]
  refine ⟨by simp [Node.name, NodeHead.plain], ?_, ?_⟩
  · simpa using ⟨hinputStands, ⟨rfl, rfl, by simp, by simp⟩⟩
  · simpa using ⟨hinputSound, hdataSound⟩

/-- The shape of a fragment is well formed below its name. -/
theorem wellFormed_fragment (h : b.MadeOf schema config documents extracted)
    {file : FileBindings} (hfile : file ∈ b.files) {f : FragmentBinding}
    (hf : f ∈ file.fragments) :
    f.fragments.Nodup ∧ Node.WellFormedAll [f.name] false f.fields := by
  obtain ⟨g, -, path, hof⟩ := h.exists_of_mem_fragments hfile hf
  obtain ⟨t, selected, -, hselected, hfragments, hfields⟩ := hof.shape
  rw [hfragments, hfields, hof.name]
  exact Scope.wellFormed_of_selectOnObject hselected

end MadeOf

/-- Whatever the documents of a run are, its shapes are well formed. -/
theorem wellFormed_of_generate {schema : Schema} {config : Config} {documents : List Document}
    {b : Bindings} (h : generate schema config documents = .ok b) : b.WellFormed := by
  obtain ⟨extracted, hmade⟩ := generate_eq_ok h
  exact
    { inputTypes := hmade.wellFormed_inputTypes
      operations := fun _ hfile _ ho => hmade.wellFormed_operation hfile ho
      fields := fun _ hfile _ hf => (hmade.wellFormed_fragment hfile hf).2
      fragments := fun _ hfile _ hf => (hmade.wellFormed_fragment hfile hf).1 }

theorem wellFormed_of_generate_sample :
    ∃ b, generate Schema.sampleSchema .default sampleDocuments = .ok b ∧ b.WellFormed := by
  have hsome : (generate Schema.sampleSchema .default sampleDocuments).toOption.isSome := by
    decide +kernel
  obtain ⟨b, hb⟩ := Option.isSome_iff_exists.mp hsome
  have h := Except.toOption_eq_some.mp hb
  exact ⟨b, h, wellFormed_of_generate h⟩

end Bindings

end QueryBindings
