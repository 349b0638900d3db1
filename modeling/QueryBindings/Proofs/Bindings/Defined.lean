import QueryBindings.Proofs.Bindings.Closure
import QueryBindings.Proofs.Bindings.Inputs
/-!
What bindings refer to is among them.

A run fails in linking if a fragment or an operation spreads a fragment that no file defines, and
the search for input types fails at a type that is not defined. So the fragments and the input
objects that shapes name are all there.
-/
namespace QueryBindings

/-! ### Fragments -/

namespace FileBindings

variable {files linked : List FileBindings} {table : List (String × List String)}

theorem mem_fragmentNames {name : String} : name ∈ fragmentNames files ↔
    ∃ file ∈ files, ∃ f ∈ file.fragments, f.name = name := by
  simp only [fragmentNames, List.mem_flatMap, List.mem_map]

/-- Only names of fragments are found in the table. -/
theorem mem_fragmentNames_of_lookup {name : String} {spreads : List String}
    (h : (spreadTable files).lookup name = some spreads) : name ∈ fragmentNames files := by
  obtain ⟨file, hfile, hm⟩ := List.mem_flatMap.mp (mem_of_lookup_eq_some h)
  obtain ⟨f, hf, he⟩ := List.mem_map.mp hm
  exact mem_fragmentNames.mpr ⟨file, hfile, f, hf, congrArg Prod.fst he⟩

/-- What linking keeps of every file, it keeps of all of them. -/
theorem flatMap_of_linked {α : Type} {f : FileBindings → List α}
    (hkeeps : ∀ file file', LinkedTo table file file' → f file' = f file)
    (h : List.Forall₂ (LinkedTo table) files linked) : linked.flatMap f = files.flatMap f := by
  induction h with
  | nil => rfl
  | cons hfile _ ih => rw [List.flatMap_cons, List.flatMap_cons, ih, hkeeps _ _ hfile]

/-- Linking keeps the names of fragments. -/
theorem fragmentNames_of_linked (h : List.Forall₂ (LinkedTo table) files linked) :
    fragmentNames linked = fragmentNames files :=
  flatMap_of_linked (fun _ _ hfile => congrArg (List.map (·.name)) hfile.fragments) h

end FileBindings

namespace Linking

variable {table : List (String × List String)}

/-- If no spread is undefined, the table holds every name that an entry spreads. -/
theorem exists_lookup_of_undefinedSpread? {entries : List (String × List String)}
    (h : undefinedSpread? table entries = none) {entry : String × List String}
    (he : entry ∈ entries) {f : String} (hf : f ∈ entry.2) :
    ∃ spreads, table.lookup f = some spreads := by
  induction entries with
  | nil => simp at he
  | cons first rest ih =>
    rw [undefinedSpread?] at h
    cases hfind : first.2.find? fun f => (table.lookup f).isNone with
    | some g => simp [hfind] at h
    | none =>
      simp only [hfind] at h
      rcases List.mem_cons.mp he with rfl | he
      · have hsome := List.find?_eq_none.mp hfind f hf
        exact Option.isSome_iff_exists.mp (by simpa using hsome)
      · exact ih h he

/-- Files are linked only if all fragments that fragments spread are defined. -/
theorem undefinedSpread?_of_link {files linked : List FileBindings}
    (h : link files = .ok linked) :
    undefinedSpread? (FileBindings.spreadTable files) (FileBindings.spreadTable files) = none := by
  unfold link at h
  simp only at h
  split at h
  · simp at h
  · assumption

/-- The fragments of an operation are in the table, and those that it spreads itself are among them.
-/
theorem mem_fragments_of_linkOperation {o linked : OperationBinding}
    (h : linkOperation table o = .ok linked) :
    (∀ f ∈ linked.fragments, ∃ spreads, table.lookup f = some spreads) ∧
      ∀ f ∈ o.fragments, f ∈ linked.fragments := by
  obtain ⟨found, hfound, rfl⟩ := linkOperation_eq_ok h
  obtain ⟨-, hmem⟩ := Search.run_eq_ok (fun _ _ _ _ _ he => he) hfound
  constructor
  · intro f hf
    obtain ⟨p, hp, rfl⟩ := List.mem_map.mp hf
    obtain ⟨r, spreads, next, -, hl, -⟩ := Search.answered_of_run hfound p hp
    exact ⟨spreads, hl⟩
  · intro f hf
    exact (hmem f).mpr ⟨f, .start hf, rfl⟩

end Linking

namespace Bindings

/-- Bindings that define the fragments that they name. -/
structure DefinesFragments (b : Bindings) : Prop where
  ofFragment : ∀ file ∈ b.files, ∀ f ∈ file.fragments, ∀ name ∈ f.spreads,
    name ∈ FileBindings.fragmentNames b.files
  ofOperation : ∀ file ∈ b.files, ∀ o ∈ file.operations, ∀ name ∈ o.fragments,
    name ∈ FileBindings.fragmentNames b.files
  ofData : ∀ file ∈ b.files, ∀ o ∈ file.operations, ∀ name ∈ o.data.fragmentNames,
    name ∈ o.fragments

variable {schema : Schema} {config : Config} {documents : List Document}
  {extracted : List ExtractedFile} {b : Bindings}

/-- What is assembled defines the fragments that it names. -/
theorem AssembledFrom.definesFragments
    (h : b.AssembledFrom schema config documents extracted) : b.DefinesFragments := by
  have hlinked := Linking.link_eq_ok h.linked
  have hnames := FileBindings.fragmentNames_of_linked hlinked
  have hfiles : List.Forall₂ (fun d e => e.file.Of
      ⟨schema, config, Scope.fragmentConditions documents, d.path⟩ d) documents extracted :=
    h.documents.imp fun _ _ => ExtractedFile.ofDocument_eq_ok
  constructor
  case ofFragment =>
    intro file hfile f hf name hname
    obtain ⟨before, hbefore, hlink⟩ := List.Forall₂.exists_left hlinked hfile
    rw [hlink.fragments] at hf
    have hentry : (f.name, f.spreads) ∈ FileBindings.spreadTable (extracted.map (·.file)) :=
      List.mem_flatMap.mpr ⟨before, hbefore, List.mem_map.mpr ⟨f, hf, rfl⟩⟩
    obtain ⟨spreads, hl⟩ := Linking.exists_lookup_of_undefinedSpread?
      (Linking.undefinedSpread?_of_link h.linked) hentry hname
    rw [hnames]
    exact FileBindings.mem_fragmentNames_of_lookup hl
  case ofOperation =>
    intro file hfile o ho name hname
    obtain ⟨before, -, hto⟩ := List.Forall₂.exists_left hlinked hfile
    obtain ⟨unlinked, -, hlink⟩ := List.Forall₂.exists_left hto.operations ho
    obtain ⟨spreads, hl⟩ := (Linking.mem_fragments_of_linkOperation hlink).1 name hname
    rw [hnames]
    exact FileBindings.mem_fragmentNames_of_lookup hl
  case ofData =>
    intro file hfile o ho name hname
    obtain ⟨before, hbefore, hto⟩ := List.Forall₂.exists_left hlinked hfile
    obtain ⟨unlinked, hunlinked, hlink⟩ := List.Forall₂.exists_left hto.operations ho
    obtain ⟨e, he, rfl⟩ := List.mem_map.mp hbefore
    obtain ⟨d, -, hof⟩ := List.Forall₂.exists_left hfiles he
    obtain ⟨definition, -, hbinding⟩ := List.Forall₂.exists_left hof.operations hunlinked
    apply (Linking.mem_fragments_of_linkOperation hlink).2
    obtain ⟨found, -, rfl⟩ := Linking.linkOperation_eq_ok hlink
    rw [hbinding.fragments]
    exact Names.mem_union.mpr (Or.inr hname)

/-! ### Input objects -/

/-- The input object that a variable of an operation takes is declared. -/
theorem AssembledFrom.exists_declaration_of_variable
    (h : b.AssembledFrom schema config documents extracted) {o : OperationDefinition}
    (ho : .operation o ∈ Document.allDefinitions documents) {v : VariableDefinition}
    (hv : v ∈ o.parameters) {i : FieldedType}
    (hi : schema.inputObject? v.declared.baseName = some i) :
    ∃ n ∈ b.inputTypes, n.name = i.name := by
  obtain ⟨d, hd, ho⟩ := List.mem_flatMap.mp ho
  obtain ⟨e, he, hof⟩ := List.Forall₂.exists_right h.documents hd
  obtain ⟨parts, rfl, hparts⟩ := ExtractedFile.exists_parts hof
  obtain ⟨part, hpart, source, hextract⟩ := List.Forall₂.exists_right hparts ho
  obtain ⟨unlinked, parameters, -, hparameters, rfl⟩ := Scope.extractOperation_eq_ok hextract
  have hp := Except.mem_of_mapM_eq_ok hparameters hv (Scope.variableNode_of_inputObject hi)
  have hmem : (⟨i.name, .ofPosition (some d.path) v.position⟩ : InputRequest) ∈
      extracted.flatMap (·.requests) := by
    refine List.mem_flatMap.mpr ⟨_, he, List.mem_flatMap.mpr ⟨_, hpart, ?_⟩⟩
    exact List.mem_filterMap.mpr ⟨_, hp, rfl⟩
  exact (InputRequest.exists_declaration_iff h.inputTypes i.name).mpr ⟨_, .start hmem, rfl⟩

end Bindings

end QueryBindings
