import QueryBindings.Proofs.Bindings.InputTypes
import QueryBindings.Proofs.Bindings.Linking
import QueryBindings.Proofs.Shape.Conditions
/-!
The order of documents.

Every document has bindings of its own. They depend on the other documents by way of two tables, the
type conditions of fragments and the spreads that fragments record, and both hold every fragment once
when a run succeeds. So the order of documents decides about the order of bindings, and nothing else.
-/
namespace QueryBindings

namespace Scope

/-- Documents in another order give the same conditions in another order. -/
theorem fragmentConditions_perm {documents documents' : List Document}
    (h : documents.Perm documents') :
    (fragmentConditions documents).Perm (fragmentConditions documents') := h.flatMap_right _

/-- Every fragment has one condition. -/
theorem map_fst_fragmentConditions (documents : List Document) :
    (fragmentConditions documents).map (·.1) =
      documents.flatMap fun d => d.fragments.map (·.name) := by
  rw [fragmentConditions, List.map_flatMap]
  congr 1
  funext d
  rw [Document.fragments, List.map_filterMap, List.map_filterMap]
  congr 1
  funext e
  cases e <;> rfl

/-- Definitions have the same bindings however the conditions are listed. -/
theorem extract_congr {s : Scope} {conditions : List (String × String)}
    (h : ∀ f, conditions.lookup f = s.conditions.lookup f) (d : Definition × String) :
    (s.withConditions conditions).extract d = s.extract d := by
  obtain ⟨e, source⟩ := d
  cases e with
  | operation o =>
    simp only [extract, extractOperation, selectOnObject_congr h]
    rfl
  | fragment f =>
    simp only [extract, extractFragment, selectOnObject_congr h]
    rfl
  | shorthand => rfl

end Scope

/-- The bindings of a document depend on what is found in the conditions only. -/
theorem ExtractedFile.ofDocument_congr {schema : Schema} {config : Config}
    {conditions conditions' : List (String × String)}
    (h : ∀ f, conditions'.lookup f = conditions.lookup f) (d : Document) :
    ofDocument schema config conditions' d = ofDocument schema config conditions d := by
  have hextract : Scope.extract ⟨schema, config, conditions', d.path⟩ =
      Scope.extract ⟨schema, config, conditions, d.path⟩ :=
    funext fun e => Scope.extract_congr (s := ⟨schema, config, conditions, d.path⟩) h e
  rw [ofDocument, hextract]
  rfl

instance : Nonempty FileBindings := ⟨⟨"", [], []⟩⟩

instance : Nonempty ExtractedFile := ⟨⟨"", [], []⟩, []⟩

/-- Files that are linked in another order are linked to the same fragments. -/
theorem Linking.link_of_perm {files files' linked : List FileBindings} (h : link files = .ok linked)
    (hn : ((FileBindings.spreadTable files).map (·.1)).Nodup) (hp : files.Perm files') :
    ∃ file : FileBindings → FileBindings, linked = files.map file ∧
      link files' = .ok (files'.map file) := by
  have htable : (FileBindings.spreadTable files).Perm (FileBindings.spreadTable files') :=
    hp.flatMap_right _
  have hlookup := lookup_eq_of_perm htable hn
  obtain ⟨hdefined, hlinked⟩ := link_eq_ok_iff.mp h
  obtain ⟨file, hfile, rfl⟩ := Except.exists_map_of_mapM hlinked
  refine ⟨file, rfl, link_eq_ok_iff.mpr ⟨?_, ?_⟩⟩
  · intro entry he f hf
    rw [hlookup]
    exact hdefined entry (htable.mem_iff.mpr he) f hf
  · rw [Except.mapM_eq_ok, List.forall₂_map_right_iff, List.forall₂_same]
    intro before hbefore
    refine linkFile_of_lookup ?_ (hfile before (hp.mem_iff.mpr hbefore))
    exact fun f spreads hl => (hlookup f).trans hl

namespace Bindings

variable {schema : Schema} {config : Config} {documents documents' : List Document}
  {extracted : List ExtractedFile} {b : Bindings}

/-- The fragments whose conditions are known are those that have bindings. -/
theorem map_fst_conditions_of_documents {conditions : List (String × String)}
    (h : List.Forall₂ (fun d e => ExtractedFile.ofDocument schema config conditions d = .ok e)
      documents extracted) :
    (Scope.fragmentConditions documents).map (·.1) =
      (fragmentNames (extracted.map (·.file))).map (·.1) := by
  rw [Scope.map_fst_fragmentConditions, fragmentNames, List.map_flatMap]
  induction h with
  | nil => rfl
  | @cons d e _ _ hd _ ih =>
    have hnames : d.fragments.map (·.name) = e.file.fragments.map (·.name) := by
      have hof := (ExtractedFile.ofDocument_eq_ok hd).fragments
      exact (List.forall₂_eq_eq_eq ▸ List.forall₂_map_left_iff.mpr
        (List.forall₂_map_right_iff.mpr (hof.imp fun _ _ hf => hf.name.symm)))
    rw [List.map_cons, List.flatMap_cons, List.flatMap_cons, ih, hnames, List.map_map]
    rfl

/-- What is extracted from documents is extracted from them in any order. -/
theorem extracted_of_perm {file : Document → ExtractedFile}
    (h : ∀ d ∈ documents, ExtractedFile.ofDocument schema config
      (Scope.fragmentConditions documents) d = .ok (file d))
    (hn : ((fragmentNames ((documents.map file).map (·.file))).map (·.1)).Nodup)
    (hp : documents.Perm documents') :
    List.Forall₂ (fun d e => ExtractedFile.ofDocument schema config
      (Scope.fragmentConditions documents') d = .ok e) documents' (documents'.map file) := by
  have hextracted : List.Forall₂ (fun d e => ExtractedFile.ofDocument schema config
      (Scope.fragmentConditions documents) d = .ok e) documents (documents.map file) :=
    List.forall₂_map_right_iff.mpr (List.forall₂_same.mpr h)
  rw [← map_fst_conditions_of_documents hextracted] at hn
  have hlookup := lookup_eq_of_perm (Scope.fragmentConditions_perm hp) hn
  refine List.forall₂_map_right_iff.mpr (List.forall₂_same.mpr fun d hd => ?_)
  rw [ExtractedFile.ofDocument_congr hlookup]
  exact h d (hp.mem_iff.mpr hd)

/-- The bindings of two lists of documents, if every document has the same bindings in both, and
both have the same input types. -/
structure Reordered (documents documents' : List Document) (b b' : Bindings) : Prop where
  files : ∃ file : Document → FileBindings, b.files = documents.map file ∧
    b'.files = documents'.map file
  inputTypes : b'.inputTypes.Perm b.inputTypes

/-- Documents in another order declare the same names in another order. -/
theorem Reordered.declarations_perm {b b' : Bindings} (h : Reordered documents documents' b b')
    (hp : documents.Perm documents') (schema : Schema) :
    (b'.declarations schema).Perm (b.declarations schema) := by
  obtain ⟨file, hfiles, hfiles'⟩ := h.files
  rw [declarations, declarations, hfiles, hfiles']
  exact (h.inputTypes.flatMap_right _).append ((hp.symm.map file).flatMap_right _)

/-- Bindings are assembled from documents in any order. -/
theorem AssembledFrom.reorder (h : b.AssembledFrom schema config documents extracted)
    (hp : documents.Perm documents') : ∃ b' extracted',
      b'.AssembledFrom schema config documents' extracted' ∧
      Reordered documents documents' b b' := by
  obtain ⟨file, hfile, rfl⟩ := Except.exists_map_of_mapM (Except.mapM_eq_ok.mpr h.documents)
  have hfiles : ((documents.map file).map (·.file)).Perm ((documents'.map file).map (·.file)) :=
    (hp.map file).map _
  have hoperations : (operationNames ((documents.map file).map (·.file))).Perm
      (operationNames ((documents'.map file).map (·.file))) := hfiles.flatMap_right _
  have hfragments : (fragmentNames ((documents.map file).map (·.file))).Perm
      (fragmentNames ((documents'.map file).map (·.file))) := hfiles.flatMap_right _
  have hspreads : ((FileBindings.spreadTable ((documents.map file).map (·.file))).map
      (·.1)).Nodup := by
    rw [FileBindings.map_fst_spreadTable, ← map_fst_fragmentNames]
    exact h.fragments
  obtain ⟨linkedFile, hlinked, hlinked'⟩ := Linking.link_of_perm h.linked hspreads hfiles
  have hrequests : ((documents.map file).flatMap (·.requests)).Perm
      ((documents'.map file).flatMap (·.requests)) := (hp.map file).flatMap_right _
  obtain ⟨inputTypes, hinputTypes, hperm⟩ := InputRequest.exists_perm_declarations h.inputTypes
    fun name => (hrequests.map (·.type)).symm.mem_iff
  refine ⟨⟨documents'.map fun d => linkedFile (file d).file, inputTypes⟩, documents'.map file,
    ?_, ?_⟩
  · exact
      { documents := extracted_of_perm hfile h.fragments hp
        operations := (hoperations.map _).nodup_iff.mp h.operations
        fragments := (hfragments.map _).nodup_iff.mp h.fragments
        linked := hlinked'.trans (by simp)
        inputTypes := hinputTypes }
  · exact
      { files := ⟨fun d => linkedFile (file d).file, by simp [hlinked], rfl⟩
        inputTypes := hperm }

/-- Documents in another order are bound as well, and in the same way. -/
theorem exists_reordered_of_generate (h : generate schema config documents = .ok b)
    (hp : documents.Perm documents') : ∃ b', generate schema config documents' = .ok b' ∧
      Reordered documents documents' b b' := by
  obtain ⟨hdeclarations, extracted, hassembled⟩ := exists_assembledFrom h
  obtain ⟨b', extracted', hassembled', hreordered⟩ := hassembled.reorder hp
  refine ⟨b', hassembled'.generate_eq_ok ?_, hreordered⟩
  exact (((hreordered.declarations_perm hp schema).map _).nodup_iff).mpr hdeclarations

/-- A run succeeds for documents in one order if and only if it succeeds for them in another. Then
every document has the same bindings in both runs, and both declare the same input types. -/
theorem generate_of_perm (schema : Schema) (config : Config) {documents documents' : List Document}
    (hp : documents.Perm documents') :
    ((∃ b, generate schema config documents = .ok b) ↔
      ∃ b', generate schema config documents' = .ok b') ∧
    ∀ b b', generate schema config documents = .ok b →
      generate schema config documents' = .ok b' → Reordered documents documents' b b' := by
  constructor
  · constructor
    · rintro ⟨b, hb⟩
      obtain ⟨b', hb', -⟩ := exists_reordered_of_generate hb hp
      exact ⟨b', hb'⟩
    · rintro ⟨b', hb'⟩
      obtain ⟨b, hb, -⟩ := exists_reordered_of_generate hb' hp.symm
      exact ⟨b, hb⟩
  · intro b b' hb hb'
    obtain ⟨b'', hb'', hreordered⟩ := exists_reordered_of_generate hb hp
    rw [hb', Except.ok.injEq] at hb''
    exact hb'' ▸ hreordered

theorem generate_of_perm_sample :
    ∃ b b', generate Schema.sampleSchema .default sampleDocuments = .ok b ∧
      generate Schema.sampleSchema .default sampleDocuments.reverse = .ok b' ∧
      Reordered sampleDocuments sampleDocuments.reverse b b' := by
  obtain ⟨hiff, hreordered⟩ := generate_of_perm Schema.sampleSchema .default
    (List.reverse_perm sampleDocuments).symm
  have hsome : (generate Schema.sampleSchema .default sampleDocuments).toOption.isSome := by
    decide +kernel
  obtain ⟨b, hb⟩ := Option.isSome_iff_exists.mp hsome
  have hb := Except.toOption_eq_some.mp hb
  obtain ⟨b', hb'⟩ := hiff.mp ⟨b, hb⟩
  exact ⟨b, b', hb, hb', hreordered b b' hb hb'⟩

end Bindings

end QueryBindings
