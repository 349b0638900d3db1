import QueryBindings.Proofs.Bindings.Order
/-!
Further documents.

A run that succeeds has looked up every fragment that its bindings name, so it knows their conditions
and spreads. Documents that are added can't change these, since a name that is looked up keeps its
first entry. So they leave the bindings of the other documents as they are.
-/
namespace QueryBindings

/-- What is found in a list is found in a longer one. -/
theorem List.lookup_append_of_some {β : Type} {l l' : List (String × β)} {name : String} {b : β}
    (h : l.lookup name = some b) : (l ++ l').lookup name = some b := by
  rw [List.lookup_append, h, Option.some_or]

/-! ### Single definitions -/

namespace Extracted

/-- The fragments that the shapes of a binding record. -/
def recorded : Extracted → List String
  | operation o _ => o.data.fragmentNames
  | fragment f => Node.fragmentNamesOf f.fields

end Extracted

namespace Scope

variable {s : Scope} {conditions : List (String × String)}

section

variable (h : ∀ f condition, s.conditions.lookup f = some condition →
  conditions.lookup f = some condition)
include h

/-- An operation that records known fragments has the same binding next to further ones. -/
theorem extractOperation_withConditions {o : OperationDefinition} {source : String}
    {part part' : Extracted} (hp : s.extractOperation o source = .ok part)
    (hp' : (s.withConditions conditions).extractOperation o source = .ok part')
    (hknown : ∀ f ∈ part.recorded, s.Knows f) : part' = part := by
  simp only [extractOperation] at hp hp'
  cases hn : o.name? with
  | none => simp [hn] at hp
  | some name =>
    simp only [hn] at hp hp'
    obtain ⟨root, hroot, hrest⟩ := Except.bind_eq_ok.mp hp
    obtain ⟨parameters, hparameters, hrest⟩ := Except.bind_eq_ok.mp hrest
    obtain ⟨selected, hselected, hpart⟩ := Except.bind_eq_ok.mp hrest
    obtain ⟨root', hroot', hrest'⟩ := Except.bind_eq_ok.mp hp'
    obtain ⟨parameters', hparameters', hrest'⟩ := Except.bind_eq_ok.mp hrest'
    obtain ⟨selected', hselected', hpart'⟩ := Except.bind_eq_ok.mp hrest'
    rw [← Except.pure_eq_ok.mp hpart] at hknown
    rw [← Except.pure_eq_ok.mp hpart, ← Except.pure_eq_ok.mp hpart']
    -- The root and the variables don't depend on conditions.
    have hroots : root' = root := Except.ok.inj (hroot'.symm.trans hroot)
    have hparameters : parameters' = parameters :=
      Except.ok.inj (hparameters'.symm.trans hparameters)
    rw [hroots] at hselected'
    have hselected : selected' = selected := by
      refine selectOnObject_withConditions h hselected hselected' fun f hf => hknown f ?_
      rw [Extracted.recorded, Node.fragmentNames]
      exact List.mem_append_right _ hf
    rw [hselected, hparameters]
    rfl

theorem extractFragment_withConditions {g : FragmentDefinition} {source : String}
    {part part' : Extracted} (hp : s.extractFragment g source = .ok part)
    (hp' : (s.withConditions conditions).extractFragment g source = .ok part')
    (hknown : ∀ f ∈ part.recorded, s.Knows f) : part' = part := by
  obtain ⟨t, ht, hrest⟩ := Except.bind_eq_ok.mp hp
  obtain ⟨selected, hselected, hpart⟩ := Except.bind_eq_ok.mp hrest
  obtain ⟨t', ht', hrest'⟩ := Except.bind_eq_ok.mp hp'
  obtain ⟨selected', hselected', hpart'⟩ := Except.bind_eq_ok.mp hrest'
  rw [← Except.pure_eq_ok.mp hpart] at hknown
  rw [← Except.pure_eq_ok.mp hpart, ← Except.pure_eq_ok.mp hpart']
  have htypes : t' = t := Except.ok.inj (ht'.symm.trans ht)
  rw [htypes] at hselected'
  have hselected : selected' = selected :=
    selectOnObject_withConditions h hselected hselected' hknown
  rw [hselected]
  rfl

/-- If the fragments that a binding records are known, further conditions leave the binding as it
is. -/
theorem extract_withConditions {d : Definition × String} {part part' : Extracted}
    (hp : s.extract d = .ok part) (hp' : (s.withConditions conditions).extract d = .ok part')
    (hknown : ∀ f ∈ part.recorded, s.Knows f) : part' = part := by
  obtain ⟨e, source⟩ := d
  cases e with
  | operation o => exact extractOperation_withConditions h hp hp' hknown
  | fragment g => exact extractFragment_withConditions h hp hp' hknown
  | shorthand p l => simp [extract] at hp

end

end Scope

/-! ### Files -/

def FileBindings.recorded (file : FileBindings) : List String :=
  file.operations.flatMap (·.data.fragmentNames) ++
    file.fragments.flatMap fun f => Node.fragmentNamesOf f.fields

/-- The shapes of a file record what the shapes of its definitions record. -/
theorem FileBindings.mem_recorded_of_extracted {path : String} {parts : List Extracted}
    {part : Extracted} (hpart : part ∈ parts) {f : String} (hf : f ∈ part.recorded) :
    f ∈ (ExtractedFile.ofExtracted path parts).file.recorded := by
  cases part with
  | operation o requests =>
    have ho : o ∈ parts.filterMap Extracted.operation? := List.mem_filterMap.mpr ⟨_, hpart, rfl⟩
    exact List.mem_append_left _ (List.mem_flatMap.mpr ⟨o, ho, hf⟩)
  | fragment g =>
    have hg : g ∈ parts.filterMap Extracted.fragment? := List.mem_filterMap.mpr ⟨_, hpart, rfl⟩
    exact List.mem_append_right _ (List.mem_flatMap.mpr ⟨g, hg, hf⟩)

/-- If all fragments that a document's shapes record are known, further conditions leave its
bindings as they are. -/
theorem ExtractedFile.ofDocument_withConditions {schema : Schema} {config : Config}
    {conditions conditions' : List (String × String)} {d : Document} {e e' : ExtractedFile}
    (h : ∀ f condition, conditions.lookup f = some condition → conditions'.lookup f = some condition)
    (he : ofDocument schema config conditions d = .ok e)
    (he' : ofDocument schema config conditions' d = .ok e')
    (hknown : ∀ f ∈ e.file.recorded, ∃ condition, conditions.lookup f = some condition) :
    e' = e := by
  obtain ⟨parts, hparts, he⟩ := Except.bind_eq_ok.mp he
  obtain ⟨parts', hparts', he'⟩ := Except.bind_eq_ok.mp he'
  obtain rfl := Except.pure_eq_ok.mp he
  obtain rfl := Except.pure_eq_ok.mp he'
  have hsame : parts' = parts := by
    refine Except.eq_of_mapM hparts hparts' fun definition part part' hm hp hp' => ?_
    refine Scope.extract_withConditions (s := ⟨schema, config, conditions, d.path⟩) h hp hp' ?_
    exact fun f hf => hknown f (FileBindings.mem_recorded_of_extracted hm hf)
  rw [hsame]

/-! ### Runs -/

/-- Files that are linked are linked in the same way next to further files. -/
theorem Linking.link_append {files rest linked linked' : List FileBindings}
    (h : link files = .ok linked) (h' : link (files ++ rest) = .ok linked') :
    linked <+: linked' := by
  obtain ⟨-, h⟩ := link_eq_ok_iff.mp h
  obtain ⟨-, h'⟩ := link_eq_ok_iff.mp h'
  obtain ⟨front, back, hfront, -, rfl⟩ := Except.exists_of_mapM_append h'
  have htable : FileBindings.spreadTable (files ++ rest) =
      FileBindings.spreadTable files ++ FileBindings.spreadTable rest := List.flatMap_append
  rw [htable] at hfront
  have hsame : front = linked := by
    refine Except.eq_of_mapM h hfront fun file after after' _ ha ha' => ?_
    have hlinked : linkFile (FileBindings.spreadTable files ++ FileBindings.spreadTable rest) file =
        .ok after := linkFile_of_lookup (fun f spreads hl => List.lookup_append_of_some hl) ha
    exact Except.ok.inj (ha'.symm.trans hlinked)
  exact ⟨back, hsame ▸ rfl⟩

namespace Bindings

variable {schema : Schema} {config : Config} {documents further : List Document}
  {extracted : List ExtractedFile} {b b' : Bindings}

/-- Fragments that are recorded in a run are in its table of spreads. -/
theorem AssembledFrom.exists_spreads (h : b.AssembledFrom schema config documents extracted)
    {e : ExtractedFile} (he : e ∈ extracted) {f : String} (hf : f ∈ e.file.recorded) :
    ∃ spreads, (FileBindings.spreadTable (extracted.map (·.file))).lookup f = some spreads := by
  obtain ⟨hdefined, hlinked⟩ := Linking.link_eq_ok_iff.mp h.linked
  have hfile : e.file ∈ extracted.map (·.file) := List.mem_map_of_mem he
  rcases List.mem_append.mp hf with hf | hf
  · obtain ⟨o, ho, hf⟩ := List.mem_flatMap.mp hf
    obtain ⟨d, -, hd⟩ := List.Forall₂.exists_left h.documents he
    obtain ⟨_, -, hbinding⟩ :=
      List.Forall₂.exists_left (ExtractedFile.ofDocument_eq_ok hd).operations ho
    obtain ⟨linked, hl⟩ := Except.exists_mapM_iff.mp ⟨_, hlinked⟩ _ hfile
    obtain ⟨operations, hoperations, -⟩ := Except.bind_eq_ok.mp hl
    obtain ⟨o', ho'⟩ := Except.exists_mapM_iff.mp ⟨_, hoperations⟩ o ho
    obtain ⟨hall, hown⟩ := Linking.mem_fragments_of_linkOperation ho'
    refine hall f (hown f ?_)
    rw [hbinding.fragments]
    exact Names.mem_union.mpr (Or.inr hf)
  · obtain ⟨g, hg, hf⟩ := List.mem_flatMap.mp hf
    have hentry : (g.name, g.spreads) ∈ FileBindings.spreadTable (extracted.map (·.file)) :=
      List.mem_flatMap.mpr ⟨e.file, hfile, List.mem_map.mpr ⟨g, hg, rfl⟩⟩
    exact hdefined _ hentry f (Names.mem_union.mpr (Or.inr hf))

/-- The conditions of all fragments that are recorded in a run are known. -/
theorem AssembledFrom.exists_condition (h : b.AssembledFrom schema config documents extracted)
    {e : ExtractedFile} (he : e ∈ extracted) {f : String} (hf : f ∈ e.file.recorded) :
    ∃ condition, (Scope.fragmentConditions documents).lookup f = some condition := by
  obtain ⟨spreads, hl⟩ := h.exists_spreads he hf
  have hconditions := map_fst_conditions_of_documents h.documents
  have hnodup : ((Scope.fragmentConditions documents).map (·.1)).Nodup := hconditions ▸ h.fragments
  have hm : f ∈ (Scope.fragmentConditions documents).map (·.1) := by
    rw [hconditions, map_fst_fragmentNames, ← FileBindings.map_fst_spreadTable]
    exact List.mem_map_of_mem (mem_of_lookup_eq_some hl)
  obtain ⟨entry, hentry, rfl⟩ := List.mem_map.mp hm
  exact ⟨entry.2, lookup_eq_some_of_mem hnodup hentry⟩

/-- What is extracted from documents is extracted from them next to further documents. -/
theorem AssembledFrom.extracted_append (h : b.AssembledFrom schema config documents extracted)
    {extracted' : List ExtractedFile}
    (h' : b'.AssembledFrom schema config (documents ++ further) extracted') :
    ∃ rest, extracted' = extracted ++ rest := by
  have happend : Scope.fragmentConditions (documents ++ further) =
      Scope.fragmentConditions documents ++ Scope.fragmentConditions further :=
    List.flatMap_append
  obtain ⟨front, rest, hfront, -, hextracted⟩ :=
    Except.exists_of_mapM_append (Except.mapM_eq_ok.mpr h'.documents)
  rw [happend] at hfront
  have hsame : front = extracted := by
    refine Except.eq_of_mapM (Except.mapM_eq_ok.mpr h.documents) hfront fun d e e' hm he he' => ?_
    refine ExtractedFile.ofDocument_withConditions ?_ he he' fun f hf => h.exists_condition hm hf
    exact fun f condition hl => List.lookup_append_of_some hl
  exact ⟨rest, hsame ▸ hextracted⟩

/-- Further documents leave the bindings of the others as they are: the files of a run come first,
unchanged, and every input type is declared as it was. -/
theorem generate_append (h : generate schema config documents = .ok b)
    (h' : generate schema config (documents ++ further) = .ok b') :
    b.files <+: b'.files ∧ ∀ n ∈ b.inputTypes, n ∈ b'.inputTypes := by
  obtain ⟨-, extracted, hassembled⟩ := exists_assembledFrom h
  obtain ⟨-, extracted', hassembled'⟩ := exists_assembledFrom h'
  obtain ⟨rest, rfl⟩ := hassembled.extracted_append hassembled'
  have hlinked := hassembled'.linked
  have hinputTypes := hassembled'.inputTypes
  rw [List.map_append] at hlinked
  rw [List.flatMap_append] at hinputTypes
  refine ⟨Linking.link_append hassembled.linked hlinked, fun n hn => ?_⟩
  have hdeclares := InputRequest.declaresInputs hassembled.inputTypes
  have hdeclares' := InputRequest.declaresInputs hinputTypes
  rw [List.map_append] at hdeclares'
  refine InputRequest.mem_of_declares hdeclares hdeclares' ?_ hn
  exact fun name hreached => hreached.mono fun r hr => List.mem_append_left _ hr

def furtherDocuments : List Document :=
  [⟨"more", "", [.fragment ⟨.start, "I", "Cat", [], [.spread .start "H" []]⟩]⟩]

theorem generate_append_sample :
    ∃ b b', generate Schema.sampleSchema .default sampleDocuments = .ok b ∧
      generate Schema.sampleSchema .default (sampleDocuments ++ furtherDocuments) = .ok b' ∧
      b.files <+: b'.files ∧ ∀ n ∈ b.inputTypes, n ∈ b'.inputTypes := by
  have hsome : (generate Schema.sampleSchema .default sampleDocuments).toOption.isSome := by
    decide +kernel
  have hsome' : (generate Schema.sampleSchema .default
      (sampleDocuments ++ furtherDocuments)).toOption.isSome := by decide +kernel
  obtain ⟨b, hb⟩ := Option.isSome_iff_exists.mp hsome
  obtain ⟨b', hb'⟩ := Option.isSome_iff_exists.mp hsome'
  have hb := Except.toOption_eq_some.mp hb
  have hb' := Except.toOption_eq_some.mp hb'
  exact ⟨b, b', hb, hb', generate_append hb hb'⟩

end Bindings

end QueryBindings
