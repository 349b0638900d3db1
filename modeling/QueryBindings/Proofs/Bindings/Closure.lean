import QueryBindings.Proofs.Bindings.Extraction
import QueryBindings.Proofs.Lookup
import QueryBindings.Proofs.Search
import QueryBindings.Proofs.Shape.Spreads
/-!
The fragments that an operation's document needs.

Linking follows the spreads that shapes record, which are the shown ones. So the fragments of an
operation are closed under shown spreads, and they are all that its document needs exactly if every
hidden spread in it, or in a fragment that is linked to it, is of a fragment that is linked anyway.
-/
namespace QueryBindings

namespace Definition

/-- The names of the fragments that a definition spreads, at any depth. -/
def spreads (d : Definition) : List String := Selection.spreadsOf d.selections

/-- The fragments that are reached from a definition by way of `spreads`: what it spreads, and what
the definitions of reached fragments spread. -/
inductive Reaches (definitions : List Definition) (spreads : Definition → List String)
    (d : Definition) : String → Prop
  | spread {f : String} (h : f ∈ spreads d) : Reaches definitions spreads d f
  | via {g : FragmentDefinition} {f : String} (h : Reaches definitions spreads d g.name)
      (hg : fragment g ∈ definitions) (hf : f ∈ spreads (fragment g)) :
      Reaches definitions spreads d f

end Definition

open Definition (Reaches)

namespace Schema

variable (s : Schema)

/-- The fragments that a definition spreads where selections are resolved. -/
def shownSpreads (d : Definition) : List String :=
  match s.selectedOn? d with
  | some t => s.shownAll t d.selections
  | none => []

/-- The fragments that a definition spreads where no selection is looked at: in inline fragments
that select no member of a union, and below leaves. -/
def hiddenSpreads (d : Definition) : List String :=
  match s.selectedOn? d with
  | some t => s.hiddenAll t d.selections
  | none => d.spreads

/-- Every spread is shown or hidden. -/
theorem mem_spreads_iff_of_definition (d : Definition) (f : String) :
    f ∈ d.spreads ↔ f ∈ s.shownSpreads d ∨ f ∈ s.hiddenSpreads d := by
  unfold shownSpreads hiddenSpreads
  cases s.selectedOn? d with
  | none => simp
  | some t => exact s.mem_spreadsOf_iff d.selections t f

end Schema

/-! ### Recorded fragments -/

/-- Before linking, an operation's fragments are those that it spreads where selections are
resolved. -/
theorem OperationBinding.Unlinked.mem_fragments {s : Scope} {o : OperationDefinition}
    {b : OperationBinding} (h : b.Unlinked s o) {definitions : List Definition}
    (ho : .operation o ∈ definitions) (hc : s.schema.AllCompatible definitions) (f : String) :
    f ∈ b.fragments ↔ f ∈ s.schema.shownSpreads (.operation o) := by
  obtain ⟨root, selected, hroot, hselected, hdata⟩ := h.data
  have hcompatible := hc _ ho root hroot
  have hrecorded := Scope.mem_recorded_of_selectOnObject hcompatible hselected f
  have hshown : s.schema.shownSpreads (.operation o) =
      s.schema.shownAll root (Definition.operation o).selections := by
    simp only [Schema.shownSpreads, Schema.selectedOn?, hroot]
  rw [hshown, ← hrecorded, h.fragments, hdata]
  simp [Node.fragmentNames, Selected.recorded]

/-- A fragment records those that it spreads where selections are resolved. -/
theorem FragmentBinding.Of.mem_spreads {s : Scope} {g : FragmentDefinition} {b : FragmentBinding}
    (h : b.Of s g) {definitions : List Definition} (hg : .fragment g ∈ definitions)
    (hc : s.schema.AllCompatible definitions) (f : String) :
    f ∈ b.spreads ↔ f ∈ s.schema.shownSpreads (.fragment g) := by
  obtain ⟨t, selected, ht, hselected, hfragments, hfields⟩ := h.shape
  have hcompatible := hc _ hg t ht
  have hrecorded := Scope.mem_recorded_of_selectOnObject hcompatible hselected f
  have hshown : s.schema.shownSpreads (.fragment g) =
      s.schema.shownAll t (Definition.fragment g).selections := by
    simp only [Schema.shownSpreads, Schema.selectedOn?, ht]
  rw [hshown, ← hrecorded, FragmentBinding.spreads, hfragments, hfields]
  simp [Selected.recorded]

/-! ### Linked fragments -/

/-- The search for an operation's fragments follows the entries of the table. -/
theorem Linking.follows_iff {table : List (String × List String)} {operation f f' : String} :
    (search table operation).Follows f f' ↔ ∃ spreads, table.lookup f = some spreads ∧
      f' ∈ spreads := by
  constructor
  · rintro ⟨spreads, result, next, hl, he, hf⟩
    simp only [search, Except.ok.injEq, Prod.mk.injEq] at he
    exact ⟨spreads, hl, he.2 ▸ hf⟩
  · rintro ⟨spreads, hl, hf⟩
    exact ⟨spreads, (), spreads, hl, rfl, hf⟩

def FileBindings.fragmentNames (files : List FileBindings) : List String :=
  files.flatMap fun file => file.fragments.map (·.name)

/-- The table has one entry for each fragment. -/
theorem FileBindings.map_fst_spreadTable (files : List FileBindings) :
    (spreadTable files).map (·.1) = fragmentNames files := by
  simp [spreadTable, fragmentNames, List.map_flatMap, Function.comp_def]

theorem Bindings.map_fst_fragmentNames (files : List FileBindings) :
    (fragmentNames files).map (·.1) = FileBindings.fragmentNames files := by
  simp [fragmentNames, FileBindings.fragmentNames, List.map_flatMap, Function.comp_def]

namespace Bindings.MadeOf

variable {schema : Schema} {config : Config} {documents : List Document}
  {extracted : List ExtractedFile} {b : Bindings}

/-- An entry of the table belongs to a fragment that some document defines. -/
theorem exists_of_mem_spreadTable (h : b.MadeOf schema config documents extracted)
    (hc : schema.AllCompatible (Document.allDefinitions documents)) {f : String}
    {spreads : List String}
    (hm : (f, spreads) ∈ FileBindings.spreadTable (extracted.map (·.file))) :
    ∃ g, .fragment g ∈ Document.allDefinitions documents ∧ g.name = f ∧
      ∀ x, x ∈ spreads ↔ x ∈ schema.shownSpreads (.fragment g) := by
  obtain ⟨file, hfile, hm⟩ := List.mem_flatMap.mp hm
  obtain ⟨binding, hbinding, he⟩ := List.mem_map.mp hm
  obtain ⟨e, he', rfl⟩ := List.mem_map.mp hfile
  obtain ⟨d, hd, hof⟩ := List.Forall₂.exists_left h.files he'
  obtain ⟨g, hg, hbinding⟩ := List.Forall₂.exists_left hof.fragments hbinding
  obtain ⟨rfl, rfl⟩ := Prod.mk.inj he
  have hdefinition : .fragment g ∈ Document.allDefinitions documents :=
    List.mem_flatMap.mpr ⟨d, hd, Document.mem_fragments.mp hg⟩
  exact ⟨g, hdefinition, hbinding.name.symm, hbinding.mem_spreads hdefinition hc⟩

/-- Every fragment that a document defines has an entry in the table. -/
theorem exists_mem_spreadTable (h : b.MadeOf schema config documents extracted)
    (hc : schema.AllCompatible (Document.allDefinitions documents)) {g : FragmentDefinition}
    (hg : .fragment g ∈ Document.allDefinitions documents) :
    ∃ spreads, (g.name, spreads) ∈ FileBindings.spreadTable (extracted.map (·.file)) ∧
      ∀ x, x ∈ spreads ↔ x ∈ schema.shownSpreads (.fragment g) := by
  obtain ⟨d, hd, hm⟩ := List.mem_flatMap.mp hg
  obtain ⟨e, he, hof⟩ := List.Forall₂.exists_right h.files hd
  obtain ⟨binding, hbinding, hb⟩ := List.Forall₂.exists_right hof.fragments (Document.mem_fragments.mpr hm)
  refine ⟨binding.spreads, ?_, hb.mem_spreads hg hc⟩
  apply List.mem_flatMap.mpr
  refine ⟨e.file, List.mem_map_of_mem he, List.mem_map.mpr ⟨binding, hbinding, ?_⟩⟩
  rw [hb.name]

/-- The search that links an operation follows the shown spreads of the fragment definitions. -/
theorem follows_iff (h : b.MadeOf schema config documents extracted)
    (hc : schema.AllCompatible (Document.allDefinitions documents)) (operation f f' : String) :
    (Linking.search (FileBindings.spreadTable (extracted.map (·.file))) operation).Follows f f' ↔
      ∃ g, .fragment g ∈ Document.allDefinitions documents ∧ g.name = f ∧
        f' ∈ schema.shownSpreads (.fragment g) := by
  have hnodup : ((FileBindings.spreadTable (extracted.map (·.file))).map (·.1)).Nodup := by
    rw [FileBindings.map_fst_spreadTable, ← map_fst_fragmentNames]
    exact h.fragments
  rw [Linking.follows_iff]
  constructor
  · rintro ⟨spreads, hl, hf⟩
    obtain ⟨g, hg, hname, hspreads⟩ := h.exists_of_mem_spreadTable hc (mem_of_lookup_eq_some hl)
    exact ⟨g, hg, hname, (hspreads f').mp hf⟩
  · rintro ⟨g, hg, rfl, hf⟩
    obtain ⟨spreads, hm, hspreads⟩ := h.exists_mem_spreadTable hc hg
    exact ⟨spreads, lookup_eq_some_of_mem hnodup hm, (hspreads f').mpr hf⟩

end Bindings.MadeOf

/-! ### Operations -/

namespace Definition

variable {definitions : List Definition} {shown hidden spreads : Definition → List String}
  {d : Definition} {linked : List String}

/-- Names that are reached by way of some of the spreads are reached by way of all spreads exactly
if the rest of the spreads adds no name. -/
theorem forall_mem_iff_reaches (hs : ∀ e f, f ∈ spreads e ↔ f ∈ shown e ∨ f ∈ hidden e)
    (h : ∀ f, f ∈ linked ↔ Reaches definitions shown d f) :
    (∀ f, f ∈ linked ↔ Reaches definitions spreads d f) ↔
      (∀ f ∈ hidden d, f ∈ linked) ∧
        ∀ g, fragment g ∈ definitions → g.name ∈ linked → ∀ f ∈ hidden (fragment g), f ∈ linked := by
  constructor
  · intro hall
    constructor
    · intro f hf
      exact (hall f).mpr (.spread ((hs d f).mpr (Or.inr hf)))
    · intro g hg hlinked f hf
      exact (hall f).mpr (.via ((hall g.name).mp hlinked) hg ((hs _ f).mpr (Or.inr hf)))
  · rintro ⟨hown, hfragments⟩ f
    constructor
    · intro hf
      have hreach := (h f).mp hf
      clear hf
      induction hreach with
      | spread hf => exact .spread ((hs d _).mpr (Or.inl hf))
      | via _ hg hf ih => exact .via ih hg ((hs _ _).mpr (Or.inl hf))
    · intro hf
      induction hf with
      | spread hf =>
        rcases (hs d _).mp hf with hf | hf
        · exact (h _).mpr (.spread hf)
        · exact hown _ hf
      | via _ hg hf ih =>
        rcases (hs _ _).mp hf with hf | hf
        · exact (h _).mpr (.via ((h _).mp ih) hg hf)
        · exact hfragments _ hg ih _ hf

end Definition

/-- The binding of an operation after linking, among the definitions of all documents. -/
structure OperationBinding.Linked (schema : Schema) (definitions : List Definition)
    (o : OperationDefinition) (b : OperationBinding) : Prop where
  name : o.name? = some b.name
  nodup : b.fragments.Nodup
  mem_fragments_iff : ∀ f, f ∈ b.fragments ↔
    Reaches definitions schema.shownSpreads (.operation o) f
  selfContained_iff : (∀ f, f ∈ b.fragments ↔
      Reaches definitions Definition.spreads (.operation o) f) ↔
    (∀ f ∈ schema.hiddenSpreads (.operation o), f ∈ b.fragments) ∧
      ∀ g, .fragment g ∈ definitions → g.name ∈ b.fragments →
        ∀ f ∈ schema.hiddenSpreads (.fragment g), f ∈ b.fragments

/-- An operation's binding is linked once its fragments have been searched for. -/
theorem Bindings.MadeOf.linkedOperation {schema : Schema} {config : Config}
    {documents : List Document} {extracted : List ExtractedFile} {b : Bindings}
    (h : b.MadeOf schema config documents extracted)
    (hc : schema.AllCompatible (Document.allDefinitions documents)) {d : Document}
    (hd : d ∈ documents) {s : Scope} (hs : s.schema = schema) {o : OperationDefinition}
    (ho : o ∈ d.operations) {before after : OperationBinding} (hof : before.Unlinked s o)
    (hlink : Linking.linkOperation (FileBindings.spreadTable (extracted.map (·.file))) before =
      .ok after) :
    after.Linked schema (Document.allDefinitions documents) o := by
  subst hs
  have hdefinition : .operation o ∈ Document.allDefinitions documents :=
    List.mem_flatMap.mpr ⟨d, hd, Document.mem_operations.mp ho⟩
  obtain ⟨found, hfound, rfl⟩ := Linking.linkOperation_eq_ok hlink
  obtain ⟨hnodup, hmem⟩ := Search.run_eq_ok (fun _ _ _ _ _ he => he) hfound
  have hreached : ∀ f, (Linking.search (FileBindings.spreadTable (extracted.map (·.file)))
      before.name).Reached before.fragments f ↔
        Reaches (Document.allDefinitions documents) s.schema.shownSpreads (.operation o) f := by
    intro f
    constructor
    · intro hf
      induction hf with
      | start hf => exact .spread ((hof.mem_fragments hdefinition hc _).mp hf)
      | step _ hf ih =>
        obtain ⟨g, hg, rfl, hspread⟩ := (h.follows_iff hc _ _ _).mp hf
        exact .via ih hg hspread
    · intro hf
      induction hf with
      | spread hf => exact .start ((hof.mem_fragments hdefinition hc _).mpr hf)
      | via _ hg hf ih => exact .step ih ((h.follows_iff hc _ _ _).mpr ⟨_, hg, rfl, hf⟩)
  have hlinked : ∀ f, f ∈ found.map (·.1) ↔
      Reaches (Document.allDefinitions documents) s.schema.shownSpreads (.operation o) f := by
    intro f
    rw [← hreached f]
    exact (hmem f).trans ⟨fun ⟨r, hr, he⟩ => he ▸ hr, fun hr => ⟨f, hr, rfl⟩⟩
  exact
    { name := hof.name
      nodup := hnodup
      mem_fragments_iff := hlinked
      selfContained_iff :=
        Definition.forall_mem_iff_reaches s.schema.mem_spreads_iff_of_definition hlinked }

/-- The fragments of every operation of a run are, each once, those that are reached from it by
shown spreads. They are those that are reached by any spreads if and only if no hidden spread in the
operation or in a linked fragment is of a fragment that is not linked. -/
theorem Bindings.linked_of_generate {schema : Schema} {config : Config}
    {documents : List Document} {b : Bindings}
    (h : Bindings.generate schema config documents = .ok b)
    (hc : schema.AllCompatible (Document.allDefinitions documents)) :
    List.Forall₂ (fun d file => List.Forall₂
      (OperationBinding.Linked schema (Document.allDefinitions documents))
      d.operations file.operations) documents b.files := by
  obtain ⟨extracted, hmade⟩ := Bindings.generate_eq_ok h
  have hfiles := List.Forall₂.comp hmade.files hmade.linked
  refine hfiles.imp ?_
  rintro d file ⟨hd, e, hof, hlinked⟩
  have hoperations := List.Forall₂.comp hof.operations hlinked.operations
  refine hoperations.imp ?_
  rintro o after ⟨ho, before, hbefore, hafter⟩
  exact hmade.linkedOperation hc hd rfl ho hbefore hafter

def sampleDocuments : List Document :=
  let field (name : String) (l : List Selection) : Selection := .field .start none name [] [] l
  let spread (name : String) : Selection := .spread .start name []
  let pet : Selection := field "pet" [.inline .start (some "Cat") [] [field "name" [], spread "F"],
    .inline .start none [] [spread "G"]]
  [⟨"pets", "", [.operation ⟨.start, .query, some "Q", [], [], [pet]⟩]⟩,
    ⟨"fragments", "", [.fragment ⟨.start, "F", "Cat", [], [field "mother" [spread "H"]]⟩,
      .fragment ⟨.start, "G", "Dog", [], [field "name" []]⟩,
      .fragment ⟨.start, "H", "Cat", [], [field "name" []]⟩]⟩]

theorem Bindings.linked_of_generate_sample :
    ∃ b, Bindings.generate Schema.sampleSchema .default sampleDocuments = .ok b ∧
      List.Forall₂ (fun d file => List.Forall₂
        (OperationBinding.Linked Schema.sampleSchema (Document.allDefinitions sampleDocuments))
        d.operations file.operations) sampleDocuments b.files := by
  have hc : Schema.sampleSchema.AllCompatible (Document.allDefinitions sampleDocuments) := by
    decide +kernel
  have hsome :
      (Bindings.generate Schema.sampleSchema .default sampleDocuments).toOption.isSome := by
    decide +kernel
  obtain ⟨b, hb⟩ := Option.isSome_iff_exists.mp hsome
  have h := Except.toOption_eq_some.mp hb
  exact ⟨b, h, Bindings.linked_of_generate h hc⟩

end QueryBindings
