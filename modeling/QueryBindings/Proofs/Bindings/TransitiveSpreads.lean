import QueryBindings.Proofs.Bindings.Linking
import QueryBindings.Proofs.Search.Distance
import QueryBindings.Proofs.Shape.Paths
/-!
What linking does to files.

Fragments may spread each other in any way, themselves included. As long as every fragment that is
recorded somewhere is defined, each operation gets all fragments that are reached from those that it
spreads itself, the nearer ones first, and nothing else is changed.
-/
namespace QueryBindings

open Names (ReachedIn BreadthFirst)

/-- A fragment records the names that are spread directly into it, and those on any node of its
shape. -/
def FragmentBinding.Records (f : FragmentBinding) (name : String) : Prop :=
  name ∈ f.fragments ∨ ∃ n ∈ f.fields, ∃ p m, n.Leads p m ∧ name ∈ m.head.fragments

/-- A fragment spreads what it records. -/
theorem FragmentBinding.mem_spreads_iff {f : FragmentBinding} {name : String} :
    name ∈ f.spreads ↔ f.Records name := by
  simp only [spreads, Records, Names.mem_union, Node.fragmentNamesOf_eq_flatMap, List.mem_flatMap,
    Node.mem_fragmentNames_iff]

namespace FileBindings

variable {files : List FileBindings} {f g : String}

def Spreads (files : List FileBindings) (f g : String) : Prop :=
  ∃ file ∈ files, ∃ b ∈ file.fragments, b.name = f ∧ b.Records g

/-- Every fragment that is recorded in a fragment or on an operation is one of a file. -/
structure DefinesSpreads (files : List FileBindings) : Prop where
  ofFragment : ∀ file ∈ files, ∀ f ∈ file.fragments, ∀ g, f.Records g → g ∈ fragmentNames files
  ofOperation : ∀ file ∈ files, ∀ o ∈ file.operations, ∀ g ∈ o.fragments, g ∈ fragmentNames files

theorem mem_spreadTable {spreads : List String} : (f, spreads) ∈ spreadTable files ↔
    ∃ file ∈ files, ∃ b ∈ file.fragments, b.name = f ∧ b.spreads = spreads := by
  simp [spreadTable]

section

variable (hn : (fragmentNames files).Nodup)
include hn

/-- The table has an entry for every fragment and for no other name. -/
theorem exists_lookup_iff : (∃ spreads, (spreadTable files).lookup f = some spreads) ↔
    f ∈ fragmentNames files := by
  refine ⟨fun ⟨_, h⟩ => mem_fragmentNames_of_lookup h, fun h => ?_⟩
  rw [← map_fst_spreadTable] at h hn
  obtain ⟨⟨_, spreads⟩, he, rfl⟩ := List.mem_map.mp h
  exact ⟨spreads, lookup_eq_some_of_mem hn he⟩

/-- Where names are distinct, the table tells what fragments record. -/
theorem mem_spreadsIn_iff :
    g ∈ Linking.spreadsIn (spreadTable files) f ↔ Spreads files f g := by
  constructor
  · intro hg
    rw [Linking.spreadsIn] at hg
    cases hl : (spreadTable files).lookup f with
    | none => simp [hl] at hg
    | some spreads =>
      rw [hl, Option.getD_some] at hg
      obtain ⟨file, hfile, b, hb, hname, rfl⟩ := mem_spreadTable.mp (mem_of_lookup_eq_some hl)
      exact ⟨file, hfile, b, hb, hname, FragmentBinding.mem_spreads_iff.mp hg⟩
  · rintro ⟨file, hfile, b, hb, rfl, hg⟩
    rw [← map_fst_spreadTable] at hn
    have hm : (b.name, b.spreads) ∈ spreadTable files :=
      mem_spreadTable.mpr ⟨file, hfile, b, hb, rfl, rfl⟩
    rw [Linking.spreadsIn, lookup_eq_some_of_mem hn hm]
    exact FragmentBinding.mem_spreads_iff.mpr hg

end

end FileBindings

open FileBindings (Spreads spreadTable fragmentNames)

/-- An operation and what linking makes of it: its fragments are those that are reached from the
ones that it had, each once and breadth first, and the rest is as it was. -/
structure OperationBinding.ClosedTo (files : List FileBindings) (o linked : OperationBinding) :
    Prop where
  rest : linked = { o with fragments := linked.fragments }
  nodup : linked.fragments.Nodup
  mem_iff : ∀ f, f ∈ linked.fragments ↔ ∃ d, ReachedIn (Spreads files) o.fragments d f
  order : BreadthFirst (Spreads files) o.fragments linked.fragments

structure FileBindings.ClosedTo (files : List FileBindings) (file linked : FileBindings) :
    Prop where
  path : linked.path = file.path
  fragments : linked.fragments = file.fragments
  operations : List.Forall₂ (OperationBinding.ClosedTo files) file.operations linked.operations

namespace Linking

variable {files : List FileBindings}

/-! ### Success -/

/-- An operation is linked if and only if the search for its fragments succeeds. -/
theorem exists_linkOperation_iff {table : List (String × List String)} {o : OperationBinding} :
    (∃ linked, linkOperation table o = .ok linked) ↔
      ∃ found, (search table o.name).run o.fragments = .ok found := by
  constructor
  · rintro ⟨linked, h⟩
    obtain ⟨found, hfound, -⟩ := linkOperation_eq_ok h
    exact ⟨found, hfound⟩
  · rintro ⟨found, hfound⟩
    exact ⟨_, Except.bind_eq_ok.mpr ⟨found, hfound, rfl⟩⟩

/-- A file is linked if and only if all its operations are. -/
theorem exists_linkFile_iff {table : List (String × List String)} {file : FileBindings} :
    (∃ linked, linkFile table file = .ok linked) ↔
      ∀ o ∈ file.operations, ∃ linked, linkOperation table o = .ok linked := by
  rw [← Except.exists_mapM_iff]
  constructor
  · rintro ⟨linked, h⟩
    obtain ⟨operations, hoperations, -⟩ := Except.bind_eq_ok.mp h
    exact ⟨operations, hoperations⟩
  · rintro ⟨operations, hoperations⟩
    exact ⟨_, Except.bind_eq_ok.mpr ⟨operations, hoperations, rfl⟩⟩

section

variable (hn : (fragmentNames files).Nodup)
include hn

/-- The table holds what entries spread if and only if the fragments that are recorded in fragments
are defined. -/
theorem forall_entries_iff : (∀ entry ∈ spreadTable files, ∀ f ∈ entry.2,
      ∃ spreads, (spreadTable files).lookup f = some spreads) ↔
    ∀ file ∈ files, ∀ f ∈ file.fragments, ∀ g, f.Records g → g ∈ fragmentNames files := by
  simp only [FileBindings.exists_lookup_iff hn, ← FragmentBinding.mem_spreads_iff]
  constructor
  · intro h file hfile f hf g hg
    have hm := FileBindings.mem_spreadTable.mpr ⟨file, hfile, f, hf, rfl, rfl⟩
    exact h (f.name, f.spreads) hm g hg
  · rintro h ⟨f, spreads⟩ he g hg
    obtain ⟨file, hfile, b, hb, rfl, rfl⟩ := FileBindings.mem_spreadTable.mp he
    exact h file hfile b hb g hg

/-- An operation is linked if the fragments are defined that it spreads itself, as long as those
that are recorded in fragments are. -/
theorem exists_linkOperation_iff_of_defined (hd : ∀ entry ∈ spreadTable files, ∀ f ∈ entry.2,
      ∃ spreads, (spreadTable files).lookup f = some spreads) {o : OperationBinding} :
    (∃ linked, linkOperation (spreadTable files) o = .ok linked) ↔
      ∀ f ∈ o.fragments, f ∈ fragmentNames files := by
  rw [exists_linkOperation_iff, Search.exists_run_iff (byName_search _ o.name)]
  simp only [answerable_iff]
  constructor
  · intro h f hf
    exact (FileBindings.exists_lookup_iff hn).mp (h f (.start hf))
  · intro h f hf
    cases hf with
    | start hf => exact (FileBindings.exists_lookup_iff hn).mpr (h f hf)
    | step _ hf =>
      obtain ⟨spreads, hl, hf⟩ := follows_iff.mp hf
      exact hd _ (mem_of_lookup_eq_some hl) f hf

/-- Files are linked if and only if every fragment that is recorded in them is defined. -/
theorem exists_link_iff : (∃ linked, link files = .ok linked) ↔
    FileBindings.DefinesSpreads files := by
  simp only [link_eq_ok_iff, exists_and_left, Except.exists_mapM_iff, exists_linkFile_iff]
  constructor
  · rintro ⟨hd, hlinked⟩
    refine ⟨(forall_entries_iff hn).mp hd, fun file hfile o ho => ?_⟩
    exact (exists_linkOperation_iff_of_defined hn hd).mp (hlinked file hfile o ho)
  · rintro ⟨hfragments, hoperations⟩
    have hd := (forall_entries_iff hn).mpr hfragments
    refine ⟨hd, fun file hfile o ho => ?_⟩
    exact (exists_linkOperation_iff_of_defined hn hd).mpr (hoperations file hfile o ho)

end

/-! ### Results -/

/-- A search reaches a name if and only if it is reached in some number of steps. -/
theorem reached_iff (table : List (String × List String)) (o : OperationBinding) {f : String} :
    (search table o.name).Reached o.fragments f ↔
      ∃ d, ReachedIn (fun f g => g ∈ spreadsIn table f) o.fragments d f := by
  have hfollows : ∀ f g, (search table o.name).Follows f g ↔ g ∈ spreadsIn table f := by
    intro f g
    rw [follows_iff, spreadsIn]
    cases table.lookup f <;> simp
  constructor
  · intro h
    induction h with
    | start h => exact ⟨0, .start h⟩
    | step _ hf ih =>
      obtain ⟨d, hd⟩ := ih
      exact ⟨d + 1, .step hd ((hfollows _ _).mp hf)⟩
  · rintro ⟨d, h⟩
    induction h with
    | start h => exact .start h
    | step _ hf ih => exact .step ih ((hfollows _ _).mpr hf)

section

variable (hn : (fragmentNames files).Nodup)
include hn

theorem spreadsIn_eq : (fun f g => g ∈ spreadsIn (spreadTable files) f) = Spreads files :=
  funext₂ fun _ _ => propext (FileBindings.mem_spreadsIn_iff hn)

/-- A linked operation has the fragments that are reached from its own. -/
theorem closedTo_of_linkOperation {o linked : OperationBinding}
    (h : linkOperation (spreadTable files) o = .ok linked) : o.ClosedTo files linked := by
  obtain ⟨found, hfound, rfl⟩ := linkOperation_eq_ok h
  obtain ⟨hnodup, hmem⟩ := Search.run_eq_ok (byName_search _ o.name) hfound
  have hid : o.fragments.map (search (spreadTable files) o.name).name = o.fragments :=
    List.map_id o.fragments
  have horder := Search.breadthFirst_names_run (followsBy_search _ o.name) hfound
  rw [hid, spreadsIn_eq hn] at horder
  refine ⟨rfl, hnodup, fun f => ?_, horder⟩
  rw [← spreadsIn_eq hn, ← reached_iff]
  exact (hmem f).trans ⟨fun ⟨r, hr, he⟩ => he ▸ hr, fun hr => ⟨f, hr, rfl⟩⟩

/-- In linked files every operation has the fragments that are reached from its own. -/
theorem closedTo_of_link {linked : List FileBindings} (h : link files = .ok linked) :
    List.Forall₂ (FileBindings.ClosedTo files) files linked := by
  refine (link_eq_ok h).imp fun file linked hfile => ?_
  exact
    { path := hfile.path
      fragments := hfile.fragments
      operations := hfile.operations.imp fun _ _ ho => closedTo_of_linkOperation hn ho }

end

/-- The loop that looks up the fragments of an operation comes to its end, whatever the fragments
spread. Files are linked if and only if every fragment that is recorded in them is defined, and the
operations then have the fragments that are reached from theirs, breadth first. -/
theorem link_closes_spreads (files : List FileBindings) (hn : (fragmentNames files).Nodup) :
    (∀ file ∈ files, ∀ o ∈ file.operations, ∃ r,
      (search (spreadTable files) o.name).Ends [] o.fragments r ∧
      linkOperation (spreadTable files) o =
        r.map fun found => { o with fragments := found.map (·.1) }) ∧
    ((∃ linked, link files = .ok linked) ↔ FileBindings.DefinesSpreads files) ∧
    ∀ linked, link files = .ok linked →
      List.Forall₂ (FileBindings.ClosedTo files) files linked := by
  refine ⟨fun file _ o _ => ⟨_, Search.ends_iff.mpr rfl, ?_⟩, exists_link_iff hn,
    fun linked h => closedTo_of_link hn h⟩
  rw [linkOperation]
  cases (search (spreadTable files) o.name).run o.fragments <;> rfl

/-- An operation on one file that spreads `F`. `F` spreads `G` of another file, which has `F` and
itself below one of its fields. -/
def cyclicFiles : List FileBindings :=
  let location : Location := ⟨none, 1, 1⟩
  let owner : Node := .object ⟨"owner", ["G"], [], ["G", "F"], none⟩ []
  let data : Node := .object ⟨"data", ["Q"], [], ["F"], none⟩ []
  [⟨"a", [⟨"F", "Pet", location, "", ["G"], []⟩],
      [⟨"Q", .query, location, "", ["F"], .object (.plain ["Q"] "variables") [], data⟩]⟩,
    ⟨"b", [⟨"G", "Pet", location, "", [], [owner]⟩], []⟩]

theorem link_closes_spreads_cyclic : (fragmentNames cyclicFiles).Nodup ∧
    FileBindings.DefinesSpreads cyclicFiles ∧ ∃ linked, link cyclicFiles = .ok linked ∧
      List.Forall₂ (FileBindings.ClosedTo cyclicFiles) cyclicFiles linked := by
  have hn : (fragmentNames cyclicFiles).Nodup := by decide
  obtain ⟨-, hiff, hclosed⟩ := link_closes_spreads cyclicFiles hn
  have hsome : (link cyclicFiles).toOption.isSome := by decide +kernel
  obtain ⟨linked, hlinked⟩ := Option.isSome_iff_exists.mp hsome
  have hlinked := Except.toOption_eq_some.mp hlinked
  exact ⟨hn, hiff.mp ⟨linked, hlinked⟩, linked, hlinked, hclosed linked hlinked⟩

end Linking

end QueryBindings
