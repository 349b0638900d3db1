import QueryBindings.Proofs.Bindings.Defined
import QueryBindings.Proofs.Search.Levels
/-!
How linking depends on the table of fragments.

Linking an operation looks up the fragments that are reached from it and no others. So it gives the
same in every table that holds these fragments with the same spreads.
-/
namespace QueryBindings.Linking

variable {table table' : List (String × List String)}

def spreadsIn (table : List (String × List String)) (fragment : String) : List String :=
  (table.lookup fragment).getD []

/-- What an entry expands to depends on its name alone. -/
theorem byName_search (table : List (String × List String)) (operation : String) :
    (search table operation).ByName := fun _ _ _ _ _ h => h

theorem followsBy_search (table : List (String × List String)) (operation : String) :
    (search table operation).FollowsBy (spreadsIn table) := by
  intro f spreads result next hl he
  have hl : table.lookup f = some spreads := hl
  have hnext : spreads = next := congrArg Prod.snd (Except.ok.inj he)
  have hname : (search table operation).name f = f := rfl
  rw [hname, spreadsIn, hl, Option.getD_some, hnext]
  exact List.map_id next

/-- A fragment can be looked up on behalf of an operation if the table holds it. -/
theorem answerable_iff {operation f : String} :
    (search table operation).Answerable f ↔ ∃ spreads, table.lookup f = some spreads :=
  ⟨fun ⟨spreads, _, hl, _⟩ => ⟨spreads, hl⟩, fun ⟨spreads, hl⟩ => ⟨spreads, _, hl, rfl⟩⟩

/-- What a search for fragments finds is in the table, and closed under spreads. -/
theorem exists_lookup_of_run {operation : String} {start : List String}
    {found : List (String × Unit)} (h : (search table operation).run start = .ok found) :
    ∀ f ∈ Search.names found, ∃ spreads, table.lookup f = some spreads ∧
      ∀ g ∈ spreads, g ∈ Search.names found := by
  obtain ⟨-, hmem⟩ := Search.run_eq_ok (byName_search table operation) h
  have hanswerable := (Search.exists_run_iff (byName_search table operation)).mp ⟨found, h⟩
  intro f hf
  obtain ⟨_, hr, rfl⟩ := (hmem f).mp hf
  obtain ⟨spreads, hspreads⟩ := answerable_iff.mp (hanswerable _ hr)
  refine ⟨spreads, hspreads, fun g hg => (hmem g).mpr ⟨g, .step hr ?_, rfl⟩⟩
  exact follows_iff.mpr ⟨spreads, hspreads, hg⟩

/-! ### Tables that hold more -/

section

variable (h : ∀ f spreads, table.lookup f = some spreads → table'.lookup f = some spreads)
include h

section

variable {operation : String} {start : List String} {found : List (String × Unit)}
  (hfound : (search table operation).run start = .ok found)
include hfound

/-- What is reached in a table that holds more has been found already. -/
theorem mem_names_of_reached {f : String} (hf : (search table' operation).Reached start f) :
    f ∈ Search.names found := by
  obtain ⟨-, hmem⟩ := Search.run_eq_ok (byName_search table operation) hfound
  induction hf with
  | start hm => exact (hmem _).mpr ⟨_, .start hm, rfl⟩
  | step _ hf ih =>
    obtain ⟨spreads, hspreads, hbelow⟩ := exists_lookup_of_run hfound _ ih
    obtain ⟨spreads', hspreads', hm⟩ := follows_iff.mp hf
    rw [h _ spreads hspreads, Option.some.injEq] at hspreads'
    exact hbelow _ (hspreads' ▸ hm)

/-- Below what is found the two tables agree, so their levels are the same. -/
theorem within_spreadsIn (depth : Nat) : Names.within (spreadsIn table') depth start =
    Names.within (spreadsIn table) depth start := by
  have hclosed := exists_lookup_of_run hfound
  obtain ⟨-, hmem⟩ := Search.run_eq_ok (byName_search table operation) hfound
  have hbelow : ∀ f ∈ Search.names found, ∀ g ∈ spreadsIn table f, g ∈ Search.names found := by
    intro f hf g hg
    obtain ⟨spreads, hl, hspreads⟩ := hclosed f hf
    rw [spreadsIn, hl] at hg
    exact hspreads g hg
  have hsame : ∀ f ∈ Search.names found, spreadsIn table' f = spreadsIn table f := by
    intro f hf
    obtain ⟨spreads, hl, -⟩ := hclosed f hf
    simp only [spreadsIn, hl, h f spreads hl]
  exact Names.within_congr hbelow hsame depth fun f hf => (hmem f).mpr ⟨f, .start hf, rfl⟩

/-- A search that succeeds finds the same names in a table that holds more. -/
theorem exists_run_of_lookup : ∃ found', (search table' operation).run start = .ok found' ∧
    Search.names found' = Search.names found := by
  have hanswerable : ∀ f, (search table' operation).Reached start f →
      (search table' operation).Answerable f := by
    intro f hf
    obtain ⟨spreads, hspreads, -⟩ := exists_lookup_of_run hfound f (mem_names_of_reached h hfound hf)
    exact answerable_iff.mpr ⟨spreads, h f spreads hspreads⟩
  obtain ⟨found', hfound'⟩ :=
    (Search.exists_run_iff (byName_search table' operation)).mpr hanswerable
  refine ⟨found', hfound', ?_⟩
  have hdepth : table.length < table.length + table'.length + 1 := by omega
  have hdepth' : table'.length < table.length + table'.length + 1 := by omega
  have hnames := Search.names_run (followsBy_search table operation) hfound hdepth
  have hnames' := Search.names_run (followsBy_search table' operation) hfound' hdepth'
  have hid : start.map (search table operation).name = start := List.map_id start
  have hid' : start.map (search table' operation).name = start := List.map_id start
  rw [hnames', hnames, hid, hid', within_spreadsIn h hfound]

end

/-- An operation that can be linked is linked in the same way in a table that holds more. -/
theorem linkOperation_of_lookup {o linked : OperationBinding}
    (hl : linkOperation table o = .ok linked) : linkOperation table' o = .ok linked := by
  obtain ⟨found, hfound, rfl⟩ := linkOperation_eq_ok hl
  obtain ⟨found', hfound', hnames⟩ := exists_run_of_lookup h hfound
  rw [linkOperation, hfound']
  exact congrArg (fun names => Except.ok { o with fragments := names }) hnames

/-- A file is linked by any table in which the same is found. -/
theorem linkFile_of_lookup {file linked : FileBindings} (hl : linkFile table file = .ok linked) :
    linkFile table' file = .ok linked := by
  obtain ⟨operations, hoperations, hl⟩ := Except.bind_eq_ok.mp hl
  refine Except.bind_eq_ok.mpr ⟨operations, ?_, hl⟩
  rw [Except.mapM_eq_ok] at hoperations ⊢
  exact hoperations.imp fun _ _ ho => linkOperation_of_lookup h ho

end

/-! ### Files -/

/-- All spreads are defined if and only if the table has each of them. -/
theorem undefinedSpread?_eq_none_iff {entries : List (String × List String)} :
    undefinedSpread? table entries = none ↔
      ∀ entry ∈ entries, ∀ f ∈ entry.2, ∃ spreads, table.lookup f = some spreads := by
  refine ⟨fun h entry he f hf => exists_lookup_of_undefinedSpread? h he hf, fun h => ?_⟩
  induction entries with
  | nil => rfl
  | cons first rest ih =>
    obtain ⟨hfirst, hrest⟩ := List.forall_mem_cons.mp h
    have hnone : first.2.find? (fun f => (table.lookup f).isNone) = none := by
      refine List.find?_eq_none.mpr fun f hf => ?_
      obtain ⟨spreads, hl⟩ := hfirst f hf
      simp [hl]
    simp only [undefinedSpread?, hnone]
    exact ih hrest

/-- Files are linked if every spread that is recorded in a fragment is of a fragment in some file,
and every file is linked by itself. -/
theorem link_eq_ok_iff {files linked : List FileBindings} : link files = .ok linked ↔
    (∀ entry ∈ FileBindings.spreadTable files, ∀ f ∈ entry.2,
      ∃ spreads, (FileBindings.spreadTable files).lookup f = some spreads) ∧
    files.mapM (linkFile (FileBindings.spreadTable files)) = .ok linked := by
  rw [← undefinedSpread?_eq_none_iff]
  cases h : undefinedSpread? (FileBindings.spreadTable files) (FileBindings.spreadTable files) with
  | none => simp [link, h]
  | some e => simp [link, h]

end QueryBindings.Linking
