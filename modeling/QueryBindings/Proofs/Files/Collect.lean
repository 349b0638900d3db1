import QueryBindings.Files.Collect
import QueryBindings.Proofs.Files.Order
import QueryBindings.Proofs.Files.Walk
/-!
The files that are found.

Every file is found once, however often it is reached, and the files stand in the order of their
paths. Which files these are doesn't depend on the order in which paths are given, nor on how often.
The scan fails exactly if a path leads nowhere, or if the system doesn't take a path that the scan
makes: one that is too long, or one through a directory that doesn't allow it.
-/
namespace QueryBindings

open Entry (Found)

namespace FileSystem

/-! ### What a path stands for -/

/-- A path leads to a file, and which one. -/
def Denotes (fs : FileSystem) (path : String) (names : List String) : Prop :=
  fs.follow path = .ok names ∧ ∃ content, fs.root.at? names = some (.file content)

/-- A file that a given path stands for: the path that it is shown by, and the names that lead to it
from the root. -/
inductive Reaches (fs : FileSystem) (extensions : List String) (path : String) :
    String → List String → Prop
  /-- A path that names a file stands for it, whatever it is called. -/
  | named {names : List String} {content : List UInt8}
      (h : fs.find path = .ok (names, .file content)) : Reaches fs extensions path path names
  /-- A path that names a directory stands for the files under it that have a given extension. -/
  | under {names rest : List String} {entries : List (String × Entry)} {access : Access}
      {content : List UInt8} {name extension : String}
      (h : fs.find path = .ok (names, .directory entries access))
      (hat : (Entry.directory entries access).at? rest = some (.file content))
      (hname : rest.getLast? = some name) (he : Path.fileExtension? name = some extension)
      (hmem : extension ∈ extensions) :
      Reaches fs extensions path (rest.foldl Path.join path) (names ++ rest)

/-- The system doesn't take the path of a place from the root: it is too long, or a directory on it
may not be searched. -/
inductive Unreachable (fs : FileSystem) (place : List String) : Prop
  | tooLong (h : isTooLong (Path.absolute place) = true)
  | denied {n : Nat} (hn : n < place.length) (h : fs.isSearchable (place.take n) = false)

/-- What stops the scan at a given path. -/
inductive Stops (fs : FileSystem) (extensions : List String) (path : String) : Prop
  /-- The path names nothing: it has no place to lead to, it is too long itself, or a directory on it
  may not be searched. -/
  | nowhere {reason : SystemError} (h : fs.find path = .error reason)
  /-- The path names a directory that may not be listed. -/
  | unlisted {names : List String} {entries : List (String × Entry)} {access : Access}
      (h : fs.find path = .ok (names, .directory entries access)) (hlist : access.list = false)
  /-- A directory under the one that it names is shown by a path that is too long, stands in one that
  may not be searched, or may not be listed. -/
  | directory {names rest : List String} {entries inner : List (String × Entry)}
      {access access' : Access} (h : fs.find path = .ok (names, .directory entries access))
      (hne : rest ≠ [])
      (hat : (Entry.directory entries access).at? rest = some (.directory inner access'))
      (hfault : isTooLong (rest.foldl Path.join path) = true ∨
        fs.isSearchable (names ++ rest.dropLast) = false ∨ access'.list = false)
  /-- The path from the root isn't taken, for a file that it stands for or a place on its way. -/
  | file {shown : String} {names place : List String}
      (h : Reaches fs extensions path shown names) (hplace : place ∈ fs.placesOn path ++ [names])
      (hfault : fs.Unreachable place)

variable {fs : FileSystem} {extensions paths paths' result : List String}
  {path shown s t : String} {names names' : List String} {f : Found} {found : List Found}

/-- Paths with the same components lead to the same file. -/
theorem Denotes.unique (hc : Path.components s = Path.components t) (hs : fs.Denotes s names)
    (ht : fs.Denotes t names') : names = names' := follow_unique hc hs.1 ht.1

/-- A file that a path stands for is the one that its shown path leads to, unless the scan is
stopped. -/
theorem Reaches.denotes (hroot : fs.root.WellFormed) (h : fs.Reaches extensions path shown names)
    (hs : ¬ fs.Stops extensions path) : fs.Denotes shown names := by
  have hplace : names ∈ fs.placesOn path ++ [names] := by simp
  have hsearch : ∀ n < names.length, fs.isSearchable (names.take n) = true := by
    intro n hn
    by_contra hdenied
    exact hs (.file h hplace (.denied hn (by simpa using hdenied)))
  cases h with
  | named h =>
    obtain ⟨-, hfollow, hat⟩ := find_eq_ok.mp h
    exact ⟨hfollow, _, hat⟩
  | @under names rest entries access content name extension h hat hname he hmem =>
    obtain ⟨-, hfollow, hhere⟩ := find_eq_ok.mp h
    have hthere : fs.root.at? (names ++ rest) = some (.file content) := by
      rw [Entry.at?_append, hhere, Option.bind_some, hat]
    have hbelow : ∀ n < rest.length, fs.isSearchable (names ++ rest.take n) = true := by
      intro n hn
      have htake : (names ++ rest).take (names.length + n) = names ++ rest.take n :=
        List.take_length_add_append n
      exact htake ▸ hsearch (names.length + n) (by simpa using hn)
    exact ⟨follow_foldl_join hroot (ne_empty_of_find h) hbelow hfollow hthere, _, hthere⟩

/-! ### The files at one path -/

theorem exists_rootFault?_iff : (∃ e, fs.rootFault? names = some e) ↔ fs.Unreachable names := by
  unfold rootFault?
  constructor
  · rintro ⟨e, he⟩
    split at he
    · next hlong => exact .tooLong hlong
    · split at he
      · cases he
      · next hsearch =>
        simp only [List.all_eq_true, List.mem_range, not_forall] at hsearch
        obtain ⟨n, hn, hdenied⟩ := hsearch
        exact .denied hn (by simpa using hdenied)
  · rintro (hlong | ⟨hn, hdenied⟩)
    · exact ⟨_, if_pos hlong⟩
    · split
      · exact ⟨_, rfl⟩
      · rw [if_neg]
        · exact ⟨_, rfl⟩
        · intro hall
          have hsearch := List.all_eq_true.mp hall _ (List.mem_range.mpr hn)
          simp [hdenied] at hsearch

/-- A file can't be told from others if the system doesn't take a place on its path, or its own. -/
theorem exists_fileFault?_iff : (∃ e, fs.fileFault? path f = some e) ↔
    ∃ place ∈ fs.placesOn path ++ [f.names], fs.Unreachable place := by
  simp only [← exists_rootFault?_iff, ← Option.isSome_iff_exists, fileFault?,
    List.findSome?_isSome_iff]

/-- A directory can't be opened if its path is too long, or if it may not be reached or listed. -/
theorem exists_directoryFault?_iff : (∃ e, fs.directoryFault? f = some e) ↔
    isTooLong f.shown = true ∨ fs.isSearchable f.names.dropLast = false ∨
      fs.isListable f.names = false := by
  unfold directoryFault?
  split
  · simp [*]
  · by_cases hsearch : fs.isSearchable f.names.dropLast = true <;> simp_all

theorem hasExtension_iff : f.hasExtension extensions = true ↔
    ∃ name extension, f.names.getLast? = some name ∧ Path.fileExtension? name = some extension ∧
      extension ∈ extensions := by
  rw [Found.hasExtension]
  cases f.names.getLast? with
  | none => simp
  | some name => simp [Option.any_eq_true]

/-- A walk is stopped by a directory that can't be opened, and by a file to be collected that can't
be told from others. -/
theorem exists_obstacle?_iff : (∃ e, fs.obstacle? extensions path f = some e) ↔
    (f.kind = .directory ∧ ∃ e, fs.directoryFault? f = some e) ∨
      (f.kind = .file ∧ f.hasExtension extensions = true ∧ ∃ e, fs.fileFault? path f = some e) := by
  unfold obstacle?
  cases f.kind with
  | special => simp
  | directory => simp [Option.map_eq_some_iff]
  | file => by_cases h : f.hasExtension extensions = true <;> simp [h, Option.map_eq_some_iff]

section

variable {entries : List (String × Entry)} {access : Access} {content : List UInt8}

/-- The path of a file reaches this file and no other. -/
theorem reaches_iff_of_file (h : fs.find path = .ok (names, .file content)) :
    fs.Reaches extensions path shown names' ↔ shown = path ∧ names' = names := by
  constructor
  · intro hr
    cases hr with
    | named h' => simp_all
    | under h' => simp_all
  · rintro ⟨rfl, rfl⟩
    exact .named h

/-- The path of a special entry reaches nothing. -/
theorem not_reaches_of_special (h : fs.find path = .ok (names, .special content)) :
    ¬ fs.Reaches extensions path shown names' := by
  intro hr
  cases hr with
  | named h' => simp_all
  | under h' => simp_all

theorem directory_unique {entries' : List (String × Entry)} {access' : Access}
    (h : fs.find path = .ok (names, .directory entries access))
    (h' : fs.find path = .ok (names', .directory entries' access')) :
    names = names' ∧ entries = entries' ∧ access = access' := by
  rw [h] at h'
  obtain ⟨hnames, hdirectory⟩ := Prod.mk.inj (Except.ok.inj h')
  exact ⟨hnames, Entry.directory.inj hdirectory⟩

/-- A path that names a directory reaches the files with a given extension that a walk meets. -/
theorem reaches_iff_of_directory (hroot : fs.root.WellFormed)
    (h : fs.find path = .ok (names, .directory entries access)) :
    fs.Reaches extensions path shown names' ↔
      ⟨shown, names', .file⟩ ∈ Entry.walkIn path names entries ∧
        Found.hasExtension extensions ⟨shown, names', .file⟩ = true := by
  have hentries := hroot.of_at? (find_eq_ok.mp h).2.2
  rw [Entry.mem_walkIn hentries, hasExtension_iff]
  constructor
  · intro hr
    cases hr with
    | named h' => simp_all
    | @under there rest entries' access' content name extension h' hat hname he hmem =>
      obtain ⟨rfl, rfl, rfl⟩ := directory_unique h h'
      have hne : rest ≠ [] := List.ne_nil_of_mem (List.mem_of_getLast? hname)
      refine ⟨⟨rest, .file content, hne, hat, rfl⟩, name, extension, ?_, he, hmem⟩
      simp [List.getLast?_append, hname]
  · rintro ⟨⟨rest, below, hne, hat, heq⟩, name, extension, hname, he, hmem⟩
    simp only [Entry.met, Found.mk.injEq] at heq
    obtain ⟨rfl, rfl, hfile⟩ := heq
    cases below with
    | directory | special => simp [Entry.kind] at hfile
    | file content =>
      refine .under h hat ?_ he hmem
      rwa [List.getLast?_append_of_ne_nil _ hne] at hname

/-- The files at a path are those that it reaches. -/
theorem mem_filesAt (hroot : fs.root.WellFormed) (h : fs.filesAt extensions path = .ok found) :
    f ∈ found ↔ f.kind = .file ∧ fs.Reaches extensions path f.shown f.names := by
  obtain ⟨shown, names', kind⟩ := f
  cases hfind : fs.find path with
  | error reason => simp [filesAt, hfind] at h
  | ok place =>
    obtain ⟨names, e⟩ := place
    cases e with
    | file content =>
      simp only [filesAt, hfind] at h
      split at h
      · cases h
      · obtain rfl := Except.ok.inj h
        rw [List.mem_singleton, reaches_iff_of_file hfind, Found.mk.injEq]
        tauto
    | special content =>
      simp only [filesAt, hfind] at h
      obtain rfl := Except.ok.inj h
      simp [not_reaches_of_special hfind]
    | directory entries access =>
      simp only [filesAt, hfind] at h
      split at h
      · split at h
        · cases h
        · obtain rfl := Except.ok.inj h
          rw [reaches_iff_of_directory hroot hfind]
          cases kind <;> simp
      · cases h

/-- At the path of a file, the scan is stopped by this file only. -/
theorem stops_iff_of_file (h : fs.find path = .ok (names, .file content)) :
    fs.Stops extensions path ↔ ∃ e, fs.fileFault? path ⟨path, names, .file⟩ = some e := by
  rw [exists_fileFault?_iff]
  constructor
  · intro hs
    cases hs with
    | nowhere h' => simp_all
    | unlisted h' => simp_all
    | directory h' => simp_all
    | file hr hplace hfault =>
      obtain ⟨-, rfl⟩ := (reaches_iff_of_file h).mp hr
      exact ⟨_, hplace, hfault⟩
  · rintro ⟨place, hplace, hfault⟩
    exact .file (.named h) hplace hfault

/-- A special entry doesn't stop the scan. -/
theorem not_stops_of_special (h : fs.find path = .ok (names, .special content)) :
    ¬ fs.Stops extensions path := by
  intro hs
  cases hs with
  | nowhere h' => simp_all
  | unlisted h' => simp_all
  | directory h' => simp_all
  | file hr => exact not_reaches_of_special h hr

/-- What a walk says of a directory that it meets is what the tree has there. -/
theorem isListable_of_at? {rest : List String} {inner : List (String × Entry)} {access' : Access}
    (h : fs.root.at? names = some (.directory entries access))
    (hat : (Entry.directory entries access).at? rest = some (.directory inner access')) :
    fs.isListable (names ++ rest) = access'.list := by
  have hthere : fs.root.at? (names ++ rest) = some (.directory inner access') := by
    rw [Entry.at?_append, h, Option.bind_some, hat]
  simp only [isListable, hthere]

/-- At the path of a directory, the scan is stopped by the directory or by what is met in it. -/
theorem stops_iff_of_directory (hroot : fs.root.WellFormed)
    (h : fs.find path = .ok (names, .directory entries access)) :
    fs.Stops extensions path ↔ access.list = false ∨ ∃ f ∈ Entry.walkIn path names entries,
      ∃ e, fs.obstacle? extensions path f = some e := by
  have hhere := (find_eq_ok.mp h).2.2
  have hentries := hroot.of_at? hhere
  simp only [exists_obstacle?_iff, exists_directoryFault?_iff, exists_fileFault?_iff]
  constructor
  · intro hs
    cases hs with
    | nowhere h' => simp_all
    | unlisted h' hlist =>
      obtain ⟨-, -, rfl⟩ := directory_unique h h'
      exact .inl hlist
    | @directory there rest entries' inner access₁ access' h' hne hat hfault =>
      obtain ⟨rfl, rfl, rfl⟩ := directory_unique h h'
      refine .inr ⟨_, (Entry.mem_walkIn hentries).mpr ⟨rest, _, hne, hat, rfl⟩, .inl ⟨rfl, ?_⟩⟩
      simpa [Entry.met, List.dropLast_append_of_ne_nil hne, isListable_of_at? hhere hat] using hfault
    | file hr hplace hfault =>
      obtain ⟨hmet, hextension⟩ := (reaches_iff_of_directory hroot h).mp hr
      exact .inr ⟨_, hmet, .inr ⟨rfl, hextension, _, hplace, hfault⟩⟩
  · rintro (hlist | ⟨⟨shown, names', kind⟩, hmet, ⟨hkind, hfault⟩ | ⟨hkind, hextension, hfault⟩⟩)
    · exact .unlisted h hlist
    · obtain ⟨rest, below, hne, hat, heq⟩ := (Entry.mem_walkIn hentries).mp hmet
      simp only [Entry.met, Found.mk.injEq] at heq
      obtain ⟨rfl, rfl, hbelow⟩ := heq
      cases below with
      | file | special => simp_all [Entry.kind]
      | directory inner access' =>
        refine .directory h hne hat ?_
        simpa [List.dropLast_append_of_ne_nil hne, isListable_of_at? hhere hat] using hfault
    · obtain rfl : kind = .file := hkind
      obtain ⟨place, hplace, hfault⟩ := hfault
      exact .file ((reaches_iff_of_directory hroot h).mpr ⟨hmet, hextension⟩) hplace hfault

end

/-- The scan fails at a path exactly if something stops it there. -/
theorem exists_filesAt_eq_error_iff (hroot : fs.root.WellFormed) :
    (∃ e, fs.filesAt extensions path = .error e) ↔ fs.Stops extensions path := by
  cases hfind : fs.find path with
  | error reason =>
    refine ⟨fun _ => .nowhere hfind, fun _ => ⟨.stopped path path reason, ?_⟩⟩
    simp only [filesAt, hfind]
  | ok place =>
    obtain ⟨names, e⟩ := place
    cases e with
    | file content =>
      rw [stops_iff_of_file hfind]
      simp only [filesAt, hfind]
      split <;> simp_all
    | special content => simp [filesAt, hfind, not_stops_of_special hfind]
    | directory entries access =>
      rw [stops_iff_of_directory hroot hfind]
      simp only [filesAt, hfind]
      by_cases hlist : access.list = true
      · rw [if_pos hlist]
        split
        · next e he =>
          obtain ⟨f, hf, hobstacle⟩ := List.exists_of_findSome?_eq_some he
          exact ⟨fun _ => .inr ⟨f, hf, e, hobstacle⟩, fun _ => ⟨e, rfl⟩⟩
        · next hnone =>
          rw [List.findSome?_eq_none_iff] at hnone
          simp_all
      · rw [if_neg hlist]
        exact ⟨fun _ => .inl (by simpa using hlist), fun _ => ⟨_, rfl⟩⟩

/-! ### Files that are the same -/

theorem mem_of_mem_keepFirst {l : List Found} (h : f ∈ keepFirst l) : f ∈ l := by
  induction l with
  | nil => exact h
  | cons g l ih =>
    rw [keepFirst, List.mem_cons, List.mem_filter] at h
    rcases h with rfl | ⟨h, -⟩
    · exact List.mem_cons_self
    · exact List.mem_cons_of_mem _ (ih h)

/-- Every file is kept. -/
theorem exists_mem_keepFirst {l : List Found} (h : f ∈ l) :
    ∃ g ∈ keepFirst l, g.names = f.names := by
  induction l with
  | nil => simp at h
  | cons g l ih =>
    rw [keepFirst]
    by_cases heq : g.names = f.names
    · exact ⟨g, List.mem_cons_self, heq⟩
    · have hf : f ∈ l := (List.mem_cons.mp h).resolve_left fun hfg => heq (congrArg _ hfg.symm)
      obtain ⟨k, hk, hnames⟩ := ih hf
      refine ⟨k, List.mem_cons_of_mem _ (List.mem_filter.mpr ⟨hk, ?_⟩), hnames⟩
      simpa [hnames] using Ne.symm heq

/-- No file is kept twice. -/
theorem pairwise_keepFirst (l : List Found) :
    (keepFirst l).Pairwise fun f g => f.names ≠ g.names := by
  induction l with
  | nil => exact .nil
  | cons f l ih =>
    rw [keepFirst, List.pairwise_cons]
    refine ⟨fun g hg => ?_, ih.filter _⟩
    simpa using Ne.symm (of_decide_eq_true (List.mem_filter.mp hg).2)

/-! ### The files at all paths -/

theorem collect_eq_ok : fs.collect extensions paths = .ok result ↔
    ∃ found, paths.mapM (fs.filesAt extensions) = .ok found ∧
      result = Path.sort ((keepFirst found.flatten).map (·.shown)) := by
  rw [collect, Except.bind_eq_ok]
  refine exists_congr fun found => and_congr_right fun _ => ?_
  rw [Except.pure_eq_ok, eq_comm]

/-- The scan fails if and only if something stops it at a given path. -/
theorem exists_collect_eq_error_iff (hroot : fs.root.WellFormed) :
    (∃ e, fs.collect extensions paths = .error e) ↔ ∃ path ∈ paths, fs.Stops extensions path := by
  have hmap : (∃ e, fs.collect extensions paths = .error e) ↔
      ∃ e, paths.mapM (fs.filesAt extensions) = .error e := by
    rw [Except.exists_error_iff, Except.exists_error_iff]
    simp only [collect_eq_ok]
    exact not_congr ⟨fun ⟨_, found, h, _⟩ => ⟨found, h⟩, fun ⟨found, h⟩ => ⟨_, found, h, rfl⟩⟩
  simp only [hmap, Except.exists_mapM_error_iff, exists_filesAt_eq_error_iff hroot]

/-- The files at all paths are those that some path reaches. -/
theorem mem_flatten_of_mapM (hroot : fs.root.WellFormed) {found : List (List Found)}
    (h : paths.mapM (fs.filesAt extensions) = .ok found) :
    f ∈ found.flatten ↔
      f.kind = .file ∧ ∃ path ∈ paths, fs.Reaches extensions path f.shown f.names := by
  rw [List.mem_flatten]
  constructor
  · rintro ⟨files, hfiles, hf⟩
    obtain ⟨path, hpath, heq⟩ := List.Forall₂.exists_left (Except.mapM_eq_ok.mp h) hfiles
    obtain ⟨hfile, hr⟩ := (mem_filesAt hroot heq).mp hf
    exact ⟨hfile, path, hpath, hr⟩
  · rintro ⟨hfile, path, hpath, hr⟩
    obtain ⟨files, hfiles, heq⟩ := List.Forall₂.exists_right (Except.mapM_eq_ok.mp h) hpath
    exact ⟨files, hfiles, (mem_filesAt hroot heq).mpr ⟨hfile, hr⟩⟩

/-- Where files are found, the path that is shown of a file leads to it. -/
theorem denotes_of_collect (hroot : fs.root.WellFormed)
    (h : fs.collect extensions paths = .ok result) (hpath : path ∈ paths)
    (hr : fs.Reaches extensions path shown names) : fs.Denotes shown names := by
  have hok : ¬ ∃ e, fs.collect extensions paths = .error e :=
    fun he => Except.exists_error_iff.mp he ⟨result, h⟩
  rw [exists_collect_eq_error_iff hroot] at hok
  exact hr.denotes hroot fun hs => hok ⟨path, hpath, hs⟩

/-- Every path that is shown reaches a file. -/
theorem reaches_of_mem_collect (hroot : fs.root.WellFormed)
    (h : fs.collect extensions paths = .ok result) (hs : s ∈ result) :
    ∃ path ∈ paths, ∃ names, fs.Reaches extensions path s names := by
  obtain ⟨found, hfound, rfl⟩ := collect_eq_ok.mp h
  obtain ⟨f, hf, rfl⟩ := List.mem_map.mp ((List.mergeSort_perm _ _).mem_iff.mp hs)
  obtain ⟨-, path, hpath, hr⟩ := (mem_flatten_of_mapM hroot hfound).mp (mem_of_mem_keepFirst hf)
  exact ⟨path, hpath, f.names, hr⟩

/-- Every collected path leads to a file. -/
theorem exists_denotes_of_mem_collect (hroot : fs.root.WellFormed)
    (h : fs.collect extensions paths = .ok result) (hs : s ∈ result) :
    ∃ names, fs.Denotes s names := by
  obtain ⟨path, hpath, names, hr⟩ := reaches_of_mem_collect hroot h hs
  exact ⟨names, denotes_of_collect hroot h hpath hr⟩

/-- Every file that is reached is shown by a path that reaches it. -/
theorem exists_mem_collect (hroot : fs.root.WellFormed)
    (h : fs.collect extensions paths = .ok result) (hpath : path ∈ paths)
    (hr : fs.Reaches extensions path shown names) :
    ∃ s ∈ result, ∃ path ∈ paths, fs.Reaches extensions path s names := by
  obtain ⟨found, hfound, rfl⟩ := collect_eq_ok.mp h
  have hmem : ⟨shown, names, .file⟩ ∈ found.flatten :=
    (mem_flatten_of_mapM hroot hfound).mpr ⟨rfl, path, hpath, hr⟩
  obtain ⟨f, hf, rfl⟩ := exists_mem_keepFirst hmem
  obtain ⟨-, path', hpath', hr'⟩ :=
    (mem_flatten_of_mapM hroot hfound).mp (mem_of_mem_keepFirst hf)
  refine ⟨f.shown, ?_, path', hpath', hr'⟩
  exact (List.mergeSort_perm _ _).mem_iff.mpr (List.mem_map_of_mem hf)

/-- Paths that are shown lead to different files. -/
theorem pairwise_collect (hroot : fs.root.WellFormed)
    (h : fs.collect extensions paths = .ok result) :
    result.Pairwise fun s t => ∀ names, fs.Denotes s names → ¬ fs.Denotes t names := by
  obtain ⟨found, hfound, rfl⟩ := collect_eq_ok.mp h
  have hdenotes : ∀ f ∈ keepFirst found.flatten, fs.Denotes f.shown f.names := by
    intro f hf
    obtain ⟨-, path, hpath, hr⟩ := (mem_flatten_of_mapM hroot hfound).mp (mem_of_mem_keepFirst hf)
    exact denotes_of_collect hroot h hpath hr
  refine List.Pairwise.perm ?_ (List.mergeSort_perm _ _).symm fun hst n ht hs => hst n hs ht
  refine List.pairwise_map.mpr ((pairwise_keepFirst _).imp_of_mem ?_)
  intro f g hf hg hne names hnames hnames'
  have hf' := (hdenotes f hf).unique rfl hnames
  have hg' := (hdenotes g hg).unique rfl hnames'
  exact hne (hf'.trans hg'.symm)

/-- Collected paths are in increasing order. -/
theorem increasing_collect (hroot : fs.root.WellFormed)
    (h : fs.collect extensions paths = .ok result) :
    result.Pairwise fun s t => Path.lt s t = true := by
  have hne : result.Pairwise fun s t => Path.components s ≠ Path.components t := by
    refine (pairwise_collect hroot h).imp_of_mem fun {s t} hs ht hst hc => ?_
    obtain ⟨names, hnames⟩ := exists_denotes_of_mem_collect hroot h hs
    obtain ⟨names', hnames'⟩ := exists_denotes_of_mem_collect hroot h ht
    obtain rfl := hnames.unique hc hnames'
    exact hst names hnames hnames'
  obtain ⟨found, -, rfl⟩ := collect_eq_ok.mp h
  exact Path.sort_increasing (hne.perm (List.mergeSort_perm _ _) fun hst => hst.symm)

/-- The files that are shown are those that are reached. -/
theorem exists_denotes_iff (hroot : fs.root.WellFormed)
    (h : fs.collect extensions paths = .ok result) :
    (∃ s ∈ result, fs.Denotes s names) ↔
      ∃ path ∈ paths, ∃ s, fs.Reaches extensions path s names := by
  constructor
  · rintro ⟨s, hs, hnames⟩
    obtain ⟨path, hpath, names', hr⟩ := reaches_of_mem_collect hroot h hs
    obtain rfl := (denotes_of_collect hroot h hpath hr).unique rfl hnames
    exact ⟨path, hpath, s, hr⟩
  · rintro ⟨path, hpath, shown, hr⟩
    obtain ⟨s, hs, path', hpath', hr'⟩ := exists_mem_collect hroot h hpath hr
    exact ⟨s, hs, denotes_of_collect hroot h hpath' hr'⟩

/-- Every file is reached by one spelling of its path only. -/
def OneSpelling (fs : FileSystem) (extensions paths : List String) : Prop :=
  ∀ path ∈ paths, ∀ path' ∈ paths, ∀ s t names,
    fs.Reaches extensions path s names → fs.Reaches extensions path' t names → s = t

/-- If no file is reached by two spellings, every path that reaches a file is collected. -/
theorem mem_collect_iff (hroot : fs.root.WellFormed)
    (h : fs.collect extensions paths = .ok result) (hone : fs.OneSpelling extensions paths) :
    s ∈ result ↔ ∃ path ∈ paths, ∃ names, fs.Reaches extensions path s names := by
  constructor
  · exact reaches_of_mem_collect hroot h
  · rintro ⟨path, hpath, names, hr⟩
    obtain ⟨t, ht, path', hpath', hr'⟩ := exists_mem_collect hroot h hpath hr
    obtain rfl := hone path hpath path' hpath' s t names hr hr'
    exact ht

/-- Whether files are found depends only on which paths are given. -/
theorem exists_collect_of_same_paths (hroot : fs.root.WellFormed)
    (h : fs.collect extensions paths = .ok result) (hpaths : ∀ path, path ∈ paths' ↔ path ∈ paths) :
    ∃ result', fs.collect extensions paths' = .ok result' := by
  have hok : ¬ ∃ e, fs.collect extensions paths = .error e :=
    fun he => Except.exists_error_iff.mp he ⟨result, h⟩
  rw [exists_collect_eq_error_iff hroot] at hok
  simp only [← hpaths] at hok
  rwa [← exists_collect_eq_error_iff hroot, Except.exists_error_iff, not_not] at hok

/-- The scan fails exactly if something stops it at one of the paths. Otherwise every file that is
reached is shown once, in the order of paths. Which files these are depends only on which paths are
given, and how they are shown does so too if each has one spelling only. -/
theorem collect_finds_each_file_once (fs : FileSystem) (hroot : fs.root.WellFormed)
    (extensions paths : List String) :
    ((∃ e, fs.collect extensions paths = .error e) ↔
      ∃ path ∈ paths, fs.Stops extensions path) ∧
    ∀ result, fs.collect extensions paths = .ok result →
      (result.Pairwise fun s t => Path.lt s t = true) ∧
      (result.Pairwise fun s t => ∀ names, fs.Denotes s names → ¬ fs.Denotes t names) ∧
      (∀ s ∈ result, ∃ names, fs.Denotes s names) ∧
      (∀ names, (∃ s ∈ result, fs.Denotes s names) ↔
        ∃ path ∈ paths, ∃ s, fs.Reaches extensions path s names) ∧
      ∀ paths', (∀ path, path ∈ paths' ↔ path ∈ paths) →
        ∃ result', fs.collect extensions paths' = .ok result' ∧
          (∀ names, (∃ s ∈ result', fs.Denotes s names) ↔ ∃ s ∈ result, fs.Denotes s names) ∧
          (fs.OneSpelling extensions paths → result' = result) := by
  refine ⟨exists_collect_eq_error_iff hroot, fun result h => ?_⟩
  refine ⟨increasing_collect hroot h, pairwise_collect hroot h,
    fun s hs => exists_denotes_of_mem_collect hroot h hs,
    fun names => exists_denotes_iff hroot h, fun paths' hpaths => ?_⟩
  obtain ⟨result', h'⟩ := exists_collect_of_same_paths hroot h hpaths
  refine ⟨result', h', fun names => ?_, fun hone => ?_⟩
  · rw [exists_denotes_iff hroot h, exists_denotes_iff hroot h']
    simp only [hpaths]
  · have hone' : fs.OneSpelling extensions paths' := by simpa only [OneSpelling, hpaths] using hone
    refine Path.eq_of_increasing (increasing_collect hroot h') (increasing_collect hroot h) ?_
    intro s
    rw [mem_collect_iff hroot h hone, mem_collect_iff hroot h' hone']
    simp only [hpaths]

def sampleFiles : FileSystem where
  root := .directory [("home", .directory [
    ("d", .directory [("a.graphql", .file []), ("b.txt", .file []),
      ("sub", .directory [("c.graphql", .file [])])]),
    ("q.txt", .file [])])]
  workingDirectory := ["home"]

theorem wellFormed_sampleFiles : sampleFiles.root.WellFormed := by
  simp [sampleFiles, Entry.isName_iff, maxNameSize]
  decide

/-- What is found from three paths, of which two reach the same file. -/
def sampleFound : List (List Found) :=
  [[⟨"q.txt", ["home", "q.txt"], .file⟩],
    [⟨"d/a.graphql", ["home", "d", "a.graphql"], .file⟩],
    [⟨"d/a.graphql", ["home", "d", "a.graphql"], .file⟩,
      ⟨"d/sub/c.graphql", ["home", "d", "sub", "c.graphql"], .file⟩]]

theorem mapM_filesAt_sampleFiles :
    ["q.txt", "d/a.graphql", "d"].mapM (sampleFiles.filesAt ["graphql"]) = .ok sampleFound := by
  unfold filesAt find resolve checkPath
  simp only [String.contains_char_eq]
  decide +kernel

theorem collect_sampleFiles :
    sampleFiles.collect ["graphql"] ["q.txt", "d/a.graphql", "d"] =
      .ok ["d/a.graphql", "d/sub/c.graphql", "q.txt"] := by
  refine collect_eq_ok.mpr ⟨sampleFound, mapM_filesAt_sampleFiles, ?_⟩
  exact (Path.sort_eq_of_increasing (by decide +kernel) (by decide +kernel)).symm

theorem oneSpelling_sampleFiles :
    sampleFiles.OneSpelling ["graphql"] ["q.txt", "d/a.graphql", "d"] := by
  have hone : ∀ f ∈ sampleFound.flatten, ∀ g ∈ sampleFound.flatten,
      f.names = g.names → f.shown = g.shown := by decide +kernel
  have hfound : ∀ {path s names}, path ∈ ["q.txt", "d/a.graphql", "d"] →
      sampleFiles.Reaches ["graphql"] path s names → ⟨s, names, .file⟩ ∈ sampleFound.flatten :=
    fun hpath hr => (mem_flatten_of_mapM wellFormed_sampleFiles mapM_filesAt_sampleFiles).mpr
      ⟨rfl, _, hpath, hr⟩
  intro path hpath path' hpath' s t names hs ht
  exact hone _ (hfound hpath hs) _ (hfound hpath' ht) rfl

theorem collect_finds_each_file_once_sample :
    sampleFiles.root.WellFormed ∧
    sampleFiles.OneSpelling ["graphql"] ["q.txt", "d/a.graphql", "d"] ∧
    sampleFiles.collect ["graphql"] ["q.txt", "d/a.graphql", "d"] =
      .ok ["d/a.graphql", "d/sub/c.graphql", "q.txt"] ∧
    (∀ names, (∃ s ∈ ["d/a.graphql", "d/sub/c.graphql", "q.txt"],
        sampleFiles.Denotes s names) ↔
      ∃ path ∈ ["q.txt", "d/a.graphql", "d"], ∃ s,
        sampleFiles.Reaches ["graphql"] path s names) ∧
    sampleFiles.collect ["graphql"] ["d", "q.txt", "d", "d/a.graphql"] =
      .ok ["d/a.graphql", "d/sub/c.graphql", "q.txt"] := by
  have h := (collect_finds_each_file_once sampleFiles wellFormed_sampleFiles ["graphql"]
    ["q.txt", "d/a.graphql", "d"]).2 _ collect_sampleFiles
  obtain ⟨-, -, -, hfiles, hpaths⟩ := h
  obtain ⟨result', h', -, hsame⟩ := hpaths ["d", "q.txt", "d", "d/a.graphql"] (by simp; tauto)
  rw [hsame oneSpelling_sampleFiles] at h'
  exact ⟨wellFormed_sampleFiles, oneSpelling_sampleFiles, collect_sampleFiles, hfiles, h'⟩

/-! ### Paths that the system doesn't take

A path may name a file or a directory and still stop the scan, and it may name neither without
stopping it. -/

def NamesSource (fs : FileSystem) (path : String) : Prop :=
  ∃ names e, fs.find path = .ok (names, e) ∧ e.kind ≠ .special

theorem checkPath_eq_ok (hnul : '\x00' ∉ path.toList) (hne : path ≠ "")
    (hsize : path.utf8ByteSize ≤ maxPathSize) : checkPath path = .ok () := by
  have hlong : isTooLong path = false := by simpa [isTooLong] using hsize
  simp [checkPath, hnul, hne, hlong]

def nestedFiles : FileSystem where
  root := .directory [("d", .directory [("e", .directory [("a.graphql", .file [])])])]
  workingDirectory := []

def slashed (n : Nat) : String := "d" ++ String.ofList (List.replicate n '/')

theorem slashed_succ (n : Nat) : slashed (n + 1) = slashed n ++ "/" := by
  rw [slashed, slashed, List.replicate_succ', String.ofList_append, ← String.append_assoc]

theorem slashed_ne_empty (n : Nat) : slashed n ≠ "" := by simp [slashed]

theorem utf8ByteSize_slashed (n : Nat) : (slashed n).utf8ByteSize = n + 1 := by
  induction n with
  | zero => rfl
  | succ n ih =>
    rw [slashed_succ, String.utf8ByteSize_append, ih]
    rfl

theorem find_slashed {n : Nat} (h : n < maxPathSize) : nestedFiles.find (slashed n) =
    .ok (["d"], .directory [("e", .directory [("a.graphql", .file [])])]) := by
  refine find_eq_ok.mpr ⟨?_, ?_, rfl⟩
  · have hsize : (slashed n).utf8ByteSize ≤ maxPathSize := by
      rw [utf8ByteSize_slashed]
      omega
    exact checkPath_eq_ok (by simp [slashed]) (slashed_ne_empty n) hsize
  · clear h
    induction n with
    | zero => rfl
    | succ n ih =>
      rw [slashed_succ]
      exact follow_append_slash (slashed_ne_empty n) ih rfl

/-- If the path of the outer directory is as long as a path can be, then that of the inner directory
is too long. -/
theorem stops_slashed {n : Nat} (h : n + 2 = maxPathSize) :
    nestedFiles.Stops ["graphql"] (slashed (n + 1)) := by
  have hjoin : Path.join (slashed (n + 1)) "e" = slashed (n + 1) ++ "e" := by
    rw [Path.join, if_pos]
    simp [slashed_succ]
  have hsize : ("e" : String).utf8ByteSize = 1 := rfl
  have hlong : isTooLong (["e"].foldl Path.join (slashed (n + 1))) = true := by
    rw [List.foldl_cons, List.foldl_nil, hjoin, isTooLong, String.utf8ByteSize_append,
      utf8ByteSize_slashed, hsize, decide_eq_true_iff]
    omega
  exact .directory (find_slashed (by omega)) (List.cons_ne_nil "e" []) rfl (.inl hlong)

/-- All paths name directories, and still the scan fails, at a directory below. -/
theorem collect_fails_below_directory :
    nestedFiles.root.WellFormed ∧
    ¬ ((∃ e, nestedFiles.collect ["graphql"] [slashed 4094] = .error e) ↔
      ∃ path ∈ [slashed 4094], ¬ nestedFiles.NamesSource path) := by
  have hroot : nestedFiles.root.WellFormed := by
    simp [nestedFiles, Entry.isName_iff, maxNameSize]
    decide
  have hnames : nestedFiles.NamesSource (slashed 4094) :=
    ⟨_, _, find_slashed (n := 4094) (by decide), by simp [Entry.kind]⟩
  have hstops : nestedFiles.Stops ["graphql"] (slashed 4094) := stops_slashed (by decide)
  refine ⟨hroot, ?_⟩
  rw [exists_collect_eq_error_iff hroot]
  simp [hstops, hnames]

/-- A file in a number of directories, seen from the innermost one. -/
def deepFiles (n : Nat) : FileSystem where
  root := n.repeat (fun e => .directory [("d", e)]) (.directory [("a.graphql", .file [])])
  workingDirectory := List.replicate n "d"

theorem at?_deepFiles (n : Nat) (rest : List String) :
    (deepFiles n).root.at? (List.replicate n "d" ++ rest) =
      (Entry.directory [("a.graphql", .file [])]).at? rest := by
  induction n with
  | zero => rfl
  | succ n ih => exact ih

theorem wellFormed_deepFiles (n : Nat) : (deepFiles n).root.WellFormed := by
  induction n with
  | zero =>
    simp [deepFiles, Nat.repeat, Entry.isName_iff, maxNameSize]
    decide
  | succ n ih =>
    simp [deepFiles, Nat.repeat, Entry.isName_iff, maxNameSize] at ih ⊢
    exact ⟨by decide, ih⟩

theorem find_deepFiles (n : Nat) : (deepFiles n).find "a.graphql" =
    .ok (List.replicate n "d" ++ ["a.graphql"], .file []) := by
  have hhere := at?_deepFiles n []
  rw [List.append_nil, Entry.at?_nil] at hhere
  have hsearch : (deepFiles n).isSearchable (List.replicate n "d") = true := by
    simp [isSearchable, hhere, Access.full]
  have hat : (deepFiles n).root.at? (List.replicate n "d" ++ ["a.graphql"]) = some (.file []) := by
    rw [at?_deepFiles]
    rfl
  have henter := enter_of_at? (wellFormed_deepFiles n) hsearch hat
  have hsegments : Path.segments "a.graphql" = ["a.graphql"] :=
    Path.segments_of_not_mem (by decide)
  refine find_eq_ok.mpr ⟨checkPath_eq_ok (by decide) (by decide) (by decide), ?_, hat⟩
  rw [follow, hsegments, List.foldlM_cons]
  exact Except.bind_eq_ok.mpr ⟨_, henter, rfl⟩

theorem utf8ByteSize_absolute_deep (n : Nat) (rest : List String) :
    (Path.absolute (List.replicate n "d" ++ rest)).utf8ByteSize =
      2 * n + (Path.absolute rest).utf8ByteSize := by
  induction n with
  | zero => simp
  | succ n ih =>
    have hcons : Path.absolute (List.replicate (n + 1) "d" ++ rest) =
        "/d" ++ Path.absolute (List.replicate n "d" ++ rest) := by
      simp [Path.absolute, List.replicate_succ]
    have hsize : ("/d" : String).utf8ByteSize = 2 := rfl
    rw [hcons, String.utf8ByteSize_append, ih, hsize]
    omega

/-- The path is short where the run starts, and too long where the file is told apart. -/
theorem collect_fails_far_from_root :
    (deepFiles 2048).root.WellFormed ∧
    ¬ ((∃ e, (deepFiles 2048).collect ["graphql"] ["a.graphql"] = .error e) ↔
      ∃ path ∈ ["a.graphql"], ¬ (deepFiles 2048).NamesSource path) := by
  have hroot := wellFormed_deepFiles 2048
  have hfind := find_deepFiles 2048
  have hnames : (deepFiles 2048).NamesSource "a.graphql" := ⟨_, _, hfind, by simp [Entry.kind]⟩
  have hlong : isTooLong (Path.absolute (List.replicate 2048 "d" ++ ["a.graphql"])) = true := by
    rw [isTooLong, utf8ByteSize_absolute_deep, decide_eq_true_iff, maxPathSize]
    omega
  have hstops : (deepFiles 2048).Stops ["graphql"] "a.graphql" :=
    .file (.named hfind) (List.mem_append_right _ (List.mem_singleton_self _)) (.tooLong hlong)
  refine ⟨hroot, ?_⟩
  rw [exists_collect_eq_error_iff hroot]
  simp [hstops, hnames]

def guardedFiles : FileSystem where
  root := .directory [("d", .directory [] ⟨false, true⟩), ("p", .special [])]
  workingDirectory := []

theorem wellFormed_guardedFiles : guardedFiles.root.WellFormed := by
  simp [guardedFiles, Entry.isName_iff, maxNameSize]
  decide

/-- The path names a directory, and still the scan fails. -/
theorem collect_fails_at_unlisted :
    guardedFiles.root.WellFormed ∧
    ¬ ((∃ e, guardedFiles.collect ["graphql"] ["d"] = .error e) ↔
      ∃ path ∈ ["d"], ¬ guardedFiles.NamesSource path) := by
  have hfind : guardedFiles.find "d" = .ok (["d"], .directory [] ⟨false, true⟩) :=
    find_eq_ok.mpr ⟨checkPath_eq_ok (by decide) (by decide) (by decide), rfl, rfl⟩
  have hnames : guardedFiles.NamesSource "d" := ⟨_, _, hfind, by simp [Entry.kind]⟩
  have hstops : guardedFiles.Stops ["graphql"] "d" := .unlisted hfind rfl
  refine ⟨wellFormed_guardedFiles, ?_⟩
  rw [exists_collect_eq_error_iff wellFormed_guardedFiles]
  simp [hstops, hnames]

/-- The path names neither a file nor a directory, and still the scan doesn't fail. -/
theorem collect_skips_special :
    guardedFiles.root.WellFormed ∧
    ¬ ((∃ e, guardedFiles.collect ["graphql"] ["p"] = .error e) ↔
      ∃ path ∈ ["p"], ¬ guardedFiles.NamesSource path) := by
  have hfind : guardedFiles.find "p" = .ok (["p"], .special []) :=
    find_eq_ok.mpr ⟨checkPath_eq_ok (by decide) (by decide) (by decide), rfl, rfl⟩
  have hnames : ¬ guardedFiles.NamesSource "p" := by
    rintro ⟨names, e, h, hkind⟩
    obtain ⟨-, rfl⟩ := Prod.mk.inj (Except.ok.inj (hfind.symm.trans h))
    exact hkind rfl
  have hstops : ¬ guardedFiles.Stops ["graphql"] "p" := not_stops_of_special hfind
  refine ⟨wellFormed_guardedFiles, ?_⟩
  rw [exists_collect_eq_error_iff wellFormed_guardedFiles]
  simp [hstops, hnames]

end FileSystem

end QueryBindings
