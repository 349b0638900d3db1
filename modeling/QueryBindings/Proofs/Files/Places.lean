import Mathlib.Tactic.MkIffOfInductiveProp
import QueryBindings.Files.Tree
import QueryBindings.Proofs.Failure
import QueryBindings.Proofs.Lookup
import QueryBindings.Proofs.Text.Pieces
/-!
The places in a tree that paths lead to.

A path takes its steps one by one, and steps that stay where they are can be left out. So paths of
the same components lead to the same place, and a path that is joined with a name leads one name
further.
-/
namespace QueryBindings

namespace Entry

variable {e e' : Entry} {entries : List (String × Entry)} {access : Access}
  {place rest : List String} {name : String}

@[simp] theorem at?_nil (e : Entry) : e.at? [] = some e := by cases e <;> rfl

/-- A place below a place is found from there. -/
theorem at?_append (e : Entry) (place rest : List String) :
    e.at? (place ++ rest) = (e.at? place).bind (·.at? rest) := by
  induction place generalizing e with
  | nil => simp
  | cons n place ih =>
    cases e with
    | file | special => rfl
    | directory entries access =>
      rw [List.cons_append, at?, at?, Option.bind_assoc]
      congr 1
      funext e'
      exact ih e'

/-- Only a directory has entries. -/
theorem eq_directory_of_at?_cons (h : e.at? (name :: rest) = some e') :
    ∃ entries access below, e = .directory entries access ∧ entries.lookup name = some below ∧
      below.at? rest = some e' := by
  cases e with
  | file | special => simp [at?] at h
  | directory entries access =>
    rw [at?, Option.bind_eq_some_iff] at h
    obtain ⟨below, hbelow, hrest⟩ := h
    exact ⟨entries, access, below, rfl, hbelow, hrest⟩

/-- What an entry of a directory can be called: a name is no step of another kind, has no slash, and
is not too long. -/
@[mk_iff] structure IsName (name : String) : Prop where
  ne_empty : name ≠ ""
  ne_dot : name ≠ "."
  ne_dots : name ≠ ".."
  no_slash : '/' ∉ name.toList
  fits : name.utf8ByteSize ≤ FileSystem.maxNameSize

/-- Whether the entries of every directory have names, and different ones. -/
def WellFormed (e : Entry) : Prop :=
  ∀ place entries access, e.at? place = some (.directory entries access) →
    (entries.map (·.1)).Nodup ∧ ∀ entry ∈ entries, IsName entry.1

theorem WellFormed.of_at? (h : e.WellFormed) (hat : e.at? place = some e') : e'.WellFormed := by
  intro rest entries access hrest
  exact h (place ++ rest) entries access (by rw [at?_append, hat, Option.bind_some, hrest])

/-- Different entries of a directory have different names. -/
theorem WellFormed.nodup (h : (directory entries access).WellFormed) :
    (entries.map (·.1)).Nodup :=
  (h [] entries access (at?_nil _)).1

theorem WellFormed.isName (h : (directory entries access).WellFormed)
    (hl : entries.lookup name = some e) : IsName name :=
  (h [] entries access (at?_nil _)).2 (name, e) (mem_of_lookup_eq_some hl)

/-- What stands in a well-formed directory is well formed. -/
theorem WellFormed.of_mem (h : (directory entries access).WellFormed) {entry : String × Entry}
    (hm : entry ∈ entries) : entry.2.WellFormed := by
  have hl := lookup_eq_some_of_mem h.nodup hm
  have hat : (directory entries access).at? [entry.1] = some entry.2 := by
    rw [at?, hl, Option.bind_some, at?_nil]
  exact h.of_at? hat

@[simp] theorem wellFormed_file (content : List UInt8) : (file content).WellFormed := by
  intro place entries access h
  cases place <;> simp [at?] at h

@[simp] theorem wellFormed_special (content : List UInt8) : (special content).WellFormed := by
  intro place entries access h
  cases place <;> simp [at?] at h

/-- A tree is well-formed if its entries have names, and different ones, and are well-formed. -/
@[simp] theorem wellFormed_directory_iff : (directory entries access).WellFormed ↔
    (entries.map (·.1)).Nodup ∧
      ∀ entry ∈ entries, IsName entry.1 ∧ entry.2.WellFormed := by
  constructor
  · intro h
    have hnames := (h [] entries access (at?_nil _)).2
    exact ⟨h.nodup, fun entry hm => ⟨hnames entry hm, h.of_mem hm⟩⟩
  · rintro ⟨hn, h⟩ place found access' hat
    cases place with
    | nil =>
      obtain ⟨rfl, -⟩ : entries = found ∧ access = access' := by simpa using hat
      exact ⟨hn, fun entry hm => (h entry hm).1⟩
    | cons name rest =>
      rw [at?, Option.bind_eq_some_iff] at hat
      obtain ⟨below, hl, hrest⟩ := hat
      exact (h (name, below) (mem_of_lookup_eq_some hl)).2 rest found access' hrest

end Entry

/-! ### Joined paths -/

namespace Path

@[simp] theorem segments_empty : segments "" = [""] := rfl

/-- A slash separates segments. -/
theorem segments_append_slash (s t : String) :
    segments (s ++ "/" ++ t) = segments s ++ segments t := by
  have hslash : (s ++ "/" ++ t).toList = s.toList ++ '/' :: t.toList := by simp
  rw [segments, Text.split, hslash, Text.pieces_append, List.map_append]
  rfl

theorem segments_of_not_mem {name : String} (h : '/' ∉ name.toList) : segments name = [name] := by
  rw [segments, Text.split, Text.pieces_of_not_mem h, List.map_singleton, String.ofList_toList]

/-- A joined path has one segment more, unless the directory's path leaves room for it. -/
theorem segments_join (directory : String) {name : String} (hname : '/' ∉ name.toList) :
    segments (join directory name) = segments directory ++ [name] ∨ ∃ before,
      segments directory = before ++ [""] ∧
        segments (join directory name) = before ++ [name] := by
  by_cases h : directory.toList.getLast? = some '/'
  · obtain ⟨before, hbefore⟩ := List.getLast?_eq_some_iff.mp h
    obtain rfl : directory = String.ofList before ++ "/" := by
      rw [← String.toList_inj, hbefore]
      simp
    refine .inr ⟨segments (String.ofList before), ?_, ?_⟩
    · simpa using segments_append_slash (String.ofList before) ""
    · rw [join, if_pos h, segments_append_slash, segments_of_not_mem hname]
  · rw [join, if_neg h, segments_append_slash, segments_of_not_mem hname]
    exact .inl rfl

theorem isAbsolute_append {path : String} (h : path ≠ "") (more : String) :
    isAbsolute (path ++ more) = isAbsolute path := by
  have hne : path.toList ≠ [] := fun hnil => h (String.toList_eq_nil_iff.mp hnil)
  obtain ⟨c, cs, hcs⟩ := List.exists_cons_of_ne_nil hne
  simp [isAbsolute, hcs]

theorem isAbsolute_join {directory : String} (h : directory ≠ "") (name : String) :
    isAbsolute (join directory name) = isAbsolute directory := by
  rw [join]
  split
  · exact isAbsolute_append h name
  · rw [String.append_assoc, isAbsolute_append h]

theorem join_ne_empty {directory : String} (h : directory ≠ "") (name : String) :
    join directory name ≠ "" := by
  rw [join]
  split <;> simp [h]

/-! ### Components as steps -/

def Component.step : Component → String
  | parent => ".."
  | name text => text
  | _ => ""

def Component.isStep : Component → Bool
  | parent => true
  | name _ => true
  | _ => false

def steps (path : String) : List String :=
  ((components path).filter (·.isStep)).map Component.step

/-- A segment that is no empty one or dot is the step that it takes. -/
theorem component?_eq_some {segment : String} {c : Component} (h : component? segment = some c) :
    c.isStep = true ∧ c.step = segment := by
  unfold component? at h
  split at h
  · simp at h
  · split at h
    · obtain rfl := Option.some.inj h
      exact ⟨rfl, by simp [Component.step, *]⟩
    · obtain rfl := Option.some.inj h
      exact ⟨rfl, rfl⟩

/-- The steps are the segments without the empty ones and the dots. -/
theorem steps_eq (path : String) :
    steps path = (segments path).filter fun segment => (component? segment).isSome := by
  have hinner : ∀ l : List String,
      ((l.filterMap component?).filter (·.isStep)).map Component.step =
        l.filter fun segment => (component? segment).isSome := by
    intro l
    induction l with
    | nil => rfl
    | cons segment l ih =>
      cases hc : component? segment with
      | none => simpa [hc] using ih
      | some c =>
        obtain ⟨hstep, hsegment⟩ := component?_eq_some hc
        simp [hc, hstep, hsegment, ih]
  rw [← hinner, steps, components]
  split
  · rfl
  · split <;> rfl

theorem isAbsolute_iff (path : String) : isAbsolute path = true ↔ .root ∈ components path := by
  have hinner : .root ∉ (segments path).filterMap component? := by
    intro h
    obtain ⟨segment, -, hsegment⟩ := List.mem_filterMap.mp h
    exact absurd (component?_eq_some hsegment).1 (by decide)
  rw [components]
  split
  · simp [*]
  · split <;> simp [*]

end Path

/-! ### Following a path -/

namespace FileSystem

variable {fs : FileSystem} {path s t name segment : String} {e : Entry}
  {here there names names' rest : List String}

/-- The names that lead to what a path leads to, however long the path is. -/
def follow (fs : FileSystem) (path : String) : Except SystemError (List String) :=
  (Path.segments path).foldlM fs.enter (fs.start path)

/-- A path names what stands where it leads, unless the path itself is refused. -/
theorem find_eq_ok : fs.find path = .ok (names, e) ↔
    checkPath path = .ok () ∧ fs.follow path = .ok names ∧ fs.root.at? names = some e := by
  simp only [find, resolve, Except.bind_eq_ok]
  constructor
  · rintro ⟨found, ⟨⟨⟩, hcheck, hfollow⟩, h⟩
    split at h
    · next e' hat =>
      obtain ⟨rfl, rfl⟩ := Prod.mk.inj (Except.ok.inj h)
      exact ⟨hcheck, hfollow, hat⟩
    · cases h
  · rintro ⟨hcheck, hfollow, hat⟩
    exact ⟨names, ⟨(), hcheck, hfollow⟩, by simp only [hat]⟩

theorem ne_empty_of_find (h : fs.find path = .ok (names, e)) : path ≠ "" := by
  rintro rfl
  exact absurd (find_eq_ok.mp h).1 (by simp [checkPath])

/-- An empty segment or a dot leads nowhere else. -/
theorem enter_of_component?_eq_none (hs : Path.component? segment = none)
    (h : fs.enter here segment = .ok there) : there = here := by
  have hdot : segment = "" ∨ segment = "." := by
    by_contra hne
    rw [Path.component?, if_neg hne] at hs
    split at hs <;> cases hs
  unfold enter at h
  split at h
  · rcases hdot with rfl | rfl
    · exact (Except.ok.inj h).symm
    · simp only [String.reduceEq, if_false, if_true] at h
      split at h
      · cases h
      · exact (Except.ok.inj h).symm
  · cases h

/-- Empty segments and dots take no step. -/
theorem foldlM_enter_filter {segments : List String}
    (h : segments.foldlM fs.enter here = .ok there) :
    (segments.filter fun segment => (Path.component? segment).isSome).foldlM fs.enter here =
      .ok there := by
  induction segments generalizing here with
  | nil => exact h
  | cons segment segments ih =>
    rw [List.foldlM_cons] at h
    obtain ⟨next, hnext, hrest⟩ := Except.bind_eq_ok.mp h
    cases hs : Path.component? segment with
    | none =>
      obtain rfl := enter_of_component?_eq_none hs hnext
      simpa [hs] using ih hrest
    | some c =>
      rw [List.filter_cons_of_pos (by simp [hs]), List.foldlM_cons, hnext]
      exact ih hrest

/-- Paths of the same components lead to the same place, if they lead anywhere. -/
theorem follow_unique (hc : Path.components s = Path.components t)
    (hs : fs.follow s = .ok names) (ht : fs.follow t = .ok names') : names = names' := by
  have hstart : fs.start s = fs.start t := by
    have hiff : Path.isAbsolute s = true ↔ Path.isAbsolute t = true := by
      rw [Path.isAbsolute_iff, Path.isAbsolute_iff, hc]
    simp [start, hiff]
  have hsteps : Path.steps s = Path.steps t := by rw [Path.steps, Path.steps, hc]
  have hs' := foldlM_enter_filter hs
  have ht' := foldlM_enter_filter ht
  rw [← Path.steps_eq, hstart, hsteps] at hs'
  rw [← Path.steps_eq] at ht'
  exact Except.ok.inj (hs'.symm.trans ht')

/-- A step by the name of an entry leads to that entry, where paths may lead on. -/
theorem enter_of_at? (hroot : fs.root.WellFormed) (hsearch : fs.isSearchable here = true)
    (h : fs.root.at? (here ++ [name]) = some e) : fs.enter here name = .ok (here ++ [name]) := by
  rw [Entry.at?_append, Option.bind_eq_some_iff] at h
  obtain ⟨directory, hhere, hname⟩ := h
  obtain ⟨entries, access, below, rfl, hl, -⟩ := Entry.eq_directory_of_at?_cons hname
  have hn := (hroot.of_at? hhere).isName hl
  have hfits : ¬ maxNameSize < name.utf8ByteSize := Nat.not_lt.mpr hn.fits
  have haccess : access.search = true := by simpa [isSearchable, hhere] using hsearch
  simp [enter, hhere, haccess, hn.ne_empty, hn.ne_dot, hn.ne_dots, hfits, hl]

/-- A path that is joined with a name leads to the entry of that name. -/
theorem follow_join (hroot : fs.root.WellFormed) (hne : path ≠ "")
    (hsearch : fs.isSearchable names = true) (h : fs.follow path = .ok names)
    (hat : fs.root.at? (names ++ [name]) = some e) :
    fs.follow (Path.join path name) = .ok (names ++ [name]) := by
  have henter := enter_of_at? hroot hsearch hat
  have hname : '/' ∉ name.toList := by
    rw [Entry.at?_append, Option.bind_eq_some_iff] at hat
    obtain ⟨directory, hhere, hname⟩ := hat
    obtain ⟨entries, access, below, rfl, hl, -⟩ := Entry.eq_directory_of_at?_cons hname
    exact ((hroot.of_at? hhere).isName hl).no_slash
  have hstart : fs.start (Path.join path name) = fs.start path := by
    rw [start, start, Path.isAbsolute_join hne]
  rw [follow] at h
  rw [follow, hstart]
  rcases Path.segments_join path hname with hjoin | ⟨before, hpath, hjoin⟩
  · rw [hjoin, Except.foldlM_concat_eq_ok]
    exact ⟨names, h, henter⟩
  · -- the directory's path ends in a slash, so its last step has led nowhere else
    rw [hpath, Except.foldlM_concat_eq_ok] at h
    obtain ⟨last, hlast, hstay⟩ := h
    obtain rfl := enter_of_component?_eq_none rfl hstay
    rw [hjoin, Except.foldlM_concat_eq_ok]
    exact ⟨names, hlast, henter⟩

/-- A path that is joined with names, one after the other, leads to where these lead, as far as the
directories on the way allow it. -/
theorem follow_foldl_join (hroot : fs.root.WellFormed) (hne : path ≠ "")
    (hsearch : ∀ n < rest.length, fs.isSearchable (names ++ rest.take n) = true)
    (h : fs.follow path = .ok names) (hat : fs.root.at? (names ++ rest) = some e) :
    fs.follow (rest.foldl Path.join path) = .ok (names ++ rest) := by
  induction rest generalizing path names with
  | nil => simpa using h
  | cons name rest ih =>
    have hhere : fs.isSearchable names = true := by simpa using hsearch 0 (Nat.succ_pos _)
    have hnext : ∀ n < rest.length, fs.isSearchable (names ++ [name] ++ rest.take n) = true := by
      intro n hn
      simpa using hsearch (n + 1) (Nat.succ_lt_succ hn)
    rw [List.append_cons] at hat ⊢
    have hthere : ∃ below, fs.root.at? (names ++ [name]) = some below := by
      rw [Entry.at?_append, Option.bind_eq_some_iff] at hat
      obtain ⟨below, hbelow, -⟩ := hat
      exact ⟨below, hbelow⟩
    obtain ⟨below, hbelow⟩ := hthere
    exact ih (Path.join_ne_empty hne name) hnext (follow_join hroot hne hhere h hbelow) hat

/-- A slash at the end of a directory's path leads nowhere else. -/
theorem follow_append_slash {entries : List (String × Entry)} {access : Access} (hne : path ≠ "")
    (h : fs.follow path = .ok names) (hat : fs.root.at? names = some (.directory entries access)) :
    fs.follow (path ++ "/") = .ok names := by
  have hsegments : Path.segments (path ++ "/") = Path.segments path ++ [""] := by
    simpa using Path.segments_append_slash path ""
  have hstart : fs.start (path ++ "/") = fs.start path := by
    rw [start, start, Path.isAbsolute_append hne]
  rw [follow] at h
  rw [follow, hsegments, hstart, Except.foldlM_concat_eq_ok]
  exact ⟨names, h, by simp [enter, hat]⟩

end FileSystem

end QueryBindings
