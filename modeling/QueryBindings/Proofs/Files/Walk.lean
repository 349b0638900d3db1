import QueryBindings.Proofs.Files.Places
/-!
What a walk through a tree meets.

A walk goes to everything that names lead to, and shows it by the path that takes these names one
after another.
-/
namespace QueryBindings.Entry

def kind : Entry → Kind
  | file _ => .file
  | special _ => .special
  | directory _ _ => .directory

/-- What a walk that starts at an entry meets at a place below. -/
def met (shown : String) (names rest : List String) (below : Entry) : Found :=
  ⟨rest.foldl Path.join shown, names ++ rest, below.kind⟩

/-- What a walk may meet: what the entry is, at every place below it. -/
def Meets (e : Entry) (shown : String) (names : List String) (f : Found) : Prop :=
  ∃ rest below, e.at? rest = some below ∧ f = met shown names rest below

theorem met_cons (shown : String) (names rest : List String) (name : String) (below : Entry) :
    met shown names (name :: rest) below =
      met (Path.join shown name) (names ++ [name]) rest below := by
  simp [met]

theorem sizeOf_lt_of_mem {entries : List (String × Entry)} {access : Access}
    {entry : String × Entry} (h : entry ∈ entries) :
    sizeOf entry.2 < sizeOf (directory entries access) := by
  have hlt := List.sizeOf_lt_of_mem h
  obtain ⟨name, e⟩ := entry
  simp only [Prod.mk.sizeOf_spec] at hlt
  simp only [directory.sizeOf_spec]
  omega

theorem mem_walkIn_iff_exists {entries : List (String × Entry)} {shown : String}
    {names : List String} {f : Found} : f ∈ walkIn shown names entries ↔
      ∃ entry ∈ entries, f ∈ walk (Path.join shown entry.1) (names ++ [entry.1]) entry.2 := by
  induction entries with
  | nil => simp [walkIn]
  | cons entry entries ih => simp [walkIn, ih]

/-- What is under a directory, if walks through its entries meet all that they may. -/
theorem mem_walkIn_of_forall {entries : List (String × Entry)} {access : Access}
    (h : (directory entries access).WellFormed)
    (hwalk : ∀ entry ∈ entries, ∀ shown names f,
      f ∈ entry.2.walk shown names ↔ entry.2.Meets shown names f)
    {shown : String} {names : List String} {f : Found} : f ∈ walkIn shown names entries ↔
      ∃ rest below, rest ≠ [] ∧ (directory entries access).at? rest = some below ∧
        f = met shown names rest below := by
  rw [mem_walkIn_iff_exists]
  constructor
  · rintro ⟨entry, hentry, hf⟩
    obtain ⟨rest, below, hat, rfl⟩ := (hwalk entry hentry _ _ _).mp hf
    have hl := lookup_eq_some_of_mem h.nodup hentry
    exact ⟨entry.1 :: rest, below, by simp, by rw [at?, hl, Option.bind_some, hat],
      (met_cons ..).symm⟩
  · rintro ⟨place, below, hne, hat, rfl⟩
    obtain ⟨name, rest, rfl⟩ := List.exists_cons_of_ne_nil hne
    rw [at?, Option.bind_eq_some_iff] at hat
    obtain ⟨next, hl, hrest⟩ := hat
    have hentry := mem_of_lookup_eq_some hl
    exact ⟨_, hentry, (hwalk _ hentry _ _ _).mpr ⟨rest, below, hrest, met_cons ..⟩⟩

/-- An entry below which there is nothing is all that a walk meets. -/
theorem mem_walk_of_at? {e : Entry} {shown : String} {names : List String} {f : Found}
    (hwalk : e.walk shown names = [met shown names [] e])
    (hat : ∀ name rest, e.at? (name :: rest) = none) :
    f ∈ e.walk shown names ↔ e.Meets shown names f := by
  rw [hwalk, List.mem_singleton]
  constructor
  · rintro rfl
    exact ⟨[], e, at?_nil _, rfl⟩
  · rintro ⟨rest, below, hbelow, rfl⟩
    cases rest with
    | nil =>
      obtain rfl : e = below := by simpa using hbelow
      rfl
    | cons name rest => simp [hat] at hbelow

/-- A walk meets everything that it may meet, and nothing else. -/
theorem mem_walk {e : Entry} (h : e.WellFormed) {shown : String} {names : List String}
    {f : Found} : f ∈ e.walk shown names ↔ e.Meets shown names f := by
  match e with
  | file content =>
    exact mem_walk_of_at? (by simp [walk, met, kind]) fun name rest => rfl
  | special content =>
    exact mem_walk_of_at? (by simp [walk, met, kind]) fun name rest => rfl
  | directory entries access =>
    rw [walk, List.mem_cons, mem_walkIn_of_forall h fun entry hentry _ _ _ =>
      mem_walk (h.of_mem hentry)]
    constructor
    · rintro (rfl | ⟨rest, below, -, hat, rfl⟩)
      · exact ⟨[], directory entries access, at?_nil _, by simp [met, kind]⟩
      · exact ⟨rest, below, hat, rfl⟩
    · rintro ⟨rest, below, hat, rfl⟩
      by_cases hne : rest = []
      · subst hne
        obtain rfl : directory entries access = below := by simpa using hat
        exact .inl (by simp [met, kind])
      · exact .inr ⟨rest, below, hne, hat, rfl⟩
termination_by sizeOf e
decreasing_by exact sizeOf_lt_of_mem hentry

/-- In a directory, a walk meets every entry at every place below. -/
theorem mem_walkIn {entries : List (String × Entry)} {access : Access}
    (h : (directory entries access).WellFormed) {shown : String} {names : List String} {f : Found} : f ∈ walkIn shown names entries ↔
      ∃ rest below, rest ≠ [] ∧ (directory entries access).at? rest = some below ∧
        f = met shown names rest below :=
  mem_walkIn_of_forall h fun _ hentry _ _ _ => mem_walk (h.of_mem hentry)

end QueryBindings.Entry
