/-!
Lists of names in which every name counts once, at the place where it came first.
-/
namespace QueryBindings.Names

def insert (names : List String) (name : String) : List String :=
  if name ∈ names then names else names ++ [name]

/-- Adds the new ones among further names, in their order. -/
def union (names more : List String) : List String := more.foldl insert names

@[simp] theorem union_nil (names : List String) : union names [] = names := rfl

@[simp] theorem union_cons (names : List String) (n : String) (more : List String) :
    union names (n :: more) = union (insert names n) more := rfl

theorem union_append (names a b : List String) :
    union names (a ++ b) = union (union names a) b := by simp [union, List.foldl_append]

@[simp] theorem mem_insert {names : List String} {n m : String} :
    m ∈ insert names n ↔ m ∈ names ∨ m = n := by
  unfold insert
  split
  · constructor
    · exact Or.inl
    · rintro (h | rfl) <;> assumption
  · simp

@[simp] theorem mem_union {names more : List String} {m : String} :
    m ∈ union names more ↔ m ∈ names ∨ m ∈ more := by
  induction more generalizing names with
  | nil => simp
  | cons n more ih => simp [ih, or_assoc]

theorem nodup_insert {names : List String} (h : names.Nodup) (n : String) :
    (insert names n).Nodup := by
  unfold insert
  split
  · exact h
  · rename_i hn
    simpa [List.nodup_append, h] using fun a ha => ne_of_mem_of_not_mem ha hn

/-- Names that are distinct stay so when others are added. -/
theorem nodup_union {names : List String} (h : names.Nodup) (more : List String) :
    (union names more).Nodup := by
  induction more generalizing names with
  | nil => exact h
  | cons n more ih => exact ih (nodup_insert h n)

theorem insert_of_mem {names : List String} {n : String} (h : n ∈ names) :
    insert names n = names := by simp [insert, h]

/-- Adding what is there already changes nothing. -/
theorem union_of_subset {names more : List String} (h : ∀ n ∈ more, n ∈ names) :
    union names more = names := by
  induction more with
  | nil => rfl
  | cons n more ih =>
    rw [union_cons, insert_of_mem (h n (by simp))]
    exact ih (fun m hm => h m (by simp [hm]))

/-- A name that is added behind further names is added behind all of them. -/
theorem union_insert (names more : List String) (n : String) :
    union names (insert more n) = insert (union names more) n := by
  by_cases h : n ∈ more
  · rw [insert_of_mem h, insert_of_mem (by simp [h])]
  · simp only [insert, h, if_false, union_append]
    rfl

theorem union_union (a b c : List String) : union a (union b c) = union (union a b) c := by
  induction c generalizing b with
  | nil => rfl
  | cons n c ih => rw [union_cons, union_cons, ih, union_insert]

end QueryBindings.Names
