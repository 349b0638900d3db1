import Mathlib.Data.List.Basic
import QueryBindings.Names
import QueryBindings.Proofs.Search
/-!
When a search succeeds, and in which order it finds names.

A search succeeds if every request that is made in its course can be answered. It follows up a name
only where it comes first; but following up every request, level by level, would bring the names
first in the same order. That order depends on what stands below each name that is found, and on
nothing else in the table.
-/
namespace QueryBindings

namespace Names

/-- The new ones among further names, each once and in their order. -/
def fresh : (names more : List String) → List String
  | _, [] => []
  | names, n :: more => if n ∈ names then fresh names more else n :: fresh (names ++ [n]) more

/-- The new ones among further names come behind. -/
theorem union_eq_append_fresh (names more : List String) :
    union names more = names ++ fresh names more := by
  induction more generalizing names with
  | nil => simp [fresh]
  | cons n more ih =>
    by_cases h : n ∈ names
    · simp [fresh, h, insert_of_mem, ih]
    · simp [fresh, insert, h, ih]

theorem fresh_congr {names a b : List String} (h : union names a = union names b) :
    fresh names a = fresh names b := by
  rwa [union_eq_append_fresh, union_eq_append_fresh, List.append_cancel_left_eq] at h

/-- What stands below names that are not new adds nothing, if it is known already. -/
theorem union_flatMap_fresh {below : String → List String} {names known : List String}
    (more : List String) (h : ∀ n ∈ names, ∀ m ∈ below n, m ∈ known) :
    union known ((fresh names more).flatMap below) = union known (more.flatMap below) := by
  induction more generalizing names known with
  | nil => rfl
  | cons n more ih =>
    rw [List.flatMap_cons, union_append]
    by_cases hn : n ∈ names
    · rw [union_of_subset (h n hn), ← ih h]
      simp [fresh, hn]
    · simp only [fresh, hn, if_false, List.flatMap_cons, union_append]
      apply ih
      intro m hm x hx
      rcases List.mem_append.mp hm with hm | hm
      · exact mem_union.mpr (Or.inl (h m hm x hx))
      · exact mem_union.mpr (Or.inr (List.mem_singleton.mp hm ▸ hx))

/-- The names of the first levels, one level after the other: given names, the names below them, the
names below those, and so on. -/
def within (below : String → List String) : (depth : Nat) → (names : List String) → List String
  | 0, _ => []
  | depth + 1, names => names ++ within below depth (names.flatMap below)

variable {below below' : String → List String} {known names : List String}

/-- Levels don't lead out of names with which all names below them are known. -/
theorem mem_of_mem_within (hclosed : ∀ n ∈ known, ∀ m ∈ below n, m ∈ known) (depth : Nat)
    (hnames : ∀ n ∈ names, n ∈ known) : ∀ n ∈ within below depth names, n ∈ known := by
  induction depth generalizing names with
  | zero => simp [within]
  | succ depth ih =>
    refine List.forall_mem_append.mpr ⟨hnames, ih fun m hm => ?_⟩
    obtain ⟨n, hn, hm⟩ := List.mem_flatMap.mp hm
    exact hclosed n (hnames n hn) m hm

/-- Levels depend on what stands below the names that they lead to. -/
theorem within_congr (hclosed : ∀ n ∈ known, ∀ m ∈ below n, m ∈ known)
    (hbelow : ∀ n ∈ known, below' n = below n) (depth : Nat) (hnames : ∀ n ∈ names, n ∈ known) :
    within below' depth names = within below depth names := by
  induction depth generalizing names with
  | zero => rfl
  | succ depth ih =>
    have hnext : names.flatMap below' = names.flatMap below :=
      List.flatMap_congr fun n hn => hbelow n (hnames n hn)
    rw [within, within, hnext, ih]
    intro m hm
    obtain ⟨n, hn, hm⟩ := List.mem_flatMap.mp hm
    exact hclosed n (hnames n hn) m hm

end Names

namespace Search

variable {ρ β γ ε : Type} {s : Search ρ β γ ε}

/-! ### Success -/

/-- A request that can be answered: the table holds its name, and the entry's expansion succeeds. -/
def Answerable (s : Search ρ β γ ε) (r : ρ) : Prop :=
  ∃ entry answer, s.table.lookup (s.name r) = some entry ∧ s.expand r entry = .ok answer

/-- A level succeeds if its requests can be answered. -/
theorem exists_level {requests : List ρ} (found : List (String × γ))
    (h : ∀ r ∈ requests, s.Answerable r) : ∃ answer, s.level found requests = .ok answer := by
  induction requests generalizing found with
  | nil => exact ⟨_, level_nil found⟩
  | cons r rest ih =>
    obtain ⟨⟨entry, ⟨result, first⟩, hl, he⟩, hrest⟩ := List.forall_mem_cons.mp h
    unfold level
    split
    · exact ih found hrest
    · obtain ⟨⟨found', later⟩, hlater⟩ := ih (found ++ [(s.name r, result)]) hrest
      refine ⟨(found', first ++ later), ?_⟩
      simp only [hl, he, hlater, bind, Except.bind]
      rfl

/-- A search succeeds if every request that it comes to can be answered. -/
theorem exists_close {start requests : List ρ} (found : List (String × γ))
    (h : ∀ r, s.Reached start r → s.Answerable r) (hr : ∀ r ∈ requests, s.Reached start r) :
    ∃ result, s.close found requests = .ok result := by
  induction found, requests using close.induct (s := s) with
  | case1 found requests e he =>
    obtain ⟨answer, hanswer⟩ := exists_level found fun r hm => h r (hr r hm)
    simp [hanswer] at he
  | case2 found requests found' next hl hlt ih =>
    rw [Search.close, hl]
    simp only [hlt, if_true]
    apply ih
    intro r' hr'
    obtain ⟨r, hm, -, hf⟩ := follows_of_mem_next hl hr'
    exact .step (hr r hm) hf
  | case3 found requests found' next hl hlt =>
    rw [Search.close, hl]
    simp only [hlt, if_false]
    exact ⟨_, rfl⟩

/-- A search succeeds if and only if all requests that are made in its course can be answered. -/
theorem exists_run_iff (hs : s.ByName) {start : List ρ} :
    (∃ found, s.run start = .ok found) ↔ ∀ r, s.Reached start r → s.Answerable r := by
  constructor
  · rintro ⟨found, hfound⟩ r hr
    obtain ⟨-, hmem⟩ := run_eq_ok hs hfound
    obtain ⟨p, hp, hname⟩ := List.mem_map.mp ((hmem (s.name r)).mpr ⟨r, hr, rfl⟩)
    obtain ⟨r', entry, next, hr', hl, he⟩ := answered_of_run hfound p hp
    rw [hname] at hr' hl
    exact ⟨entry, _, hl, hs r' r entry _ hr' he⟩
  · intro h
    exact exists_close [] h fun r hr => .start hr

/-! ### Order -/

/-- The requests that follow from a request are for the names that `below` gives for its name. -/
def FollowsBy (s : Search ρ β γ ε) (below : String → List String) : Prop :=
  ∀ r entry result next, s.table.lookup (s.name r) = some entry →
    s.expand r entry = .ok (result, next) → next.map s.name = below (s.name r)

variable {below : String → List String}

/-- A level finds the new names among those of its requests, and then asks for those below them. -/
theorem names_level (hb : s.FollowsBy below) {requests next : List ρ}
    {found found' : List (String × γ)} (h : s.level found requests = .ok (found', next)) :
    names found' = Names.union (names found) (requests.map s.name) ∧
      next.map s.name = (Names.fresh (names found) (requests.map s.name)).flatMap below := by
  induction requests generalizing found next with
  | nil =>
    simp only [level_nil, Except.ok.injEq, Prod.mk.injEq] at h
    obtain ⟨rfl, rfl⟩ := h
    simp [Names.fresh]
  | cons r rest ih =>
    rw [List.map_cons, Names.union_cons]
    rcases level_cons_eq_ok h with
      ⟨hr, hrest⟩ | ⟨hr, entry, result, first, later, hl, he, hrest, rfl⟩
    · simpa only [Names.insert_of_mem hr, Names.fresh, hr, if_true] using ih hrest
    · obtain ⟨hfound, hlater⟩ := ih hrest
      rw [names_append, names_singleton] at hfound hlater
      simp only [Names.insert, Names.fresh, hr, if_false, List.map_append, List.flatMap_cons]
      exact ⟨hfound, by rw [hlater, hb r entry result first hl he]⟩

/-- What holds of the names between two levels: all names below those that were found are found, or
requested for the next level. -/
theorem closed_level (hb : s.FollowsBy below) {requests next : List ρ}
    {found found' : List (String × γ)} (h : s.level found requests = .ok (found', next))
    (hclosed : ∀ n ∈ names found, ∀ m ∈ below n, m ∈ names found ∨ m ∈ requests.map s.name) :
    ∀ n ∈ names found', ∀ m ∈ below n, m ∈ names found' ∨ m ∈ next.map s.name := by
  obtain ⟨hfound, hnext⟩ := names_level hb h
  intro n hn m hm
  rw [hfound, Names.union_eq_append_fresh, List.mem_append] at hn
  rcases hn with hn | hn
  · exact Or.inl (hfound ▸ Names.mem_union.mpr (hclosed n hn m hm))
  · exact Or.inr (hnext ▸ List.mem_flatMap.mpr ⟨n, hn, hm⟩)

/-- The names that are found from some level on. `level` has the names of that level with those that
are not new, which the search leaves out of its requests. -/
theorem names_close (hb : s.FollowsBy below) {requests : List ρ}
    {found result : List (String × γ)} (h : s.close found requests = .ok result)
    (hclosed : ∀ n ∈ names found, ∀ m ∈ below n, m ∈ names found ∨ m ∈ requests.map s.name)
    {level : List String}
    (hlevel : Names.union (names found) level = Names.union (names found) (requests.map s.name))
    {depth : Nat} (hdepth : s.remaining found < depth) :
    names result = Names.union (names found) (Names.within below depth level) := by
  obtain ⟨depth, rfl⟩ : ∃ d, depth = d + 1 := ⟨depth - 1, by omega⟩
  induction found, requests using close.induct (s := s) generalizing level depth with
  | case1 found requests e he =>
    rw [Search.close, he] at h
    simp at h
  | case2 found requests found' next hl hlt ih =>
    rw [Search.close, hl] at h
    simp only [hlt, if_true] at h
    obtain ⟨hfound, hnext⟩ := names_level hb hl
    have hknown : ∀ n ∈ names found, ∀ m ∈ below n, m ∈ names found' := by
      intro n hn m hm
      exact hfound ▸ Names.mem_union.mpr (hclosed n hn m hm)
    obtain ⟨rest, rfl⟩ : ∃ d, depth = d + 1 := ⟨depth - 1, by omega⟩
    have hdeeper : Names.union (names found') (level.flatMap below) =
        Names.union (names found') (next.map s.name) := by
      rw [hnext, ← Names.fresh_congr hlevel, Names.union_flatMap_fresh level hknown]
    calc names result
        = Names.union (names found') (Names.within below (rest + 1) (level.flatMap below)) :=
          ih h (closed_level hb hl hclosed) hdeeper rest (by omega)
      _ = Names.union (Names.union (names found) level)
            (Names.within below (rest + 1) (level.flatMap below)) := by rw [hlevel, hfound]
      _ = Names.union (names found) (Names.within below (rest + 1 + 1) level) :=
          (Names.union_append _ _ _).symm
  | case3 found requests found' next hl hlt =>
    rw [Search.close, hl] at h
    simp only [hlt, if_false, Except.ok.injEq] at h
    subst h
    obtain ⟨hfound, -⟩ := names_level hb hl
    have hlast := closed_level hb hl hclosed
    simp only [next_eq_nil hl hlt, List.map_nil, List.not_mem_nil, or_false] at hlast
    rw [Names.within, Names.union_append, hlevel, ← hfound]
    refine (Names.union_of_subset (Names.mem_of_mem_within hlast depth ?_)).symm
    intro m hm
    obtain ⟨n, hn, hm⟩ := List.mem_flatMap.mp hm
    refine hlast n ?_ m hm
    rw [hfound, ← hlevel]
    exact Names.mem_union.mpr (Or.inr hn)

/-- A search finds the names of its levels in the order in which they come first. The table has no
name below more levels than it has entries. -/
theorem names_run (hb : s.FollowsBy below) {start : List ρ} {found : List (String × γ)}
    (h : s.run start = .ok found) {depth : Nat} (hdepth : s.table.length < depth) :
    names found = Names.union [] (Names.within below depth (start.map s.name)) := by
  refine names_close hb h (by simp) rfl (Nat.lt_of_le_of_lt ?_ hdepth)
  exact List.countP_le_length

end Search

end QueryBindings
