import Mathlib.Data.List.Perm.Basic
/-!
Tables, as lists of names and values.

A name is looked up as its first entry. In a table that holds every name once, that is the only one,
and the order of the entries doesn't matter.
-/
namespace QueryBindings

theorem mem_of_lookup_eq_some {β : Type} {l : List (String × β)} {name : String} {b : β}
    (h : l.lookup name = some b) : (name, b) ∈ l := by
  obtain ⟨before, after, rfl, -⟩ := List.lookup_eq_some_iff.mp h
  simp

/-- If no name comes twice, an entry is found by its name. -/
theorem lookup_eq_some_of_mem {β : Type} {l : List (String × β)} (h : (l.map (·.1)).Nodup)
    {name : String} {b : β} (hm : (name, b) ∈ l) : l.lookup name = some b := by
  obtain ⟨before, after, rfl⟩ := List.append_of_mem hm
  refine List.lookup_eq_some_iff.mpr ⟨before, after, rfl, ?_⟩
  intro p hp
  rw [List.map_append, List.nodup_append] at h
  have hne := h.2.2 p.1 (List.mem_map_of_mem hp) name (by simp)
  exact bne_iff_ne.mpr hne.symm

theorem lookup_eq_some_iff_mem {β : Type} {l : List (String × β)} (h : (l.map (·.1)).Nodup)
    {name : String} {b : β} : l.lookup name = some b ↔ (name, b) ∈ l :=
  ⟨mem_of_lookup_eq_some, lookup_eq_some_of_mem h⟩

/-- The order of a table doesn't matter if it holds every name once. -/
theorem lookup_eq_of_perm {β : Type} {l l' : List (String × β)} (h : l.Perm l')
    (hn : (l.map (·.1)).Nodup) (name : String) : l'.lookup name = l.lookup name := by
  have hn' : (l'.map (·.1)).Nodup := (h.map _).nodup_iff.mp hn
  refine Option.ext fun b => ?_
  rw [lookup_eq_some_iff_mem hn, lookup_eq_some_iff_mem hn', h.mem_iff]

end QueryBindings
