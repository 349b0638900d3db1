import Mathlib.Data.List.Lex
import Mathlib.Data.Prod.Lex
import Mathlib.Data.String.Basic
import QueryBindings.Files.Path
/-!
The order of paths as a linear order on what paths are compared by.

Paths of the same components are not told apart. All other paths stand before or behind each other,
so a list of paths with different components can be put into increasing order in one way only.
-/
namespace QueryBindings.Path

namespace Component

def key (c : Component) : Nat ×ₗ String := toLex (c.rank, c.text)

theorem key_injective : Function.Injective key := by
  intro a b h
  cases a <;> cases b <;> simp_all [key, rank, text]

theorem lt_iff {a b : Component} : a.lt b = true ↔ a.key < b.key := by
  simp [lt, key, Prod.Lex.toLex_lt_toLex]

end Component

/-- Components are compared by their keys, the first difference counts. -/
theorem componentsLt_iff {as bs : List Component} :
    componentsLt as bs = true ↔ as.map Component.key < bs.map Component.key := by
  induction as generalizing bs with
  | nil => cases bs <;> simp [componentsLt]
  | cons a as ih =>
    cases bs with
    | nil => simp [componentsLt]
    | cons b bs =>
      simp [componentsLt, List.cons_lt_cons_iff, Component.lt_iff, ih,
        Component.key_injective.eq_iff]

def sortKey (path : String) : List (Nat ×ₗ String) := (components path).map Component.key

theorem lt_iff {s t : String} : lt s t = true ↔ sortKey s < sortKey t := componentsLt_iff

theorem sortKey_eq_iff {s t : String} : sortKey s = sortKey t ↔ components s = components t :=
  Component.key_injective.list_map.eq_iff

/-! ### Increasing lists of paths -/

variable {s t : String} {paths paths' : List String}

/-- Sorted paths have increasing keys. -/
theorem pairwise_sort (paths : List String) :
    (sort paths).Pairwise fun s t => sortKey s ≤ sortKey t := by
  have hle : ∀ s t, (!lt t s) = true ↔ sortKey s ≤ sortKey t := by
    intro s t
    rw [Bool.not_eq_true', Bool.eq_false_iff, ne_eq, lt_iff, not_lt]
  refine (List.pairwise_mergeSort ?_ ?_ paths).imp fun {s t} h => (hle s t).mp h
  · intro s t u hst htu
    rw [hle] at hst htu ⊢
    exact hst.trans htu
  · intro s t
    rw [Bool.or_eq_true, hle, hle]
    exact le_total _ _

/-- Paths of different components are put into strictly increasing order. -/
theorem sort_increasing (h : paths.Pairwise fun s t => components s ≠ components t) :
    (sort paths).Pairwise fun s t => lt s t = true := by
  have hne : (sort paths).Pairwise fun s t => components s ≠ components t :=
    h.perm (List.mergeSort_perm paths _).symm fun hst => hst.symm
  refine ((pairwise_sort paths).and hne).imp fun {s t} hst => ?_
  exact lt_iff.mpr (lt_of_le_of_ne hst.1 fun heq => hst.2 (sortKey_eq_iff.mp heq))

theorem components_ne_of_lt (h : lt s t = true) : components s ≠ components t :=
  fun hc => (lt_iff.mp h).ne (sortKey_eq_iff.mpr hc)

/-- Strictly increasing lists of the same paths are the same. -/
theorem eq_of_increasing (h : paths.Pairwise fun s t => lt s t = true)
    (h' : paths'.Pairwise fun s t => lt s t = true) (hmem : ∀ s, s ∈ paths ↔ s ∈ paths') :
    paths = paths' := by
  have hnodup : ∀ {l : List String}, l.Pairwise (fun s t => lt s t = true) → l.Nodup :=
    fun hl => hl.imp fun hst heq => components_ne_of_lt hst (congrArg components heq)
  have hperm := (List.perm_ext_iff_of_nodup (hnodup h) (hnodup h')).mpr hmem
  refine List.Perm.eq_of_pairwise (fun s t _ _ hst hts => ?_) h h' hperm
  exact absurd (lt_iff.mp hts) (lt_iff.mp hst).asymm

/-- Sorting leaves the paths in their strictly increasing order, if there is one. -/
theorem sort_eq_of_increasing (hp : paths.Perm paths')
    (h : paths'.Pairwise fun s t => lt s t = true) : sort paths = paths' := by
  have hne : paths'.Pairwise fun s t => components s ≠ components t := h.imp components_ne_of_lt
  have hsort := sort_increasing (hne.perm hp.symm fun hst => hst.symm)
  exact eq_of_increasing hsort h fun s => ((List.mergeSort_perm _ _).trans hp).mem_iff

end QueryBindings.Path
