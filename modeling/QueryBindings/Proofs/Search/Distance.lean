import Mathlib.Data.List.Nodup
import QueryBindings.Proofs.Search.Levels
/-!
How far a search goes, and that it comes to its end.

A name is at some distance from the names that a search starts from: the least number of steps in
which it is reached. A search finds the names of its levels in the order in which they come first,
and all names that are reached within some number of steps stand in the levels up to there. So a
search finds no name ahead of one that is nearer, however often the steps lead back.
-/
namespace QueryBindings

namespace Names

inductive ReachedIn (follows : String → String → Prop) (names : List String) :
    Nat → String → Prop
  | start {n : String} (h : n ∈ names) : ReachedIn follows names 0 n
  | step {d : Nat} {n m : String} (h : ReachedIn follows names d n) (hf : follows n m) :
    ReachedIn follows names (d + 1) m

/-- The least number of steps in which a name is reached. -/
def Distance (follows : String → String → Prop) (names : List String) (d : Nat) (n : String) :
    Prop :=
  ReachedIn follows names d n ∧ ∀ d' < d, ¬ ReachedIn follows names d' n

/-- No name stands ahead of a nearer one. -/
def BreadthFirst (follows : String → String → Prop) (names : List String) (l : List String) :
    Prop :=
  l.Pairwise fun n m => ∀ d d', Distance follows names d n → Distance follows names d' m → d ≤ d'

variable {below : String → List String} {names : List String} {n m : String}

/-- A step ahead of all names is a step behind the first. -/
theorem reachedIn_flatMap_iff {d : Nat} :
    ReachedIn (fun n m => m ∈ below n) (names.flatMap below) d n ↔
      ReachedIn (fun n m => m ∈ below n) names (d + 1) n := by
  constructor
  · intro h
    induction h with
    | start h =>
      obtain ⟨m, hm, hn⟩ := List.mem_flatMap.mp h
      exact .step (.start hm) hn
    | step _ hf ih => exact .step ih hf
  · intro h
    induction d generalizing n with
    | zero =>
      cases h with
      | step h hf =>
        cases h with
        | start h => exact .start (List.mem_flatMap.mpr ⟨_, h, hf⟩)
    | succ d ih =>
      cases h with
      | step h hf => exact .step (ih h) hf

/-- The first levels have the names that are reached in fewer steps. -/
theorem mem_within_iff {depth : Nat} : n ∈ within below depth names ↔
    ∃ d < depth, ReachedIn (fun n m => m ∈ below n) names d n := by
  induction depth generalizing names with
  | zero => simp [within]
  | succ depth ih =>
    rw [within, List.mem_append, ih]
    constructor
    · rintro (hn | ⟨d, hd, hn⟩)
      · exact ⟨0, depth.succ_pos, .start hn⟩
      · exact ⟨d + 1, Nat.succ_lt_succ hd, reachedIn_flatMap_iff.mp hn⟩
    · rintro ⟨d, hd, hn⟩
      cases d with
      | zero =>
        cases hn with
        | start hn => exact Or.inl hn
      | succ d => exact Or.inr ⟨d, Nat.lt_of_succ_lt_succ hd, reachedIn_flatMap_iff.mpr hn⟩

/-- The names within a depth come first within any greater depth. -/
theorem within_prefix {depth depth' : Nat} (h : depth ≤ depth') :
    within below depth names <+: within below depth' names := by
  induction depth generalizing depth' names with
  | zero => exact List.nil_prefix
  | succ depth ih =>
    obtain ⟨rest, rfl⟩ : ∃ d, depth' = d + 1 := ⟨depth' - 1, by omega⟩
    exact (List.prefix_append_right_inj names).mpr (ih (by omega))

/-- A name that comes first before another one is in every part from the front that has the other.
-/
theorem mem_of_sublist_union {a l : List String} (ha : a <+: l)
    (h : [n, m].Sublist (union [] l)) (hm : m ∈ a) : n ∈ a := by
  obtain ⟨b, rfl⟩ := ha
  have hnodup : (union [] (a ++ b)).Nodup := nodup_union List.nodup_nil _
  rw [union_append, union_eq_append_fresh] at h hnodup
  have hfront : ∀ x, x ∈ union [] a ↔ x ∈ a := fun x => by simp
  obtain ⟨front, back, hl, hfrontSub, hbackSub⟩ := List.sublist_append_iff.mp h
  cases front with
  | nil =>
    -- both would be new behind the part that has one of them
    rw [List.nil_append] at hl
    have hback : m ∈ fresh (union [] a) b := hbackSub.subset (hl ▸ by simp)
    exact absurd hback (List.disjoint_of_nodup_append hnodup ((hfront m).mpr hm))
  | cons x front =>
    obtain ⟨rfl, -⟩ := List.cons.inj hl
    exact (hfront n).mp (hfrontSub.subset List.mem_cons_self)

/-- Names of all levels, in the order in which they come first, stand breadth first. -/
theorem breadthFirst_of_within {l : List String} {bound : Nat}
    (h : ∀ depth > bound, l = union [] (within below depth names)) :
    BreadthFirst (fun n m => m ∈ below n) names l := by
  refine List.pairwise_iff_forall_sublist.mpr fun {n m} hnm d d' hn hm => ?_
  have hfront : within below (d' + 1) names <+: within below (bound + d' + 1) names :=
    within_prefix (by omega)
  rw [h (bound + d' + 1) (by omega)] at hnm
  have hn' := mem_of_sublist_union hfront hnm (mem_within_iff.mpr ⟨d', d'.lt_succ_self, hm.1⟩)
  obtain ⟨d'', hd'', hreached⟩ := mem_within_iff.mp hn'
  have hle : d ≤ d'' := Nat.not_lt.mp fun hlt => hn.2 d'' hlt hreached
  omega

end Names

namespace Search

variable {ρ β γ ε : Type} {s : Search ρ β γ ε}

/-- A search finds names breadth first. -/
theorem breadthFirst_names_run {below : String → List String} (hb : s.FollowsBy below)
    {start : List ρ} {found : List (String × γ)} (h : s.run start = .ok found) :
    Names.BreadthFirst (fun n m => m ∈ below n) (start.map s.name) (names found) :=
  Names.breadthFirst_of_within fun _ hdepth => names_run hb h hdepth

/-! ### The end of a search -/

/-- How a loop ends that goes on with the next level as long as any request is left. -/
inductive Ends (s : Search ρ β γ ε) :
    List (String × γ) → List ρ → Except ε (List (String × γ)) → Prop
  | done {found : List (String × γ)} : Ends s found [] (.ok found)
  | fail {found : List (String × γ)} {requests : List ρ} {e : ε} (hr : requests ≠ [])
      (h : s.level found requests = .error e) : Ends s found requests (.error e)
  | next {found found' : List (String × γ)} {requests next : List ρ}
      {r : Except ε (List (String × γ))} (hr : requests ≠ [])
      (h : s.level found requests = .ok (found', next)) (hn : Ends s found' next r) :
    Ends s found requests r

theorem ne_nil_of_level {found : List (String × γ)} {requests : List ρ}
    {answer : Except ε (List (String × γ) × List ρ)} (h : s.level found requests = answer)
    (ha : answer ≠ .ok (found, [])) : requests ≠ [] := by
  rintro rfl
  exact ha (h.symm.trans (level_nil found))

/-- The loop ends, with the result of the search. -/
theorem ends_close (s : Search ρ β γ ε) (found : List (String × γ)) (requests : List ρ) :
    s.Ends found requests (s.close found requests) := by
  induction found, requests using close.induct (s := s) with
  | case1 found requests e he =>
    rw [close, he]
    exact .fail (ne_nil_of_level he (by simp)) he
  | case2 found requests found' next hl hlt ih =>
    have hfound : found' ≠ found := by
      rintro rfl
      exact absurd hlt (Nat.lt_irrefl _)
    rw [close, hl]
    simp only [hlt, if_true]
    exact .next (ne_nil_of_level hl (by simp [hfound])) hl ih
  | case3 found requests found' next hl hlt =>
    rw [close, hl]
    simp only [hlt, if_false]
    obtain rfl := next_eq_nil hl hlt
    cases requests with
    | nil =>
      obtain ⟨rfl, -⟩ := Prod.mk.inj (Except.ok.inj ((level_nil found).symm.trans hl))
      exact .done
    | cons r rest => exact .next (by simp) hl .done

/-- A loop ends in one way only. -/
theorem Ends.unique {found : List (String × γ)} {requests : List ρ}
    {r r' : Except ε (List (String × γ))} (h : s.Ends found requests r)
    (h' : s.Ends found requests r') : r = r' := by
  induction h with
  | done =>
    cases h' with
    | done => rfl
    | fail hr | next hr => exact absurd rfl hr
  | fail hr he =>
    cases h' with
    | done => exact absurd rfl hr
    | fail _ he' => exact congrArg _ (Except.error.inj (he.symm.trans he'))
    | next _ hl => simp [he] at hl
  | next hr hl _ ih =>
    cases h' with
    | done => exact absurd rfl hr
    | fail _ he => simp [hl] at he
    | next _ hl' h' =>
      obtain ⟨rfl, rfl⟩ := Prod.mk.inj (Except.ok.inj (hl.symm.trans hl'))
      exact ih h'

/-- The loop ends in one way only, and a search finds out how. -/
theorem ends_iff {start : List ρ} {r : Except ε (List (String × γ))} :
    s.Ends [] start r ↔ s.run start = r := by
  constructor
  · exact fun h => (s.ends_close [] start).unique h
  · rintro rfl
    exact s.ends_close [] start

end Search

end QueryBindings
