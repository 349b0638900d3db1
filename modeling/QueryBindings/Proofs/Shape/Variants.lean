import Mathlib.Data.List.Induction
import QueryBindings.Proofs.Shape.FieldMerging
/-!
Selections on a union, member by member.

Inline fragments and spreads select the members of a union in any order, and several of them may
select the same member. Each is resolved on its own and then merged into the variant of its member.
For compatible selections a variant is what the branches on its member select together, written one
after the other, and what is selected on other members has no part in it.
-/
namespace QueryBindings

open Schema (Agrees)

/-- A name that is new stands behind the others, and one that is there stays where it is. -/
theorem Names.union_nil_eq_eraseDups (l : List String) : Names.union [] l = l.eraseDups := by
  induction l using List.reverseRecOn with
  | nil => rfl
  | append_singleton l a ih =>
    rw [Names.union_append, ih, List.eraseDups_append]
    by_cases h : a ∈ l
    · simp [Names.insert, List.removeAll, h]
    · simp [Names.insert, List.removeAll, h, List.eraseDups_cons]

namespace Selection

/-- What a selection on a union has for the member that it selects: the selections in an inline
fragment, or a spread itself. -/
def branch : Selection → List Selection
  | .field _ _ _ _ _ _ => []
  | .spread p f d => [.spread p f d]
  | .inline _ _ _ l => l

def spread? : Selection → Option String
  | .field _ _ _ _ _ _ => none
  | .spread _ f _ => some f
  | .inline _ _ _ _ => none

end Selection

namespace Scope

/-- The type that a selection is meant for: the one that an inline fragment names, or the condition
of a spread fragment. -/
def condition? (s : Scope) : Selection → Option String
  | .field _ _ _ _ _ _ => none
  | .spread _ f _ => s.conditions.lookup f
  | .inline _ condition? _ _ => condition?

def selectedMember? (s : Scope) (union : UnionType) (x : Selection) : Option String :=
  (s.condition? x).filter (union.members.contains ·)

def branchesOn (s : Scope) (union : UnionType) (member : String) (l : List Selection) :
    List Selection :=
  (l.filter (s.selectedMember? union · = some member)).flatMap Selection.branch

variable {s : Scope} {union : UnionType} {path : List String} {member : String}
  {x : Selection} {l : List Selection} {c : List Contribution}

/-! ### Branches -/

theorem branchesOn_concat (l : List Selection) (h : s.selectedMember? union x = some member) :
    s.branchesOn union member (l ++ [x]) = s.branchesOn union member l ++ x.branch := by
  simp [branchesOn, h]

theorem branchesOn_concat_of_ne (l : List Selection) (h : s.selectedMember? union x ≠ some member) :
    s.branchesOn union member (l ++ [x]) = s.branchesOn union member l := by
  simp [branchesOn, h]

/-- Where no selection selects a member, it has no branches. -/
theorem branchesOn_eq_nil (h : member ∉ l.filterMap (s.selectedMember? union)) :
    s.branchesOn union member l = [] := by
  rw [List.mem_filterMap] at h
  simp only [branchesOn, List.flatMap_eq_nil_iff, List.mem_filter, decide_eq_true_eq]
  rintro x ⟨hx, hm⟩
  exact absurd ⟨x, hx, hm⟩ h

/-- Where the branch of a selection lands on its member, the selection lands below the member. -/
theorem agrees_branch {t : FieldedType} {fieldAt : List String → String}
    (ht : s.schema.object? member = some t) (hm : s.selectedMember? union x = some member)
    (h : Agrees fieldAt (s.schema.landedIn union x)) :
    Agrees (fieldAt <| member :: ·) (s.schema.landedAll t x.branch) := by
  cases x with
  | field => simp [Selection.branch]
  | spread => simp [Selection.branch, Schema.landed]
  | inline p condition? d l =>
    obtain ⟨rfl, hmember⟩ := Option.filter_eq_some_iff.mp hm
    simpa only [Schema.landedIn, hmember, if_true, ht, Schema.agrees_under, Selection.branch]
      using h

/-- The branches on a member of compatible selections are compatible. -/
theorem agrees_branchesOn {t : FieldedType} {fieldAt : List String → String}
    (ht : s.schema.object? member = some t)
    (h : Agrees fieldAt (s.schema.landedInAll union l)) :
    Agrees (fieldAt <| member :: ·) (s.schema.landedAll t (s.branchesOn union member l)) := by
  rw [Schema.agrees_landedAll_iff]
  intro y hy
  obtain ⟨x, hx, hy⟩ := List.mem_flatMap.mp hy
  obtain ⟨hx, hm⟩ := List.mem_filter.mp hx
  have hbranch := agrees_branch ht (of_decide_eq_true hm) (Schema.agrees_landedInAll h x hx)
  exact Schema.agrees_landedAll_iff.mp hbranch y hy

/-! ### One selection -/

/-- The variant of an inline fragment has the shape of the selections in it. -/
theorem inlineVariant?_eq_some {n : Node} (h : s.inlineVariant? path member l = some n) :
    ∃ t selected, s.schema.object? member = some t ∧
      s.objectShape? t (path ++ [member]) l = some selected ∧
      n = .variant path member selected := by
  obtain ⟨t, ht, hn⟩ := Option.bind_eq_some_iff.mp h
  obtain ⟨selected, hs, rfl⟩ := Option.map_eq_some_iff.mp hn
  exact ⟨t, selected, ht, hs, rfl⟩

theorem name_of_inlineVariant? {n : Node} (h : s.inlineVariant? path member l = some n) :
    n.name = member := by
  obtain ⟨t, selected, -, -, rfl⟩ := inlineVariant?_eq_some h
  rfl

/-- The variant of two branches on a member is made of the variants of both. -/
theorem inlineVariant?_append {a b : List Selection} {fieldAt : List String → String}
    (ha : ∀ t, s.schema.object? member = some t → Agrees fieldAt (s.schema.landedAll t a))
    (hb : ∀ t, s.schema.object? member = some t → Agrees fieldAt (s.schema.landedAll t b)) :
    s.inlineVariant? path member (a ++ b) =
      (s.inlineVariant? path member a).bind fun v =>
        (s.inlineVariant? path member b).map fun w => w.mergeInto v := by
  unfold inlineVariant?
  cases ht : s.schema.object? member with
  | none => rfl
  | some t =>
    simp only [Option.bind_some, objectShape?_append (ha t ht) (hb t ht)]
    cases s.objectShape? t (path ++ [member]) a <;> cases s.objectShape? t (path ++ [member]) b <;>
      simp [Node.variant, Node.mergeInto, Selected.append, NodeHead.addFragments]

/-- A selection on a union records the fragment that it spreads, and contributes the variant of its
branch if it selects a member. -/
theorem unionPart?_eq_some (h : s.unionPart? union path x = some c) :
    Contribution.spreadsOf c = x.spread?.toList ∧
      ((s.selectedMember? union x = none ∧ Contribution.nodesOf c = []) ∨
        ∃ member n, s.selectedMember? union x = some member ∧
          s.inlineVariant? path member x.branch = some n ∧ Contribution.nodesOf c = [n]) := by
  cases x with
  | field p alias? name a d l =>
    simp only [unionPart?_field, Option.ite_none_right_eq_some, Option.some.injEq] at h
    obtain ⟨-, rfl⟩ := h
    exact ⟨rfl, .inl ⟨rfl, rfl⟩⟩
  | spread p f d =>
    rw [unionPart?_spread] at h
    cases hm : s.spreadMember? union f with
    | none =>
      simp only [hm, Option.some.injEq] at h
      subst h
      exact ⟨rfl, .inl ⟨hm, rfl⟩⟩
    | some member =>
      simp only [hm, Option.map_eq_some_iff] at h
      obtain ⟨t, ht, rfl⟩ := h
      refine ⟨rfl, .inr ⟨member, _, hm, ?_, rfl⟩⟩
      simp [inlineVariant?, ht, Selection.branch, objectShape?, parts?_cons,
        Selected.ofContributions_eq, Names.insert]
  | inline p condition? d l =>
    cases condition? with
    | none =>
      simp only [unionPart?_inline_none, Option.some.injEq] at h
      subst h
      exact ⟨rfl, .inl ⟨rfl, rfl⟩⟩
    | some member =>
      rw [unionPart?_inline_some] at h
      by_cases hm : union.members.contains member = true
      · simp only [hm, if_true, Option.map_eq_some_iff] at h
        obtain ⟨n, hn, rfl⟩ := h
        refine ⟨rfl, .inr ⟨member, n, ?_, hn, rfl⟩⟩
        exact Option.filter_eq_some_iff.mpr ⟨rfl, hm⟩
      · simp only [hm, if_false, Bool.false_eq_true, Option.some.injEq] at h
        subst h
        exact ⟨rfl, .inl ⟨by simpa [selectedMember?, condition?] using hm, rfl⟩⟩

/-! ### One selection after the other -/

theorem unionParts?_concat_eq_some (h : s.unionParts? union path (l ++ [x]) = some c) :
    ∃ a b, s.unionParts? union path l = some a ∧ s.unionPart? union path x = some b ∧
      c = a ++ b := by
  rw [unionParts?_append] at h
  obtain ⟨a, ha, h⟩ := Option.bind_eq_some_iff.mp h
  obtain ⟨b, hb, rfl⟩ := Option.map_eq_some_iff.mp h
  refine ⟨a, b, ha, ?_, rfl⟩
  rw [unionParts?_cons, unionParts?_nil] at hb
  obtain ⟨b', hb', hb⟩ := Option.bind_eq_some_iff.mp hb
  simp_all

/-- Every spread on a union is contributed, whether or not it selects a member. -/
theorem spreadsOf_unionParts? (h : s.unionParts? union path l = some c) :
    Contribution.spreadsOf c = l.filterMap Selection.spread? := by
  induction l using List.reverseRecOn generalizing c with
  | nil =>
    simp only [unionParts?_nil, Option.some.injEq] at h
    simp [← h]
  | append_singleton l x ih =>
    obtain ⟨a, b, ha, hb, rfl⟩ := unionParts?_concat_eq_some h
    rw [Contribution.spreadsOf_append, ih ha, (unionPart?_eq_some hb).1, List.filterMap_append]
    cases hx : x.spread? <;> simp [hx]

/-- Members in pairs with their nodes stay so when another node is merged, and only the pair of the
node's own member changes. -/
theorem forall₂_mergeOne {r r' : String → Node → Prop} {members : List String} {nodes : List Node}
    {n : Node} (h : List.Forall₂ r members nodes) (hnodup : members.Nodup)
    (hname : ∀ m e, r m e → e.name = m) (hother : ∀ m e, m ≠ n.name → r m e → r' m e)
    (hmerge : ∀ e, r n.name e → r' n.name (n.mergeInto e))
    (hnew : n.name ∉ members → r' n.name n) :
    List.Forall₂ r' (Names.insert members n.name) (Node.mergeOne nodes n) := by
  induction h with
  | nil => exact .cons (hnew (by simp)) .nil
  | @cons m e members nodes hme hrest ih =>
    obtain rfl := hname m e hme
    obtain ⟨hm, hrestnodup⟩ := List.nodup_cons.mp hnodup
    by_cases heq : e.name = n.name
    · rw [Names.insert_of_mem (by simp [heq]), Node.mergeOne_cons_of_eq nodes heq]
      refine .cons (heq ▸ hmerge e (heq ▸ hme)) ?_
      exact List.Forall₂.imp_of_mem hrest fun m' hm' e' _ h' =>
        hother m' e' (fun he => hm (heq.trans he.symm ▸ hm')) h'
    · rw [Node.mergeOne_cons_of_ne nodes heq]
      have hinsert : Names.insert (e.name :: members) n.name =
          e.name :: Names.insert members n.name := by
        by_cases hmem : n.name ∈ members <;> simp [Names.insert, hmem, Ne.symm heq]
      rw [hinsert]
      exact .cons (hother e.name e heq hme)
        (ih hrestnodup fun hfresh => hnew (by simp [hfresh, Ne.symm heq]))

/-- The variants are those of the selected members, each made of all branches on its member. -/
theorem variants_of_unionParts? {fieldAt : List String → String}
    (hag : Agrees fieldAt (s.schema.landedInAll union l))
    (h : s.unionParts? union path l = some c) :
    List.Forall₂
      (fun member n => s.inlineVariant? path member (s.branchesOn union member l) = some n)
      (Names.union [] (l.filterMap (s.selectedMember? union)))
      (Node.mergeAllInto (Contribution.nodesOf c) []) := by
  -- The last selection is merged into variants that are there, so the induction is from behind.
  induction l using List.reverseRecOn generalizing c with
  | nil =>
    simp only [unionParts?_nil, Option.some.injEq] at h
    simp [← h]
  | append_singleton l x ih =>
    obtain ⟨a, b, ha, hb, rfl⟩ := unionParts?_concat_eq_some h
    rw [Schema.landedInAll_append, Schema.agrees_append] at hag
    have hrest := ih hag.1 ha
    rw [Contribution.nodesOf_append, Node.mergeAllInto_append, List.filterMap_append,
      Names.union_append]
    obtain ⟨hm, hnodes⟩ | ⟨member, n, hm, hn, hnodes⟩ := (unionPart?_eq_some hb).2
    · simp only [hnodes, hm, List.filterMap_cons_none, List.filterMap_nil, Names.union_nil,
        Node.mergeAllInto_nil]
      exact hrest.imp fun m e he => by rwa [branchesOn_concat_of_ne l (by simp [hm])]
    · obtain rfl := name_of_inlineVariant? hn
      simp only [hnodes, List.filterMap_cons_some hm, List.filterMap_nil, Names.union_cons,
        Names.union_nil, Node.mergeAllInto_cons, Node.mergeAllInto_nil]
      have hx : Agrees fieldAt (s.schema.landedIn union x) := by simpa using hag.2
      refine forall₂_mergeOne hrest (Names.nodup_union List.nodup_nil _)
        (fun m e he => name_of_inlineVariant? he) ?_ ?_ ?_
      · intro m e hne he
        rwa [branchesOn_concat_of_ne l (by simpa [hm] using hne.symm)]
      · intro e he
        rw [branchesOn_concat l hm, inlineVariant?_append
          (fun t ht => agrees_branchesOn ht hag.1) (fun t ht => agrees_branch ht hm hx), he, hn]
        rfl
      · intro hfresh
        rw [branchesOn_concat l hm, branchesOn_eq_nil (by simpa using hfresh)]
        exact hn

/-- Selections on a union are resolved if and only if they have a shape, which is the result. -/
theorem toOption_selectOnUnion (s : Scope) (union : UnionType) (path : List String)
    (l : List Selection) :
    (s.selectOnUnion union path l).toOption = s.unionShape? union path l := by
  simp only [selectOnUnion, unionShape?, unionParts?, Except.toOption_bind]
  cases (s.onUnionAll union path l).toOption <;> rfl

/-- Selections on a union have one variant for each member that they select, in the order in which
the members come first, and the variant has the shape of all branches on its member together. Every
fragment that is spread is recorded, whether or not it selects a member. -/
theorem variants_of_selectOnUnion (s : Scope) (union : UnionType) (path : List String)
    (l : List Selection) (shape : Selected) (hl : s.schema.CompatibleIn union l)
    (h : s.selectOnUnion union path l = .ok shape) :
    shape.fragments = (l.filterMap Selection.spread?).eraseDups ∧
      List.Forall₂ (fun member variant => ∃ t selected, s.schema.object? member = some t ∧
          s.selectOnObject t (path ++ [member]) (s.branchesOn union member l) = .ok selected ∧
          variant = .object ⟨member, path, [], selected.fragments, some member⟩ selected.nodes)
        (l.filterMap (s.selectedMember? union)).eraseDups shape.nodes := by
  obtain ⟨fieldAt, hag⟩ := Schema.exists_agrees_of_unique hl
  have hshape := toOption_selectOnUnion s union path l
  rw [h] at hshape
  obtain ⟨c, hc, rfl⟩ := Option.map_eq_some_iff.mp hshape.symm
  rw [Selected.fragments_ofContributions, Selected.nodes_ofContributions, spreadsOf_unionParts? hc,
    ← Names.union_nil_eq_eraseDups, ← Names.union_nil_eq_eraseDups]
  refine ⟨rfl, (variants_of_unionParts? hag hc).imp fun member variant hv => ?_⟩
  obtain ⟨t, selected, ht, hs, rfl⟩ := inlineVariant?_eq_some hv
  refine ⟨t, selected, ht, ?_, rfl⟩
  rw [← Except.toOption_eq_some, toOption_selectOnObject]
  exact hs

def samplePet : UnionType := ⟨"Pet", ⟨none, 1, 1⟩, ["Cat", "Dog"]⟩

/-- Branches on cats and dogs in turns, `F` on a cat, `G` on nothing that is known, and an inline
fragment on an owner, which is no pet. -/
def sampleBranches : List Selection :=
  let field (name : String) (l : List Selection) : Selection := .field .start none name [] [] l
  let on (member : String) (l : List Selection) : Selection := .inline .start (some member) [] l
  [on "Dog" [field "name" []], .spread .start "F" [], field "__typename" [],
    on "Cat" [field "mother" [field "name" []]], .spread .start "G" [],
    on "Owner" [field "undefined" []], on "Dog" [.spread .start "H" [], field "name" []],
    on "Cat" [field "mother" [.spread .start "F" [], field "mother" [field "name" []]]],
    .spread .start "F" []]

theorem variants_of_selectOnUnion_sample :
    sampleScope.schema.CompatibleIn samplePet sampleBranches ∧
      ∃ shape, sampleScope.selectOnUnion samplePet ["Q", "pet"] sampleBranches = .ok shape ∧
        shape.fragments = ["F", "G"] ∧
        List.Forall₂ (fun member variant =>
            ∃ t selected, sampleScope.schema.object? member = some t ∧
              sampleScope.selectOnObject t (["Q", "pet"] ++ [member])
                (sampleScope.branchesOn samplePet member sampleBranches) = .ok selected ∧
              variant =
                .object ⟨member, ["Q", "pet"], [], selected.fragments, some member⟩ selected.nodes)
          ["Dog", "Cat"] shape.nodes := by
  have hcompatible : sampleScope.schema.CompatibleIn samplePet sampleBranches := by decide +kernel
  have hsome :
      (sampleScope.selectOnUnion samplePet ["Q", "pet"] sampleBranches).toOption.isSome := by
    decide +kernel
  obtain ⟨shape, hshape⟩ := Option.isSome_iff_exists.mp hsome
  rw [Except.toOption_eq_some] at hshape
  obtain ⟨hfragments, hvariants⟩ := variants_of_selectOnUnion sampleScope samplePet ["Q", "pet"]
    sampleBranches shape hcompatible hshape
  have hspreads : (sampleBranches.filterMap Selection.spread?).eraseDups = ["F", "G"] := by
    decide +kernel
  have hmembers : (sampleBranches.filterMap (sampleScope.selectedMember? samplePet)).eraseDups =
      ["Dog", "Cat"] := by decide +kernel
  exact ⟨hcompatible, shape, hshape, hfragments.trans hspreads, hmembers ▸ hvariants⟩

end Scope

end QueryBindings
