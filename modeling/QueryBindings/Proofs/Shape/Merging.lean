import QueryBindings.Shape.Merge
/-!
How merging nodes behaves.

Merging keeps the names of the nodes in a list apart, and gives the names in the order in which they
came first. As long as nodes at the same place are of the same kind, it loses nothing that is
recorded below them, and it does not matter which of three lists are merged first.

The kinds are given by a function from the path of names that leads to a node, so that one function
says it for all trees that meet in a merge.
-/
namespace QueryBindings

namespace Node

inductive Kind
  | leaf
  | object
  | union
deriving DecidableEq

mutual

/-- No two siblings have the same name, at any depth. -/
def Distinct : Node → Prop
  | leaf _ _ => True
  | object _ fields => DistinctAll fields
  | union _ variants => DistinctAll variants

def DistinctAll : List Node → Prop
  | [] => True
  | n :: rest => n.name ∉ rest.map name ∧ n.Distinct ∧ DistinctAll rest

end

mutual

/-- Every node has the kind that `kindAt` gives to the names that lead to it. -/
def Conforms (kindAt : List String → Kind) : Node → Prop
  | leaf h _ => kindAt [h.name] = .leaf
  | object h fields => kindAt [h.name] = .object ∧ ConformAll (kindAt <| h.name :: ·) fields
  | union h variants => kindAt [h.name] = .union ∧ ConformAll (kindAt <| h.name :: ·) variants

def ConformAll (kindAt : List String → Kind) : List Node → Prop
  | [] => True
  | n :: rest => n.Conforms kindAt ∧ ConformAll kindAt rest

end

@[simp] theorem distinct_leaf (h : NodeHead) (t : String) : (leaf h t).Distinct := by simp [Distinct]

@[simp] theorem distinct_object (h : NodeHead) (l : List Node) :
    (object h l).Distinct ↔ DistinctAll l := by simp [Distinct]

@[simp] theorem distinct_union (h : NodeHead) (l : List Node) :
    (union h l).Distinct ↔ DistinctAll l := by simp [Distinct]

@[simp] theorem conforms_leaf (kindAt : List String → Kind) (h : NodeHead) (t : String) :
    (leaf h t).Conforms kindAt ↔ kindAt [h.name] = .leaf := by simp [Conforms]

@[simp] theorem conforms_object (kindAt : List String → Kind) (h : NodeHead) (l : List Node) :
    (object h l).Conforms kindAt ↔
      kindAt [h.name] = .object ∧ ConformAll (kindAt <| h.name :: ·) l := by simp [Conforms]

@[simp] theorem conforms_union (kindAt : List String → Kind) (h : NodeHead) (l : List Node) :
    (union h l).Conforms kindAt ↔
      kindAt [h.name] = .union ∧ ConformAll (kindAt <| h.name :: ·) l := by simp [Conforms]

@[simp] theorem distinctAll_nil : DistinctAll [] := trivial

@[simp] theorem distinctAll_cons {n : Node} {rest : List Node} :
    DistinctAll (n :: rest) ↔ n.name ∉ rest.map name ∧ n.Distinct ∧ DistinctAll rest := by
  simp [DistinctAll]

@[simp] theorem conformAll_nil (kindAt : List String → Kind) : ConformAll kindAt [] := trivial

@[simp] theorem conformAll_cons {kindAt : List String → Kind} {n : Node} {rest : List Node} :
    ConformAll kindAt (n :: rest) ↔ n.Conforms kindAt ∧ ConformAll kindAt rest := by
  simp [ConformAll]

theorem distinctAll_iff {l : List Node} :
    DistinctAll l ↔ (l.map name).Nodup ∧ ∀ n ∈ l, n.Distinct := by
  induction l with
  | nil => simp
  | cons n rest ih =>
    simp only [distinctAll_cons, ih, List.map_cons, List.nodup_cons, List.forall_mem_cons]
    constructor
    · rintro ⟨hn, hd, hr, ha⟩; exact ⟨⟨hn, hr⟩, hd, ha⟩
    · rintro ⟨⟨hn, hr⟩, hd, ha⟩; exact ⟨hn, hd, hr, ha⟩

@[simp] theorem conformAll_append {kindAt : List String → Kind} {a b : List Node} :
    ConformAll kindAt (a ++ b) ↔ ConformAll kindAt a ∧ ConformAll kindAt b := by
  induction a with
  | nil => simp
  | cons n a ih => simp [ih, and_assoc]

/-! ### One node -/

theorem head_mergeInto (n e : Node) :
    (mergeInto n e).head = e.head.addFragments n.head.fragments := by
  cases n <;> cases e <;> simp [mergeInto]

@[simp] theorem name_mergeInto (n e : Node) : (mergeInto n e).name = e.name := by
  simp [name, head_mergeInto, NodeHead.addFragments]

@[simp] theorem mergeOne_nil (n : Node) : mergeOne [] n = [n] := rfl

theorem mergeOne_cons_of_eq {n e : Node} (rest : List Node) (h : e.name = n.name) :
    mergeOne (e :: rest) n = mergeInto n e :: rest := by simp [mergeOne, upsert, h]

theorem mergeOne_cons_of_ne {n e : Node} (rest : List Node) (h : e.name ≠ n.name) :
    mergeOne (e :: rest) n = e :: mergeOne rest n := by simp [mergeOne, upsert, h]

/-- A node that is merged adds its name if it is new. -/
theorem map_name_mergeOne (l : List Node) (n : Node) :
    (mergeOne l n).map name = Names.insert (l.map name) n.name := by
  induction l with
  | nil => rfl
  | cons e rest ih =>
    by_cases h : e.name = n.name
    · rw [mergeOne_cons_of_eq rest h, Names.insert_of_mem (by simp [h])]
      simp
    · rw [mergeOne_cons_of_ne rest h, List.map_cons, ih]
      have hne : n.name ≠ e.name := fun he => h he.symm
      by_cases hr : n.name ∈ rest.map name
      · rw [Names.insert_of_mem hr, Names.insert_of_mem (by simp only [List.map_cons]; simp_all)]
        rfl
      · simp only [Names.insert, hr, if_false, List.map_cons, List.mem_cons, hne, or_self]
        rfl

/-- Nodes that are merged add the names that are new. -/
theorem map_name_mergeAllInto (incoming l : List Node) :
    (mergeAllInto incoming l).map name = Names.union (l.map name) (incoming.map name) := by
  induction incoming generalizing l with
  | nil => simp
  | cons n rest ih => simp [ih, map_name_mergeOne]

@[simp] theorem mergeAllInto_append (a b l : List Node) :
    mergeAllInto (a ++ b) l = mergeAllInto b (mergeAllInto a l) := by
  simp [mergeAllInto_eq_foldl, List.foldl_append]

/-! ### Distinct names -/

/-- All nodes have a property after merging if they had it before and merging two nodes keeps it. -/
theorem forall_mem_mergeOne {p : Node → Prop} {l : List Node} {n : Node} (hl : ∀ e ∈ l, p e)
    (hn : p n) (hm : ∀ e ∈ l, e.name = n.name → p (mergeInto n e)) :
    ∀ e ∈ mergeOne l n, p e := by
  induction l with
  | nil => simpa using hn
  | cons e rest ih =>
    simp only [List.forall_mem_cons] at hl hm
    by_cases h : e.name = n.name
    · rw [mergeOne_cons_of_eq rest h]
      exact List.forall_mem_cons.mpr ⟨hm.1 h, hl.2⟩
    · rw [mergeOne_cons_of_ne rest h]
      exact List.forall_mem_cons.mpr ⟨hl.1, ih hl.2 hm.2⟩

mutual

theorem distinct_mergeInto : (n e : Node) → n.Distinct → e.Distinct → (mergeInto n e).Distinct
  | leaf _ _, e, _, he => by cases e <;> simp_all [mergeInto, withHead, Distinct]
  | object _ fields, e, hn, he => by
    cases e with
    | leaf | union => simp_all [mergeInto, withHead, Distinct]
    | object _ fields' =>
      simp only [mergeInto, Distinct] at hn he ⊢
      exact distinctAll_mergeAllInto fields fields' hn he
  | union _ variants, e, hn, he => by
    cases e with
    | leaf | object => simp_all [mergeInto, withHead, Distinct]
    | union _ variants' =>
      simp only [mergeInto, Distinct] at hn he ⊢
      exact distinctAll_mergeAllInto variants variants' hn he

/-- Merging keeps names distinct. -/
theorem distinctAll_mergeAllInto : (incoming l : List Node) → DistinctAll incoming →
    DistinctAll l → DistinctAll (mergeAllInto incoming l)
  | [], _, _, hl => by simpa using hl
  | n :: rest, l, hi, hl => by
    obtain ⟨-, hn, hr⟩ := distinctAll_cons.mp hi
    rw [mergeAllInto_cons]
    apply distinctAll_mergeAllInto rest _ hr
    rw [distinctAll_iff] at hl ⊢
    refine ⟨?_, forall_mem_mergeOne hl.2 hn ?_⟩
    · rw [map_name_mergeOne]
      exact Names.nodup_insert hl.1 n.name
    · intro e he _
      exact distinct_mergeInto n e hn (hl.2 e he)

end

theorem distinctAll_mergeOne {l : List Node} {n : Node} (hl : DistinctAll l) (hn : n.Distinct) :
    DistinctAll (mergeOne l n) := by
  simpa using distinctAll_mergeAllInto [n] l (by simp [hn]) hl

/-- Whatever nodes are merged, the list that they make has every name once. -/
theorem distinctAll_mergeAllInto_nil {incoming : List Node} (h : ∀ n ∈ incoming, n.Distinct) :
    DistinctAll (mergeAllInto incoming []) := by
  suffices ∀ l, DistinctAll l → DistinctAll (mergeAllInto incoming l) from this [] trivial
  induction incoming with
  | nil => simp
  | cons n rest ih =>
    intro l hl
    obtain ⟨hn, hr⟩ := List.forall_mem_cons.mp h
    rw [mergeAllInto_cons]
    exact ih hr _ (distinctAll_mergeOne hl hn)

/-! ### Kinds -/

theorem conformAll_iff {kindAt : List String → Kind} {l : List Node} :
    ConformAll kindAt l ↔ ∀ n ∈ l, n.Conforms kindAt := by
  induction l with
  | nil => simp
  | cons n rest ih => simp [ih]

mutual

/-- Merging keeps the kinds of nodes. -/
theorem conforms_mergeInto : (kindAt : List String → Kind) → (n e : Node) → e.name = n.name →
    n.Conforms kindAt → e.Conforms kindAt → (mergeInto n e).Conforms kindAt
  | _, leaf _ _, e, _, _, he => by
    cases e <;> simpa [mergeInto, withHead, Conforms, NodeHead.addFragments] using he
  | kindAt, object h fields, e, heq, hn, he => by
    cases e with
    | leaf | union => simpa [mergeInto, withHead, Conforms, NodeHead.addFragments] using he
    | object h' fields' =>
      have hh : h'.name = h.name := heq
      simp only [mergeInto, Conforms, NodeHead.addFragments, hh] at hn he ⊢
      exact ⟨hn.1, conformAll_mergeAllInto _ fields fields' hn.2 he.2⟩
  | kindAt, union h variants, e, heq, hn, he => by
    cases e with
    | leaf | object => simpa [mergeInto, withHead, Conforms, NodeHead.addFragments] using he
    | union h' variants' =>
      have hh : h'.name = h.name := heq
      simp only [mergeInto, Conforms, NodeHead.addFragments, hh] at hn he ⊢
      exact ⟨hn.1, conformAll_mergeAllInto _ variants variants' hn.2 he.2⟩

theorem conformAll_mergeAllInto : (kindAt : List String → Kind) → (incoming l : List Node) →
    ConformAll kindAt incoming → ConformAll kindAt l → ConformAll kindAt (mergeAllInto incoming l)
  | _, [], _, _, hl => by simpa using hl
  | kindAt, n :: rest, l, hi, hl => by
    obtain ⟨hn, hr⟩ := conformAll_cons.mp hi
    rw [mergeAllInto_cons]
    apply conformAll_mergeAllInto kindAt rest _ hr
    rw [conformAll_iff] at hl ⊢
    exact forall_mem_mergeOne hl hn fun e he heq =>
      conforms_mergeInto kindAt n e heq hn (hl e he)

end

theorem conformAll_mergeOne {kindAt : List String → Kind} {l : List Node} {n : Node}
    (hl : ConformAll kindAt l) (hn : n.Conforms kindAt) : ConformAll kindAt (mergeOne l n) := by
  simpa using conformAll_mergeAllInto kindAt [n] l (by simpa using hn) hl

/-! ### Members of merged lists -/

/-- What holds of a member of a merged list holds of one of the nodes that were merged. -/
theorem exists_mem_of_mergeOne {p : Node → Prop} {l : List Node} {n : Node}
    (hm : ∀ e ∈ l, e.name = n.name → p (mergeInto n e) → p e ∨ p n)
    (h : ∃ v ∈ mergeOne l n, p v) : (∃ v ∈ l, p v) ∨ p n := by
  induction l with
  | nil => simpa using h
  | cons e l ih =>
    simp only [List.forall_mem_cons] at hm
    by_cases he : e.name = n.name
    · rw [mergeOne_cons_of_eq l he] at h
      obtain ⟨v, hv, hp⟩ := h
      rcases List.mem_cons.mp hv with rfl | hv
      · exact (hm.1 he hp).imp (fun hp => ⟨e, by simp, hp⟩) id
      · exact Or.inl ⟨v, List.mem_cons_of_mem _ hv, hp⟩
    · rw [mergeOne_cons_of_ne l he] at h
      obtain ⟨v, hv, hp⟩ := h
      rcases List.mem_cons.mp hv with rfl | hv
      · exact Or.inl ⟨v, by simp, hp⟩
      · refine (ih hm.2 ⟨v, hv, hp⟩).imp ?_ id
        rintro ⟨w, hw, hp⟩
        exact ⟨w, List.mem_cons_of_mem _ hw, hp⟩

/-- What merging of two nodes keeps is kept in a merged list. -/
theorem exists_mem_mergeOne {p : Node → Prop} {l : List Node} {n : Node}
    (hm : ∀ e ∈ l, e.name = n.name → p e ∨ p n → p (mergeInto n e))
    (h : (∃ v ∈ l, p v) ∨ p n) : ∃ v ∈ mergeOne l n, p v := by
  induction l with
  | nil => simpa using h
  | cons e l ih =>
    simp only [List.forall_mem_cons] at hm
    by_cases he : e.name = n.name
    · rw [mergeOne_cons_of_eq l he]
      rcases h with ⟨v, hv, hp⟩ | hp
      · rcases List.mem_cons.mp hv with rfl | hv
        · exact ⟨_, by simp, hm.1 he (Or.inl hp)⟩
        · exact ⟨v, List.mem_cons_of_mem _ hv, hp⟩
      · exact ⟨_, by simp, hm.1 he (Or.inr hp)⟩
    · rw [mergeOne_cons_of_ne l he]
      rcases h with ⟨v, hv, hp⟩ | hp
      · rcases List.mem_cons.mp hv with rfl | hv
        · exact ⟨v, by simp, hp⟩
        · obtain ⟨w, hw, hp⟩ := ih hm.2 (Or.inl ⟨v, hv, hp⟩)
          exact ⟨w, List.mem_cons_of_mem _ hw, hp⟩
      · obtain ⟨w, hw, hp⟩ := ih hm.2 (Or.inr hp)
        exact ⟨w, List.mem_cons_of_mem _ hw, hp⟩

theorem exists_mem_of_mergeAllInto {p : Node → Prop} {incoming l : List Node}
    (hm : ∀ n ∈ incoming, ∀ e : Node, e.name = n.name → p (mergeInto n e) → p e ∨ p n)
    (h : ∃ v ∈ mergeAllInto incoming l, p v) : (∃ v ∈ l, p v) ∨ ∃ v ∈ incoming, p v := by
  induction incoming generalizing l with
  | nil => simpa using h
  | cons n rest ih =>
    obtain ⟨hn, hr⟩ := List.forall_mem_cons.mp hm
    rw [mergeAllInto_cons] at h
    rcases ih hr h with hone | ⟨v, hv, hp⟩
    · exact (exists_mem_of_mergeOne (fun e _ => hn e) hone).imp id fun hp => ⟨n, by simp, hp⟩
    · exact Or.inr ⟨v, List.mem_cons_of_mem _ hv, hp⟩

theorem exists_mem_mergeAllInto {kindAt : List String → Kind} {p : Node → Prop}
    {incoming l : List Node} (hi : ConformAll kindAt incoming) (hl : ConformAll kindAt l)
    (hm : ∀ n ∈ incoming, ∀ e : Node, e.name = n.name → n.Conforms kindAt → e.Conforms kindAt →
      p e ∨ p n → p (mergeInto n e))
    (h : (∃ v ∈ l, p v) ∨ ∃ v ∈ incoming, p v) : ∃ v ∈ mergeAllInto incoming l, p v := by
  induction incoming generalizing l with
  | nil => simpa using h
  | cons n rest ih =>
    obtain ⟨hn, hr⟩ := conformAll_cons.mp hi
    obtain ⟨hmn, hmr⟩ := List.forall_mem_cons.mp hm
    have hone : (∃ v ∈ l, p v) ∨ p n → ∃ v ∈ mergeOne l n, p v :=
      exists_mem_mergeOne fun e he heq => hmn e heq hn (conformAll_iff.mp hl e he)
    rw [mergeAllInto_cons]
    apply ih hr (conformAll_mergeOne hl hn) hmr
    rcases h with hl | ⟨v, hv, hp⟩
    · exact Or.inl (hone (Or.inl hl))
    · rcases List.mem_cons.mp hv with rfl | hv
      · exact Or.inl (hone (Or.inr hp))
      · exact Or.inr ⟨v, hv, hp⟩

/-! ### Order of merging -/

/-- Merging changes only the node with the name, so a node with another name may go first, unless
the two are both new. -/
theorem mergeOne_comm {x y : Node} (hne : x.name ≠ y.name) {l : List Node}
    (hx : x.name ∈ l.map name) : mergeOne (mergeOne l y) x = mergeOne (mergeOne l x) y := by
  induction l with
  | nil => simp at hx
  | cons e rest ih =>
    by_cases hex : e.name = x.name
    · have hey : e.name ≠ y.name := fun h => hne (hex.symm.trans h)
      rw [mergeOne_cons_of_ne rest hey, mergeOne_cons_of_eq _ hex, mergeOne_cons_of_eq rest hex,
        mergeOne_cons_of_ne rest (by simpa using hey)]
    · have hr : x.name ∈ rest.map name := by
        rcases List.mem_cons.mp hx with h | h
        · exact absurd h.symm hex
        · exact h
      rw [mergeOne_cons_of_ne rest hex]
      by_cases hey : e.name = y.name
      · rw [mergeOne_cons_of_eq rest hey, mergeOne_cons_of_eq _ hey,
          mergeOne_cons_of_ne rest (by simpa using hex)]
      · rw [mergeOne_cons_of_ne rest hey, mergeOne_cons_of_ne _ hey, mergeOne_cons_of_ne _ hex, ih hr]

/-- A node that is there already may be merged before or after nodes of other names. -/
theorem mergeOne_mergeAllInto_comm {x : Node} {incoming l : List Node}
    (hi : x.name ∉ incoming.map name) (hl : x.name ∈ l.map name) :
    mergeOne (mergeAllInto incoming l) x = mergeAllInto incoming (mergeOne l x) := by
  induction incoming generalizing l with
  | nil => simp
  | cons n rest ih =>
    simp only [List.map_cons, List.mem_cons, not_or] at hi
    rw [mergeAllInto_cons, mergeAllInto_cons, ← mergeOne_comm hi.1 hl]
    apply ih hi.2
    rw [map_name_mergeOne]
    exact Names.mem_insert.mpr (Or.inl hl)

/-- Lists of nodes whose names are apart may be merged in any order into a list that has the names
of one of them. -/
theorem mergeAllInto_comm {a b l : List Node} (hab : ∀ n ∈ b, n.name ∉ a.map name)
    (hb : ∀ n ∈ b, n.name ∈ l.map name) :
    mergeAllInto b (mergeAllInto a l) = mergeAllInto a (mergeAllInto b l) := by
  induction b generalizing l with
  | nil => simp
  | cons n rest ih =>
    obtain ⟨ha, hra⟩ := List.forall_mem_cons.mp hab
    obtain ⟨hn, hrl⟩ := List.forall_mem_cons.mp hb
    rw [mergeAllInto_cons, mergeAllInto_cons, mergeOne_mergeAllInto_comm ha hn]
    apply ih hra
    intro m hm
    rw [map_name_mergeOne]
    exact Names.mem_insert.mpr (Or.inl (hrl m hm))

/-! ### Associativity -/

/-- Two nodes with one name, merged one after the other or first with each other. -/
theorem mergeOne_mergeOne {kindAt : List String → Kind} {x y : Node}
    (assoc : ∀ e : Node, e.name = x.name → e.Conforms kindAt →
      mergeInto x (mergeInto y e) = mergeInto (mergeInto x y) e)
    (h : y.name = x.name) {l : List Node} (hl : ConformAll kindAt l) :
    mergeOne (mergeOne l y) x = mergeOne l (mergeInto x y) := by
  induction l with
  | nil => simp [mergeOne_cons_of_eq [] h]
  | cons e rest ih =>
    obtain ⟨he, hr⟩ := conformAll_cons.mp hl
    by_cases hey : e.name = y.name
    · rw [mergeOne_cons_of_eq rest hey, mergeOne_cons_of_eq rest (by simpa [h] using hey),
        mergeOne_cons_of_eq rest (by simpa using hey), assoc e (hey.trans h) he]
    · rw [mergeOne_cons_of_ne rest hey, mergeOne_cons_of_ne _ (by simpa [h] using hey),
        mergeOne_cons_of_ne rest (by simpa using hey), ih hr]

/-- A node that was merged into the second list, merged last instead. -/
theorem mergeAllInto_mergeOne {kindAt : List String → Kind} {x : Node}
    (assoc : ∀ y e : Node, y.name = x.name → e.name = x.name → y.Distinct → y.Conforms kindAt →
      e.Conforms kindAt → mergeInto x (mergeInto y e) = mergeInto (mergeInto x y) e)
    {middle l : List Node} (hd : DistinctAll middle) (hm : ConformAll kindAt middle)
    (hl : ConformAll kindAt l) :
    mergeAllInto (mergeOne middle x) l = mergeOne (mergeAllInto middle l) x := by
  induction middle generalizing l with
  | nil => simp
  | cons y rest ih =>
    obtain ⟨hy, hyd, hrd⟩ := distinctAll_cons.mp hd
    obtain ⟨hyc, hrc⟩ := conformAll_cons.mp hm
    rw [mergeAllInto_cons]
    by_cases h : y.name = x.name
    · rw [mergeOne_cons_of_eq rest h, mergeAllInto_cons,
        ← mergeOne_mergeOne (fun e he hec => assoc y e h he hyd hyc hec) h hl]
      rw [h] at hy
      have hx : x.name ∈ (mergeOne l y).map name := by simp [map_name_mergeOne, h]
      exact (mergeOne_mergeAllInto_comm hy hx).symm
    · rw [mergeOne_cons_of_ne rest h, mergeAllInto_cons]
      exact ih hrd hrc (conformAll_mergeOne hl hyc)

theorem addFragments_addFragments (h : NodeHead) (a b : List String) :
    (h.addFragments a).addFragments b = h.addFragments (Names.union a b) := by
  simp [NodeHead.addFragments, Names.union_union]

mutual

/-- It does not matter which two of three nodes of one kind are merged first. -/
theorem mergeInto_mergeInto : (kindAt : List String → Kind) → (n m e : Node) → m.name = n.name →
    e.name = n.name → n.Distinct → m.Distinct → n.Conforms kindAt → m.Conforms kindAt →
    e.Conforms kindAt → mergeInto n (mergeInto m e) = mergeInto (mergeInto n m) e
  | kindAt, leaf h _, m, e, hm, he, _, _, hn, hmc, hec => by
    have hk : kindAt [h.name] = .leaf := hn
    cases m <;> cases e <;>
      simp_all [mergeInto, withHead, Conforms, name, NodeHead.addFragments, Names.union_union]
  | kindAt, object h fields, m, e, hm, he, hnd, hd, hn, hmc, hec => by
    have hk : kindAt [h.name] = .object := hn.1
    cases m with
    | leaf | union => simp_all [Conforms, name]
    | object hm' fields' =>
      cases e with
      | leaf | union => simp_all [Conforms, name]
      | object he' fields'' =>
        have hmn : hm'.name = h.name := hm
        have hen : he'.name = h.name := he
        simp only [Conforms, hmn, hen] at hn hmc hec
        simp only [mergeInto]
        rw [addFragments_addFragments]
        congr 1
        exact mergeAllInto_mergeAllInto _ fields fields' fields'' (distinctAll_iff.mp hnd).2 hd
          hn.2 hmc.2 hec.2
  | kindAt, union h variants, m, e, hm, he, hnd, hd, hn, hmc, hec => by
    have hk : kindAt [h.name] = .union := hn.1
    cases m with
    | leaf | object => simp_all [Conforms, name]
    | union hm' variants' =>
      cases e with
      | leaf | object => simp_all [Conforms, name]
      | union he' variants'' =>
        have hmn : hm'.name = h.name := hm
        have hen : he'.name = h.name := he
        simp only [Conforms, hmn, hen] at hn hmc hec
        simp only [mergeInto]
        rw [addFragments_addFragments]
        congr 1
        exact mergeAllInto_mergeAllInto _ variants variants' variants'' (distinctAll_iff.mp hnd).2
          hd hn.2 hmc.2 hec.2

/-- Nodes of the same kinds may be merged in either grouping. -/
theorem mergeAllInto_mergeAllInto : (kindAt : List String → Kind) →
    (incoming middle l : List Node) → (∀ n ∈ incoming, n.Distinct) → DistinctAll middle →
    ConformAll kindAt incoming → ConformAll kindAt middle → ConformAll kindAt l →
    mergeAllInto incoming (mergeAllInto middle l) = mergeAllInto (mergeAllInto incoming middle) l
  | _, [], _, _, _, _, _, _, _ => by simp
  | kindAt, x :: rest, middle, l, hid, hd, hi, hm, hl => by
    obtain ⟨hxd, hrd⟩ := List.forall_mem_cons.mp hid
    obtain ⟨hx, hr⟩ := conformAll_cons.mp hi
    have hstep : mergeAllInto (mergeOne middle x) l = mergeOne (mergeAllInto middle l) x :=
      mergeAllInto_mergeOne (fun y e hy he hyd hyc hec =>
        mergeInto_mergeInto kindAt x y e hy he hxd hyd hx hyc hec) hd hm hl
    rw [mergeAllInto_cons, mergeAllInto_cons, ← hstep]
    exact mergeAllInto_mergeAllInto kindAt rest (mergeOne middle x) l hrd
      (distinctAll_mergeOne hd hxd) hr (conformAll_mergeOne hm hx) hl

end

/-! ### What is recorded below a node -/

@[simp] theorem fragmentNamesOf_nil : fragmentNamesOf [] = [] := by simp [fragmentNamesOf]

@[simp] theorem fragmentNamesOf_cons (n : Node) (l : List Node) :
    fragmentNamesOf (n :: l) = n.fragmentNames ++ fragmentNamesOf l := by simp [fragmentNamesOf]

theorem fragmentNamesOf_eq_flatMap (l : List Node) :
    fragmentNamesOf l = l.flatMap fragmentNames := by
  induction l with
  | nil => simp
  | cons n l ih => simp [ih]

theorem fragmentNamesOf_append (a b : List Node) :
    fragmentNamesOf (a ++ b) = fragmentNamesOf a ++ fragmentNamesOf b := by
  induction a with
  | nil => simp
  | cons n a ih => simp [ih]

theorem mem_fragmentNamesOf_mergeOne {kindAt : List String → Kind} {f : String} {n : Node}
    {l : List Node} (hl : ConformAll kindAt l)
    (hn : ∀ e : Node, e.name = n.name → e.Conforms kindAt →
      (f ∈ (mergeInto n e).fragmentNames ↔ f ∈ e.fragmentNames ∨ f ∈ n.fragmentNames)) :
    f ∈ fragmentNamesOf (mergeOne l n) ↔ f ∈ fragmentNamesOf l ∨ f ∈ n.fragmentNames := by
  induction l with
  | nil => simp [fragmentNamesOf]
  | cons e rest ih =>
    obtain ⟨he, hr⟩ := conformAll_cons.mp hl
    by_cases h : e.name = n.name
    · rw [mergeOne_cons_of_eq rest h]
      simp only [fragmentNamesOf, List.mem_append, hn e h he]
      exact or_right_comm
    · rw [mergeOne_cons_of_ne rest h]
      simp only [fragmentNamesOf, List.mem_append, ih hr, or_assoc]

mutual

/-- A merged node records what either of the two does. -/
theorem mem_fragmentNames_mergeInto : (kindAt : List String → Kind) → (n e : Node) →
    e.name = n.name → n.Conforms kindAt → e.Conforms kindAt → (f : String) →
    (f ∈ (mergeInto n e).fragmentNames ↔ f ∈ e.fragmentNames ∨ f ∈ n.fragmentNames)
  | _, leaf _ _, e, _, _, _, f => by
    cases e <;>
      simp [mergeInto, withHead, fragmentNames, NodeHead.addFragments, or_right_comm]
  | kindAt, object h fields, e, heq, hn, he, f => by
    cases e with
    | leaf | union => simp_all [Conforms, name]
    | object h' fields' =>
      have hh : h'.name = h.name := heq
      simp only [Conforms, hh] at hn he
      have hc := mem_fragmentNamesOf_mergeAllInto _ fields fields' hn.2 he.2 f
      simp only [mergeInto, fragmentNames, NodeHead.addFragments, List.mem_append, Names.mem_union, hc]
      exact or_or_or_comm
  | kindAt, union h variants, e, heq, hn, he, f => by
    cases e with
    | leaf | object => simp_all [Conforms, name]
    | union h' variants' =>
      have hh : h'.name = h.name := heq
      simp only [Conforms, hh] at hn he
      have hc := mem_fragmentNamesOf_mergeAllInto _ variants variants' hn.2 he.2 f
      simp only [mergeInto, fragmentNames, NodeHead.addFragments, List.mem_append, Names.mem_union, hc]
      exact or_or_or_comm

/-- Merging nodes of the same kinds keeps every fragment that is recorded on any of them. -/
theorem mem_fragmentNamesOf_mergeAllInto : (kindAt : List String → Kind) →
    (incoming l : List Node) → ConformAll kindAt incoming → ConformAll kindAt l → (f : String) →
    (f ∈ fragmentNamesOf (mergeAllInto incoming l) ↔
      f ∈ fragmentNamesOf l ∨ f ∈ fragmentNamesOf incoming)
  | _, [], _, _, _, f => by simp [fragmentNamesOf]
  | kindAt, n :: rest, l, hi, hl, f => by
    obtain ⟨hn, hr⟩ := conformAll_cons.mp hi
    have hone : f ∈ fragmentNamesOf (mergeOne l n) ↔
        f ∈ fragmentNamesOf l ∨ f ∈ n.fragmentNames :=
      mem_fragmentNamesOf_mergeOne hl fun e heq he =>
        mem_fragmentNames_mergeInto kindAt n e heq hn he f
    rw [mergeAllInto_cons,
      mem_fragmentNamesOf_mergeAllInto kindAt rest _ hr (conformAll_mergeOne hl hn) f, hone]
    simp [fragmentNamesOf, or_assoc]

end

end Node

end QueryBindings
