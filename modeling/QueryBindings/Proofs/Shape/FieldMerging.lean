import QueryBindings.Proofs.Shape.NormalForm
/-!
Merging nodes agrees with merging selections.

Selections are resolved one by one and their nodes merged afterwards. For compatible selections this
gives the shape of their normal form, in which the fields of one response name are a single
selection. The argument takes one object level at a time: fields of one response name may be moved
behind the first of them, adjacent ones may be joined, and then the levels below follow.
-/
namespace QueryBindings

open Selection Schema
open Node (Kind)

namespace Scope

variable {s : Scope}

/-! ### Shapes of selections one after the other -/

/-- Later selections are merged into the shape of the earlier ones. -/
theorem objectShape?_append_left (parent : FieldedType) (path : List String)
    (a b : List Selection) :
    s.objectShape? parent path (a ++ b) =
      (s.objectShape? parent path a).bind fun shape =>
        (s.parts? parent path b).map (·.foldl Selected.add shape) := by
  unfold objectShape?
  rw [parts?_append]
  cases s.parts? parent path a <;> cases s.parts? parent path b <;>
    simp [Selected.ofContributions, List.foldl_append]

/-- Selections behind others depend on the shape of those others only. -/
theorem objectShape?_congr_left {parent : FieldedType} {path : List String}
    {a b : List Selection} (h : s.objectShape? parent path a = s.objectShape? parent path b)
    (l : List Selection) :
    s.objectShape? parent path (a ++ l) = s.objectShape? parent path (b ++ l) := by
  rw [objectShape?_append_left, objectShape?_append_left, h]

/-- The shape of compatible selections is made of the shapes of two parts of them. -/
theorem objectShape?_append {parent : FieldedType} {path : List String} {a b : List Selection}
    {fieldAt : List String → String} (ha : Agrees fieldAt (s.schema.landedAll parent a))
    (hb : Agrees fieldAt (s.schema.landedAll parent b)) :
    s.objectShape? parent path (a ++ b) =
      (s.objectShape? parent path a).bind fun x =>
        (s.objectShape? parent path b).map (x.append ·) := by
  unfold objectShape?
  rw [parts?_append]
  cases hpa : s.parts? parent path a with
  | none => rfl
  | some ca =>
    cases hpb : s.parts? parent path b with
    | none => rfl
    | some cb =>
      have hra := regular_parts ha hpa
      have hrb := regular_parts hb hpb
      simp [Selected.ofContributions_append hra hrb]

/-- The shape of compatible selections on a union is made of the shapes of two parts of them. -/
theorem unionShape?_append {union : UnionType} {path : List String} {a b : List Selection}
    {fieldAt : List String → String} (ha : Agrees fieldAt (s.schema.landedInAll union a))
    (hb : Agrees fieldAt (s.schema.landedInAll union b)) :
    s.unionShape? union path (a ++ b) =
      (s.unionShape? union path a).bind fun x =>
        (s.unionShape? union path b).map (x.append ·) := by
  unfold unionShape?
  rw [unionParts?_append]
  cases hpa : s.unionParts? union path a with
  | none => rfl
  | some ca =>
    cases hpb : s.unionParts? union path b with
    | none => rfl
    | some cb =>
      have hra := regular_unionParts ha hpa
      have hrb := regular_unionParts hb hpb
      simp [Selected.ofContributions_append hra hrb]

/-! ### One field selected twice -/

/-- The node of a field is made of the nodes for two parts of the selections in it. -/
theorem fieldNode?_append {parent : FieldedType} {path : List String} {r name : String}
    {a b : List Selection} {fieldAt : List String → String}
    (ha : Agrees fieldAt (s.schema.landedBelow parent name a))
    (hb : Agrees fieldAt (s.schema.landedBelow parent name b)) :
    s.fieldNode? parent path r name (a ++ b) =
      (s.fieldNode? parent path r name a).bind fun x =>
        (s.fieldNode? parent path r name b).map fun y => y.mergeInto x := by
  by_cases hn : name = "__typename"
  · simp [fieldNode?, hn, Node.ofTypename, Node.mergeInto, Node.withHead, NodeHead.addFragments,
      NodeHead.plain]
  · simp only [fieldNode?, hn, if_false]
    simp only [landedBelow, fieldType?, hn, if_false] at ha hb
    cases hf : parent.field? name with
    | none => rfl
    | some f =>
      simp only [hf, Option.bind_some] at ha hb ⊢
      cases ht : s.schema.find? f.type.baseName with
      | none => rfl
      | some t =>
        simp only [ht, Option.bind_some] at ha hb ⊢
        cases t with
        | object o =>
          simp only [typedNode?, objectShape?_append ha hb]
          cases s.objectShape? o (path ++ [r]) a <;> cases s.objectShape? o (path ++ [r]) b <;>
            simp [Node.mergeInto, Selected.append, Node.fieldHead, NodeHead.addFragments]
        | union u =>
          simp only [typedNode?, unionShape?_append ha hb]
          cases s.unionShape? u (path ++ [r]) a <;> cases s.unionShape? u (path ++ [r]) b <;>
            simp [Node.mergeInto, Selected.append, Node.fieldHead, NodeHead.addFragments]
        | builtin | scalar | interface | enum | inputObject =>
          simp only [typedNode?]
          cases SchemaType.leafType? s.config _ <;>
            simp [Node.mergeInto, Node.withHead, Node.fieldHead, NodeHead.addFragments]

theorem exists_field {x : Selection} {r : String} (h : x.response? = some r) :
    ∃ p alias? name a d l, x = .field p alias? name a d l ∧ alias?.getD name = r := by
  cases x with
  | field p alias? name a d l => exact ⟨p, alias?, name, a, d, l, rfl, by simpa [response?] using h⟩
  | spread | inline => simp [response?] at h

/-- Two fields with one response name that follow each other may be joined. -/
theorem objectShape?_join {parent : FieldedType} (path : List String) {x y : Selection}
    {r : String} (hx : x.response? = some r) (hy : y.response? = some r)
    {fieldAt : List String → String} (hax : Agrees fieldAt (s.schema.landed parent x))
    (hay : Agrees fieldAt (s.schema.landed parent y)) :
    s.objectShape? parent path [x, y] =
        s.objectShape? parent path [x.withBody (x.body ++ y.body)] ∧
      Agrees fieldAt (s.schema.landed parent (x.withBody (x.body ++ y.body))) := by
  obtain ⟨p, alias?, name, a, d, l, rfl, hr⟩ := exists_field hx
  obtain ⟨p', alias?', name', a', d', l', rfl, hr'⟩ := exists_field hy
  simp only [landed_field, hr, hr', agrees_cons, agrees_under] at hax hay
  obtain ⟨hname, hl⟩ := hax
  obtain ⟨hname', hl'⟩ := hay
  obtain rfl : name = name' := hname.trans hname'.symm
  constructor
  · simp only [objectShape?, parts?_cons, parts?_nil, part?_field, hr, hr', withBody, body,
      fieldNode?_append hl hl']
    cases hn : s.fieldNode? parent path r name l with
    | none => rfl
    | some n =>
      cases hn' : s.fieldNode? parent path r name l' with
      | none => rfl
      | some n' =>
        have he : n.name = n'.name := (name_of_fieldNode? hn).trans (name_of_fieldNode? hn').symm
        simp [Selected.ofContributions_eq, Node.mergeOne_cons_of_eq [] he]
  · simp only [withBody, body, landed_field, hr, agrees_cons, agrees_under, landedBelow_append,
      agrees_append]
    exact ⟨hname, hl, hl'⟩

/-- Fields with one response name that follow each other may all be joined. -/
theorem objectShape?_joinAll {parent : FieldedType} (path : List String) {r : String}
    {fieldAt : List String → String} (rest : List Selection) (x : Selection)
    (hx : x.response? = some r) (hrest : ∀ y ∈ rest, y.response? = some r)
    (hax : Agrees fieldAt (s.schema.landed parent x))
    (har : Agrees fieldAt (s.schema.landedAll parent rest)) :
    s.objectShape? parent path (x :: rest) =
        s.objectShape? parent path [x.withBody (x.body ++ rest.flatMap body)] ∧
      Agrees fieldAt (s.schema.landed parent (x.withBody (x.body ++ rest.flatMap body))) := by
  induction rest generalizing x with
  | nil =>
    obtain ⟨p, alias?, name, a, d, l, rfl, -⟩ := exists_field hx
    simpa [withBody, body] using hax
  | cons y rest ih =>
    obtain ⟨hy, hr⟩ := List.forall_mem_cons.mp hrest
    rw [landedAll_cons, agrees_append] at har
    obtain ⟨hjoin, hagrees⟩ := objectShape?_join path hx hy hax har.1
    have hresponse : (x.withBody (x.body ++ y.body)).response? = some r := by
      obtain ⟨p, alias?, name, a, d, l, rfl, -⟩ := exists_field hx
      exact hx
    have hstep := ih (x.withBody (x.body ++ y.body)) hresponse hr hagrees har.2
    have hbody : (x.withBody (x.body ++ y.body)).withBody
        ((x.withBody (x.body ++ y.body)).body ++ rest.flatMap body) =
          x.withBody (x.body ++ (y :: rest).flatMap body) := by
      obtain ⟨p, alias?, name, a, d, l, rfl, -⟩ := exists_field hx
      simp [withBody, body]
    rw [hbody] at hstep
    refine ⟨?_, hstep.2⟩
    rw [← hstep.1]
    exact objectShape?_congr_left hjoin rest

/-! ### Fields moved to the first of their name -/

/-- Behind a field, fields with its response name may be moved before another selection. -/
theorem objectShape?_swap (parent : FieldedType) (path : List String) {r : String}
    {x y : Selection} {before fields : List Selection} (hx : x.response? = some r)
    (hmem : x ∈ before) (hfields : ∀ z ∈ fields, z.response? = some r)
    (hy : y.response? ≠ some r) :
    s.objectShape? parent path (before ++ [y] ++ fields) =
      s.objectShape? parent path (before ++ fields ++ [y]) := by
  simp only [objectShape?, parts?_append, parts?_cons, parts?_nil]
  cases hb : s.parts? parent path before with
  | none => rfl
  | some cb =>
    cases hpy : s.part? parent path y with
    | none =>
      cases s.parts? parent path fields <;> rfl
    | some cy =>
      cases hf : s.parts? parent path fields with
      | none => rfl
      | some cf =>
        have hspreads := spreadsOf_parts?_of_fields hf fun z hz => by simp [hfields z hz]
        have hnames : ∀ n ∈ Contribution.nodesOf cf, n.name = r := by
          intro n hn
          have hname := List.mem_map_of_mem (f := Node.name) hn
          rw [map_name_of_parts? hf, List.mem_filterMap] at hname
          obtain ⟨z, hz, he⟩ := hname
          rw [hfields z hz] at he
          exact (Option.some.inj he).symm
        have hr : r ∈ (Contribution.nodesOf cb).map Node.name := by
          rw [map_name_of_parts? hb]
          exact List.mem_filterMap.mpr ⟨x, hmem, hx⟩
        have hny : r ∉ (Contribution.nodesOf cy).map Node.name := by
          rcases part?_eq_some hpy with ⟨n, hn, rfl⟩ | ⟨-, f, rfl⟩
          · rw [hn] at hy
            simpa [eq_comm] using hy
          · simp
        have hcomm : Node.mergeAllInto (Contribution.nodesOf cf)
              (Node.mergeAllInto (Contribution.nodesOf cy)
                (Node.mergeAllInto (Contribution.nodesOf cb) [])) =
            Node.mergeAllInto (Contribution.nodesOf cy)
              (Node.mergeAllInto (Contribution.nodesOf cf)
                (Node.mergeAllInto (Contribution.nodesOf cb) [])) := by
          apply Node.mergeAllInto_comm
          · intro n hn
            rw [hnames n hn]
            exact hny
          · intro n hn
            rw [hnames n hn, Node.map_name_mergeAllInto]
            exact Names.mem_union.mpr (Or.inr hr)
        simp [Selected.ofContributions_eq, hspreads, hcomm]

theorem response?_of_mem_answering {r : String} {l : List Selection} {y : Selection}
    (h : y ∈ answering r l) : y.response? = some r := by
  simpa [answers] using (List.mem_filter.mp h).2

/-- Behind a field, the fields with its response name may come before all other selections. -/
theorem objectShape?_partition {parent : FieldedType} {path : List String} {r : String}
    {x : Selection} (hx : x.response? = some r) (rest before : List Selection)
    (hmem : x ∈ before) :
    s.objectShape? parent path (before ++ rest) =
      s.objectShape? parent path (before ++ answering r rest ++ others r rest) := by
  induction rest generalizing before with
  | nil => simp [answering, others]
  | cons y rest ih =>
    have hstep := ih (before ++ [y]) (List.mem_append_left _ hmem)
    cases hy : y.answers r with
    | true =>
      simp only [answering, others, List.filter_cons, hy, if_true, Bool.not_true] at hstep ⊢
      simpa using hstep
    | false =>
      have hne : y.response? ≠ some r := by simpa [answers] using hy
      have hswap : s.objectShape? parent path (before ++ [y] ++ answering r rest) =
          s.objectShape? parent path (before ++ answering r rest ++ [y]) :=
        objectShape?_swap parent path hx hmem (fun z hz => response?_of_mem_answering hz) hne
      have hmoved := objectShape?_congr_left hswap (others r rest)
      rw [← hstep] at hmoved
      simpa [answering, others, hy] using hmoved

/-! ### One level -/

theorem mem_of_mem_others {r : String} {l : List Selection} {y : Selection}
    (h : y ∈ others r l) : y ∈ l := (List.mem_filter.mp h).1

theorem mem_of_mem_answering {r : String} {l : List Selection} {y : Selection}
    (h : y ∈ answering r l) : y ∈ l := (List.mem_filter.mp h).1

/-- Gathering compatible selections changes neither their shape nor the fields that they select. -/
theorem objectShape?_gather {parent : FieldedType} (path : List String)
    {fieldAt : List String → String} (l : List Selection)
    (h : Agrees fieldAt (s.schema.landedAll parent l)) :
    s.objectShape? parent path (gather l) = s.objectShape? parent path l ∧
      Agrees fieldAt (s.schema.landedAll parent (gather l)) := by
  induction l using gather.induct with
  | case1 => simp [gather]
  | case2 x rest hx ih =>
    rw [landedAll_cons, agrees_append] at h
    obtain ⟨hshape, hagrees⟩ := ih h.2
    have hx' : Agrees fieldAt (s.schema.landedAll parent [x]) := by simpa using h.1
    simp only [gather, hx, landedAll_cons, agrees_append]
    refine ⟨?_, h.1, hagrees⟩
    rw [← List.singleton_append, objectShape?_append hx' hagrees, hshape,
      ← objectShape?_append hx' h.2, List.singleton_append]
  | case3 x rest r hx ih =>
    rw [landedAll_cons, agrees_append] at h
    have hrest := agrees_landedAll_iff.mp h.2
    have hothers : Agrees fieldAt (s.schema.landedAll parent (others r rest)) :=
      agrees_landedAll_iff.mpr fun y hy => hrest y (mem_of_mem_others hy)
    have hanswering : Agrees fieldAt (s.schema.landedAll parent (answering r rest)) :=
      agrees_landedAll_iff.mpr fun y hy => hrest y (mem_of_mem_answering hy)
    obtain ⟨hshape, hagrees⟩ := ih hothers
    obtain ⟨hjoin, hjoined⟩ := objectShape?_joinAll path (answering r rest) x hx
      (fun y hy => response?_of_mem_answering hy) h.1 hanswering
    have hjoined' : Agrees fieldAt (s.schema.landedAll parent
        [x.withBody (x.body ++ (answering r rest).flatMap body)]) := by simpa using hjoined
    simp only [gather, hx, landedAll_cons, agrees_append]
    refine ⟨?_, hjoined, hagrees⟩
    calc s.objectShape? parent path
          (x.withBody (x.body ++ (answering r rest).flatMap body) :: gather (others r rest))
      _ = s.objectShape? parent path
          ([x.withBody (x.body ++ (answering r rest).flatMap body)] ++ others r rest) := by
        rw [← List.singleton_append, objectShape?_append hjoined' hagrees, hshape,
          ← objectShape?_append hjoined' hothers]
      _ = s.objectShape? parent path ([x] ++ answering r rest ++ others r rest) :=
        (objectShape?_congr_left hjoin _).symm
      _ = s.objectShape? parent path (x :: rest) :=
        (objectShape?_partition hx rest [x] (by simp)).symm

/-! ### All levels -/

/-- Selections may be changed if each of them contributes the same as before. -/
theorem parts?_map {parent : FieldedType} {path : List String} {g : Selection → Selection}
    {l : List Selection} (h : ∀ x ∈ l, s.part? parent path (g x) = s.part? parent path x) :
    s.parts? parent path (l.map g) = s.parts? parent path l := by
  induction l with
  | nil => rfl
  | cons x l ih =>
    obtain ⟨hx, hl⟩ := List.forall_mem_cons.mp h
    rw [List.map_cons, parts?_cons, parts?_cons, hx, ih hl]

theorem unionParts?_map {union : UnionType} {path : List String} {g : Selection → Selection}
    {l : List Selection}
    (h : ∀ x ∈ l, s.unionPart? union path (g x) = s.unionPart? union path x) :
    s.unionParts? union path (l.map g) = s.unionParts? union path l := by
  induction l with
  | nil => rfl
  | cons x l ih =>
    obtain ⟨hx, hl⟩ := List.forall_mem_cons.mp h
    rw [List.map_cons, unionParts?_cons, unionParts?_cons, hx, ih hl]

/-- A field whose selections have the shape of their normal form has the node of its normal form. -/
theorem part?_normalPart {parent : FieldedType} {path : List String} {x : Selection}
    {fieldAt : List String → String} (h : Agrees fieldAt (s.schema.landed parent x))
    (hobject : ∀ t path fieldAt, Agrees fieldAt (s.schema.landedAll t x.body) →
      s.objectShape? t path (s.schema.normalOn t x.body) = s.objectShape? t path x.body)
    (hunion : ∀ u path fieldAt, Agrees fieldAt (s.schema.landedInAll u x.body) →
      s.unionShape? u path (s.schema.normalIn x.body) = s.unionShape? u path x.body) :
    s.part? parent path (s.schema.normalPart parent x) = s.part? parent path x := by
  cases x with
  | inline => simp [normalPart, withBody]
  | spread => rfl
  | field p alias? name a d l =>
    simp only [landed_field, agrees_cons, agrees_under, landedBelow] at h
    simp only [normalPart, withBody, selectedType?, body] at hobject hunion ⊢
    rw [part?_field, part?_field]
    by_cases hn : name = "__typename"
    · simp [fieldNode?, hn]
    · simp only [fieldNode?, hn, if_false]
      simp only [fieldType?, hn, if_false] at h ⊢
      cases hf : parent.field? name with
      | none => rfl
      | some f =>
        simp only [hf, Option.bind_some] at h ⊢
        cases ht : s.schema.find? f.type.baseName with
        | none => rfl
        | some t =>
          simp only [ht, Option.bind_some] at h ⊢
          cases t with
          | object o => simp only [typedNode?, hobject o _ _ h.2]
          | union u => simp only [typedNode?, hunion u _ _ h.2]
          | builtin | scalar | interface | enum | inputObject => rfl

/-- A branch in normal form makes the same contribution. -/
theorem unionPart?_normalBranch {union : UnionType} {path : List String} {x : Selection}
    {fieldAt : List String → String} (h : Agrees fieldAt (s.schema.landedIn union x))
    (hobject : ∀ t path fieldAt, Agrees fieldAt (s.schema.landedAll t x.body) →
      s.objectShape? t path (s.schema.normalOn t x.body) = s.objectShape? t path x.body) :
    s.unionPart? union path (s.schema.normalBranch x) = s.unionPart? union path x := by
  cases x with
  | field => simp [normalBranch, withBody]
  | spread => rfl
  | inline p c d l =>
    cases c with
    | none => simp [normalBranch, withBody]
    | some member =>
      simp only [landedIn] at h
      simp only [normalBranch, withBody, branchType?, body] at hobject ⊢
      rw [unionPart?_inline_some, unionPart?_inline_some]
      by_cases hm : union.members.contains member = true
      · simp only [hm, if_true] at h ⊢
        cases ht : s.schema.object? member with
        | none => rfl
        | some t =>
          simp only [ht, agrees_under] at h
          simp only [inlineVariant?, ht, Option.bind_some, hobject t _ _ h]
      · simp only [hm, if_false, Bool.false_eq_true]

mutual

/-- Compatible selections on an object have the shape of their normal form. -/
theorem objectShape?_normalOn (parent : FieldedType) (path : List String)
    (fieldAt : List String → String) (l : List Selection)
    (h : Agrees fieldAt (s.schema.landedAll parent l)) :
    s.objectShape? parent path (s.schema.normalOn parent l) = s.objectShape? parent path l := by
  obtain ⟨hshape, hagrees⟩ := objectShape?_gather path l h
  rw [normalOn_eq, ← hshape]
  unfold objectShape?
  rw [parts?_map]
  intro x hx
  have hlt := weightAll_body_lt hx
  exact part?_normalPart (agrees_landedAll_iff.mp hagrees x hx)
    (fun t path fieldAt hb => objectShape?_normalOn t path fieldAt x.body hb)
    (fun u path fieldAt hb => unionShape?_normalIn u path fieldAt x.body hb)
termination_by weightAll l

/-- Compatible selections on a union have the shape of their normal form. -/
theorem unionShape?_normalIn (union : UnionType) (path : List String)
    (fieldAt : List String → String) (l : List Selection)
    (h : Agrees fieldAt (s.schema.landedInAll union l)) :
    s.unionShape? union path (s.schema.normalIn l) = s.unionShape? union path l := by
  rw [normalIn_eq]
  unfold unionShape?
  rw [unionParts?_map]
  intro x hx
  have hlt : weightAll x.body < weightAll l := by
    have := weight_le hx
    rw [weight_eq] at this
    omega
  have hagrees : Agrees fieldAt (s.schema.landedIn union x) := agrees_landedInAll h x hx
  exact unionPart?_normalBranch hagrees
    (fun t path fieldAt hb => objectShape?_normalOn t path fieldAt x.body hb)
termination_by weightAll l

end

/-- Resolving compatible selections one by one and merging their nodes gives the same fields, in the
same order and with everything below them, as resolving the normal form, and the one is possible
when the other is. -/
theorem selectOnObject_eq_ok_iff_normalOn (s : Scope) (parent : FieldedType)
    (path : List String) (l : List Selection) (h : s.schema.Compatible parent l) (shape : Selected) :
    s.selectOnObject parent path l = .ok shape ↔
      s.selectOnObject parent path (s.schema.normalOn parent l) = .ok shape := by
  obtain ⟨fieldAt, hagrees⟩ := s.schema.exists_agrees h
  rw [← Except.toOption_eq_some, ← Except.toOption_eq_some, toOption_selectOnObject,
    toOption_selectOnObject, objectShape?_normalOn parent path fieldAt l hagrees]

def sampleScope : Scope := ⟨sampleSchema, .default, [("F", "Cat")], "pets"⟩

/-- `owner` and `pet` are selected twice, the second time with more below them. -/
def sampleSelections : List Selection :=
  let field (name : String) (l : List Selection) : Selection := .field .start none name [] [] l
  let on (member : String) (l : List Selection) : Selection := .inline .start (some member) [] l
  [field "owner" [field "name" [], field "pet" [on "Cat" [field "mother" [field "name" []]]]],
    field "pet" [on "Dog" [field "name" []]],
    field "owner" [field "pet" [on "Dog" [field "name" []],
      on "Cat" [field "mother" [field "mother" [field "name" []], .spread .start "F" []]]]],
    field "pet" [on "Cat" [field "name" []], .spread .start "F" [], on "Dog" [field "name" []]]]

theorem selectOnObject_eq_ok_iff_normalOn_sample :
    sampleScope.schema.Compatible sampleRoot sampleSelections ∧
      ∀ shape, sampleScope.selectOnObject sampleRoot ["Q"] sampleSelections = .ok shape ↔
        sampleScope.selectOnObject sampleRoot ["Q"]
          (sampleScope.schema.normalOn sampleRoot sampleSelections) = .ok shape := by
  have h : sampleScope.schema.Compatible sampleRoot sampleSelections := by decide +kernel
  exact ⟨h, selectOnObject_eq_ok_iff_normalOn sampleScope sampleRoot ["Q"] sampleSelections h⟩

end Scope

end QueryBindings
