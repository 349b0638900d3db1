import QueryBindings.Proofs.Shape.FieldMerging
import QueryBindings.Proofs.Shape.LeafText
import QueryBindings.Proofs.Shape.Paths
/-!
Where the nodes of a shape come from.

A node stems from a field that is selected on an object type, or from an inline fragment or a spread
that selects a member of a union. In resolved selections every node has an origin at its path and
tells what that origin is in the schema. For compatible selections all origins at one path agree,
and no origin is without a node.
-/
namespace QueryBindings

open Node (Content Label)
open Schema (Agrees sampleRoot)

inductive Provenance
  | field (parent : FieldedType) (name : String)
  | variant (member : String)

/-- What the node of a field of some type holds: an object shape, a union, or the text of a leaf. -/
inductive SchemaType.HasContent (config : Config) : SchemaType → Content → Prop
  | object (t : FieldedType) : HasContent config (.object t) .object
  | union (t : UnionType) : HasContent config (.union t) .union
  | leaf {t : SchemaType} {text : String} (h : t.LeafText config text) :
      HasContent config t (.leaf text)

namespace Provenance

/-- A node says of its origin what the schema does: a field has the layers of its type as modifiers
and holds a value of its base type, and a variant is an object with its member's name as its tag. -/
def Fits (s : Scope) : Provenance → Label → Prop
  | field parent name, l => l.typename? = none ∧
    if name = "__typename" then l.modifiers = [] ∧ l.content = .leaf ("'" ++ parent.name ++ "'")
    else ∃ f type, parent.field? name = some f ∧ s.schema.find? f.type.baseName = some type ∧
      l.modifiers = f.type.modifiers ∧ type.HasContent s.config l.content
  | variant member, l => l.typename? = some member ∧ l.modifiers = [] ∧ l.content = .object

end Provenance

namespace Scope

/-- What stems from selections on an object type or a union, by the path that leads there. Nothing
does on other types, so selections below a leaf and in inline fragments that select no member have
no part in it. -/
inductive Stems (s : Scope) : SchemaType → List Selection → List String → Provenance → Prop
  | field {t : FieldedType} {l : List Selection} {p : Position} {alias? : Option String}
      {name r : String} {a : List Argument} {d : List Directive} {below : List Selection}
      (hx : .field p alias? name a d below ∈ l) (hr : alias?.getD name = r) :
    Stems s (.object t) l [r] (.field t name)
  | belowField {t : FieldedType} {l : List Selection} {p : Position} {alias? : Option String}
      {name r : String} {a : List Argument} {d : List Directive} {below : List Selection}
      {type : SchemaType} {path : List String} {o : Provenance}
      (hx : .field p alias? name a d below ∈ l) (hr : alias?.getD name = r)
      (ht : s.schema.fieldType? t name = some type) (h : Stems s type below path o) :
    Stems s (.object t) l (r :: path) o
  | inline {u : UnionType} {l : List Selection} {p : Position} {member : String}
      {d : List Directive} {below : List Selection} (hx : .inline p (some member) d below ∈ l)
      (hm : u.members.contains member = true) :
    Stems s (.union u) l [member] (.variant member)
  | belowInline {u : UnionType} {l : List Selection} {p : Position} {member : String}
      {d : List Directive} {below : List Selection} {t : FieldedType} {path : List String}
      {o : Provenance} (hx : .inline p (some member) d below ∈ l)
      (hm : u.members.contains member = true) (ht : s.schema.object? member = some t)
      (h : Stems s (.object t) below path o) :
    Stems s (.union u) l (member :: path) o
  | spread {u : UnionType} {l : List Selection} {p : Position} {f member : String}
      {d : List Directive} (hx : .spread p f d ∈ l) (hm : s.spreadMember? u f = some member) :
    Stems s (.union u) l [member] (.variant member)

variable {s : Scope} {type : SchemaType} {l l' : List Selection} {path : List String}
  {o : Provenance}

theorem Stems.ne_nil (h : s.Stems type l path o) : path ≠ [] := by cases h <;> simp

theorem Stems.mono (h : s.Stems type l path o) (hl : ∀ x ∈ l, x ∈ l') :
    s.Stems type l' path o := by
  cases h with
  | field hx hr => exact .field (hl _ hx) hr
  | belowField hx hr ht h => exact .belowField (hl _ hx) hr ht h
  | inline hx hm => exact .inline (hl _ hx) hm
  | belowInline hx hm ht h => exact .belowInline (hl _ hx) hm ht h
  | spread hx hm => exact .spread (hl _ hx) hm

/-- An origin is that of one of the selections. -/
theorem Stems.exists_mem (h : s.Stems type l path o) : ∃ x ∈ l, s.Stems type [x] path o := by
  cases h with
  | field hx hr => exact ⟨_, hx, .field (List.mem_singleton_self _) hr⟩
  | belowField hx hr ht h => exact ⟨_, hx, .belowField (List.mem_singleton_self _) hr ht h⟩
  | inline hx hm => exact ⟨_, hx, .inline (List.mem_singleton_self _) hm⟩
  | belowInline hx hm ht h => exact ⟨_, hx, .belowInline (List.mem_singleton_self _) hm ht h⟩
  | spread hx hm => exact ⟨_, hx, .spread (List.mem_singleton_self _) hm⟩

theorem stems_cons {x : Selection} :
    s.Stems type (x :: l) path o ↔ s.Stems type [x] path o ∨ s.Stems type l path o := by
  constructor
  · intro h
    obtain ⟨y, hy, hone⟩ := h.exists_mem
    rcases List.mem_cons.mp hy with rfl | hy
    · exact Or.inl hone
    · exact Or.inr (hone.mono (by simp [hy]))
  · rintro (h | h)
    · exact h.mono (by simp)
    · exact h.mono fun y hy => List.mem_cons_of_mem x hy

@[simp] theorem not_stems_nil : ¬ s.Stems type [] path o := by
  intro h
  obtain ⟨x, hx, -⟩ := h.exists_mem
  simp at hx

/-- What stems from a field: its own node, and what stems from the selections below it. -/
theorem Stems.of_field {t : FieldedType} {p : Position} {alias? : Option String} {name : String}
    {a : List Argument} {d : List Directive}
    (h : s.Stems (.object t) [.field p alias? name a d l] path o) :
    path = [alias?.getD name] ∨ ∃ type q, s.schema.fieldType? t name = some type ∧
      path = alias?.getD name :: q ∧ s.Stems type l q o := by
  cases h with
  | field hx hr =>
    obtain ⟨rfl, rfl, rfl, rfl, rfl, rfl⟩ := by simpa using hx
    exact Or.inl (by rw [hr])
  | belowField hx hr ht h =>
    obtain ⟨rfl, rfl, rfl, rfl, rfl, rfl⟩ := by simpa using hx
    exact Or.inr ⟨_, _, ht, by rw [hr], h⟩

/-- What stems from an inline fragment on a union: the variant of a member, and what stems from the
selections in it. -/
theorem Stems.of_inline {u : UnionType} {p : Position} {condition? : Option String}
    {d : List Directive} (h : s.Stems (.union u) [.inline p condition? d l] path o) :
    ∃ member, condition? = some member ∧ u.members.contains member = true ∧
      (path = [member] ∨ ∃ t q, s.schema.object? member = some t ∧ path = member :: q ∧
        s.Stems (.object t) l q o) := by
  cases h with
  | inline hx hm =>
    obtain ⟨rfl, rfl, rfl, rfl⟩ := by simpa using hx
    exact ⟨_, rfl, hm, Or.inl rfl⟩
  | belowInline hx hm ht h =>
    obtain ⟨rfl, rfl, rfl, rfl⟩ := by simpa using hx
    exact ⟨_, rfl, hm, Or.inr ⟨_, _, ht, rfl, h⟩⟩
  | spread hx hm => simp at hx

theorem Stems.of_spread {u : UnionType} {p : Position} {f : String} {d : List Directive}
    (h : s.Stems (.union u) [.spread p f d] path o) :
    ∃ member, s.spreadMember? u f = some member ∧ path = [member] := by
  cases h with
  | inline hx hm => simp at hx
  | belowInline hx hm ht h => simp at hx
  | spread hx hm =>
    obtain ⟨rfl, rfl, rfl⟩ := by simpa using hx
    exact ⟨_, hm, rfl⟩

/-! ### Labels -/

/-- Every label in the nodes says where its node stands below `path`, and fits what stems from the
selections there. -/
def LabelsFit (s : Scope) (path : List String) (type : SchemaType) (l : List Selection)
    (nodes : List Node) : Prop :=
  ∀ n ∈ nodes, ∀ p label, n.HasLabel p label → label.path = path ++ p.dropLast ∧
    ∃ o, s.Stems type l p o ∧ o.Fits s label

/-- What fits selections fits more of them. -/
theorem LabelsFit.mono {nodes : List Node} (h : s.LabelsFit path type l nodes)
    (hl : ∀ x ∈ l, x ∈ l') : s.LabelsFit path type l' nodes := by
  intro n hn p label hlabel
  obtain ⟨hpath, o, ho, hfits⟩ := h n hn p label hlabel
  exact ⟨hpath, o, ho.mono hl, hfits⟩

theorem LabelsFit.append {x : Selection} {c c' : List Contribution}
    (hx : s.LabelsFit path type [x] (Contribution.nodesOf c))
    (hl : s.LabelsFit path type l (Contribution.nodesOf c')) :
    s.LabelsFit path type (x :: l) (Contribution.nodesOf (c ++ c')) := by
  rw [Contribution.nodesOf_append]
  refine List.forall_mem_append.mpr ⟨hx.mono (by simp), hl.mono ?_⟩
  exact fun y hy => List.mem_cons_of_mem x hy

theorem labelsFit_nil : s.LabelsFit path type l [] := by
  intro n hn
  simp at hn

/-- Merging keeps labels fitting. -/
theorem LabelsFit.ofContributions {c : List Contribution}
    (h : s.LabelsFit path type l (Contribution.nodesOf c)) :
    s.LabelsFit path type l (Selected.ofContributions c).nodes := by
  intro n hn p label hlabel
  obtain ⟨v, hv, hlabel⟩ := Selected.exists_hasLabel_of_ofContributions hn hlabel
  exact h v hv p label hlabel

/-- A node fits as soon as its own label and the nodes right below it do. -/
theorem labelsFit_node {n : Node} {o : Provenance} (hpath : n.head.path = path)
    (ho : s.Stems type l [n.name] o) (hfits : o.Fits s n.label) {type' : SchemaType}
    {below : List Selection} (hbelow : s.LabelsFit (path ++ [n.name]) type' below n.children)
    (hstems : ∀ q o, s.Stems type' below q o → s.Stems type l (n.name :: q) o) :
    s.LabelsFit path type l [n] := by
  intro n' hn' p label hlabel
  rw [List.mem_singleton.mp hn'] at hlabel
  rcases hlabel.cases with ⟨rfl, rfl⟩ | ⟨c, hc, q, rfl, hchild⟩
  · exact ⟨by simpa [Node.label] using hpath, o, ho, hfits⟩
  · obtain ⟨hpath, o, ho, hfits⟩ := hbelow c hc q label hchild
    refine ⟨?_, o, hstems q o ho, hfits⟩
    rw [hpath, List.dropLast_cons_of_ne_nil hchild.ne_nil, List.append_assoc, List.singleton_append]

theorem labelsFit_leaf {n : Node} {o : Provenance} (hpath : n.head.path = path)
    (ho : s.Stems type l [n.name] o) (hfits : o.Fits s n.label) (hchildren : n.children = []) :
    s.LabelsFit path type l [n] := by
  have hbelow : s.LabelsFit (path ++ [n.name]) type [] n.children := by
    rw [hchildren]
    exact labelsFit_nil
  refine labelsFit_node hpath ho hfits hbelow ?_
  intro q o h
  exact absurd h not_stems_nil

/-- The label of a field's node is that of the field. -/
theorem fits_fieldHead {t : FieldedType} {name r : String} {f : Field} {fragments : List String}
    (ht : s.schema.fieldType? t name = some type) (hf : t.field? name = some f)
    {n : Node} (hn : n.head = Node.fieldHead path r f fragments)
    (hcontent : type.HasContent s.config n.content) :
    (Provenance.field t name).Fits s n.label := by
  have hname : name ≠ "__typename" := by
    rintro rfl
    simp [Schema.fieldType?_typename] at ht
  have hfind : s.schema.find? f.type.baseName = some type := by
    simpa [Schema.fieldType?, hname, hf] using ht
  have hlabel : n.label = ⟨path, f.type.modifiers, none, n.content⟩ := by
    simp [Node.label, hn, Node.fieldHead]
  rw [hlabel, Provenance.Fits, if_neg hname]
  exact ⟨rfl, f, type, hf, hfind, rfl, hcontent⟩

/-- Whatever selections contribute has labels that fit. -/
theorem labelsFit (s : Scope) : s.Invariant
    (fun t path l c => s.LabelsFit path (.object t) l (Contribution.nodesOf c))
    (fun u path l c => s.LabelsFit path (.union u) l (Contribution.nodesOf c)) where
  nil := by
    intro t path
    exact labelsFit_nil
  cons := by
    intro t path x l c c' hx hl
    exact hx.append hl
  spread := by
    intro t path p f d
    exact labelsFit_nil
  typename := by
    intro t path p alias? a d l
    refine labelsFit_leaf rfl (.field (List.mem_singleton_self _) rfl) ?_ rfl
    exact ⟨rfl, rfl, rfl⟩
  leaf := by
    intro t path p alias? name a d l f type text ht ho hu hf htext
    refine labelsFit_leaf rfl (.field (List.mem_singleton_self _) rfl) ?_ rfl
    exact fits_fieldHead ht hf rfl (.leaf (SchemaType.leafText_iff.mpr htext))
  object := by
    intro t path p alias? name a d l f o c ht hf _ ih
    refine labelsFit_node rfl (.field (List.mem_singleton_self _) rfl) ?_ ih.ofContributions ?_
    · exact fits_fieldHead ht hf rfl (.object o)
    · intro q o h
      exact .belowField (List.mem_singleton_self _) rfl ht h
  union := by
    intro t path p alias? name a d l f u c ht hf _ ih
    refine labelsFit_node rfl (.field (List.mem_singleton_self _) rfl) ?_ ih.ofContributions ?_
    · exact fits_fieldHead ht hf rfl (.union u)
    · intro q o h
      exact .belowField (List.mem_singleton_self _) rfl ht h
  unionNil := by
    intro u path
    exact labelsFit_nil
  unionCons := by
    intro u path x l c c' hx hl
    exact hx.append hl
  unionTypename := by
    intro u path p alias? a d l
    exact labelsFit_nil
  unselected := by
    intro u path p condition? d l _
    exact labelsFit_nil
  unionSpread := by
    intro u path p f d _
    exact labelsFit_nil
  spreadMember := by
    intro u path p f d member t hm _
    refine labelsFit_leaf rfl (.spread (List.mem_singleton_self _) hm) ?_ rfl
    exact ⟨rfl, rfl, rfl⟩
  variant := by
    intro u path p member d l t c hm ht _ ih
    refine labelsFit_node rfl (.inline (List.mem_singleton_self _) hm) ?_ ih.ofContributions ?_
    · exact ⟨rfl, rfl, rfl⟩
    · intro q o h
      exact .belowInline (List.mem_singleton_self _) hm ht h

/-! ### Paths -/

/-- Nothing stems from selections below a leaf. -/
theorem Stems.object_or_union (h : s.Stems type l path o) :
    (∃ t, type = .object t) ∨ ∃ u, type = .union u := by
  cases h with
  | field | belowField => exact Or.inl ⟨_, rfl⟩
  | inline | belowInline | spread => exact Or.inr ⟨_, rfl⟩

/-- Some node is there wherever something stems from the selections. -/
def PathsCovered (s : Scope) (type : SchemaType) (l : List Selection) (nodes : List Node) : Prop :=
  ∀ p o, s.Stems type l p o → ∃ n ∈ nodes, n.HasPath p

theorem pathsCovered_nil {nodes : List Node} : s.PathsCovered type [] nodes := by
  intro p o h
  exact absurd h not_stems_nil

theorem PathsCovered.append {x : Selection} {c c' : List Contribution}
    (hx : s.PathsCovered type [x] (Contribution.nodesOf c))
    (hl : s.PathsCovered type l (Contribution.nodesOf c')) :
    s.PathsCovered type (x :: l) (Contribution.nodesOf (c ++ c')) := by
  intro p o h
  rw [Contribution.nodesOf_append]
  rcases stems_cons.mp h with h | h
  · obtain ⟨n, hn, hpath⟩ := hx p o h
    exact ⟨n, List.mem_append_left _ hn, hpath⟩
  · obtain ⟨n, hn, hpath⟩ := hl p o h
    exact ⟨n, List.mem_append_right _ hn, hpath⟩

/-- A node that takes what the selections below it contribute covers what stems from them. -/
theorem PathsCovered.below {kindAt : List String → Node.Kind} {c : List Contribution}
    (h : s.PathsCovered type l (Contribution.nodesOf c)) (hc : Contribution.Regular kindAt c)
    {n : Node} (hn : n.children = (Selected.ofContributions c).nodes)
    (ho : s.Stems type l path o) : n.HasPath (n.name :: path) := by
  obtain ⟨m, hm, hpath⟩ := Selected.exists_hasPath_ofContributions hc (h path o ho)
  rw [← hn] at hm
  exact hpath.child hm

/-- A field's node covers what stems from the field as soon as it covers what stems from the
selections below. -/
theorem pathsCovered_field {t : FieldedType} {p : Position} {alias? : Option String}
    {name : String} {a : List Argument} {d : List Directive} {n : Node}
    (hn : n.name = alias?.getD name)
    (hbelow : ∀ type q o, s.schema.fieldType? t name = some type → s.Stems type l q o →
      n.HasPath (n.name :: q)) :
    s.PathsCovered (.object t) [.field p alias? name a d l] [n] := by
  intro path o h
  refine ⟨n, List.mem_singleton_self n, ?_⟩
  rcases h.of_field with rfl | ⟨type, q, ht, rfl, hq⟩
  · exact hn ▸ n.hasPath_here
  · exact hn ▸ hbelow type q o ht hq

/-- Compatible selections contribute a node wherever something stems from them. -/
theorem pathsCovered (s : Scope) : s.Invariant
    (fun t _ l c => ∀ fieldAt, Agrees fieldAt (s.schema.landedAll t l) →
      s.PathsCovered (.object t) l (Contribution.nodesOf c))
    (fun u _ l c => ∀ fieldAt, Agrees fieldAt (s.schema.landedInAll u l) →
      s.PathsCovered (.union u) l (Contribution.nodesOf c)) where
  nil := by
    intro t path fieldAt _
    exact pathsCovered_nil
  cons := by
    intro t path x l c c' hx hl fieldAt hag
    rw [Schema.landedAll_cons, Schema.agrees_append] at hag
    exact (hx fieldAt (by simpa using hag.1)).append (hl fieldAt hag.2)
  spread := by
    intro t path p f d fieldAt _ q o h
    cases h with
    | field hx | belowField hx => simp at hx
  typename := by
    intro t path p alias? a d l fieldAt _
    refine pathsCovered_field rfl ?_
    intro type q o ht _
    simp [Schema.fieldType?_typename] at ht
  leaf := by
    intro t path p alias? name a d l f type text ht ho hu _ _ fieldAt _
    refine pathsCovered_field rfl ?_
    intro type' q o ht' h
    obtain rfl := Option.some.inj (ht.symm.trans ht')
    rcases h.object_or_union with ⟨o, rfl⟩ | ⟨u, rfl⟩
    · exact absurd rfl (ho o)
    · exact absurd rfl (hu u)
  object := by
    intro t path p alias? name a d l f o c ht _ hc ih fieldAt hag
    obtain ⟨-, hbelow⟩ := (Schema.agrees_object ht).mp hag
    refine pathsCovered_field rfl ?_
    intro type q origin ht' h
    obtain rfl := Option.some.inj (ht.symm.trans ht')
    exact (ih _ hbelow).below (regular_parts hbelow hc) rfl h
  union := by
    intro t path p alias? name a d l f u c ht _ hc ih fieldAt hag
    obtain ⟨-, hbelow⟩ := (Schema.agrees_union ht).mp hag
    refine pathsCovered_field rfl ?_
    intro type q origin ht' h
    obtain rfl := Option.some.inj (ht.symm.trans ht')
    exact (ih _ hbelow).below (regular_unionParts hbelow hc) rfl h
  unionNil := by
    intro u path fieldAt _
    exact pathsCovered_nil
  unionCons := by
    intro u path x l c c' hx hl fieldAt hag
    rw [Schema.landedInAll_cons, Schema.agrees_append] at hag
    exact (hx fieldAt (by simpa using hag.1)).append (hl fieldAt hag.2)
  unionTypename := by
    intro u path p alias? a d l fieldAt _ q o h
    cases h with
    | inline hx | belowInline hx | spread hx => simp at hx
  unselected := by
    intro u path p condition? d l hm fieldAt _ q o h
    obtain ⟨member, hcondition, hmember, -⟩ := h.of_inline
    rw [hm member hcondition] at hmember
    simp at hmember
  unionSpread := by
    intro u path p f d hm fieldAt _ q o h
    obtain ⟨member, hmember, -⟩ := h.of_spread
    simp [hm] at hmember
  spreadMember := by
    intro u path p f d member t hm _ fieldAt _ q o h
    obtain ⟨member', hm', rfl⟩ := h.of_spread
    obtain rfl := Option.some.inj (hm.symm.trans hm')
    exact ⟨_, List.mem_cons_self, Node.hasPath_here _⟩
  variant := by
    intro u path p member d l t c hm ht hc ih fieldAt hag q o h
    rw [Schema.agrees_variant hm ht] at hag
    refine ⟨_, List.mem_singleton_self _, ?_⟩
    obtain ⟨member', hcondition, -, hpath⟩ := h.of_inline
    obtain rfl := Option.some.inj hcondition
    rcases hpath with rfl | ⟨t', q, ht', rfl, hq⟩
    · exact Node.hasPath_here (.variant path member _)
    · obtain rfl := Option.some.inj (ht.symm.trans ht')
      exact (ih _ hag).below (n := .variant path member _) (regular_parts hag hc) rfl hq

end Scope

/-! ### Agreement -/

namespace Schema

def landedOn (s : Schema) : SchemaType → List Selection → List (List String × String)
  | .object t, l => s.landedAll t l
  | .union u, l => s.landedInAll u l
  | _, _ => []

variable {s : Schema} {fieldAt : List String → String} {l : List Selection}

theorem landedBelow_eq {t : FieldedType} {name : String} {type : SchemaType}
    (ht : s.fieldType? t name = some type) : s.landedBelow t name l = s.landedOn type l := by
  cases type <;> simp [landedBelow, ht, landedOn]

/-- A field among agreeing selections is the one at its path, and what it selects agrees. -/
theorem Agrees.of_field {t : FieldedType} {p : Position} {alias? : Option String} {name : String}
    {a : List Argument} {d : List Directive} {below : List Selection}
    (h : Agrees fieldAt (s.landedAll t l)) (hx : .field p alias? name a d below ∈ l) :
    name = fieldAt [alias?.getD name] ∧ ∀ type, s.fieldType? t name = some type →
      Agrees (fieldAt <| alias?.getD name :: ·) (s.landedOn type below) := by
  have hfield := agrees_landedAll_iff.mp h _ hx
  rw [landed_field, agrees_cons, agrees_under] at hfield
  refine ⟨hfield.1, fun type ht => ?_⟩
  rw [← landedBelow_eq ht]
  exact hfield.2

theorem Agrees.of_inline {u : UnionType} {p : Position} {member : String} {d : List Directive}
    {below : List Selection} {t : FieldedType} (h : Agrees fieldAt (s.landedInAll u l))
    (hx : .inline p (some member) d below ∈ l) (hm : u.members.contains member = true)
    (ht : s.object? member = some t) : Agrees (fieldAt <| member :: ·) (s.landedAll t below) := by
  have hinline := agrees_landedInAll h _ hx
  rw [landedIn, if_pos hm, ht] at hinline
  exact agrees_under.mp hinline

end Schema

namespace Scope

variable {s : Scope}

/-- What stems from agreeing selections is determined by its path. -/
theorem Stems.eq_of_agrees {type : SchemaType} {l l' : List Selection} {path : List String}
    {o o' : Provenance} {fieldAt : List String → String} (h : s.Stems type l path o)
    (hl : Agrees fieldAt (s.schema.landedOn type l)) (h' : s.Stems type l' path o')
    (hl' : Agrees fieldAt (s.schema.landedOn type l')) : o = o' := by
  induction h generalizing l' o' fieldAt with
  | field hx hr =>
    cases h' with
    | field hx' hr' =>
      have hname := (Schema.Agrees.of_field hl hx).1
      have hname' := (Schema.Agrees.of_field hl' hx').1
      rw [hr] at hname
      rw [hr', ← hname] at hname'
      rw [hname']
    | belowField _ _ _ h' => exact absurd rfl h'.ne_nil
  | belowField hx hr ht h ih =>
    cases h' with
    | field => exact absurd rfl h.ne_nil
    | belowField hx' hr' ht' h' =>
      obtain ⟨hname, hbelow⟩ := Schema.Agrees.of_field hl hx
      obtain ⟨hname', hbelow'⟩ := Schema.Agrees.of_field hl' hx'
      rw [hr] at hname hbelow
      rw [hr'] at hname' hbelow'
      obtain rfl := hname.trans hname'.symm
      obtain rfl := Option.some.inj (ht.symm.trans ht')
      exact ih (hbelow _ ht) h' (hbelow' _ ht)
  | inline hx hm =>
    cases h' with
    | inline | spread => rfl
    | belowInline _ _ _ h' => exact absurd rfl h'.ne_nil
  | belowInline hx hm ht h ih =>
    cases h' with
    | inline | spread => exact absurd rfl h.ne_nil
    | belowInline hx' hm' ht' h' =>
      obtain rfl := Option.some.inj (ht.symm.trans ht')
      exact ih (Schema.Agrees.of_inline hl hx hm ht) h' (Schema.Agrees.of_inline hl' hx' hm' ht)
  | spread hx hm =>
    cases h' with
    | inline | spread => rfl
    | belowInline _ _ _ h' => exact absurd rfl h'.ne_nil

/-- The nodes in a shape stand at the paths where their place says. -/
theorem path_of_selectOnObject {t : FieldedType} {path : List String} {l : List Selection}
    {shape : Selected} (h : s.selectOnObject t path l = .ok shape) {n m : Node}
    (hn : n ∈ shape.nodes) {p : List String} (hm : n.Leads p m) :
    m.head.path = path ++ p.dropLast := by
  rw [← Except.toOption_eq_some, toOption_selectOnObject] at h
  obtain ⟨c, hparts, rfl⟩ := Option.map_eq_some_iff.mp h
  have hfit := s.labelsFit.of_parts l t path c hparts
  exact (hfit.ofContributions n hn p m.label ⟨m, hm, rfl⟩).1

/-- Paths lead to nodes in the shape of compatible selections exactly where something stems from the
selections, and every node fits whatever stems from them at its path. -/
theorem stems_iff_of_selectOnObject {t : FieldedType} {path : List String} {l : List Selection}
    {shape : Selected} (hc : s.schema.Compatible t l) (h : s.selectOnObject t path l = .ok shape) :
    (∀ p, (∃ n ∈ shape.nodes, ∃ m, n.Leads p m) ↔ ∃ o, s.Stems (.object t) l p o) ∧
    ∀ n ∈ shape.nodes, ∀ p m, n.Leads p m → ∀ o, s.Stems (.object t) l p o → o.Fits s m.label := by
  obtain ⟨fieldAt, hagrees⟩ := s.schema.exists_agrees hc
  rw [← Except.toOption_eq_some, toOption_selectOnObject] at h
  obtain ⟨c, hparts, rfl⟩ := Option.map_eq_some_iff.mp h
  have hfit := (s.labelsFit.of_parts l t path c hparts).ofContributions
  constructor
  · intro p
    constructor
    · rintro ⟨n, hn, m, hm⟩
      obtain ⟨-, o, ho, -⟩ := hfit n hn p m.label ⟨m, hm, rfl⟩
      exact ⟨o, ho⟩
    · rintro ⟨o, ho⟩
      exact Selected.exists_hasPath_ofContributions (regular_parts hagrees hparts)
        (s.pathsCovered.of_parts l t path c hparts fieldAt hagrees p o ho)
  · intro n hn p m hm o ho
    obtain ⟨-, o', ho', hfits⟩ := hfit n hn p m.label ⟨m, hm, rfl⟩
    rwa [ho.eq_of_agrees hagrees ho' hagrees]

theorem stems_iff_of_selectOnObject_sample :
    sampleScope.schema.Compatible sampleRoot sampleSelections ∧
      ∃ shape, sampleScope.selectOnObject sampleRoot ["Q"] sampleSelections = .ok shape ∧
        ∃ n ∈ shape.nodes, ∃ m, n.Leads ["pet", "Dog"] m ∧ m.head.typename? = some "Dog" := by
  have hc : sampleScope.schema.Compatible sampleRoot sampleSelections := by decide +kernel
  have hsome : (sampleScope.selectOnObject sampleRoot ["Q"] sampleSelections).toOption.isSome := by
    decide +kernel
  obtain ⟨shape, hshape⟩ := Option.isSome_iff_exists.mp hsome
  have h := Except.toOption_eq_some.mp hshape
  have hmember : sampleScope.Stems (.union ⟨"Pet", ⟨none, 1, 1⟩, ["Cat", "Dog"]⟩)
      [.inline .start (some "Dog") [] [.field .start none "name" [] [] []]] ["Dog"]
      (.variant "Dog") := .inline List.mem_cons_self rfl
  have hdog : sampleScope.Stems (.object sampleRoot) sampleSelections ["pet", "Dog"]
      (.variant "Dog") :=
    .belowField (List.mem_cons_of_mem _ List.mem_cons_self) rfl rfl hmember
  obtain ⟨hpaths, hfits⟩ := stems_iff_of_selectOnObject hc h
  obtain ⟨n, hn, m, hm⟩ := (hpaths ["pet", "Dog"]).mpr ⟨_, hdog⟩
  exact ⟨hc, shape, h, n, hn, m, hm, (hfits n hn _ m hm _ hdog).1⟩

end Scope

end QueryBindings
