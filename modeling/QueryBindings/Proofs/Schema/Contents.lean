import Mathlib.Data.List.Nodup
import QueryBindings.Proofs.Failure
import QueryBindings.Proofs.Schema.Outlines
/-!
What types hold, with the places where it is written.

A type holds the items of its definition and behind them those of its extensions, in the order in
which these are merged. Nothing is left out, moved or replaced, since an item whose name is taken is
an error.
-/
namespace QueryBindings

open TypeSystem (TypeSyntax TypeBody FieldSyntax EnumValueSyntax)

/-- A type's definition or extension, and the path of the text that it is in. -/
abbrev TypeSource := Option String × TypeSyntax

namespace TypeSource

def location (d : TypeSource) : Location := .ofPosition d.1 d.2.position

def fields (d : TypeSource) : List Field :=
  match d.2.body with
  | .object l | .interface l | .inputObject l => l.map (Field.ofSyntax d.1)
  | _ => []

def values (d : TypeSource) : List EnumValue :=
  match d.2.body with
  | .enum l => l.map fun v => ⟨v.name, .ofPosition d.1 v.position⟩
  | _ => []

def members (d : TypeSource) : List String :=
  match d.2.body with
  | .union l => l
  | _ => []

end TypeSource

namespace SchemaType

def fields : SchemaType → List Field
  | .object t | .interface t | .inputObject t => t.fields
  | _ => []

def values : SchemaType → List EnumValue
  | .enum t => t.values
  | _ => []

def members : SchemaType → List String
  | .union t => t.members
  | _ => []

/-- The fields of a type that stand before all that are written. -/
def implicitFields : SchemaType → List Field
  | .object t | .interface t => [.typename t.location]
  | _ => []

theorem implicitFields_eq {t : SchemaType} (h : t.kind = .object ∨ t.kind = .interface) :
    ∃ l, t.origin = .at l ∧ t.implicitFields = [.typename l] := by
  cases t with
  | object t => exact ⟨t.location, rfl, rfl⟩
  | interface t => exact ⟨t.location, rfl, rfl⟩
  | _ => simp [kind] at h

/-- No two items of a type have the same name. -/
structure DistinctItems (t : SchemaType) : Prop where
  fields : (t.fields.map Field.name).Nodup
  values : (t.values.map EnumValue.name).Nodup
  members : t.members.Nodup

/-- A type holds what its definition says, and then what its extensions say. -/
structure MadeOf (t : SchemaType) (d : TypeSource) (extensions : List TypeSource) : Prop where
  name : t.name = d.2.name
  kind : t.kind = d.2.body.kind
  origin : t.origin = .at d.location
  kinds : ∀ e ∈ extensions, e.2.body.kind = t.kind
  fields : t.fields = t.implicitFields ++ (d :: extensions).flatMap TypeSource.fields
  values : t.values = (d :: extensions).flatMap TypeSource.values
  members : t.members = (d :: extensions).flatMap TypeSource.members

end SchemaType

/-! ### Adding items -/

/-- Fields are added behind the others, under names that are not there yet. -/
theorem FieldedType.addFields_eq_ok {path : Option String} {t t' : FieldedType}
    {fields : List FieldSyntax} (h : t.addFields path fields = .ok t') :
    t' = { t with fields := t.fields ++ fields.map (Field.ofSyntax path) } ∧
      ((t.fields.map Field.name).Nodup → (t'.fields.map Field.name).Nodup) := by
  induction fields generalizing t with
  | nil =>
    obtain rfl := Except.ok.inj h
    simp
  | cons f rest ih =>
    unfold addFields at h
    split at h
    · simp at h
    · rename_i hfresh
      obtain ⟨rfl, hnodup⟩ := ih h
      refine ⟨by simp, fun hn => hnodup ?_⟩
      have hname : f.name ∉ t.fields.map Field.name := by
        simpa [field?] using hfresh
      simpa [Field.ofSyntax] using hn.concat hname

/-- Values are added behind the others, under names that are not there yet. -/
theorem EnumType.addValues_eq_ok {path : Option String} {t t' : EnumType}
    {values : List EnumValueSyntax} (h : t.addValues path values = .ok t') :
    t' = { t with
      values := t.values ++ values.map fun v => ⟨v.name, .ofPosition path v.position⟩ } ∧
      ((t.values.map EnumValue.name).Nodup → (t'.values.map EnumValue.name).Nodup) := by
  induction values generalizing t with
  | nil =>
    obtain rfl := Except.ok.inj h
    simp
  | cons v rest ih =>
    unfold addValues at h
    split at h
    · simp at h
    · rename_i hfresh
      obtain ⟨rfl, hnodup⟩ := ih h
      refine ⟨by simp, fun hn => hnodup ?_⟩
      have hname : v.name ∉ t.values.map EnumValue.name := by
        simpa using hfresh
      simpa using hn.concat hname

/-- Members are added behind the others, none of them twice. -/
theorem UnionType.addMembers_eq_ok {location : Location} {t t' : UnionType} {members : List String}
    (h : t.addMembers location members = .ok t') :
    t' = { t with members := t.members ++ members } ∧
      (t.members.Nodup → t'.members.Nodup) := by
  induction members generalizing t with
  | nil =>
    obtain rfl := Except.ok.inj h
    simp
  | cons m rest ih =>
    unfold addMembers at h
    split at h
    · simp at h
    · rename_i hfresh
      obtain ⟨rfl, hnodup⟩ := ih h
      refine ⟨by simp, fun hn => hnodup ?_⟩
      simpa using hn.concat (by simpa using hfresh)

/-! ### Definitions and extensions -/

namespace SchemaType

variable {path : Option String} {t t' : SchemaType} {d e : TypeSource}
  {extensions : List TypeSource}

/-- What an extension that is merged does to a type: it adds its items behind the others. -/
structure ExtendedTo (t : SchemaType) (e : TypeSource) (t' : SchemaType) : Prop where
  kind : e.2.body.kind = t.kind
  name_eq : t'.name = t.name
  kind_eq : t'.kind = t.kind
  origin_eq : t'.origin = t.origin
  implicitFields_eq : t'.implicitFields = t.implicitFields
  fields : t'.fields = t.fields ++ e.fields
  values : t'.values = t.values ++ e.values
  members : t'.members = t.members ++ e.members
  distinct : t.DistinctItems → t'.DistinctItems

/-- An extension that is merged adds its items behind the others. -/
theorem extendedTo_of_extend {e : TypeSyntax} (h : t.extend path e = .ok t') :
    t.ExtendedTo (path, e) t' := by
  obtain ⟨position, name, body⟩ := e
  cases t with
  | builtin b => cases body <;> simp [extend] at h
  | scalar n location =>
    cases body with
    | scalar =>
      obtain rfl := Except.ok.inj h
      exact ⟨rfl, rfl, rfl, rfl, rfl, rfl, rfl, rfl, id⟩
    | _ => simp [extend] at h
  | object o =>
    cases body with
    | object l =>
      obtain ⟨o', ho, rfl⟩ := Except.map_eq_ok h
      obtain ⟨rfl, hnodup⟩ := FieldedType.addFields_eq_ok ho
      exact ⟨rfl, rfl, rfl, rfl, rfl, rfl, rfl, rfl,
        fun hd => ⟨hnodup hd.fields, hd.values, hd.members⟩⟩
    | _ => simp [extend] at h
  | interface i =>
    cases body with
    | interface l =>
      obtain ⟨i', hi, rfl⟩ := Except.map_eq_ok h
      obtain ⟨rfl, hnodup⟩ := FieldedType.addFields_eq_ok hi
      exact ⟨rfl, rfl, rfl, rfl, rfl, rfl, rfl, rfl,
        fun hd => ⟨hnodup hd.fields, hd.values, hd.members⟩⟩
    | _ => simp [extend] at h
  | union u =>
    cases body with
    | union l =>
      obtain ⟨u', hu, rfl⟩ := Except.map_eq_ok h
      obtain ⟨rfl, hnodup⟩ := UnionType.addMembers_eq_ok hu
      exact ⟨rfl, rfl, rfl, rfl, rfl, rfl, rfl, rfl,
        fun hd => ⟨hd.fields, hd.values, hnodup hd.members⟩⟩
    | _ => simp [extend] at h
  | enum n =>
    cases body with
    | enum l =>
      obtain ⟨n', hn, rfl⟩ := Except.map_eq_ok h
      obtain ⟨rfl, hnodup⟩ := EnumType.addValues_eq_ok hn
      exact ⟨rfl, rfl, rfl, rfl, rfl, rfl, rfl, rfl,
        fun hd => ⟨hd.fields, hnodup hd.values, hd.members⟩⟩
    | _ => simp [extend] at h
  | inputObject i =>
    cases body with
    | inputObject l =>
      obtain ⟨i', hi, rfl⟩ := Except.map_eq_ok h
      obtain ⟨rfl, hnodup⟩ := FieldedType.addFields_eq_ok hi
      exact ⟨rfl, rfl, rfl, rfl, rfl, rfl, rfl, rfl,
        fun hd => ⟨hnodup hd.fields, hd.values, hd.members⟩⟩
    | _ => simp [extend] at h

/-- An extension adds to what a type is made of. -/
theorem MadeOf.extend (h : t.MadeOf d extensions) (he : t.ExtendedTo e t') :
    t'.MadeOf d (extensions ++ [e]) where
  name := he.name_eq.trans h.name
  kind := he.kind_eq.trans h.kind
  origin := he.origin_eq.trans h.origin
  kinds := by
    rw [he.kind_eq]
    exact List.forall_mem_append.mpr ⟨h.kinds, by simpa using he.kind⟩
  fields := by
    rw [he.fields, h.fields, he.implicitFields_eq, ← List.cons_append, List.flatMap_append,
      List.append_assoc, List.flatMap_singleton]
  values := by
    rw [he.values, h.values, ← List.cons_append, List.flatMap_append, List.flatMap_singleton]
  members := by
    rw [he.members, h.members, ← List.cons_append, List.flatMap_append, List.flatMap_singleton]

/-- The type that a definition starts from, which has no written item. -/
def blank (d : TypeSource) : SchemaType :=
  match d.2.body with
  | .scalar => .scalar d.2.name d.location
  | .object _ => .object ⟨d.2.name, d.location, [.typename d.location]⟩
  | .interface _ => .interface ⟨d.2.name, d.location, [.typename d.location]⟩
  | .union _ => .union ⟨d.2.name, d.location, []⟩
  | .enum _ => .enum ⟨d.2.name, d.location, []⟩
  | .inputObject _ => .inputObject ⟨d.2.name, d.location, []⟩

/-- A definition is what is left of its type without items, extended by itself. -/
theorem ofSyntax_eq_extend_blank (path : Option String) (d : TypeSyntax) :
    ofSyntax path d = (blank (path, d)).extend path d := by
  obtain ⟨position, name, body⟩ := d
  cases body <;> rfl

theorem distinctItems_blank (d : TypeSource) : (blank d).DistinctItems := by
  obtain ⟨path, position, name, body⟩ := d
  cases body <;> exact ⟨by simp [blank, fields], by simp [blank, values], by simp [blank, members]⟩

/-- A type that is defined holds what its definition says. -/
theorem madeOf_of_ofSyntax {d : TypeSyntax} (h : ofSyntax path d = .ok t) :
    t.MadeOf (path, d) [] ∧ t.DistinctItems := by
  rw [ofSyntax_eq_extend_blank] at h
  have he := extendedTo_of_extend h
  have hblank : (blank (path, d)).name = d.name ∧
      (blank (path, d)).origin = .at (TypeSource.location (path, d)) ∧
      (blank (path, d)).fields = (blank (path, d)).implicitFields ∧
      (blank (path, d)).values = [] ∧ (blank (path, d)).members = [] := by
    obtain ⟨position, name, body⟩ := d
    cases body <;> exact ⟨rfl, rfl, rfl, rfl, rfl⟩
  obtain ⟨hname, horigin, hfields, hvalues, hmembers⟩ := hblank
  refine ⟨?_, he.distinct (distinctItems_blank _)⟩
  exact
    { name := he.name_eq.trans hname
      kind := he.kind_eq.trans he.kind.symm
      origin := he.origin_eq.trans horigin
      kinds := by simp
      fields := by rw [he.fields, hfields, he.implicitFields_eq, List.flatMap_singleton]
      values := by rw [he.values, hvalues, List.nil_append, List.flatMap_singleton]
      members := by rw [he.members, hmembers, List.nil_append, List.flatMap_singleton] }

end SchemaType

end QueryBindings
