import Mathlib.Data.List.Nodup
import QueryBindings.Proofs.Failure
import QueryBindings.Schema.Builder
/-!
What schemas are built of, apart from places.

Fields, enum values and union members are items of their types, and an outline has the items of a
type and no places. Building a schema looks at places only to tell where something failed. So the
outline of a schema is computed from the outlines of definitions alone, in the order in which they
are loaded, and it doesn't matter how they are split into texts.
-/
namespace QueryBindings

open TypeSystem (TypeSyntax TypeBody FieldSyntax EnumValueSyntax RootsSyntax)

/-! ### Names in lists -/

/-- Where names are distinct, a name is looked up by looking for an item with it. -/
theorem find?_eq_some_iff_of_nodup {α : Type} {name : α → String} {l : List α}
    (hn : (l.map name).Nodup) {n : String} {a : α} :
    l.find? (name · == n) = some a ↔ a ∈ l ∧ name a = n := by
  constructor
  · intro h
    exact ⟨List.mem_of_find?_eq_some h, by simpa using List.find?_some h⟩
  · rintro ⟨ha, rfl⟩
    obtain ⟨found, hfound⟩ : ∃ found, l.find? (name · == name a) = some found := by
      rw [← Option.isSome_iff_exists, List.find?_isSome]
      exact ⟨a, ha, by simp⟩
    have hname : name found = name a := by simpa using List.find?_some hfound
    rw [hfound, List.inj_on_of_nodup_map hn (List.mem_of_find?_eq_some hfound) ha hname]

/-! ### Outlines -/

/-- A field, an enum value or a union member. Only fields have types. -/
structure Item where
  name : String
  builtin : Bool
  type : Option TypeAnnotation
deriving DecidableEq

namespace Item

def typename : Item := ⟨"__typename", true, some (.named "String" false)⟩

def plain (name : String) : Item := ⟨name, false, none⟩

end Item

structure TypeOutline where
  name : String
  kind : TypeKind
  items : List Item
deriving DecidableEq

namespace TypeOutline

def add? (o : TypeOutline) : List Item → Option TypeOutline
  | [] => some o
  | i :: rest =>
    if i.name ∈ o.items.map Item.name then none else add? { o with items := o.items ++ [i] } rest

def extend? (o e : TypeOutline) : Option TypeOutline :=
  if e.kind = o.kind then o.add? e.items else none

def blank (o : TypeOutline) : TypeOutline :=
  { o with items := if o.kind = .object ∨ o.kind = .interface then [.typename] else [] }

def define? (o : TypeOutline) : Option TypeOutline := o.blank.extend? o

def find? (types : List TypeOutline) (name : String) : Option TypeOutline :=
  types.find? (·.name == name)

def merge? (types : List TypeOutline) (e : TypeOutline) : Option (List TypeOutline) := do
  let t ← find? types e.name
  let extended ← t.extend? e
  return types.map fun other => if other.name = e.name then extended else other

def isObject (types : List TypeOutline) (name : String) : Bool :=
  (find? types name).any (·.kind = .object)

end TypeOutline

inductive DefinitionOutline
  | roots (named : List (OperationKind × String))
  | type (t : TypeOutline)
  | extension (e : TypeOutline)
  | directive

@[ext]
structure BuilderOutline where
  root? : OperationKind → Option String
  types : List TypeOutline
  extensions : List TypeOutline

structure SchemaOutline where
  query : String
  mutation : Option String
  subscription : Option String
  types : List TypeOutline

namespace BuilderOutline

def nameRoot? (b : BuilderOutline) (root : OperationKind × String) : Option BuilderOutline :=
  if (b.root? root.1).isSome then none
  else some { b with root? := Function.update b.root? root.1 (some root.2) }

def addType? (b : BuilderOutline) (t : TypeOutline) : Option BuilderOutline :=
  if (TypeOutline.find? b.types t.name).isSome then none
  else some { b with types := b.types ++ [t] }

def define? (b : BuilderOutline) : DefinitionOutline → Option BuilderOutline
  | .roots named => named.foldlM nameRoot? b
  | .type t => t.define?.bind b.addType?
  | .extension e => some { b with extensions := b.extensions ++ [e] }
  | .directive => some b

def resolveRoot? (b : BuilderOutline) (types : List TypeOutline) (kind : OperationKind) :
    Option (Option String) :=
  match b.root? kind with
  | some name => if TypeOutline.isObject types name then some (some name) else none
  | none =>
    let name := SchemaBuilder.defaultRootName kind
    some (if TypeOutline.isObject types name then some name else none)

def build? (b : BuilderOutline) : Option SchemaOutline := do
  let types ← b.extensions.foldlM TypeOutline.merge? b.types
  let query ← (← b.resolveRoot? types .query)
  let mutation ← b.resolveRoot? types .mutation
  let subscription ← b.resolveRoot? types .subscription
  return ⟨query, mutation, subscription, types⟩

end BuilderOutline

/-! ### Types -/

def Field.item (f : Field) : Item := ⟨f.name, f.origin = .builtin, some f.type⟩

def TypeSystem.FieldSyntax.item (f : FieldSyntax) : Item := ⟨f.name, false, some (.ofRef f.type)⟩

def FieldedType.outline (kind : TypeKind) (t : FieldedType) : TypeOutline :=
  ⟨t.name, kind, t.fields.map Field.item⟩

def EnumType.outline (t : EnumType) : TypeOutline := ⟨t.name, .enum, t.values.map (.plain ·.name)⟩

def UnionType.outline (t : UnionType) : TypeOutline := ⟨t.name, .union, t.members.map .plain⟩

/-- A type without its places. -/
def SchemaType.outline : SchemaType → TypeOutline
  | .builtin b => ⟨b.name, .builtin b, []⟩
  | .scalar name _ => ⟨name, .scalar, []⟩
  | .object t => t.outline .object
  | .interface t => t.outline .interface
  | .union t => t.outline
  | .enum t => t.outline
  | .inputObject t => t.outline .inputObject

namespace TypeSystem

def TypeBody.kind : TypeBody → TypeKind
  | .scalar => .scalar
  | .object _ => .object
  | .interface _ => .interface
  | .union _ => .union
  | .enum _ => .enum
  | .inputObject _ => .inputObject

theorem TypeBody.kind_ne_builtin (body : TypeBody) (b : Builtin) : body.kind ≠ .builtin b := by
  cases body <;> simp [kind]

def TypeBody.items : TypeBody → List Item
  | .scalar => []
  | .object fields | .interface fields | .inputObject fields => fields.map FieldSyntax.item
  | .union members => members.map .plain
  | .enum values => values.map (.plain ·.name)

def TypeSyntax.outline (t : TypeSyntax) : TypeOutline := ⟨t.name, t.body.kind, t.body.items⟩

end TypeSystem

@[simp] theorem SchemaType.name_outline (t : SchemaType) : t.outline.name = t.name := by
  cases t <;> rfl

theorem TypeOutline.add?_cons_of_mem {o : TypeOutline} {i : Item} {rest : List Item}
    (h : i.name ∈ o.items.map Item.name) : o.add? (i :: rest) = none := by rw [add?, if_pos h]

theorem TypeOutline.add?_cons_of_not_mem {o : TypeOutline} {i : Item} {rest : List Item}
    (h : i.name ∉ o.items.map Item.name) :
    o.add? (i :: rest) = add? { o with items := o.items ++ [i] } rest := by rw [add?, if_neg h]

/-- Whether fields can be added, and the type that results, is told by outlines. -/
theorem FieldedType.outline_addFields (kind : TypeKind) (path : Option String)
    (fields : List FieldSyntax) (t : FieldedType) :
    (t.addFields path fields).toOption.map (outline kind) =
      (t.outline kind).add? (fields.map FieldSyntax.item) := by
  induction fields generalizing t with
  | nil => rfl
  | cons f rest ih =>
    have htaken : (t.field? f.name).isSome ↔ f.name ∈ (t.outline kind).items.map Item.name := by
      simp [field?, outline, Field.item]
    rw [addFields, List.map_cons]
    by_cases h : (t.field? f.name).isSome
    · rw [if_pos h, TypeOutline.add?_cons_of_mem (htaken.mp h)]
      rfl
    · rw [if_neg h, TypeOutline.add?_cons_of_not_mem (mt htaken.mpr h), ih]
      simp [outline, Field.ofSyntax, Field.item, FieldSyntax.item]

theorem EnumType.outline_addValues (path : Option String) (values : List EnumValueSyntax)
    (t : EnumType) : (t.addValues path values).toOption.map outline =
      t.outline.add? (values.map (.plain ·.name)) := by
  induction values generalizing t with
  | nil => rfl
  | cons v rest ih =>
    have htaken : t.values.any (·.name == v.name) ↔
        (Item.plain v.name).name ∈ t.outline.items.map Item.name := by
      simp [outline, Item.plain]
    simp only [addValues, List.map_cons]
    by_cases h : t.values.any (·.name == v.name)
    · rw [if_pos h, TypeOutline.add?_cons_of_mem (htaken.mp h)]
      rfl
    · rw [if_neg h, TypeOutline.add?_cons_of_not_mem (mt htaken.mpr h), ih]
      simp [outline]

theorem UnionType.outline_addMembers (location : Location) (members : List String)
    (t : UnionType) : (t.addMembers location members).toOption.map outline =
      t.outline.add? (members.map .plain) := by
  induction members generalizing t with
  | nil => rfl
  | cons m rest ih =>
    have htaken : t.members.contains m ↔ m ∈ t.outline.items.map Item.name := by
      simp [outline, Item.plain]
    rw [addMembers, List.map_cons]
    by_cases h : t.members.contains m
    · rw [if_pos h, TypeOutline.add?_cons_of_mem (htaken.mp h)]
      rfl
    · rw [if_neg h, TypeOutline.add?_cons_of_not_mem (mt htaken.mpr h), ih]
      simp [outline]

namespace SchemaType

/-- The outline of a definition's type is what the definition's own outline defines. -/
theorem outline_ofSyntax (path : Option String) (t : TypeSyntax) :
    (ofSyntax path t).toOption.map outline = t.outline.define? := by
  obtain ⟨position, name, body⟩ := t
  cases body with
  | scalar => rfl
  | object fields =>
    simp only [ofSyntax, Except.toOption_map, Option.map_map]
    exact FieldedType.outline_addFields ..
  | interface fields =>
    simp only [ofSyntax, Except.toOption_map, Option.map_map]
    exact FieldedType.outline_addFields ..
  | union members =>
    simp only [ofSyntax, Except.toOption_map, Option.map_map]
    exact UnionType.outline_addMembers ..
  | enum values =>
    simp only [ofSyntax, Except.toOption_map, Option.map_map]
    exact EnumType.outline_addValues ..
  | inputObject fields =>
    simp only [ofSyntax, Except.toOption_map, Option.map_map]
    exact FieldedType.outline_addFields ..

/-- The outline of an extended type is the extended outline. -/
theorem outline_extend (path : Option String) (e : TypeSyntax) (t : SchemaType) :
    (t.extend path e).toOption.map outline = t.outline.extend? e.outline := by
  obtain ⟨position, name, body⟩ := e
  cases t with
  | builtin b => cases body <;> rfl
  | scalar name location => cases body <;> rfl
  | object o =>
    cases body with
    | object fields =>
      simp only [extend, Except.toOption_map, Option.map_map]
      exact FieldedType.outline_addFields ..
    | _ => rfl
  | interface i =>
    cases body with
    | interface fields =>
      simp only [extend, Except.toOption_map, Option.map_map]
      exact FieldedType.outline_addFields ..
    | _ => rfl
  | union u =>
    cases body with
    | union members =>
      simp only [extend, Except.toOption_map, Option.map_map]
      exact UnionType.outline_addMembers ..
    | _ => rfl
  | enum t =>
    cases body with
    | enum values =>
      simp only [extend, Except.toOption_map, Option.map_map]
      exact EnumType.outline_addValues ..
    | _ => rfl
  | inputObject i =>
    cases body with
    | inputObject fields =>
      simp only [extend, Except.toOption_map, Option.map_map]
      exact FieldedType.outline_addFields ..
    | _ => rfl

theorem find?_map_outline (types : List SchemaType) (name : String) :
    TypeOutline.find? (types.map outline) name = (find? types name).map outline := by
  rw [TypeOutline.find?, find?, List.find?_map]
  simp only [Function.comp_def, name_outline]

/-- The outlines of merged types are the merged outlines. -/
theorem outline_mergeExtension (types : List SchemaType) (extension : Option String × TypeSyntax) :
    (mergeExtension types extension).toOption.map (List.map outline) =
      TypeOutline.merge? (types.map outline) extension.2.outline := by
  obtain ⟨path, e⟩ := extension
  have hname : e.outline.name = e.name := rfl
  simp only [mergeExtension, TypeOutline.merge?, hname, find?_map_outline]
  cases find? types e.name with
  | none => rfl
  | some t =>
    simp only [Option.map_some, Option.bind_eq_bind, Option.bind_some, ← outline_extend path]
    cases t.extend path e with
    | error reason => rfl
    | ok extended =>
      have hmap : ∀ other : SchemaType,
          (if other.name = e.name then extended else other).outline =
            if other.outline.name = e.name then extended.outline else other.outline := by
        intro other
        rw [name_outline]
        split <;> rfl
      simp [hmap, bind, Except.bind, pure, Except.pure]

end SchemaType

/-! ### Builders -/

def TypeSystem.RootsSyntax.named (r : RootsSyntax) : List (OperationKind × String) :=
  [(.query, r.query), (.mutation, r.mutation), (.subscription, r.subscription)].filterMap
    fun root => root.2.map (root.1, ·)

def TypeSystem.Definition.outline : TypeSystem.Definition → DefinitionOutline
  | .roots r => .roots r.named
  | .type t => .type t.outline
  | .extension t => .extension t.outline
  | .directive => .directive

namespace SchemaBuilder

def outline (b : SchemaBuilder) : BuilderOutline where
  root? kind := (b.root? kind).map (·.type)
  types := b.types.map SchemaType.outline
  extensions := b.extensions.map (·.2.outline)

/-- The builder that a step leaves behind if it didn't stop short. -/
def Step.outcome : Step → Except SchemaError SchemaBuilder
  | (b, none) => .ok b
  | (_, some e) => .error e

theorem outline_setRoot (b : SchemaBuilder) (kind : OperationKind) (root : RootDefinition) :
    (b.setRoot kind root).outline =
      { b.outline with root? := Function.update b.outline.root? kind (some root.type) } := by
  apply BuilderOutline.ext
  case root? =>
    funext k
    cases kind <;> cases k <;> rfl
  case types => cases kind <;> rfl
  case extensions => cases kind <;> rfl

theorem outline_nameRoots (location : Location) (roots : List (OperationKind × Option String))
    (b : SchemaBuilder) : (b.nameRoots location roots).outcome.toOption.map outline =
      (roots.filterMap fun root => root.2.map (root.1, ·)).foldlM BuilderOutline.nameRoot?
        b.outline := by
  induction roots generalizing b with
  | nil => rfl
  | cons root rest ih =>
    obtain ⟨kind, type⟩ := root
    cases type with
    | none => exact ih b
    | some name =>
      have hfilter : ((kind, some name) :: rest).filterMap (fun root => root.2.map (root.1, ·)) =
          (kind, name) :: rest.filterMap fun root => root.2.map (root.1, ·) := rfl
      have hroot : b.outline.root? kind = (b.root? kind).map (·.type) := rfl
      rw [hfilter, List.foldlM_cons, BuilderOutline.nameRoot?, hroot]
      cases h : b.root? kind with
      | some existing =>
        simp only [nameRoots, nameRoot, h]
        rfl
      | none =>
        simp only [nameRoots, nameRoot, h, ih, outline_setRoot]
        rfl

theorem outline_addType (b : SchemaBuilder) (t : SchemaType) :
    (b.addType t).toOption.map outline = b.outline.addType? t.outline := by
  rw [addType, BuilderOutline.addType?, outline, SchemaType.find?_map_outline,
    SchemaType.name_outline]
  cases h : SchemaType.find? b.types t.name with
  | some other => rfl
  | none => simp [outline, root?]

/-- A definition that is taken does to the outline what its own outline says. -/
theorem outline_define (b : SchemaBuilder) (path : Option String) (d : TypeSystem.Definition) :
    (b.define path d).outcome.toOption.map outline = b.outline.define? d.outline := by
  cases d with
  | roots r => exact outline_nameRoots _ _ b
  | type t =>
    have houtcome : (b.define path (.type t)).outcome = SchemaType.ofSyntax path t >>= b.addType := by
      rw [define]
      cases SchemaType.ofSyntax path t >>= b.addType <;> rfl
    rw [houtcome, Except.toOption_bind]
    simp only [TypeSystem.Definition.outline, BuilderOutline.define?,
      ← SchemaType.outline_ofSyntax path]
    cases SchemaType.ofSyntax path t with
    | error e => rfl
    | ok t => exact b.outline_addType t
  | extension t => simp [define, Step.outcome, TypeSystem.Definition.outline,
      BuilderOutline.define?, outline, root?]
  | directive => rfl

/-- Definitions of a text are taken one by one. -/
theorem outcome_defineAll (b : SchemaBuilder) (path : Option String)
    (ds : List TypeSystem.Definition) :
    (b.defineAll path ds).outcome = ds.foldlM (fun b d => (b.define path d).outcome) b := by
  induction ds generalizing b with
  | nil => rfl
  | cons d rest ih =>
    rw [defineAll, List.foldlM_cons]
    rcases h : b.define path d with ⟨b', _ | e⟩
    · exact ih b'
    · rfl

theorem outline_defineAll (path : Option String) (ds : List TypeSystem.Definition)
    (b : SchemaBuilder) : (b.defineAll path ds).outcome.toOption.map outline =
      (ds.map TypeSystem.Definition.outline).foldlM BuilderOutline.define? b.outline := by
  rw [outcome_defineAll]
  exact Except.toOption_foldlM (fun b d => b.outline_define path d) ds b

theorem isObject_map_outline (types : List SchemaType) (name : String) :
    TypeOutline.isObject (types.map SchemaType.outline) name =
      match SchemaType.find? types name with
      | some (.object _) => true
      | _ => false := by
  rw [TypeOutline.isObject, SchemaType.find?_map_outline]
  cases SchemaType.find? types name with
  | none => rfl
  | some t => cases t <;> rfl

theorem outline_resolveRoot (b : SchemaBuilder) (types : List SchemaType) (kind : OperationKind) :
    (b.resolveRoot types kind).toOption =
      b.outline.resolveRoot? (types.map SchemaType.outline) kind := by
  have hroot : b.outline.root? kind = (b.root? kind).map (·.type) := rfl
  simp only [resolveRoot, BuilderOutline.resolveRoot?, hroot, isObject_map_outline]
  cases b.root? kind with
  | none =>
    simp only [Option.map_none]
    split <;> simp_all
  | some root =>
    simp only [Option.map_some]
    split <;> simp_all

end SchemaBuilder

def Schema.outline (s : Schema) : SchemaOutline :=
  ⟨s.query, s.mutation, s.subscription, s.types.map SchemaType.outline⟩

/-- The outline of the schema that is built is built of the builder's outline. -/
theorem SchemaBuilder.outline_build (b : SchemaBuilder) :
    b.build.toOption.map Schema.outline = b.outline.build? := by
  have hmerge : (b.extensions.foldlM SchemaType.mergeExtension b.types).toOption.map
      (List.map SchemaType.outline) =
        b.outline.extensions.foldlM TypeOutline.merge? b.outline.types :=
    Except.toOption_foldlM SchemaType.outline_mergeExtension b.extensions b.types
  rw [build, BuilderOutline.build?, ← hmerge, Except.toOption_bind]
  cases (b.extensions.foldlM SchemaType.mergeExtension b.types).toOption with
  | none => rfl
  | some types =>
    simp only [Option.bind_some, Option.map_some, Option.bind_eq_bind, Except.toOption_bind,
      ← outline_resolveRoot]
    rcases (b.resolveRoot types .query).toOption with _ | _ | query
    · rfl
    · rfl
    · simp only [Option.bind_some, Except.toOption_bind]
      cases (b.resolveRoot types .mutation).toOption with
      | none => rfl
      | some mutation =>
        cases (b.resolveRoot types .subscription).toOption with
        | none => rfl
        | some subscription => rfl

/-! ### Loads -/

/-- The outline of the schema that definitions describe when they are loaded in their order. -/
def SchemaOutline.describe? (ds : List DefinitionOutline) : Option SchemaOutline :=
  (ds.foldlM BuilderOutline.define? SchemaBuilder.empty.outline).bind BuilderOutline.build?

/-- The definitions of a text, and the text's path. -/
abbrev Load := Option String × List TypeSystem.Definition

namespace SchemaBuilder

def loadAll (b : SchemaBuilder) : List Load → Except SchemaError SchemaBuilder
  | [] => .ok b
  | (path, ds) :: rest => do (← (b.defineAll path ds).outcome).loadAll rest

def definitionsOf (loads : List Load) : List TypeSystem.Definition := loads.flatMap (·.2)

theorem outline_loadAll (loads : List Load) (b : SchemaBuilder) :
    (b.loadAll loads).toOption.map outline =
      ((definitionsOf loads).map TypeSystem.Definition.outline).foldlM BuilderOutline.define?
        b.outline := by
  induction loads generalizing b with
  | nil => rfl
  | cons load rest ih =>
    obtain ⟨path, ds⟩ := load
    have hdefinitions : definitionsOf ((path, ds) :: rest) = ds ++ definitionsOf rest :=
      List.flatMap_cons
    rw [hdefinitions, List.map_append, List.foldlM_append, ← outline_defineAll path, loadAll,
      Except.toOption_bind]
    cases (b.defineAll path ds).outcome with
    | error e => rfl
    | ok b' => exact ih b'

end SchemaBuilder

namespace Schema

open SchemaBuilder (definitionsOf)

/-- The schema of definitions that are loaded text by text. -/
def ofLoads (loads : List Load) : Except SchemaError Schema :=
  SchemaBuilder.empty.loadAll loads >>= SchemaBuilder.build

/-- The outline of a schema is that of its definitions, however they are split into texts. -/
theorem outline_ofLoads (loads : List Load) : (ofLoads loads).toOption.map outline =
    SchemaOutline.describe? ((definitionsOf loads).map TypeSystem.Definition.outline) := by
  rw [SchemaOutline.describe?, ← SchemaBuilder.outline_loadAll, ofLoads, Except.toOption_bind]
  cases SchemaBuilder.empty.loadAll loads with
  | error e => rfl
  | ok b => exact b.outline_build

/-- Every text parses to the definitions of the load in its place, which has its path. -/
def Parse (texts : List (Option String × String)) (loads : List Load) : Prop :=
  List.Forall₂ (fun text load => load.1 = text.1 ∧
    TypeSystem.Definition.parse text.2 = some load.2) texts loads

/-- Texts are loaded definition by definition. -/
theorem ofTexts_eq_ofLoads {texts : List (Option String × String)} {loads : List Load}
    (h : Parse texts loads) : ofTexts texts = ofLoads loads := by
  suffices hgo : ∀ b, ofTexts.go b texts = SchemaBuilder.loadAll b loads >>= SchemaBuilder.build from
    hgo .empty
  induction h with
  | nil => exact fun b => rfl
  | @cons text load _ _ ht _ ih =>
    intro b
    obtain ⟨path, source⟩ := text
    obtain ⟨path', ds⟩ := load
    obtain ⟨hpath, hparse⟩ := ht
    have hpath : path' = path := hpath
    have hparse : TypeSystem.Definition.parse source = some ds := hparse
    simp only [ofTexts.go, SchemaBuilder.load, SchemaBuilder.loadAll, hparse, hpath]
    rcases b.defineAll path ds with ⟨b', _ | e⟩
    · exact ih b'
    · rfl

end Schema

end QueryBindings
