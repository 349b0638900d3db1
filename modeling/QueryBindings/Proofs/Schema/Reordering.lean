import QueryBindings.Proofs.Schema.Described
/-!
The order of definitions, and extensions written out.

A schema depends on its definitions and, for every type, on the order of the extensions that name it.
Nothing changes but places if definitions are put in another order or into other texts, or if the
items of extensions are written into the definitions that they extend.
-/
namespace QueryBindings

open TypeSystem (TypeSyntax TypeBody)
open SchemaBuilder (definitionsOf)
open DefinitionOutline (rootsOf)

/-! ### Schemas without places -/

def Location.nowhere : Location := ⟨none, 0, 0⟩

def Field.unplaced (f : Field) : Field where
  name := f.name
  origin := match f.origin with
    | .builtin => .builtin
    | .at _ => .at .nowhere
  type := f.type
  location := .nowhere

def FieldedType.unplaced (t : FieldedType) : FieldedType :=
  ⟨t.name, .nowhere, t.fields.map Field.unplaced⟩

def SchemaType.unplaced : SchemaType → SchemaType
  | .builtin b => .builtin b
  | .scalar name _ => .scalar name .nowhere
  | .object t => .object t.unplaced
  | .interface t => .interface t.unplaced
  | .union t => .union ⟨t.name, .nowhere, t.members⟩
  | .enum t => .enum ⟨t.name, .nowhere, t.values.map fun v => ⟨v.name, .nowhere⟩⟩
  | .inputObject t => .inputObject t.unplaced

/-- Schemas that are the same up to places and the order in which types are listed. -/
structure Schema.SameUpToPlaces (s s' : Schema) : Prop where
  query : s'.query = s.query
  mutation : s'.mutation = s.mutation
  subscription : s'.subscription = s.subscription
  types : (s'.types.map SchemaType.unplaced).Perm (s.types.map SchemaType.unplaced)
  find : ∀ name, (s'.find? name).map SchemaType.unplaced = (s.find? name).map SchemaType.unplaced

def Item.field (i : Item) : Field where
  name := i.name
  origin := if i.builtin then .builtin else .at .nowhere
  type := i.type.getD (.named "" true)
  location := .nowhere

def TypeOutline.type (o : TypeOutline) : SchemaType :=
  let fielded : FieldedType := ⟨o.name, .nowhere, o.items.map Item.field⟩
  match o.kind with
  | .builtin b => .builtin b
  | .scalar => .scalar o.name .nowhere
  | .object => .object fielded
  | .interface => .interface fielded
  | .union => .union ⟨o.name, .nowhere, o.items.map Item.name⟩
  | .enum => .enum ⟨o.name, .nowhere, o.items.map fun i => ⟨i.name, .nowhere⟩⟩
  | .inputObject => .inputObject fielded

theorem Field.field_item (f : Field) : f.item.field = f.unplaced := by
  obtain ⟨name, origin, type, location⟩ := f
  cases origin <;> rfl

/-- An outline leaves out nothing but places. -/
theorem SchemaType.type_outline (t : SchemaType) : t.outline.type = t.unplaced := by
  have hfields : ∀ fields : List Field,
      (fields.map Field.item).map Item.field = fields.map Field.unplaced := by
    intro fields
    rw [List.map_map]
    exact List.map_congr_left fun f _ => f.field_item
  cases t with
  | builtin | scalar => rfl
  | object t | interface t | inputObject t =>
    simp only [outline, FieldedType.outline, TypeOutline.type, hfields]
    rfl
  | union t =>
    simp [outline, UnionType.outline, TypeOutline.type, unplaced, Item.plain, Function.comp_def]
  | enum t =>
    simp [outline, EnumType.outline, TypeOutline.type, unplaced, Item.plain, Function.comp_def]

/-! ### Outlines in another order -/

namespace TypeOutline

variable {types types' : List TypeOutline}

/-- In whatever order types are, the same one has a name. -/
theorem find?_eq_of_perm (h : types.Perm types') (hn : (types.map name).Nodup) (n : String) :
    find? types' n = find? types n := by
  have hn' : (types'.map name).Nodup := (h.map _).nodup_iff.mp hn
  refine Option.ext fun o => ?_
  rw [find?_eq_some_iff hn, find?_eq_some_iff hn', h.mem_iff]

/-- Types and names in another order have the same root. -/
theorem rootOf?_of_perm (h : types.Perm types') (hn : (types.map name).Nodup)
    {kind : OperationKind} {named named' : List String} (hnamed : named.Perm named')
    {root : Option String} (hroot : BuilderOutline.rootOf? types kind named = some root) :
    BuilderOutline.rootOf? types' kind named' = some root := by
  have hobject : ∀ n, isObject types' n = isObject types n := by
    intro n
    rw [isObject, isObject, find?_eq_of_perm h hn]
  cases named with
  | nil =>
    obtain rfl := hnamed.nil_eq
    simpa only [BuilderOutline.rootOf?, hobject] using hroot
  | cons n rest =>
    cases rest with
    | nil =>
      obtain rfl := List.singleton_perm.mp hnamed
      simpa only [BuilderOutline.rootOf?, hobject] using hroot
    | cons => simp [BuilderOutline.rootOf?] at hroot

end TypeOutline

namespace SchemaOutline

/-- Outlines with the same roots and, in some order, the same types. -/
structure SameTypes (o o' : SchemaOutline) : Prop where
  roots : ∀ kind, o'.rootName? kind = o.rootName? kind
  types : o'.types.Perm o.types

/-- Definitions in another order describe the same roots and types. -/
theorem DescribedBy.reorder {o : SchemaOutline} {ds ds' : List DefinitionOutline}
    (h : o.DescribedBy ds) (hp : ds.Perm ds')
    (he : ∀ name, (DefinitionOutline.extensions ds').filter (·.name = name) =
      (DefinitionOutline.extensions ds).filter (·.name = name)) :
    ∃ o', o'.DescribedBy ds' ∧ o.SameTypes o' := by
  obtain ⟨ts, hts, hcomplete⟩ := h.types
  have htypes : (DefinitionOutline.types ds).Perm (DefinitionOutline.types ds') :=
    hp.filterMap _
  have hextensions : (DefinitionOutline.extensions ds).Perm (DefinitionOutline.extensions ds') :=
    hp.filterMap _
  have hsame : ∀ t : TypeOutline, t.complete? (DefinitionOutline.extensions ds') =
      t.complete? (DefinitionOutline.extensions ds) := by
    intro t
    rw [TypeOutline.complete?, TypeOutline.complete?, he]
  obtain ⟨ts', hts', hperm⟩ := List.Forall₂.exists_of_perm hts htypes
  obtain ⟨types', hcomplete', hperm'⟩ :=
    List.Forall₂.exists_of_perm hcomplete (hperm.symm.append_left builtins)
  have hnames := hperm'.map TypeOutline.name
  refine ⟨⟨o.query, o.mutation, o.subscription, types'⟩, ?_,
    fun kind => by cases kind <;> rfl, hperm'⟩
  exact
    { types := ⟨ts', hts', by simpa only [hsame] using hcomplete'⟩
      nodup := hnames.nodup_iff.mpr h.nodup
      targets := fun e hm => hnames.mem_iff.mpr (h.targets e (hextensions.mem_iff.mpr hm))
      roots := fun kind => by
        have hnamed : (rootsOf ds kind).Perm (rootsOf ds' kind) :=
          ((hp.flatMap_right _).filter _).map _
        rw [TypeOutline.rootOf?_of_perm hperm'.symm h.nodup hnamed (h.roots kind)]
        cases kind <;> rfl }

end SchemaOutline

/-! ### Extensions written out -/

namespace TypeSystem

def TypeBody.append : TypeBody → TypeBody → TypeBody
  | .object a, .object b => .object (a ++ b)
  | .interface a, .interface b => .interface (a ++ b)
  | .union a, .union b => .union (a ++ b)
  | .enum a, .enum b => .enum (a ++ b)
  | .inputObject a, .inputObject b => .inputObject (a ++ b)
  | a, _ => a

def TypeSyntax.withExtensions (t : TypeSyntax) (extensions : List TypeSyntax) : TypeSyntax :=
  { t with body := extensions.foldl (fun body e => body.append e.body) t.body }

def Definition.type? : TypeSystem.Definition → Option TypeSyntax
  | .type t => some t
  | _ => none

def Definition.extension? : TypeSystem.Definition → Option TypeSyntax
  | .extension e => some e
  | _ => none

def extensionsOf (ds : List TypeSystem.Definition) (name : String) : List TypeSyntax :=
  (ds.filterMap Definition.extension?).filter (·.name = name)

/-- What becomes of a definition when extensions are written into types. -/
def Definition.inlined? (write : TypeSyntax → TypeSyntax) :
    TypeSystem.Definition → Option TypeSystem.Definition
  | .roots r => some (.roots r)
  | .type t => some (.type (write t))
  | .extension _ => none
  | .directive => some .directive

/-- The definitions without extensions, which are written into the definitions that they extend. -/
def inlined (ds : List TypeSystem.Definition) : List TypeSystem.Definition :=
  ds.filterMap (Definition.inlined? fun t => t.withExtensions (extensionsOf ds t.name))

/-- Bodies of one kind put their items one behind the other. -/
theorem TypeBody.append_of_kind_eq {a b : TypeBody} (h : b.kind = a.kind) :
    (a.append b).kind = a.kind ∧ (a.append b).items = a.items ++ b.items := by
  cases a <;> cases b <;> simp_all [kind, append, items]

theorem TypeBody.foldl_append {extensions : List TypeSyntax} {body : TypeBody}
    (h : ∀ e ∈ extensions, e.body.kind = body.kind) :
    (extensions.foldl (fun body e => body.append e.body) body).kind = body.kind ∧
      (extensions.foldl (fun body e => body.append e.body) body).items =
        body.items ++ extensions.flatMap (·.body.items) := by
  induction extensions generalizing body with
  | nil => simp
  | cons e rest ih =>
    obtain ⟨he, hrest⟩ := List.forall_mem_cons.mp h
    obtain ⟨hkind, hitems⟩ := append_of_kind_eq he
    obtain ⟨hkind', hitems'⟩ := ih fun f hf => (hrest f hf).trans hkind.symm
    rw [List.foldl_cons, List.flatMap_cons, hkind', hitems', hkind, hitems, List.append_assoc]
    exact ⟨rfl, rfl⟩

/-- Extensions that are written into a definition put their items behind its own. -/
theorem TypeSyntax.outline_withExtensions {t : TypeSyntax} {extensions : List TypeSyntax}
    (h : ∀ e ∈ extensions, e.body.kind = t.body.kind) :
    (t.withExtensions extensions).outline = { t.outline with
      items := t.outline.items ++ (extensions.map TypeSyntax.outline).flatMap (·.items) } := by
  obtain ⟨hkind, hitems⟩ := TypeBody.foldl_append h
  rw [outline, withExtensions, hkind, hitems, List.flatMap_map]
  rfl

variable (ds : List TypeSystem.Definition)

theorem types_map_outline : DefinitionOutline.types (ds.map Definition.outline) =
    (ds.filterMap Definition.type?).map TypeSyntax.outline := by
  rw [DefinitionOutline.types, List.filterMap_map, List.map_filterMap]
  refine List.filterMap_congr fun d _ => ?_
  cases d <;> rfl

theorem extensions_map_outline : DefinitionOutline.extensions (ds.map Definition.outline) =
    (ds.filterMap Definition.extension?).map TypeSyntax.outline := by
  rw [DefinitionOutline.extensions, List.filterMap_map, List.map_filterMap]
  refine List.filterMap_congr fun d _ => ?_
  cases d <;> rfl

theorem filter_extensions_map_outline (name : String) :
    (DefinitionOutline.extensions (ds.map Definition.outline)).filter (·.name = name) =
      (extensionsOf ds name).map TypeSyntax.outline := by
  rw [extensions_map_outline, List.filter_map]
  rfl

/-- Inlined definitions define the same types, with extensions written into them. -/
theorem types_inlined : (inlined ds).filterMap Definition.type? =
    (ds.filterMap Definition.type?).map fun t => t.withExtensions (extensionsOf ds t.name) := by
  rw [inlined, List.filterMap_filterMap, List.map_filterMap]
  refine List.filterMap_congr fun d _ => ?_
  cases d <;> rfl

theorem extensions_inlined : (inlined ds).filterMap Definition.extension? = [] := by
  rw [inlined, List.filterMap_filterMap, List.filterMap_eq_nil_iff]
  intro d _
  cases d <;> rfl

/-- Inlining keeps the roots that are named. -/
theorem rootsOf_inlined (kind : OperationKind) :
    rootsOf ((inlined ds).map Definition.outline) kind = rootsOf (ds.map Definition.outline) kind := by
  have hnamed : ∀ (write : TypeSyntax → TypeSyntax) (l : List TypeSystem.Definition),
      ((l.filterMap (Definition.inlined? write)).map Definition.outline).flatMap
        DefinitionOutline.named = (l.map Definition.outline).flatMap DefinitionOutline.named := by
    intro write l
    induction l with
    | nil => rfl
    | cons d rest ih =>
      cases d with
      | roots r => exact congrArg (r.named ++ ·) ih
      | type | extension | directive => exact ih
  rw [rootsOf, inlined, hnamed, rootsOf]

end TypeSystem

/-- Extensions that are merged one by one add all their items. -/
theorem TypeOutline.add?_of_foldlM_extend? {o o' : TypeOutline} {extensions : List TypeOutline}
    (h : extensions.foldlM extend? o = some o') :
    o.add? (extensions.flatMap (·.items)) = some o' := by
  induction extensions generalizing o with
  | nil => exact h
  | cons e rest ih =>
    rw [List.foldlM_cons] at h
    obtain ⟨extended, he, h⟩ := Option.bind_eq_some_iff.mp h
    rw [List.flatMap_cons, add?_append, (extend?_eq_some_iff.mp he).2]
    exact ih h

/-- A type that is defined and then extended is the type with all items in its definition. -/
theorem TypeOutline.define?_of_extended {o defined extended : TypeOutline}
    {extensions : List TypeOutline} (hd : o.define? = some defined)
    (he : extensions.foldlM extend? defined = some extended) :
    define? { o with items := o.items ++ extensions.flatMap (·.items) } = some extended := by
  obtain ⟨-, hd⟩ := extend?_eq_some_iff.mp hd
  refine extend?_eq_some_iff.mpr ⟨rfl, ?_⟩
  rw [add?_append]
  exact Option.bind_eq_some_iff.mpr ⟨defined, hd, add?_of_foldlM_extend? he⟩

namespace SchemaOutline

/-- Builtin types have no extensions, since no definition is of their kind. -/
theorem complete?_builtins {ds : List TypeSystem.Definition} {types : List TypeOutline}
    (h : List.Forall₂ (fun t t' => t.complete? (DefinitionOutline.extensions
      (ds.map TypeSystem.Definition.outline)) = some t') builtins types) : types = builtins := by
  have hbuiltin : ∀ t ∈ builtins, ∃ b, t.kind = .builtin b := by
    simp [builtins, SchemaType.builtins, SchemaType.outline]
  refine (List.Forall₂.eq_map h fun t ht t' hcomplete => ?_).trans (List.map_id _)
  rw [TypeOutline.complete?, TypeSystem.filter_extensions_map_outline] at hcomplete
  obtain ⟨b, hb⟩ := hbuiltin t ht
  obtain ⟨-, -, hkinds⟩ := TypeOutline.head_of_foldlM_extend? hcomplete
  cases hextensions : TypeSystem.extensionsOf ds t.name with
  | nil =>
    rw [hextensions] at hcomplete
    exact (Option.some.inj hcomplete).symm
  | cons e rest =>
    have hkind := hkinds e.outline (by simp [hextensions])
    exact absurd (hkind.trans hb) (e.body.kind_ne_builtin b)

/-- A type gets from its definition with extensions written out what it gets from both. -/
theorem define?_withExtensions {ds : List TypeSystem.Definition} {t : TypeSyntax}
    {defined extended : TypeOutline} (hd : t.outline.define? = some defined)
    (he : defined.complete? (DefinitionOutline.extensions
      (ds.map TypeSystem.Definition.outline)) = some extended) :
    (t.withExtensions (TypeSystem.extensionsOf ds t.name)).outline.define? = some extended := by
  obtain ⟨hname, hkind⟩ := TypeOutline.head_of_define? hd
  rw [TypeOutline.complete?, TypeSystem.filter_extensions_map_outline, hname] at he
  obtain ⟨-, -, hkinds⟩ := TypeOutline.head_of_foldlM_extend? he
  have houtline := TypeSystem.TypeSyntax.outline_withExtensions fun e hm =>
    (hkinds _ (List.mem_map_of_mem hm)).trans hkind
  exact (congrArg _ houtline).trans (TypeOutline.define?_of_extended hd he)

/-- A schema is described by its definitions with all extensions written out. -/
theorem DescribedBy.inline {o : SchemaOutline} {ds : List TypeSystem.Definition}
    (h : o.DescribedBy (ds.map TypeSystem.Definition.outline)) :
    o.DescribedBy ((TypeSystem.inlined ds).map TypeSystem.Definition.outline) := by
  obtain ⟨ts, hts, hcomplete⟩ := h.types
  rw [← Option.mapM_eq_some, List.mapM_append] at hcomplete
  obtain ⟨bs, hbs, hcomplete⟩ := Option.bind_eq_some_iff.mp hcomplete
  obtain ⟨ts', hts', happend⟩ := Option.bind_eq_some_iff.mp hcomplete
  have happend : bs ++ ts' = o.types := Option.some.inj happend
  rw [Option.mapM_eq_some] at hbs hts'
  rw [complete?_builtins hbs] at happend
  rw [TypeSystem.types_map_outline, List.forall₂_map_left_iff] at hts
  have hextensions : DefinitionOutline.extensions
      ((TypeSystem.inlined ds).map TypeSystem.Definition.outline) = [] := by
    rw [TypeSystem.extensions_map_outline, TypeSystem.extensions_inlined, List.map_nil]
  have hextended := List.Forall₂.exists_comp_iff.mp ⟨ts, hts, hts'⟩
  constructor
  case types =>
    refine ⟨ts', ?_, ?_⟩
    · rw [TypeSystem.types_map_outline, TypeSystem.types_inlined, List.map_map,
        List.forall₂_map_left_iff]
      exact hextended.imp fun t extended ⟨defined, hd, he⟩ => define?_withExtensions hd he
    · rw [hextensions, happend]
      exact List.forall₂_same.mpr fun t _ => rfl
  case nodup => exact h.nodup
  case targets => simp [hextensions]
  case roots =>
    intro kind
    rw [TypeSystem.rootsOf_inlined]
    exact h.roots kind

end SchemaOutline

/-! ### Schemas -/

/-- The definitions in another order, up to places; the extensions of each type are in the same
order. -/
structure TypeSystem.Reorders (ds ds' : List TypeSystem.Definition) : Prop where
  perm : (ds.map Definition.outline).Perm (ds'.map Definition.outline)
  extensions : ∀ name, (extensionsOf ds' name).map TypeSyntax.outline =
    (extensionsOf ds name).map TypeSyntax.outline

/-- Definitions may be put in any order that keeps extensions in theirs. -/
theorem TypeSystem.Reorders.of_perm {ds ds' : List TypeSystem.Definition} (h : ds.Perm ds')
    (he : ∀ name, extensionsOf ds' name = extensionsOf ds name) : Reorders ds ds' :=
  ⟨h.map _, fun name => by rw [he]⟩

namespace Schema

/-- A schema without places can be read off its outline. -/
theorem map_unplaced_types (s : Schema) :
    s.types.map SchemaType.unplaced = s.outline.types.map TypeOutline.type := by
  rw [outline, List.map_map]
  exact List.map_congr_left fun t _ => t.type_outline.symm

theorem map_unplaced_find? (s : Schema) (name : String) : (s.find? name).map SchemaType.unplaced =
    (TypeOutline.find? s.outline.types name).map TypeOutline.type := by
  rw [outline, SchemaType.find?_map_outline, Option.map_map, find?]
  exact congrArg (Option.map · _) (funext fun t => t.type_outline.symm)

/-- Schemas with the same outline are the same up to places. -/
theorem sameUpToPlaces_of_outline {s s' : Schema} (h : s.outline.SameTypes s'.outline)
    (hn : (s.outline.types.map TypeOutline.name).Nodup) : s.SameUpToPlaces s' where
  query := Option.some.inj (h.roots .query)
  mutation := h.roots .mutation
  subscription := h.roots .subscription
  types := by
    rw [map_unplaced_types, map_unplaced_types]
    exact h.types.map _
  find name := by
    rw [map_unplaced_find?, map_unplaced_find?, TypeOutline.find?_eq_of_perm h.types.symm hn]

/-- The outline of a schema is described by its definitions, however they are split into texts. -/
theorem describedBy_of_ofLoads {loads : List Load} {s : Schema} (h : ofLoads loads = .ok s) :
    s.outline.DescribedBy ((definitionsOf loads).map TypeSystem.Definition.outline) :=
  exists_ofLoads_iff.mp ⟨s, h, rfl⟩

/-- Definitions in another order make the same schema, up to places. -/
theorem exists_sameUpToPlaces_of_reorders {loads loads' : List Load} {s : Schema}
    (h : ofLoads loads = .ok s)
    (hr : TypeSystem.Reorders (definitionsOf loads) (definitionsOf loads')) :
    ∃ s', ofLoads loads' = .ok s' ∧ s.SameUpToPlaces s' := by
  have hdescribed := describedBy_of_ofLoads h
  obtain ⟨o', ho', hsame⟩ := hdescribed.reorder hr.perm fun name => by
    rw [TypeSystem.filter_extensions_map_outline, TypeSystem.filter_extensions_map_outline,
      hr.extensions]
  obtain ⟨s', hs', rfl⟩ := exists_ofLoads_iff.mpr ho'
  exact ⟨s', hs', sameUpToPlaces_of_outline hsame hdescribed.nodup⟩

/-- A schema doesn't depend on the order of definitions, except for the extensions of each type, or
on how they are split into texts: for another order it can be built if and only if it can for this
one, and it is the same up to places. It is also the same if all extensions are written into the
definitions that they extend. All this goes for the schema of texts that the definitions are in. -/
theorem ofLoads_upToPlaces (loads : List Load) :
    (∀ texts, Parse texts loads → ofTexts texts = ofLoads loads) ∧
    (∀ loads', TypeSystem.Reorders (definitionsOf loads) (definitionsOf loads') →
      ((∃ s, ofLoads loads = .ok s) ↔ ∃ s', ofLoads loads' = .ok s') ∧
      ∀ s s', ofLoads loads = .ok s → ofLoads loads' = .ok s' → s.SameUpToPlaces s') ∧
    ∀ s written, ofLoads loads = .ok s →
      (definitionsOf written).map TypeSystem.Definition.outline =
        (TypeSystem.inlined (definitionsOf loads)).map TypeSystem.Definition.outline →
      ∃ s', ofLoads written = .ok s' ∧ s.SameUpToPlaces s' := by
  refine ⟨fun texts => ofTexts_eq_ofLoads, ?_, ?_⟩
  · intro loads' hr
    have hback : TypeSystem.Reorders (definitionsOf loads') (definitionsOf loads) :=
      ⟨hr.perm.symm, fun name => (hr.extensions name).symm⟩
    refine ⟨⟨?_, ?_⟩, ?_⟩
    · rintro ⟨s, hs⟩
      obtain ⟨s', hs', -⟩ := exists_sameUpToPlaces_of_reorders hs hr
      exact ⟨s', hs'⟩
    · rintro ⟨s', hs'⟩
      obtain ⟨s, hs, -⟩ := exists_sameUpToPlaces_of_reorders hs' hback
      exact ⟨s, hs⟩
    · intro s s' hs hs'
      obtain ⟨other, hother, hsame⟩ := exists_sameUpToPlaces_of_reorders hs hr
      exact Except.ok.inj (hother.symm.trans hs') ▸ hsame
  · intro s written hs hwritten
    have hdescribed := describedBy_of_ofLoads hs
    obtain ⟨s', hs', houtline⟩ := exists_ofLoads_iff.mpr (hwritten ▸ hdescribed.inline)
    refine ⟨s', hs', sameUpToPlaces_of_outline ?_ hdescribed.nodup⟩
    rw [houtline]
    exact ⟨fun kind => rfl, .refl _⟩

/-- A type whose extensions come in a text before its own. -/
def sampleTexts : List (Option String × String) :=
  [(some "first", "extend type Pet \x7b age: Int \x7d extend type Pet \x7b weight: Int \x7d " ++
      "type Query \x7b count: Int \x7d"),
    (some "second", "type Pet \x7b size: Int \x7d")]

def sampleLoads : List Load :=
  let object (column : Nat) (name : String) (fieldColumn : Nat) (field : String) : TypeSyntax :=
    ⟨⟨1, column⟩, name, .object [⟨⟨1, fieldColumn⟩, field, .named "Int"⟩]⟩
  [(some "first", [.extension (object 8 "Pet" 19 "age"),
      .extension (object 37 "Pet" 48 "weight"), .type (object 62 "Query" 75 "count")]),
    (some "second", [.type (object 1 "Pet" 12 "size")])]

theorem parse_sampleTexts : Parse sampleTexts sampleLoads :=
  .cons ⟨rfl, by decide +kernel⟩ (.cons ⟨rfl, by decide +kernel⟩ .nil)

theorem ofLoads_upToPlaces_sample :
    let written : List Load := [(none, TypeSystem.inlined (definitionsOf sampleLoads))]
    ∃ s s' s'', ofTexts sampleTexts = .ok s ∧ ofLoads sampleLoads.reverse = .ok s' ∧
      ofLoads written = .ok s'' ∧ s.SameUpToPlaces s' ∧ s.SameUpToPlaces s'' := by
  intro written
  obtain ⟨htexts, hreorder, hinline⟩ := ofLoads_upToPlaces sampleLoads
  have hreorders : TypeSystem.Reorders (definitionsOf sampleLoads)
      (definitionsOf sampleLoads.reverse) :=
    .of_perm ((List.reverse_perm sampleLoads).symm.flatMap_right _) fun name => rfl
  obtain ⟨hiff, hsame⟩ := hreorder sampleLoads.reverse hreorders
  have hsome : (ofLoads sampleLoads).toOption.isSome := by decide +kernel
  obtain ⟨s, hs⟩ := Option.isSome_iff_exists.mp hsome
  have hs := Except.toOption_eq_some.mp hs
  obtain ⟨s', hs'⟩ := hiff.mp ⟨s, hs⟩
  have hwritten : definitionsOf written = TypeSystem.inlined (definitionsOf sampleLoads) :=
    List.append_nil _
  obtain ⟨s'', hs'', hsame'⟩ := hinline s written hs (by rw [hwritten])
  exact ⟨s, s', s'', (htexts sampleTexts parse_sampleTexts).trans hs, hs', hs'',
    hsame s s' hs hs', hsame'⟩

end Schema

end QueryBindings
