import QueryBindings.Shape.Leaf
/-!
The texts of leaves, type by type.

The builtin types have fixed texts but for `ID`, which an option may set, as one may for every custom
scalar. An enum has its values, and if it has none it has the type without values.
-/
namespace QueryBindings

/-- String literals for names, one or the other. -/
inductive EnumType.Literals : List String → String → Prop
  | none : Literals [] "never"
  | single (name : String) : Literals [name] ("'" ++ name ++ "'")
  | several {name next t : String} {names : List String} (h : Literals (next :: names) t) :
      Literals (name :: next :: names) ("'" ++ name ++ "'" ++ " | " ++ t)

/-- The text of a scalar or an enum. -/
inductive SchemaType.LeafText (config : Config) : SchemaType → String → Prop
  | boolean : LeafText config (.builtin .boolean) "boolean"
  | float : LeafText config (.builtin .float) "number"
  | int : LeafText config (.builtin .int) "number"
  | string : LeafText config (.builtin .string) "string"
  | id (h : config.idType = none) : LeafText config (.builtin .id) "string"
  | configuredId {text : String} (h : config.idType = some text) :
      LeafText config (.builtin .id) text
  | scalar {name : String} {location : Location} (h : config.scalarTypes.lookup name = none) :
      LeafText config (.scalar name location) "any"
  | configuredScalar {name text : String} {location : Location}
      (h : config.scalarTypes.lookup name = some text) : LeafText config (.scalar name location) text
  | enum {t : EnumType} {text : String} (h : EnumType.Literals (t.values.map (·.name)) text) :
      LeafText config (.enum t) text

/-! ### Leaves are written so -/

theorem EnumType.literals_leafType (t : EnumType) :
    Literals (t.values.map (·.name)) t.leafType := by
  rw [leafType]
  match t.values with
  | [] => exact .none
  | v :: rest =>
    induction rest generalizing v with
    | nil => simpa [literalType] using Literals.single v.name
    | cons next rest ih =>
      simpa [literalType, String.append_assoc] using @Literals.several v.name _ _ _ (ih next)

/-- The values of an enum have one text. -/
theorem EnumType.Literals.unique {names : List String} {t t' : String} (h : Literals names t)
    (h' : Literals names t') : t = t' := by
  induction h generalizing t' with
  | none => cases h'; rfl
  | single => cases h'; rfl
  | several _ ih =>
    cases h' with
    | several h' => rw [ih h']

namespace SchemaType

variable {config : Config} {t : SchemaType} {text : String}

/-- A leaf has one text. -/
theorem LeafText.unique {text' : String} (h : t.LeafText config text)
    (h' : t.LeafText config text') : text = text' := by
  cases h with
  | boolean | float | int | string => cases h'; rfl
  | id h | configuredId h | scalar h | configuredScalar h => cases h' <;> simp_all
  | enum h =>
    cases h' with
    | enum h' => exact h.unique h'

theorem leafText_of_leafType? (h : t.leafType? config = some text) : t.LeafText config text := by
  cases t with
  | builtin b =>
    obtain rfl := Option.some.inj h
    cases b with
    | boolean => exact .boolean
    | float => exact .float
    | int => exact .int
    | string => exact .string
    | id =>
      rw [Builtin.leafType, Config.effectiveIdType]
      cases hid : config.idType with
      | none => exact .id hid
      | some text => exact .configuredId hid
  | scalar name location =>
    obtain rfl := Option.some.inj h
    rw [Config.scalarType?]
    cases hlookup : config.scalarTypes.lookup name with
    | none => exact .scalar hlookup
    | some text => exact .configuredScalar hlookup
  | enum e =>
    obtain rfl := Option.some.inj h
    exact .enum e.literals_leafType
  | object | interface | union | inputObject => simp [leafType?] at h

/-- The types that have a text as leaves are the scalars and enums, and they have no other one. -/
theorem leafText_iff : t.LeafText config text ↔ t.leafType? config = some text := by
  refine ⟨fun h => ?_, leafText_of_leafType?⟩
  have hsome : ∃ text', t.leafType? config = some text' := by
    cases h <;> exact ⟨_, rfl⟩
  obtain ⟨text', h'⟩ := hsome
  rw [h', h.unique (leafText_of_leafType? h')]

end SchemaType

end QueryBindings
