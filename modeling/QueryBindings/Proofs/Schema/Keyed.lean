import QueryBindings.Proofs.Schema.KeyedTypes
import QueryBindings.Proofs.Schema.WellFormed
/-!
A schema in maps, with keys apart from the names of what is under them.

A builder that keeps types in a map, each under the name of its definition, does the same, step by
step, as the one that looks names up in a list. In all that it builds every item is under its own
name, and no key is there twice.
-/
namespace QueryBindings

open TypeSystem (TypeSyntax)

/-- A builder that keeps types in a map. -/
structure KeyedBuilder where
  roots : OperationKind → Option RootDefinition
  types : KeyedList KeyedType
  extensions : List (Option String × TypeSyntax)

structure KeyedSchema where
  query : String
  mutation : Option String
  subscription : Option String
  types : KeyedList KeyedType

namespace KeyedSchema

def forget (s : KeyedSchema) : Schema :=
  ⟨s.query, s.mutation, s.subscription, s.types.map (·.2.forget)⟩

end KeyedSchema

namespace KeyedBuilder

def empty : KeyedBuilder where
  roots _ := none
  types := [("Boolean", .builtin .boolean), ("Float", .builtin .float), ("ID", .builtin .id),
    ("Int", .builtin .int), ("String", .builtin .string)]
  extensions := []

abbrev Step := KeyedBuilder × Option SchemaError

def nameRoot (k : KeyedBuilder) (location : Location) (kind : OperationKind)
    (type : Option String) : Except SchemaError KeyedBuilder :=
  match type, k.roots kind with
  | none, _ => .ok k
  | some name, none =>
    .ok { k with
      roots := fun other => if other = kind then some ⟨name, location⟩ else k.roots other }
  | some _, some existing => .error (.duplicateRoot kind existing.location location)

def nameRoots (k : KeyedBuilder) (location : Location) :
    List (OperationKind × Option String) → Step
  | [] => (k, none)
  | (kind, type) :: rest =>
    match k.nameRoot location kind type with
    | .ok k => k.nameRoots location rest
    | .error e => (k, some e)

def addType (k : KeyedBuilder) (name : String) (location : Location) (t : KeyedType) :
    Except SchemaError KeyedBuilder :=
  match k.types.lookup name with
  | some other => .error (.duplicateType name other.forget.origin (.at location))
  | none => .ok { k with types := k.types.insert name t }

def define (k : KeyedBuilder) (path : Option String) : TypeSystem.Definition → Step
  | .roots r =>
    k.nameRoots (.ofPosition path r.position)
      [(.query, r.query), (.mutation, r.mutation), (.subscription, r.subscription)]
  | .type t =>
    match KeyedType.ofSyntax path t >>= k.addType t.name (.ofPosition path t.position) with
    | .ok k => (k, none)
    | .error e => (k, some e)
  | .extension t => ({ k with extensions := k.extensions ++ [(path, t)] }, none)
  | .directive => (k, none)

def defineAll (k : KeyedBuilder) (path : Option String) : List TypeSystem.Definition → Step
  | [] => (k, none)
  | d :: rest =>
    match k.define path d with
    | (k, none) => k.defineAll path rest
    | (k, some e) => (k, some e)

def call (k : KeyedBuilder) : LoadCall → Step
  | .text path source =>
    match TypeSystem.Definition.parse source with
    | some definitions => k.defineAll path definitions
    | none => (k, some (.malformed path))
  | .definitions path ds => k.defineAll path ds

/-- The builder that calls leave behind, whether or not some of them fail. -/
def afterCalls (k : KeyedBuilder) (calls : List LoadCall) : KeyedBuilder :=
  calls.foldl (fun k c => (k.call c).1) k

def resolveRoot (k : KeyedBuilder) (types : KeyedList KeyedType) (kind : OperationKind) :
    Except SchemaError (Option String) :=
  match k.roots kind with
  | some root =>
    match types.lookup root.type with
    | some (.object _ _ _) => .ok (some root.type)
    | some other => .error (.rootNotAnObject kind root.type other.forget.kind root.location)
    | none => .error (.rootUndefined kind root.type root.location)
  | none =>
    match types.lookup (SchemaBuilder.defaultRootName kind) with
    | some (.object _ _ _) => .ok (some (SchemaBuilder.defaultRootName kind))
    | _ => .ok none

def build (k : KeyedBuilder) : Except SchemaError KeyedSchema := do
  let types ← k.extensions.foldlM KeyedType.mergeExtension k.types
  match ← k.resolveRoot types .query with
  | none => .error .noQueryRoot
  | some query =>
    let mutation ← k.resolveRoot types .mutation
    let subscription ← k.resolveRoot types .subscription
    return ⟨query, mutation, subscription, types⟩

end KeyedBuilder

/-! ### Builders with and without keys -/

namespace KeyedBuilder

/-- A builder that keeps maps has what the other one has in lists, and all keys are names. -/
structure Represents (k : KeyedBuilder) (b : SchemaBuilder) : Prop where
  roots : ∀ kind, k.roots kind = b.root? kind
  types : b.types = k.types.map (·.2.forget)
  named : KeyedType.AllNamed k.types
  extensions : k.extensions = b.extensions

/-- Two steps leave such builders behind, and stop for the same reason. -/
def RepresentsStep (k : Step) (b : SchemaBuilder.Step) : Prop := k.1.Represents b.1 ∧ k.2 = b.2

variable {k : KeyedBuilder} {b : SchemaBuilder}

theorem Represents.nameRoot (h : k.Represents b) (kind : OperationKind)
    (root : RootDefinition) : Represents
      { k with roots := fun other => if other = kind then some root else k.roots other }
      (b.setRoot kind root) where
  roots other := by
    have := h.roots other
    cases kind <;> cases other <;> simp_all [SchemaBuilder.root?, SchemaBuilder.setRoot]
  types := by cases kind <;> exact h.types
  named := h.named
  extensions := by cases kind <;> exact h.extensions

/-- Roots are named in both builders, up to the same one. -/
theorem Represents.nameRoots (h : k.Represents b) (location : Location)
    (roots : List (OperationKind × Option String)) :
    RepresentsStep (k.nameRoots location roots) (b.nameRoots location roots) := by
  induction roots generalizing k b with
  | nil => exact ⟨h, rfl⟩
  | cons root rest ih =>
    obtain ⟨kind, type⟩ := root
    rw [KeyedBuilder.nameRoots, SchemaBuilder.nameRoots]
    cases type with
    | none => exact ih h
    | some name =>
      simp only [KeyedBuilder.nameRoot, SchemaBuilder.nameRoot, ← h.roots]
      cases k.roots kind with
      | some existing => exact ⟨h, rfl⟩
      | none => exact ih (h.nameRoot kind _)

/-- A type is added to both builders or to none. -/
theorem Represents.addType (h : k.Represents b) {path : Option String} {t : TypeSyntax}
    {made : KeyedType} (hmade : KeyedType.ofSyntax path t = .ok made) :
    (∃ k' b', k.addType t.name (.ofPosition path t.position) made = .ok k' ∧
      b.addType made.forget = .ok b' ∧ k'.Represents b') ∨
    ∃ e, k.addType t.name (.ofPosition path t.position) made = .error e ∧
      b.addType made.forget = .error e := by
  obtain ⟨heq, hname, hitems⟩ := KeyedType.stands_ofSyntax path t
  have hplain : SchemaType.ofSyntax path t = .ok made.forget := by
    rw [heq, hmade]
    rfl
  have hname : made.forget.name = t.name := hname made hmade
  have horigin : made.forget.origin = .at (.ofPosition path t.position) :=
    (SchemaType.madeOf_of_ofSyntax hplain).1.origin
  have hfind : SchemaType.find? b.types made.forget.name =
      (k.types.lookup t.name).map KeyedType.forget := by
    rw [h.types, hname, h.named.find?]
  rw [KeyedBuilder.addType, SchemaBuilder.addType, hfind, hname, horigin]
  cases hl : k.types.lookup t.name with
  | some other => exact Or.inr ⟨_, rfl, rfl⟩
  | none =>
    refine Or.inl ⟨_, _, rfl, rfl, ?_⟩
    exact
      { roots := h.roots
        types := by
          rw [KeyedList.insert_of_lookup_eq_none hl, List.map_append, h.types]
          rfl
        named := h.named.insert hname.symm (hitems made hmade)
        extensions := h.extensions }

/-- A definition does the same to both builders. -/
theorem Represents.define (h : k.Represents b) (path : Option String)
    (d : TypeSystem.Definition) : RepresentsStep (k.define path d) (b.define path d) := by
  cases d with
  | roots r => exact h.nameRoots _ _
  | directive => exact ⟨h, rfl⟩
  | extension e =>
    refine ⟨⟨h.roots, h.types, h.named, ?_⟩, rfl⟩
    exact congrArg (· ++ [(path, e)]) h.extensions
  | type t =>
    rw [KeyedBuilder.define, SchemaBuilder.define, (KeyedType.stands_ofSyntax path t).eq]
    cases hmade : KeyedType.ofSyntax path t with
    | error e => exact ⟨h, rfl⟩
    | ok made =>
      simp only [Except.map, bind, Except.bind]
      obtain ⟨k', b', hk, hb, h'⟩ | ⟨e, hk, hb⟩ := h.addType hmade
      · rw [hk, hb]
        exact ⟨h', rfl⟩
      · rw [hk, hb]
        exact ⟨h, rfl⟩

/-- Definitions are taken by both builders, up to the same one. -/
theorem Represents.defineAll (h : k.Represents b) (path : Option String)
    (ds : List TypeSystem.Definition) :
    RepresentsStep (k.defineAll path ds) (b.defineAll path ds) := by
  induction ds generalizing k b with
  | nil => exact ⟨h, rfl⟩
  | cons d rest ih =>
    obtain ⟨hstep, hreason⟩ := h.define path d
    rw [KeyedBuilder.defineAll, SchemaBuilder.defineAll]
    rcases hk : k.define path d with ⟨k', reason⟩
    rcases hb : b.define path d with ⟨b', reason'⟩
    rw [hk, hb] at hstep hreason
    obtain rfl : reason = reason' := hreason
    cases reason with
    | none => exact ih hstep
    | some e => exact ⟨hstep, rfl⟩

theorem Represents.call (h : k.Represents b) (c : LoadCall) :
    RepresentsStep (k.call c) (b.call c) := by
  cases c with
  | definitions path ds => exact h.defineAll path ds
  | text path source =>
    rw [KeyedBuilder.call, SchemaBuilder.call, SchemaBuilder.load]
    cases TypeSystem.Definition.parse source with
    | none => exact ⟨h, rfl⟩
    | some ds => exact h.defineAll path ds

/-- What calls leave behind is the same with maps and with lists. -/
theorem Represents.afterCalls (h : k.Represents b) (calls : List LoadCall) :
    (k.afterCalls calls).Represents (b.afterCalls calls) := by
  induction calls generalizing k b with
  | nil => exact h
  | cons c rest ih => exact ih (h.call c).1

/-- A root that is looked up by key is the one that is found by name. -/
theorem Represents.resolveRoot (h : k.Represents b) {types : KeyedList KeyedType}
    (hn : KeyedType.AllNamed types) (kind : OperationKind) :
    b.resolveRoot (types.map (·.2.forget)) kind = k.resolveRoot types kind := by
  rw [SchemaBuilder.resolveRoot, KeyedBuilder.resolveRoot, ← h.roots]
  cases k.roots kind with
  | some root =>
    simp only [hn.find?]
    cases types.lookup root.type with
    | none => rfl
    | some t => cases t <;> rfl
  | none =>
    simp only [hn.find?]
    cases types.lookup (SchemaBuilder.defaultRootName kind) with
    | none => rfl
    | some t => cases t <;> rfl

/-- Both builders build the same schema, or fail for the same reason. -/
theorem Represents.build (h : k.Represents b) : b.build = k.build.map KeyedSchema.forget := by
  obtain ⟨hmerge, hnamed⟩ := KeyedType.mergeAll_forget h.named k.extensions
  rw [SchemaBuilder.build, KeyedBuilder.build, h.types, ← h.extensions, hmerge]
  cases hm : k.extensions.foldlM KeyedType.mergeExtension k.types with
  | error e => rfl
  | ok types =>
    simp only [Except.map, bind, Except.bind, h.resolveRoot (hnamed types hm)]
    cases k.resolveRoot types .query with
    | error e => rfl
    | ok query =>
      cases query with
      | none => rfl
      | some query =>
        cases k.resolveRoot types .mutation with
        | error e => rfl
        | ok mutation => cases k.resolveRoot types .subscription <;> rfl

end KeyedBuilder

namespace Schema

end Schema

end QueryBindings
