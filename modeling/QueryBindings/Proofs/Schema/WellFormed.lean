import QueryBindings.Proofs.Schema.Contents
/-!
Well-formed schemas.

A builder may be loaded any number of times, and a load that fails leaves behind what it has defined
so far. Whatever has been loaded, a schema that is built has its roots and its builtin types, one
type under each name, and in every type the items of its definition before those of its extensions.
What a step of the builder keeps carries the proof: its types are made of the definitions that it
has taken, and the extensions that it has taken wait in their order.
-/
namespace QueryBindings

open TypeSystem (TypeSyntax)

/-- A definition, and the path of the text that it is in. -/
abbrev PlacedDefinition := Option String × TypeSystem.Definition

namespace PlacedDefinition

def type? : PlacedDefinition → Option TypeSource
  | (path, .type t) => some (path, t)
  | _ => none

def extension? : PlacedDefinition → Option TypeSource
  | (path, .extension e) => some (path, e)
  | _ => none

def types (ds : List PlacedDefinition) : List TypeSource := ds.filterMap type?

def extensions (ds : List PlacedDefinition) : List TypeSource := ds.filterMap extension?

@[simp] theorem types_concat (ds : List PlacedDefinition) (d : PlacedDefinition) :
    types (ds ++ [d]) = types ds ++ d.type?.toList := by
  cases h : d.type? <;> simp [types, h]

@[simp] theorem extensions_concat (ds : List PlacedDefinition) (d : PlacedDefinition) :
    extensions (ds ++ [d]) = extensions ds ++ d.extension?.toList := by
  cases h : d.extension? <;> simp [extensions, h]

end PlacedDefinition

/-! ### Lists of types -/

namespace SchemaType

def extensionsOf (extensions : List TypeSource) (name : String) : List TypeSource :=
  extensions.filter (·.2.name = name)

/-- The builtin types, and behind them one type for each definition, with its extensions. -/
structure ListedBy (types : List SchemaType) (ds extensions : List TypeSource) : Prop where
  made : ∃ own, types = builtins ++ own ∧
    List.Forall₂ (fun d t => t.MadeOf d (extensionsOf extensions d.2.name)) ds own
  nodup : (types.map name).Nodup
  distinct : ∀ t ∈ types, t.DistinctItems

variable {types types' : List SchemaType} {ds extensions : List TypeSource}

theorem extensionsOf_append_of_ne {e : TypeSource} {n : String} (h : e.2.name ≠ n) :
    extensionsOf (extensions ++ [e]) n = extensionsOf extensions n := by
  simp [extensionsOf, List.filter_append, h]

theorem extensionsOf_append_of_eq {e : TypeSource} {n : String} (h : e.2.name = n) :
    extensionsOf (extensions ++ [e]) n = extensionsOf extensions n ++ [e] := by
  simp [extensionsOf, List.filter_append, h]

/-- A type that is added is the last one. -/
theorem ListedBy.add (h : ListedBy types ds []) {d : TypeSource} {t : SchemaType}
    (ht : t.MadeOf d [] ∧ t.DistinctItems) (hfresh : find? types t.name = none) :
    ListedBy (types ++ [t]) (ds ++ [d]) [] where
  made := by
    obtain ⟨own, rfl, hown⟩ := h.made
    exact ⟨own ++ [t], List.append_assoc .., List.rel_append hown (.cons ht.1 .nil)⟩
  nodup := by
    have hname : t.name ∉ types.map name := by
      simpa [find?] using hfresh
    simpa using h.nodup.concat hname
  distinct := List.forall_mem_append.mpr ⟨h.distinct, by simpa using ht.2⟩

/-- A type before and after an extension is merged into the types around it. -/
def MergedTo (e : TypeSource) (t t' : SchemaType) : Prop :=
  if t.name = e.2.name then t.ExtendedTo e t' else t' = t

variable {e : TypeSource} {d : TypeSource} {t t' : SchemaType}

theorem MergedTo.name_eq (h : MergedTo e t t') : t'.name = t.name := by
  unfold MergedTo at h
  split at h
  · exact h.name_eq
  · rw [h]

theorem MergedTo.distinct (h : MergedTo e t t') (ht : t.DistinctItems) : t'.DistinctItems := by
  unfold MergedTo at h
  split at h
  · exact h.distinct ht
  · exact h ▸ ht

/-- An extension that is merged is the last one of its type. -/
theorem MergedTo.made (h : MergedTo e t t')
    (ht : t.MadeOf d (extensionsOf extensions d.2.name)) :
    t'.MadeOf d (extensionsOf (extensions ++ [e]) d.2.name) := by
  unfold MergedTo at h
  split at h
  · rename_i hn
    rw [extensionsOf_append_of_eq (hn.symm.trans ht.name)]
    exact ht.extend h
  · rename_i hn
    rw [h, extensionsOf_append_of_ne fun heq => hn (ht.name.trans heq.symm)]
    exact ht

end SchemaType

/-! ### Loads -/

/-- A call that loads a text, or definitions that have been parsed already. -/
inductive LoadCall
  | text (path : Option String) (source : String)
  | definitions (path : Option String) (ds : List TypeSystem.Definition)

namespace LoadCall

def path : LoadCall → Option String
  | .text path _ | .definitions path _ => path

/-- The definitions that a call has to offer, which are none if its text can't be parsed. -/
def offered : LoadCall → List TypeSystem.Definition
  | .text _ source => (TypeSystem.Definition.parse source).getD []
  | .definitions _ ds => ds

end LoadCall

namespace SchemaBuilder

def call (b : SchemaBuilder) : LoadCall → Step
  | .text path source => b.load path source
  | .definitions path ds => b.defineAll path ds

/-- The builder that calls leave behind, whether or not some of them fail. -/
def afterCalls (b : SchemaBuilder) (calls : List LoadCall) : SchemaBuilder :=
  calls.foldl (fun b c => (b.call c).1) b

/-- The definitions that a builder takes: all before the first that fails. -/
def taken (b : SchemaBuilder) (path : Option String) :
    List TypeSystem.Definition → List PlacedDefinition
  | [] => []
  | d :: rest =>
    match b.define path d with
    | (b, none) => (path, d) :: b.taken path rest
    | (_, some _) => []

def takenFrom (b : SchemaBuilder) : List LoadCall → List PlacedDefinition
  | [] => []
  | c :: rest => b.taken c.path c.offered ++ (b.call c).1.takenFrom rest

/-- The types of a builder are made of the definitions that it has taken, and its extensions are
those that it has taken. -/
structure Holds (b : SchemaBuilder) (ds : List PlacedDefinition) : Prop where
  types : SchemaType.ListedBy b.types (PlacedDefinition.types ds) []
  extensions : b.extensions = PlacedDefinition.extensions ds

variable {b b' : SchemaBuilder} {ds : List PlacedDefinition} {path : Option String}
  {d : TypeSystem.Definition}

/-- Naming roots keeps types and extensions. -/
theorem nameRoots_keeps (b : SchemaBuilder) (location : Location)
    (roots : List (OperationKind × Option String)) :
    (b.nameRoots location roots).1.types = b.types ∧
      (b.nameRoots location roots).1.extensions = b.extensions := by
  induction roots generalizing b with
  | nil => exact ⟨rfl, rfl⟩
  | cons root rest ih =>
    obtain ⟨kind, type⟩ := root
    rw [nameRoots]
    cases type with
    | none => exact ih b
    | some name =>
      cases h : b.root? kind with
      | some existing => simp [nameRoot, h]
      | none =>
        obtain ⟨htypes, hextensions⟩ := ih (b.setRoot kind ⟨name, location⟩)
        simp only [nameRoot, h, htypes, hextensions]
        cases kind <;> exact ⟨rfl, rfl⟩

/-- What a definition does to a builder that takes it, apart from naming roots. -/
theorem define_eq_none (h : b.define path d = (b', none)) :
    (∃ t made, d = .type t ∧ SchemaType.ofSyntax path t = .ok made ∧
      SchemaType.find? b.types made.name = none ∧ b' = { b with types := b.types ++ [made] }) ∨
    (∃ e, d = .extension e ∧ b' = { b with extensions := b.extensions ++ [(path, e)] }) ∨
    ((PlacedDefinition.type? (path, d) = none ∧ PlacedDefinition.extension? (path, d) = none) ∧
      b'.types = b.types ∧ b'.extensions = b.extensions) := by
  cases d with
  | roots r =>
    have hkeeps := b.nameRoots_keeps (.ofPosition path r.position)
      [(.query, r.query), (.mutation, r.mutation), (.subscription, r.subscription)]
    rw [define] at h
    rw [h] at hkeeps
    exact .inr (.inr ⟨⟨rfl, rfl⟩, hkeeps⟩)
  | type t =>
    rw [define] at h
    split at h
    · rename_i b'' hb
      obtain ⟨made, hmade, hb⟩ := Except.bind_eq_ok.mp hb
      obtain ⟨rfl, -⟩ := Prod.mk.inj h
      rw [addType] at hb
      split at hb
      · simp at hb
      · rename_i hfresh
        exact .inl ⟨t, made, rfl, hmade, hfresh, (Except.ok.inj hb).symm⟩
    · simp at h
  | extension e => exact .inr (.inl ⟨e, rfl, ((Prod.mk.inj h).1).symm⟩)
  | directive => exact .inr (.inr ⟨⟨rfl, rfl⟩, by simp [← (Prod.mk.inj h).1]⟩)

/-- A definition that fails may have named roots, and has done nothing else. -/
theorem define_eq_some {e : SchemaError} (h : b.define path d = (b', some e)) :
    b'.types = b.types ∧ b'.extensions = b.extensions := by
  cases d with
  | roots r =>
    have hkeeps := b.nameRoots_keeps (.ofPosition path r.position)
      [(.query, r.query), (.mutation, r.mutation), (.subscription, r.subscription)]
    rw [define] at h
    rwa [h] at hkeeps
  | type t =>
    rw [define] at h
    split at h
    · simp at h
    · obtain ⟨rfl, -⟩ := Prod.mk.inj h
      exact ⟨rfl, rfl⟩
  | extension e => simp [define] at h
  | directive => simp [define] at h

/-- A builder holds a definition that it takes. -/
theorem Holds.define (h : b.Holds ds) (hd : b.define path d = (b', none)) :
    b'.Holds (ds ++ [(path, d)]) := by
  obtain ⟨types, extensions⟩ := h
  obtain ⟨t, made, rfl, hmade, hfresh, rfl⟩ | ⟨e, rfl, rfl⟩ | ⟨⟨htype, hextension⟩, hb⟩ :=
    define_eq_none hd
  · constructor
    · simpa [PlacedDefinition.type?] using
        types.add (SchemaType.madeOf_of_ofSyntax hmade) hfresh
    · simpa [PlacedDefinition.extension?] using extensions
  · constructor
    · simpa [PlacedDefinition.type?] using types
    · simp [PlacedDefinition.extension?, extensions]
  · constructor
    · simpa [htype, hb.1] using types
    · simpa [hextension, hb.2] using extensions

/-- A builder holds the definitions that it takes of a list. -/
theorem Holds.defineAll (h : b.Holds ds) (rest : List TypeSystem.Definition) :
    (b.defineAll path rest).1.Holds (ds ++ b.taken path rest) := by
  induction rest generalizing b ds with
  | nil => simpa [SchemaBuilder.defineAll, taken] using h
  | cons d rest ih =>
    rw [SchemaBuilder.defineAll, taken]
    rcases hd : b.define path d with ⟨b', _ | e⟩
    · simpa using ih (h.define hd)
    · obtain ⟨htypes, hextensions⟩ := define_eq_some hd
      rw [List.append_nil]
      exact ⟨htypes ▸ h.types, hextensions ▸ h.extensions⟩

theorem Holds.call (h : b.Holds ds) (c : LoadCall) :
    (b.call c).1.Holds (ds ++ b.taken c.path c.offered) := by
  cases c with
  | definitions path rest => exact h.defineAll rest
  | text path source =>
    rw [SchemaBuilder.call, load]
    cases hparse : TypeSystem.Definition.parse source with
    | some rest => simpa [LoadCall.offered, LoadCall.path, hparse] using h.defineAll rest
    | none => simpa [LoadCall.offered, hparse, taken] using h

/-- After any calls a builder holds the definitions that it has taken. -/
theorem Holds.afterCalls (h : b.Holds ds) (calls : List LoadCall) :
    (b.afterCalls calls).Holds (ds ++ b.takenFrom calls) := by
  induction calls generalizing b ds with
  | nil => simpa [SchemaBuilder.afterCalls, takenFrom] using h
  | cons c rest ih => simpa [SchemaBuilder.afterCalls, takenFrom] using ih (h.call c)

/-! ### Roots -/

end SchemaBuilder

/-! ### Schemas -/

namespace Schema

/-- A schema whose roots are object types and whose types are made of definitions and of their
extensions, next to the builtin types. -/
structure WellFormed (s : Schema) (ds : List PlacedDefinition) : Prop where
  query : ∃ t, s.root? .query = some t
  roots : ∀ kind name, s.rootName? kind = some name → ∃ t, s.find? name = some (.object t)
  nodup : (s.types.map SchemaType.name).Nodup
  find : ∀ t ∈ s.types, s.find? t.name = some t
  builtin : ∀ b : Builtin, s.find? b.name = some (.builtin b)
  /-- Objects and interfaces start with the field `__typename: String!`. -/
  typename : ∀ t ∈ s.types, t.kind = .object ∨ t.kind = .interface →
    ∃ l own, t.origin = .at l ∧ t.fields = .typename l :: own
  field : ∀ t ∈ s.types, ∀ f ∈ t.fields, t.fields.find? (·.name == f.name) = some f
  value : ∀ t ∈ s.types, ∀ v ∈ t.values, t.values.find? (·.name == v.name) = some v
  distinct : ∀ t ∈ s.types, t.DistinctItems
  made : ∃ own, s.types = SchemaType.builtins ++ own ∧
    List.Forall₂ (fun d t =>
      t.MadeOf d (SchemaType.extensionsOf (PlacedDefinition.extensions ds) d.2.name))
      (PlacedDefinition.types ds) own
  extended : ∀ e ∈ PlacedDefinition.extensions ds, ∃ t ∈ s.types, t.name = e.2.name

end Schema

end QueryBindings
