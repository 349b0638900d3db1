import Mathlib.Data.List.TakeWhile
import QueryBindings.Proofs.Schema.WellFormed
/-!
Loads that fail.

A load stops at the first definition that fails. It leaves behind what the definitions before that
one have made of the builder, and nothing of the failing definition, with one exception: a `schema`
block names its roots one after the other, so those that it names ahead of a root that is taken are
still named.
-/
namespace QueryBindings

open TypeSystem (RootsSyntax)

def OperationKind.all : List OperationKind := [.query, .mutation, .subscription]

theorem OperationKind.nodup_all : all.Nodup := by decide

def TypeSystem.RootsSyntax.root? (r : RootsSyntax) : OperationKind → Option String
  | .query => r.query
  | .mutation => r.mutation
  | .subscription => r.subscription

namespace SchemaBuilder

variable {b b' : SchemaBuilder} {path : Option String} {e : SchemaError}

theorem root?_setRoot (b : SchemaBuilder) (kind k : OperationKind) (root : RootDefinition) :
    (b.setRoot kind root).root? k = if k = kind then some root else b.root? k := by
  cases kind <;> cases k <;> rfl

/-- A builder is made up of types, extensions and roots. -/
theorem eq_of_root?_eq (htypes : b.types = b'.types) (hextensions : b.extensions = b'.extensions)
    (hroots : ∀ kind, b.root? kind = b'.root? kind) : b = b' := by
  have hquery := hroots .query
  have hmutation := hroots .mutation
  have hsubscription := hroots .subscription
  cases b
  cases b'
  simp only [root?] at hquery hmutation hsubscription
  simp_all

/-! ### Roots -/

/-- The kinds whose roots are named ahead of the first root that is named although it is taken. -/
def namedAhead (b : SchemaBuilder) (name? : OperationKind → Option String)
    (kinds : List OperationKind) : List OperationKind :=
  (kinds.takeWhile fun k => (name? k).isNone || (b.root? k).isNone).filter fun k => (name? k).isSome

variable {name? : OperationKind → Option String} {kinds : List OperationKind}

/-- What is named ahead is named, and it is free. -/
theorem of_mem_namedAhead {kind : OperationKind} (h : kind ∈ b.namedAhead name? kinds) :
    (∃ name, name? kind = some name) ∧ b.root? kind = none := by
  obtain ⟨hmem, hname⟩ := List.mem_filter.mp h
  obtain ⟨name, hname⟩ := Option.isSome_iff_exists.mp hname
  have hfree := List.mem_takeWhile_imp hmem
  exact ⟨⟨name, hname⟩, by simpa [hname] using hfree⟩

theorem namedAhead_cons_unnamed {kind : OperationKind} (h : name? kind = none) :
    b.namedAhead name? (kind :: kinds) = b.namedAhead name? kinds := by
  simp [namedAhead, h]

theorem namedAhead_cons_taken {kind : OperationKind} {name : String} {root : RootDefinition}
    (h : name? kind = some name) (hroot : b.root? kind = some root) :
    b.namedAhead name? (kind :: kinds) = [] := by
  simp [namedAhead, h, hroot]

theorem namedAhead_cons_free {kind : OperationKind} {name : String} (h : name? kind = some name)
    (hroot : b.root? kind = none) :
    b.namedAhead name? (kind :: kinds) = kind :: b.namedAhead name? kinds := by
  simp [namedAhead, h, hroot]

/-- Only the roots of the given kinds count. -/
theorem namedAhead_congr (h : ∀ k ∈ kinds, b'.root? k = b.root? k) :
    b'.namedAhead name? kinds = b.namedAhead name? kinds := by
  induction kinds with
  | nil => rfl
  | cons k kinds ih =>
    obtain ⟨hk, hkinds⟩ := List.forall_mem_cons.mp h
    cases hname : name? k with
    | none => rw [namedAhead_cons_unnamed hname, namedAhead_cons_unnamed hname, ih hkinds]
    | some name =>
      cases hroot : b.root? k with
      | some root =>
        rw [namedAhead_cons_taken hname hroot, namedAhead_cons_taken hname (hk.trans hroot)]
      | none =>
        rw [namedAhead_cons_free hname hroot, namedAhead_cons_free hname (hk.trans hroot),
          ih hkinds]

theorem namedAhead_setRoot {kind : OperationKind} (hkind : kind ∉ kinds) (root : RootDefinition) :
    (b.setRoot kind root).namedAhead name? kinds = b.namedAhead name? kinds := by
  apply namedAhead_congr
  intro k hk
  rw [root?_setRoot, if_neg (ne_of_mem_of_not_mem hk hkind)]

/-- Naming roots names those ahead of the first that is taken, and leaves the others. -/
theorem root?_nameRoots (b : SchemaBuilder) (location : Location)
    (name? : OperationKind → Option String) (hkinds : kinds.Nodup) (kind : OperationKind) :
    (b.nameRoots location (kinds.map fun k => (k, name? k))).1.root? kind =
      if kind ∈ b.namedAhead name? kinds then (name? kind).map (⟨·, location⟩)
      else b.root? kind := by
  -- A root that is named is taken for the kinds behind it, so this is about every builder.
  induction kinds generalizing b with
  | nil => simp [nameRoots, namedAhead]
  | cons k kinds ih =>
    obtain ⟨hk, hkinds⟩ := List.nodup_cons.mp hkinds
    rw [List.map_cons, nameRoots]
    cases hname : name? k with
    | none =>
      rw [namedAhead_cons_unnamed hname]
      exact ih b hkinds
    | some name =>
      cases hroot : b.root? k with
      | some existing =>
        rw [namedAhead_cons_taken hname hroot]
        simp [nameRoot, hroot]
      | none =>
        have hnamed := ih (b.setRoot k ⟨name, location⟩) hkinds
        rw [root?_setRoot, namedAhead_setRoot hk] at hnamed
        rw [namedAhead_cons_free hname hroot]
        simp only [nameRoot, hroot, hnamed, List.mem_cons]
        by_cases hkind : kind = k
        · subst hkind
          simp [hname]
        · simp [hkind]

/-! ### Definitions -/

/-- A load that fails has taken all definitions before the one that fails. -/
theorem exists_of_defineAll_eq_some {ds : List TypeSystem.Definition}
    (h : b.defineAll path ds = (b', some e)) :
    ∃ taken d rest middle, ds = taken ++ d :: rest ∧ b.defineAll path taken = (middle, none) ∧
      middle.define path d = (b', some e) := by
  induction ds generalizing b with
  | nil => simp [defineAll] at h
  | cons d ds ih =>
    rw [defineAll] at h
    rcases hd : b.define path d with ⟨next, _ | e'⟩
    · rw [hd] at h
      obtain ⟨taken, failing, rest, middle, rfl, htaken, hfails⟩ := ih h
      exact ⟨d :: taken, failing, rest, middle, rfl, by rw [defineAll, hd]; exact htaken, hfails⟩
    · rw [hd] at h
      exact ⟨[], d, ds, b, rfl, rfl, hd.trans h⟩

/-- A `schema` block names its roots in their order. -/
theorem root?_define_roots (b : SchemaBuilder) (path : Option String) (r : RootsSyntax)
    (kind : OperationKind) : (b.define path (.roots r)).1.root? kind =
      if kind ∈ b.namedAhead r.root? OperationKind.all then
        (r.root? kind).map (⟨·, .ofPosition path r.position⟩)
      else b.root? kind :=
  b.root?_nameRoots (.ofPosition path r.position) r.root? OperationKind.nodup_all kind

/-- Only a `schema` block leaves anything behind when it fails. -/
theorem eq_of_define_eq_some {d : TypeSystem.Definition} (hd : ∀ r, d ≠ .roots r)
    (h : b.define path d = (b', some e)) : b' = b := by
  cases d with
  | roots r => exact absurd rfl (hd r)
  | type t =>
    rw [define] at h
    split at h
    · simp at h
    · exact (Prod.mk.inj h).1.symm
  | extension t => simp [define] at h
  | directive => simp [define] at h

/-- A `schema` block that fails leaves the builder as it is if it names no free root first. -/
theorem define_roots_eq_iff {r : RootsSyntax} (h : b.define path (.roots r) = (b', some e)) :
    b' = b ↔ b.namedAhead r.root? OperationKind.all = [] := by
  have hroot := b.root?_define_roots path r
  rw [h] at hroot
  constructor
  · intro heq
    rw [List.eq_nil_iff_forall_not_mem]
    intro kind hkind
    obtain ⟨⟨name, hname⟩, hfree⟩ := of_mem_namedAhead hkind
    have hnamed := hroot kind
    rw [if_pos hkind, hname, heq, hfree] at hnamed
    simp at hnamed
  · intro hnone
    obtain ⟨htypes, hextensions⟩ := define_eq_some h
    refine eq_of_root?_eq htypes hextensions fun kind => ?_
    simpa [hnone] using hroot kind

/-- What a definition leaves of a builder when it fails. -/
structure LeftBy (b : SchemaBuilder) (path : Option String) (d : TypeSystem.Definition)
    (b' : SchemaBuilder) : Prop where
  unchanged : b' = b ↔ ∀ r, d = .roots r → b.namedAhead r.root? OperationKind.all = []
  types : b'.types = b.types
  extensions : b'.extensions = b.extensions
  roots : ∀ r, d = .roots r → ∀ kind, b'.root? kind =
    if kind ∈ b.namedAhead r.root? OperationKind.all then
      (r.root? kind).map (⟨·, .ofPosition path r.position⟩)
    else b.root? kind

/-- A definition that fails leaves nothing of itself, but for the roots ahead of the one that is
taken. -/
theorem leftBy_of_define_eq_some {d : TypeSystem.Definition}
    (h : b.define path d = (b', some e)) : b.LeftBy path d b' where
  unchanged := by
    by_cases hd : ∃ r, d = .roots r
    · obtain ⟨r, rfl⟩ := hd
      simpa using define_roots_eq_iff h
    · rw [not_exists] at hd
      exact iff_of_true (eq_of_define_eq_some hd h) fun r hr => absurd hr (hd r)
  types := (define_eq_some h).1
  extensions := (define_eq_some h).2
  roots := by
    rintro r rfl kind
    have hroot := b.root?_define_roots path r kind
    rwa [h] at hroot

/-- A load that fails leaves the builder as the definitions before the failing one have left it,
unless that one is a `schema` block that names roots ahead of one that is taken. Then these are
named, and nothing else is changed. -/
theorem leftBy_of_defineAll_eq_some {ds : List TypeSystem.Definition}
    (h : b.defineAll path ds = (b', some e)) :
    ∃ taken d rest middle, ds = taken ++ d :: rest ∧ b.defineAll path taken = (middle, none) ∧
      middle.define path d = (b', some e) ∧ middle.LeftBy path d b' := by
  obtain ⟨taken, d, rest, middle, hds, htaken, hfails⟩ := exists_of_defineAll_eq_some h
  exact ⟨taken, d, rest, middle, hds, htaken, hfails, leftBy_of_define_eq_some hfails⟩

def sampleRooted : SchemaBuilder :=
  empty.afterCalls [.text none "schema \x7b mutation: Query \x7d type Query \x7b a: Int \x7d"]

def failingDefinitions : List TypeSystem.Definition :=
  [.type ⟨⟨1, 1⟩, "Q", .object []⟩, .roots ⟨⟨2, 1⟩, some "Q", some "Query", none⟩, .directive]

theorem leftBy_of_defineAll_eq_some_sample :
    ∃ b' e, sampleRooted.defineAll none failingDefinitions = (b', some e) ∧
      b'.root? .query = some ⟨"Q", ⟨none, 2, 1⟩⟩ ∧
      ∃ taken d rest middle, failingDefinitions = taken ++ d :: rest ∧
        sampleRooted.defineAll none taken = (middle, none) ∧
        middle.define none d = (b', some e) ∧ middle.LeftBy none d b' := by
  have hsome : (sampleRooted.defineAll none failingDefinitions).2.isSome := by decide +kernel
  have hquery : (sampleRooted.defineAll none failingDefinitions).1.root? .query =
      some ⟨"Q", ⟨none, 2, 1⟩⟩ := by decide +kernel
  obtain ⟨e, he⟩ := Option.isSome_iff_exists.mp hsome
  have h : sampleRooted.defineAll none failingDefinitions = (_, some e) := Prod.ext rfl he
  exact ⟨_, e, h, hquery, leftBy_of_defineAll_eq_some h⟩

end SchemaBuilder

end QueryBindings
