import Mathlib.Data.List.Lex
import QueryBindings.Proofs.Shape.Resolution
/-!
Which selections can be resolved.

A selection is live unless it is below a leaf or below `__typename`, or in an inline fragment on a
union that selects no member. Whether there is a defect in a live selection can be told from the
type that it is on and from what it names. Selections are resolved if no live one has a defect. Else
the error is that of the first defect, in the order in which selections are written: a selection
comes before those below it, and these come before the next.
-/
namespace QueryBindings

namespace Selection

def position : Selection → Position
  | field p _ _ _ _ _ => p
  | spread p _ _ => p
  | inline p _ _ _ => p

end Selection

namespace Scope

/-- A selection on a union selects a member: an inline fragment the one that it names, and a spread
the one that its fragment's condition names. -/
inductive Selects (s : Scope) (u : UnionType) : Selection → String → Prop
  | inline {p : Position} {member : String} {d : List Directive} {l : List Selection}
      (hm : u.members.contains member = true) : Selects s u (.inline p (some member) d l) member
  | spread {p : Position} {f member : String} {d : List Directive}
      (hm : s.spreadMember? u f = some member) : Selects s u (.spread p f d) member

/-- The selections below a selection are looked at, on a type of their own. -/
inductive Opens (s : Scope) : SchemaType → Selection → SchemaType → List Selection → Prop
  | object {t o : FieldedType} {p : Position} {alias? : Option String} {name : String}
      {a : List Argument} {d : List Directive} {l : List Selection}
      (ht : s.schema.fieldType? t name = some (.object o)) :
    Opens s (.object t) (.field p alias? name a d l) (.object o) l
  | union {t : FieldedType} {u : UnionType} {p : Position} {alias? : Option String} {name : String}
      {a : List Argument} {d : List Directive} {l : List Selection}
      (ht : s.schema.fieldType? t name = some (.union u)) :
    Opens s (.object t) (.field p alias? name a d l) (.union u) l
  | member {u : UnionType} {t : FieldedType} {p : Position} {member : String} {d : List Directive}
      {l : List Selection} (hm : u.members.contains member = true)
      (ht : s.schema.object? member = some t) :
    Opens s (.union u) (.inline p (some member) d l) (.object t) l

/-- The live selections among selections on a type, each with the type that it is on. A list of
numbers leads to it from its outermost selection down: which one it is among those beside it. Below
a selection with a defect there is no type to be on. -/
inductive Live (s : Scope) :
    SchemaType → List Selection → List Nat → SchemaType → Selection → Prop
  | here {type : SchemaType} {l : List Selection} {i : Nat} {x : Selection}
      (hx : l[i]? = some x) : Live s type l [i] type x
  | under {type type' type'' : SchemaType} {l l' : List Selection} {i : Nat} {q : List Nat}
      {x y : Selection} (hx : l[i]? = some x) (ho : s.Opens type x type' l')
      (h : Live s type' l' q type'' y) : Live s type l (i :: q) type'' y

/-- What can be wrong with a selection on a type, and the error that tells. -/
inductive Defect (s : Scope) : SchemaType → Selection → BindingError → Prop
  | undefinedField {t : FieldedType} {p : Position} {alias? : Option String} {name : String}
      {a : List Argument} {d : List Directive} {l : List Selection} (hn : name ≠ "__typename")
      (hf : t.field? name = none) :
    Defect s (.object t) (.field p alias? name a d l) (.undefinedField t.name name (s.locate p))
  | undefinedType {t : FieldedType} {p : Position} {alias? : Option String} {name : String}
      {a : List Argument} {d : List Directive} {l : List Selection} {f : Field}
      (hn : name ≠ "__typename") (hf : t.field? name = some f)
      (ht : s.schema.find? f.type.baseName = none) :
    Defect s (.object t) (.field p alias? name a d l)
      (.undefinedType f.type.baseName (s.locate p))
  | unsupportedType {t : FieldedType} {p : Position} {alias? : Option String} {name : String}
      {a : List Argument} {d : List Directive} {l : List Selection} {f : Field} {type : SchemaType}
      (hn : name ≠ "__typename") (hf : t.field? name = some f)
      (ht : s.schema.find? f.type.baseName = some type)
      (hk : type.kind = .interface ∨ type.kind = .inputObject) :
    Defect s (.object t) (.field p alias? name a d l)
      (.unsupportedType type.name type.kind .responseField (s.locate p))
  | inlineOnObject {t : FieldedType} {p : Position} {condition? : Option String}
      {d : List Directive} {l : List Selection} :
    Defect s (.object t) (.inline p condition? d l)
      (.unsupportedSelection .inlineFragment t.name (s.locate p))
  | fieldOnUnion {u : UnionType} {p : Position} {alias? : Option String} {name : String}
      {a : List Argument} {d : List Directive} {l : List Selection} (hn : name ≠ "__typename") :
    Defect s (.union u) (.field p alias? name a d l)
      (.unsupportedSelection .field u.name (s.locate p))
  | undefinedMember {u : UnionType} {x : Selection} {member : String} (hm : s.Selects u x member)
      (ht : s.schema.find? member = none) :
    Defect s (.union u) x (.undefinedType member (s.locate x.position))
  | unsupportedMember {u : UnionType} {x : Selection} {member : String} {type : SchemaType}
      (hm : s.Selects u x member) (ht : s.schema.find? member = some type)
      (hk : type.kind ≠ .object) :
    Defect s (.union u) x (.unsupportedType member type.kind .responseField (s.locate x.position))

def DefectAt (s : Scope) (type : SchemaType) (l : List Selection) (q : List Nat)
    (e : BindingError) : Prop :=
  ∃ type' x, s.Live type l q type' x ∧ s.Defect type' x e

/-- A defect of a selection itself or of a live one below it. -/
def DefectIn (s : Scope) (type : SchemaType) (x : Selection) (q : List Nat) (e : BindingError) :
    Prop :=
  (q = [] ∧ s.Defect type x e) ∨ ∃ type' l, s.Opens type x type' l ∧ s.DefectAt type' l q e

variable {s : Scope} {type type' : SchemaType} {x : Selection} {l l' : List Selection}
  {q : List Nat} {e e' : BindingError}

/-! ### Uniqueness -/

/-- A selection selects one member at most. -/
theorem Selects.unique {u : UnionType} {m m' : String} (h : s.Selects u x m)
    (h' : s.Selects u x m') : m = m' := by
  cases h with
  | inline =>
    cases h'
    rfl
  | spread hm =>
    cases h' with
    | spread hm' => exact Option.some.inj (hm.symm.trans hm')

/-- A selection opens one selection set at most. -/
theorem Opens.unique (h : s.Opens type x type' l) {type'' : SchemaType}
    (h' : s.Opens type x type'' l') : type' = type'' ∧ l = l' := by
  cases h <;> cases h' <;> simp_all

/-- One live selection at most is at a place. -/
theorem Live.unique {type'' : SchemaType} {y : Selection} (h : s.Live type l q type' x)
    (h' : s.Live type l q type'' y) : type' = type'' ∧ x = y := by
  induction h with
  | here hx =>
    cases h' with
    | here hx' => exact ⟨rfl, Option.some.inj (hx.symm.trans hx')⟩
    | under hx' ho h' => cases h'
  | under hx ho h ih =>
    cases h' with
    | here => cases h
    | under hx' ho' h' =>
      obtain rfl := Option.some.inj (hx.symm.trans hx')
      obtain ⟨rfl, rfl⟩ := ho.unique ho'
      exact ih h'

theorem Defect.unique (h : s.Defect type x e) (h' : s.Defect type x e') : e = e' := by
  cases h with
  | undefinedField hn hf => cases h' <;> simp_all
  | undefinedType hn hf ht => cases h' <;> simp_all
  | unsupportedType hn hf ht hk => cases h' <;> simp_all
  | inlineOnObject =>
    cases h'
    rfl
  | fieldOnUnion hn =>
    cases h' with
    | fieldOnUnion => rfl
    | undefinedMember hm | unsupportedMember hm => cases hm
  | undefinedMember hm ht =>
    cases h' with
    | fieldOnUnion => cases hm
    | undefinedMember hm' => rw [hm.unique hm']
    | unsupportedMember hm' ht' =>
      rw [hm.unique hm', ht'] at ht
      cases ht
  | unsupportedMember hm ht =>
    cases h' with
    | fieldOnUnion => cases hm
    | undefinedMember hm' ht' =>
      rw [hm.unique hm', ht'] at ht
      cases ht
    | unsupportedMember hm' ht' =>
      obtain rfl := hm.unique hm'
      rw [Option.some.inj (ht.symm.trans ht')]

theorem DefectAt.unique (h : s.DefectAt type l q e) (h' : s.DefectAt type l q e') : e = e' := by
  obtain ⟨type', x, hlive, hdefect⟩ := h
  obtain ⟨type'', y, hlive', hdefect'⟩ := h'
  obtain ⟨rfl, rfl⟩ := hlive.unique hlive'
  exact hdefect.unique hdefect'

/-! ### Lists of selections -/

theorem not_defectAt_nil : ¬ s.DefectAt type [] q e := by
  rintro ⟨type', x, hlive, -⟩
  cases hlive with
  | here hx | under hx => simp at hx

/-- A defect is in the selection that its first number leads to. -/
theorem defectAt_iff : s.DefectAt type l q e ↔
    ∃ i p x, q = i :: p ∧ l[i]? = some x ∧ s.DefectIn type x p e := by
  constructor
  · rintro ⟨type', y, hlive, hdefect⟩
    cases hlive with
    | here hx => exact ⟨_, [], _, rfl, hx, .inl ⟨rfl, hdefect⟩⟩
    | under hx ho h => exact ⟨_, _, _, rfl, hx, .inr ⟨_, _, ho, _, _, h, hdefect⟩⟩
  · rintro ⟨i, p, x, rfl, hx, ⟨rfl, hdefect⟩ | ⟨type', l', ho, type'', y, hlive, hdefect⟩⟩
    · exact ⟨_, _, .here hx, hdefect⟩
    · exact ⟨_, _, .under hx ho hlive, hdefect⟩

/-- A defect is in the first selection or in one behind it. -/
theorem defectAt_cons_iff : s.DefectAt type (x :: l) q e ↔
    (∃ p, q = 0 :: p ∧ s.DefectIn type x p e) ∨
      ∃ i p, q = (i + 1) :: p ∧ s.DefectAt type l (i :: p) e := by
  constructor
  · intro h
    obtain ⟨i, p, y, rfl, hy, hdefect⟩ := defectAt_iff.mp h
    cases i with
    | zero =>
      obtain rfl := Option.some.inj hy
      exact .inl ⟨p, rfl, hdefect⟩
    | succ i => exact .inr ⟨i, p, rfl, defectAt_iff.mpr ⟨i, p, y, rfl, hy, hdefect⟩⟩
  · rintro (⟨p, rfl, hdefect⟩ | ⟨i, p, rfl, h⟩)
    · exact defectAt_iff.mpr ⟨0, p, x, rfl, rfl, hdefect⟩
    · obtain ⟨j, p', y, hq, hy, hdefect⟩ := defectAt_iff.mp h
      obtain ⟨rfl, rfl⟩ := List.cons.inj hq
      exact defectAt_iff.mpr ⟨i + 1, p, y, rfl, hy, hdefect⟩

/-! ### Results -/

/-- A place comes before those below it, and before those that are written behind it. -/
def Precedes (q q' : List Nat) : Prop := List.Lex (· < ·) q q'

theorem precedes_cons_iff {i j : Nat} {p q : List Nat} :
    Precedes (i :: p) (j :: q) ↔ i < j ∨ i = j ∧ Precedes p q := by
  constructor
  · intro h
    cases h with
    | rel h => exact Or.inl h
    | cons h => exact Or.inr ⟨rfl, h⟩
  · rintro (h | ⟨rfl, h⟩)
    · exact List.Lex.rel h
    · exact List.Lex.cons h

theorem eq_of_not_precedes {p q : List Nat} (h : ¬ Precedes p q) (h' : ¬ Precedes q p) : p = q :=
  (List.Lex.trichotomous (· < ·)).trichotomous p q h h'

/-- A result is right about the errors that are found at places: it is the error at the first place,
or there is none. -/
def Reports {α : Type} (found : List Nat → BindingError → Prop) : Except BindingError α → Prop
  | .ok _ => ∀ q e, ¬ found q e
  | .error e => ∃ q, found q e ∧ ∀ q' e', found q' e' → ¬ Precedes q' q

section

variable {α β : Type} {found found' : List Nat → BindingError → Prop} {r : Except BindingError α}

theorem Reports.congr (h : Reports found r) (hf : ∀ q e, found' q e ↔ found q e) :
    Reports found' r := by
  have hfound : found' = found := funext₂ fun q e => propext (hf q e)
  rwa [hfound]

theorem Reports.bind_ok (h : Reports found r) (f : α → β) :
    Reports found (r >>= fun a => .ok (f a)) := by
  cases r <;> exact h

end

theorem reports_nil {α : Type} (a : α) : Reports (s.DefectAt type []) (.ok a) :=
  fun _ _ => not_defectAt_nil

/-- The first defect in a list is in the first selection, unless this has none. -/
theorem reports_cons {first others : Except BindingError (List Contribution)}
    (hx : Reports (s.DefectIn type x) first) (hl : Reports (s.DefectAt type l) others) :
    Reports (s.DefectAt type (x :: l))
      (do let a ← first; let b ← others; .ok (a ++ b)) := by
  cases first with
  | error e =>
    obtain ⟨p, hp, hfirst⟩ := hx
    refine ⟨0 :: p, defectAt_cons_iff.mpr (.inl ⟨p, rfl, hp⟩), ?_⟩
    intro q' e' h
    rcases defectAt_cons_iff.mp h with ⟨p', rfl, hp'⟩ | ⟨i, p', rfl, -⟩
    · simpa [precedes_cons_iff] using hfirst p' e' hp'
    · simp [precedes_cons_iff]
  | ok a =>
    cases others with
    | error e =>
      obtain ⟨q, hq, hfirst⟩ := hl
      obtain ⟨i, p, -, rfl, -, -⟩ := defectAt_iff.mp hq
      refine ⟨(i + 1) :: p, defectAt_cons_iff.mpr (.inr ⟨i, p, rfl, hq⟩), ?_⟩
      intro q' e' h
      rcases defectAt_cons_iff.mp h with ⟨p', -, hp'⟩ | ⟨j, p', rfl, hp'⟩
      · exact absurd hp' (hx p' e')
      · simpa [precedes_cons_iff] using hfirst (j :: p') e' hp'
    | ok b =>
      intro q e h
      rcases defectAt_cons_iff.mp h with ⟨p, -, hp⟩ | ⟨i, p, -, hp⟩
      · exact hx p e hp
      · exact hl (i :: p) e hp

/-! ### Single selections -/

/-- A selection with a defect comes before all below it. -/
theorem reports_of_defect {α : Type} (h : s.Defect type x e) :
    Reports (s.DefectIn type x) (.error e : Except BindingError α) :=
  ⟨[], .inl ⟨rfl, h⟩, fun _ _ _ => List.not_lex_nil⟩

/-- A selection without defects that opens nothing is resolved. -/
theorem reports_of_closed {α : Type} (a : α) (hd : ∀ e, ¬ s.Defect type x e)
    (ho : ∀ type' l, ¬ s.Opens type x type' l) : Reports (s.DefectIn type x) (.ok a) := by
  rintro q e (⟨-, h⟩ | ⟨type', l, h, -⟩)
  · exact hd e h
  · exact ho type' l h

/-- A selection without a defect is as good as those below it. -/
theorem reports_of_opens {α : Type} {r : Except BindingError α} (hd : ∀ e, ¬ s.Defect type x e)
    (ho : s.Opens type x type' l) (h : Reports (s.DefectAt type' l) r) :
    Reports (s.DefectIn type x) r := by
  refine h.congr fun q e => ⟨?_, fun h => .inr ⟨_, _, ho, h⟩⟩
  rintro (⟨-, h⟩ | ⟨type'', l', ho', h⟩)
  · exact absurd h (hd e)
  · obtain ⟨rfl, rfl⟩ := ho.unique ho'
    exact h

/-- A field that is found has a defect only if its type is of an unsupported kind. -/
theorem not_defect_of_fieldType {t : FieldedType} {p : Position} {alias? : Option String}
    {name : String} {a : List Argument} {d : List Directive}
    (ht : s.schema.fieldType? t name = some type)
    (hk : ¬ (type.kind = .interface ∨ type.kind = .inputObject)) :
    ¬ s.Defect (.object t) (.field p alias? name a d l) e := by
  intro h
  cases h with
  | undefinedField hn hf => simp [Schema.fieldType?, hn, hf] at ht
  | undefinedType hn hf ht' => simp [Schema.fieldType?, hn, hf, ht'] at ht
  | unsupportedType hn hf ht' hk' =>
    obtain rfl : _ = type := by simpa [Schema.fieldType?, hn, hf, ht'] using ht
    exact hk hk'

theorem reports_field (s : Scope) (t : FieldedType) (path : List String) (p : Position)
    (alias? : Option String) (name : String) (a : List Argument) (d : List Directive)
    (hobject : ∀ o path, Reports (s.DefectAt (.object o) l) (s.onObjectAll o path l))
    (hunion : ∀ u path, Reports (s.DefectAt (.union u) l) (s.onUnionAll u path l)) :
    Reports (s.DefectIn (.object t) (.field p alias? name a d l))
      (s.onObject t path (.field p alias? name a d l)) := by
  unfold onObject
  by_cases hn : name = "__typename"
  · simp only [hn, if_true]
    apply reports_of_closed
    · rintro e h
      cases h <;> contradiction
    · rintro type' l' h
      cases h <;> simp_all [Schema.fieldType?_typename]
  · simp only [hn, if_false, selectedField]
    cases hf : t.field? name with
    | none => exact reports_of_defect (.undefinedField hn hf)
    | some f =>
      simp only [bind, Except.bind]
      cases ht : s.schema.find? f.type.baseName with
      | none => exact reports_of_defect (.undefinedType hn hf ht)
      | some type =>
        have hfield : s.schema.fieldType? t name = some type := by
          simp [Schema.fieldType?, hn, hf, ht]
        cases type with
        | object o =>
          refine reports_of_opens ?_ (.object hfield) ((hobject o _).bind_ok _)
          exact fun e => not_defect_of_fieldType hfield (by simp [SchemaType.kind])
        | union u =>
          refine reports_of_opens ?_ (.union hfield) ((hunion u _).bind_ok _)
          exact fun e => not_defect_of_fieldType hfield (by simp [SchemaType.kind])
        | interface i =>
          exact reports_of_defect (.unsupportedType hn hf ht (.inl rfl))
        | inputObject i =>
          exact reports_of_defect (.unsupportedType hn hf ht (.inr rfl))
        | builtin | scalar | enum =>
          apply reports_of_closed
          · exact fun e => not_defect_of_fieldType hfield (by simp [SchemaType.kind])
          · rintro type' l' h
            cases h <;> simp_all

/-- A selection that selects an object has no defect. -/
theorem not_defect_of_selects {u : UnionType} {member : String} {t : FieldedType}
    (hm : s.Selects u x member) (ht : s.schema.find? member = some (.object t)) :
    ¬ s.Defect (.union u) x e := by
  intro h
  cases h with
  | fieldOnUnion => cases hm
  | undefinedMember hm' ht' =>
    rw [hm.unique hm', ht'] at ht
    cases ht
  | unsupportedMember hm' ht' hk =>
    rw [hm.unique hm', ht'] at ht
    obtain rfl := Option.some.inj ht
    exact hk rfl

/-- A selection on a union that selects no member has no defect if it is not a field. -/
theorem not_defect_of_not_selects {u : UnionType} (hm : ∀ member, ¬ s.Selects u x member)
    (hx : ∀ p alias? name a d l, x = .field p alias? name a d l → name = "__typename") :
    ¬ s.Defect (.union u) x e := by
  intro h
  cases h with
  | fieldOnUnion hn => exact hn (hx _ _ _ _ _ _ rfl)
  | undefinedMember hm' | unsupportedMember hm' => exact hm _ hm'

/-- The member that is selected has to be an object. -/
theorem reports_memberObject {α : Type} {u : UnionType} {member : String}
    (hm : s.Selects u x member) {next : FieldedType → Except BindingError α}
    (h : ∀ t, s.schema.find? member = some (.object t) →
      Reports (s.DefectIn (.union u) x) (next t)) :
    Reports (s.DefectIn (.union u) x) (s.memberObject member x.position >>= next) := by
  unfold memberObject
  cases ht : s.schema.find? member with
  | none => exact reports_of_defect (.undefinedMember hm ht)
  | some type =>
    cases type with
    | object t => exact h t ht
    | builtin | scalar | interface | union | enum | inputObject =>
      exact reports_of_defect (.unsupportedMember hm ht (by simp [SchemaType.kind]))

theorem reports_spread (s : Scope) (u : UnionType) (path : List String) (p : Position)
    (f : String) (d : List Directive) :
    Reports (s.DefectIn (.union u) (.spread p f d)) (s.onUnion u path (.spread p f d)) := by
  have hopens : ∀ type l, ¬ s.Opens (.union u) (.spread p f d) type l := by
    rintro type l h
    cases h
  unfold onUnion
  cases hm : s.spreadMember? u f with
  | none =>
    refine reports_of_closed _ (fun e => not_defect_of_not_selects ?_ (by simp)) hopens
    rintro member h
    cases h
    simp_all
  | some member =>
    have hselects : s.Selects u (.spread p f d) member := .spread hm
    exact reports_memberObject hselects fun t ht =>
      reports_of_closed _ (fun e => not_defect_of_selects hselects ht) hopens

theorem reports_inline (s : Scope) (u : UnionType) (path : List String) (p : Position)
    (member : String) (d : List Directive)
    (hobject : ∀ o path, Reports (s.DefectAt (.object o) l) (s.onObjectAll o path l)) :
    Reports (s.DefectIn (.union u) (.inline p (some member) d l))
      (s.onUnion u path (.inline p (some member) d l)) := by
  unfold onUnion
  by_cases hm : u.members.contains member = true
  · have hselects : s.Selects u (.inline p (some member) d l) member := .inline hm
    simp only [hm, if_true]
    refine reports_memberObject hselects fun t ht => ?_
    have hobject? : s.schema.object? member = some t := by simp [Schema.object?, ht]
    exact reports_of_opens (fun e => not_defect_of_selects hselects ht) (.member hm hobject?)
      ((hobject t _).bind_ok _)
  · simp only [hm]
    apply reports_of_closed
    · refine fun e => not_defect_of_not_selects ?_ (by simp)
      rintro member h
      cases h
      contradiction
    · rintro type l h
      cases h
      contradiction

theorem reports_unselected (s : Scope) (u : UnionType) (path : List String) (p : Position)
    (d : List Directive) : Reports (s.DefectIn (.union u) (.inline p none d l))
      (s.onUnion u path (.inline p none d l)) := by
  unfold onUnion
  apply reports_of_closed
  · refine fun e => not_defect_of_not_selects ?_ (by simp)
    rintro member h
    cases h
  · rintro type l h
    cases h

theorem reports_unionField (s : Scope) (u : UnionType) (path : List String) (p : Position)
    (alias? : Option String) (name : String) (a : List Argument) (d : List Directive) :
    Reports (s.DefectIn (.union u) (.field p alias? name a d l))
      (s.onUnion u path (.field p alias? name a d l)) := by
  unfold onUnion
  by_cases hn : name = "__typename"
  · simp only [hn, if_true]
    apply reports_of_closed
    · refine fun e => not_defect_of_not_selects ?_ (by rintro _ _ _ _ _ _ ⟨⟩; rfl)
      rintro member h
      cases h
    · rintro type l h
      cases h
  · simp only [hn, if_false]
    exact reports_of_defect (.fieldOnUnion hn)

/-! ### All selections -/

mutual

/-- Resolving a selection on an object fails with the first defect in it, if there is one. -/
theorem reports_onObject (s : Scope) : (x : Selection) → (t : FieldedType) →
    (path : List String) → Reports (s.DefectIn (.object t) x) (s.onObject t path x)
  | .inline _ _ _ _, t, path => by
    unfold onObject
    exact reports_of_defect .inlineOnObject
  | .spread _ _ _, t, path => by
    unfold onObject
    apply reports_of_closed
    · rintro e h
      cases h
    · rintro type l h
      cases h
  | .field p alias? name a d l, t, path =>
    reports_field s t path p alias? name a d (fun o path => reports_onObjectAll s l o path)
      (fun u path => reports_onUnionAll s l u path)

/-- Selections on an object fail with the error of the first defect. -/
theorem reports_onObjectAll (s : Scope) : (l : List Selection) → (t : FieldedType) →
    (path : List String) → Reports (s.DefectAt (.object t) l) (s.onObjectAll t path l)
  | [], t, path => by
    unfold onObjectAll
    exact reports_nil _
  | x :: l, t, path => by
    unfold onObjectAll
    exact reports_cons (reports_onObject s x t path) (reports_onObjectAll s l t path)

/-- Resolving a selection on a union fails with the first defect in it, if there is one. -/
theorem reports_onUnion (s : Scope) : (x : Selection) → (u : UnionType) →
    (path : List String) → Reports (s.DefectIn (.union u) x) (s.onUnion u path x)
  | .inline p none d _, u, path => reports_unselected s u path p d
  | .inline p (some member) d l, u, path =>
    reports_inline s u path p member d (fun o path => reports_onObjectAll s l o path)
  | .spread p f d, u, path => reports_spread s u path p f d
  | .field p alias? name a d _, u, path => reports_unionField s u path p alias? name a d

/-- Selections on a union fail with the error of the first defect. -/
theorem reports_onUnionAll (s : Scope) : (l : List Selection) → (u : UnionType) →
    (path : List String) → Reports (s.DefectAt (.union u) l) (s.onUnionAll u path l)
  | [], u, path => by
    unfold onUnionAll
    exact reports_nil _
  | x :: l, u, path => by
    unfold onUnionAll
    exact reports_cons (reports_onUnion s x u path) (reports_onUnionAll s l u path)

end

/-- Selections are resolved exactly if no live one among them has a defect. If they aren't, the
error is that of the defect that comes first. -/
theorem selectOnObject_reports_first_defect (s : Scope) (t : FieldedType) (path : List String)
    (l : List Selection) :
    ((∃ shape, s.selectOnObject t path l = .ok shape) ↔
      ∀ q e, ¬ s.DefectAt (.object t) l q e) ∧
    ∀ e, s.selectOnObject t path l = .error e ↔ ∃ q, s.DefectAt (.object t) l q e ∧
      ∀ q' e', s.DefectAt (.object t) l q' e' → ¬ Precedes q' q := by
  have hreports : Reports (s.DefectAt (.object t) l) (s.selectOnObject t path l) :=
    (reports_onObjectAll s l t path).bind_ok _
  cases hr : s.selectOnObject t path l with
  | ok shape =>
    rw [hr] at hreports
    refine ⟨⟨fun _ => hreports, fun _ => ⟨shape, rfl⟩⟩, fun e => ⟨fun h => absurd h (by simp), ?_⟩⟩
    rintro ⟨q, hq, -⟩
    exact absurd hq (hreports q e)
  | error e =>
    rw [hr] at hreports
    obtain ⟨q, hq, hfirst⟩ := hreports
    refine ⟨⟨?_, fun h => absurd hq (h q e)⟩, fun e' => ⟨?_, ?_⟩⟩
    · rintro ⟨shape, h⟩
      exact absurd h (by simp)
    · intro h
      obtain rfl := Except.error.inj h
      exact ⟨q, hq, hfirst⟩
    · rintro ⟨q', hq', hfirst'⟩
      obtain rfl := eq_of_not_precedes (hfirst q' e' hq') (hfirst' q e hq)
      rw [hq.unique hq']

end Scope

end QueryBindings
