import Mathlib.Data.List.Perm.Basic
import QueryBindings.Proofs.Module.Properties
import QueryBindings.Proofs.Module.Spelling
import QueryBindings.Proofs.Shape.Paths
/-!
The types that a module declares.

The names that are checked before a run succeeds are exactly those of the types that its module
declares, each as often as it is declared. The check goes through the bindings file by file and the
module section by section, so only their order may differ.
-/
namespace QueryBindings

def Declaration.typeName? : Declaration → Option String
  | type name _ => some name
  | operation _ _ _ _ _ => none
  | fragment _ _ => none

/-- The names that stand behind `export type`, each as often as it does. -/
def Module.declaredTypes (m : Module) : List String :=
  m.declarations.filterMap Declaration.typeName?

open Declaration (typeName?)
open Text (Holds)

/-- A piece of a module's body that declares a type under a name, or one of another form. -/
inductive Module.TypePiece (m : Module) : String → Option String → Prop
  | type (name : String) {body : DeclaredType} {t : String} (h : body.Spelled t) :
      m.TypePiece ("export type " ++ name ++ " = " ++ t ++ "\n") (some name)
  | other {t : String} {d : Option Declaration} (h : m.Piece t d)
      (hstart : ¬ "export type ".toList <+: t.toList) : m.TypePiece t none

/-- A declaration of a type declares its name, and no other piece declares one. -/
theorem Module.Piece.typePiece {m : Module} {t : String} {d : Option Declaration}
    (h : m.Piece t d) : m.TypePiece t (d.bind typeName?) := by
  cases h with
  | blank => exact .other .blank (by decide)
  | title hs => exact .other (.title hs) (by simp)
  | declaration h =>
    cases h with
    | type h => exact .type _ h
    | operation hdefiner h => exact .other (.declaration (.operation hdefiner h)) (by simp)
    | fragment h => exact .other (.declaration (.fragment h)) (by simp)

/-- The body of a module declares these types in their order, and no others. -/
theorem Module.holds_declaredTypes (m : Module) : Holds m.TypePiece m.body m.declaredTypes :=
  m.holds_body.filterMap typeName? fun _ _ h => h.typePiece

namespace Node

variable (direction : Direction)

def declaredType : Node → DeclaredType
  | leaf _ text => .leaf text
  | object h fields => .ofFields direction h.fragments h.typename? fields
  | union _ variants => .alternatives (variants.map declaration)

theorem typeDeclarationsOf_eq_flatMap (l : List Node) :
    typeDeclarationsOf direction l = l.flatMap (typeDeclarations direction) := by
  induction l with
  | nil => simp [typeDeclarationsOf]
  | cons n l ih => simp [typeDeclarationsOf, ih]

/-- A node is declared first, and the nodes below it after it. -/
theorem typeDeclarations_eq (n : Node) :
    n.typeDeclarations direction = .type n.declaration (n.declaredType direction) ::
      n.children.flatMap (typeDeclarations direction) := by
  cases n <;>
    simp [typeDeclarations, declaration, declaredType, children, typeDeclarationsOf_eq_flatMap]

/-- A shape's declarations are those of the nodes in it. -/
theorem mem_typeDeclarations_iff (n : Node) {d : Declaration} :
    d ∈ n.typeDeclarations direction ↔
      ∃ p m, n.Leads p m ∧ d = .type m.declaration (m.declaredType direction) := by
  induction n using induct with
  | h n ih =>
    rw [typeDeclarations_eq, List.mem_cons, List.mem_flatMap]
    constructor
    · rintro (rfl | ⟨c, hc, hd⟩)
      · exact ⟨_, n, .here n, rfl⟩
      · obtain ⟨p, m, hm, rfl⟩ := (ih c hc).mp hd
        exact ⟨_, m, .child hc hm, rfl⟩
    · rintro ⟨p, m, hm, rfl⟩
      cases hm with
      | here => exact Or.inl rfl
      | child hc hm => exact Or.inr ⟨_, hc, (ih _ hc).mpr ⟨_, m, hm, rfl⟩⟩

/-- A shape declares nothing but types. -/
theorem exists_type_of_mem (n : Node) {d : Declaration} (h : d ∈ n.typeDeclarations direction) :
    ∃ name body, d = .type name body := by
  obtain ⟨p, m, -, rfl⟩ := (n.mem_typeDeclarations_iff direction).mp h
  exact ⟨_, _, rfl⟩

/-- A node's declarations have the names that are collected from it. -/
theorem typeNames_typeDeclarations (n : Node) :
    (n.typeDeclarations direction).filterMap typeName? = n.declarations := by
  induction n using induct with
  | h n ih =>
    have hname : typeName? (.type n.declaration (n.declaredType direction)) = some n.declaration :=
      rfl
    rw [typeDeclarations_eq, declarations_eq, List.filterMap_cons_some hname,
      List.filterMap_flatMap, List.flatMap_congr ih]

/-- Types are declared under the names that nodes declare. -/
theorem typeNames_typeDeclarationsOf (l : List Node) :
    (typeDeclarationsOf direction l).filterMap typeName? = declarationsOf l := by
  rw [typeDeclarationsOf_eq_flatMap, declarationsOf_eq_flatMap, List.filterMap_flatMap]
  exact List.flatMap_congr fun n _ => n.typeNames_typeDeclarations direction

end Node

/-- The types of a fragment are declared under the names that the fragment declares. -/
theorem typeNames_moduleDeclarations_fragment (f : FragmentBinding) :
    f.moduleDeclarations.filterMap typeName? = f.declarations := by
  simp [FragmentBinding.moduleDeclarations, FragmentBinding.declarations, typeName?,
    Node.typeNames_typeDeclarationsOf]

/-- The types of an operation are declared under the names that the operation declares. -/
theorem typeNames_moduleDeclarations_operation (o : OperationBinding) :
    o.moduleDeclarations.filterMap typeName? = o.declarations := by
  simp only [OperationBinding.moduleDeclarations, OperationBinding.declarations,
    List.filterMap_cons, typeName?, List.filterMap_append, Node.typeNames_typeDeclarations]

/-- The types that a module declares, section by section. -/
theorem Module.declaredTypes_ofBindings (config : Config) (b : Bindings) :
    (ofBindings config b).declaredTypes = b.inputTypes.flatMap Node.declarations ++
      (b.files.flatMap fun file => file.fragments.flatMap FragmentBinding.declarations) ++
      b.files.flatMap fun file => file.operations.flatMap OperationBinding.declarations := by
  simp only [declaredTypes, declarations_ofBindings, List.filterMap_append, List.filterMap_flatMap,
    typeNames_moduleDeclarations_fragment, typeNames_moduleDeclarations_operation,
    Node.typeNames_typeDeclarationsOf, Node.declarationsOf_eq_flatMap]

/-- The types that a module declares are those of the nodes in the shapes. -/
theorem Module.mem_declaredTypes_iff {config : Config} {b : Bindings} {name : String} :
    name ∈ (ofBindings config b).declaredTypes ↔ ∃ p ∈ b.shapes, name ∈ p.2.declarations := by
  constructor
  · intro h
    obtain ⟨d, hd, htype⟩ := List.mem_filterMap.mp h
    rcases mem_declarations_iff.mp hd with
      ⟨p, hp, hd⟩ | ⟨file, -, f, -, rfl⟩ | ⟨file, -, o, -, rfl⟩
    · refine ⟨p, hp, ?_⟩
      rw [← p.2.typeNames_typeDeclarations p.1]
      exact List.mem_filterMap.mpr ⟨d, hd, htype⟩
    · simp [typeName?] at htype
    · simp [typeName?] at htype
  · rintro ⟨p, hp, hname⟩
    rw [← p.2.typeNames_typeDeclarations p.1] at hname
    obtain ⟨d, hd, htype⟩ := List.mem_filterMap.mp hname
    exact List.mem_filterMap.mpr ⟨d, mem_declarations_of_mem_shapes config hp hd, htype⟩

namespace Bindings

/-- The names that are checked, file by file. -/
theorem map_fst_declarations {schema : Schema} {config : Config} {requests : List InputRequest}
    {b : Bindings} (h : InputRequest.declarations schema config requests = .ok b.inputTypes) :
    (b.declarations schema).map (·.1) = b.inputTypes.flatMap Node.declarations ++
      b.files.flatMap fun file => file.fragments.flatMap FragmentBinding.declarations ++
        file.operations.flatMap OperationBinding.declarations := by
  have hinputs : ∀ n ∈ b.inputTypes, (inputDeclarations schema n).map (·.1) = n.declarations := by
    intro n hn
    obtain ⟨i, fields, hi, -, rfl⟩ := InputRequest.exists_inputObject h hn
    have hname : (Node.object (.plain [] i.name) (fields.map (·.1))).name = i.name := rfl
    simp [inputDeclarations, hname, hi, Function.comp_def]
  rw [declarations, List.map_append, List.map_flatMap, List.map_flatMap,
    List.flatMap_congr hinputs]
  simp only [fileDeclarations, List.map_append, List.map_flatMap, List.map_map, Function.comp_def,
    List.map_id']

/-- What is checked and what is written are the same names. -/
theorem declaredTypes_perm {schema : Schema} {config : Config} {requests : List InputRequest}
    {b : Bindings} (h : InputRequest.declarations schema config requests = .ok b.inputTypes) :
    (Module.ofBindings config b).declaredTypes.Perm ((b.declarations schema).map (·.1)) := by
  rw [Module.declaredTypes_ofBindings, map_fst_declarations h, List.append_assoc]
  exact (List.flatMap_append_perm b.files _ _).append_left _

/-- Before the names of declarations are checked, the names to be checked are those that stand behind
`export type` in the body of the module that would be written, and the run succeeds if and only if
none of them stands there twice. Otherwise it fails and names one that does. -/
theorem generate_eq_ok_iff_nodup_declaredTypes {schema : Schema} {config : Config}
    {documents : List Document} {b : Bindings} (h : assemble schema config documents = .ok b) :
    Holds (Module.ofBindings config b).TypePiece (Module.ofBindings config b).body
      (Module.ofBindings config b).declaredTypes ∧
    (Module.ofBindings config b).declaredTypes.Perm ((b.declarations schema).map (·.1)) ∧
    (generate schema config documents = .ok b ↔
      (Module.ofBindings config b).declaredTypes.Nodup) ∧
    (¬ (Module.ofBindings config b).declaredTypes.Nodup → ∃ name first second,
      generate schema config documents = .error (.duplicateName name first second) ∧
        2 ≤ (Module.ofBindings config b).declaredTypes.count name) := by
  obtain ⟨extracted, hassembled⟩ := assemble_eq_ok h
  have hperm := declaredTypes_perm hassembled.inputTypes
  have hgenerate : generate schema config documents = do
      checkDistinct [] (b.declarations schema)
      return b := by
    rw [generate_eq_assemble, h]
    rfl
  refine ⟨Module.holds_declaredTypes _, hperm, ?_, ?_⟩
  · rw [hperm.nodup_iff, ← checkDistinct_eq_ok_iff, hgenerate]
    constructor
    · intro hok
      obtain ⟨⟨⟩, hcheck, -⟩ := Except.bind_eq_ok.mp hok
      exact hcheck
    · intro hcheck
      rw [hcheck]
      rfl
  · intro hdup
    rw [hperm.nodup_iff, ← checkDistinct_eq_ok_iff] at hdup
    cases hcheck : checkDistinct [] (b.declarations schema) with
    | ok => exact absurd hcheck hdup
    | error e =>
      obtain ⟨name, first, second, rfl, hs⟩ := sublist_of_checkDistinct hcheck
      refine ⟨name, first, second, by rw [hgenerate, hcheck]; rfl, ?_⟩
      have htwice : [name, name].Sublist ((b.declarations schema).map (·.1)) := hs.map Prod.fst
      rw [hperm.count_eq]
      simpa using htwice.count_le name

/-- An operation with a field whose alias is the path to a cat. -/
def collidingDocuments : List Document :=
  let name : Selection := .field .start none "name" [] [] []
  let cat : Selection := .inline .start (some "Cat") [] [name]
  [⟨"pets", "", [.operation ⟨.start, .query, some "Q", [], [],
    [.field .start none "pet" [] [] [cat], .field .start (some "pet_Cat") "pet" [] [] [cat]]⟩]⟩]

theorem generate_eq_ok_iff_nodup_declaredTypes_sample :
    ∃ b, assemble Schema.sampleSchema .default collidingDocuments = .ok b ∧
      ¬ (Module.ofBindings .default b).declaredTypes.Nodup ∧ ∃ name first second,
        generate Schema.sampleSchema .default collidingDocuments =
          .error (.duplicateName name first second) ∧
        2 ≤ (Module.ofBindings .default b).declaredTypes.count name := by
  have hsome : (assemble Schema.sampleSchema .default collidingDocuments).toOption.isSome := by
    decide +kernel
  have hnone : (generate Schema.sampleSchema .default collidingDocuments).toOption.isNone := by
    decide +kernel
  obtain ⟨b, hb⟩ := Option.isSome_iff_exists.mp hsome
  have h := Except.toOption_eq_some.mp hb
  obtain ⟨-, -, hiff, hduplicate⟩ := generate_eq_ok_iff_nodup_declaredTypes h
  have hdup : ¬ (Module.ofBindings .default b).declaredTypes.Nodup := by
    intro hnodup
    rw [hiff.mpr hnodup] at hnone
    simp at hnone
  exact ⟨b, h, hdup, hduplicate hdup⟩

end Bindings

end QueryBindings
