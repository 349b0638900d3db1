import QueryBindings.Proofs.Bindings.Defined
import QueryBindings.Proofs.Module.Declared
/-!
A generated module is closed under its own references.

Shapes refer to the nodes right below them, which are declared with them, and to fragments, which
linking has found. The constants of fragments stand in sections of their own before all operations,
and subscriptions, which need a definition more, are refused without the option that adds it. What is
declared is written at the start of a line, as a declaration or as a function.
-/
namespace QueryBindings

open Text (Holds HasLine EndsLine)

/-! ### References -/

def TypeExpr.references : TypeExpr → List String
  | leaf _ => []
  | reference name => [name]
  | array item => item.references
  | orNull inner => inner.references

/-- Modifiers refer to nothing. -/
theorem TypeExpr.references_wrap (modifiers : List Modifier) (base : TypeExpr) :
    (wrap modifiers base).references = base.references := by
  induction modifiers with
  | nil => rfl
  | cons m modifiers ih => cases m <;> simpa [wrapOne, references] using ih

/-- The declarations that an equals sign refers to: the fragments of an intersection, the types of
properties, and alternatives. -/
def DeclaredType.references : DeclaredType → List String
  | leaf _ => []
  | object fragments properties => fragments ++ properties.flatMap (·.type.references)
  | alternatives names => names

namespace Declaration

def references : Declaration → List String
  | type _ body => body.references
  | operation _ _ input data _ => [input, data]
  | fragment _ _ => []

/-- The fragments whose constants a declaration's document holds. -/
def substitutions : Declaration → List String
  | type _ _ => []
  | operation _ _ _ _ document => document.fragments
  | fragment _ document => document.fragments

end Declaration

/-- A definition starts with a function of a document, which knows the types of variables and data.
-/
structure FixedDefinition.Defines (g : FixedDefinition) (f : String) : Prop where
  keyword : g.keyword = .function
  name : g.name = f
  parameters : "<V, D>(".toList <+: (g.rest.headD "").toList

instance (g : FixedDefinition) (f : String) : Decidable (g.Defines f) :=
  decidable_of_iff (g.keyword = .function ∧ g.name = f ∧
      "<V, D>(".toList <+: (g.rest.headD "").toList)
    ⟨fun ⟨hkeyword, hname, hparameters⟩ => ⟨hkeyword, hname, hparameters⟩,
      fun h => ⟨h.keyword, h.name, h.parameters⟩⟩

namespace Module

/-- What a module refers to, it has: types anywhere in its body, constants before their use, and
functions behind the body. -/
structure Closed (m : Module) : Prop where
  types : ∀ d ∈ m.declarations, ∀ name ∈ d.references, name ∈ m.declaredTypes
  constants : ∀ before d after, m.declarations = before ++ d :: after →
    ∀ f ∈ d.substitutions, ∃ document, .fragment f document ∈ before
  definers : ∀ name kind input data document,
    .operation name kind input data document ∈ m.declarations → ∀ f, kind.MadeBy f →
      ∃ g ∈ m.definitions, g.Defines f

/-- The module's text has lines for what its declarations refer to: types anywhere in the body,
constants before the text of what uses them, and functions behind the body. -/
structure ClosedText (m : Module) : Prop where
  types : ∀ d ∈ m.declarations, ∀ name ∈ d.references,
    HasLine m.body ("export type " ++ name ++ " = ")
  constants : ∀ before d after, m.declarations = before ++ d :: after → ∀ f ∈ d.substitutions,
    ∃ s t u, m.body = s ++ t ++ u ∧ d.Spelled t ∧ HasLine s ("const " ++ ("_gql_" ++ f) ++ " = ")
  definers : ∀ name kind input data document,
    .operation name kind input data document ∈ m.declarations → ∀ f, kind.MadeBy f →
      HasLine m.closing ("function " ++ f ++ "<V, D>(")

end Module

/-! ### Shapes -/

namespace DeclaredType

/-- An object shape refers to its fragments and to the declarations of its fields. -/
theorem references_ofFields (direction : Direction) (fragments : List String)
    (typename? : Option String) (fields : List Node) :
    (ofFields direction fragments typename? fields).references =
      fragments ++ fields.map Node.declaration := by
  have htag : ((typename?.map Property.typename).toList.flatMap (·.type.references)) = [] := by
    cases typename? <;> rfl
  have hfields : ((fields.map (Property.ofNode direction)).flatMap (·.type.references)) =
      fields.map Node.declaration := by
    rw [List.flatMap_map, List.map_eq_flatMap]
    simp only [Property.ofNode, TypeExpr.references_wrap, TypeExpr.references]
  rw [ofFields, references, List.flatMap_append, htag, hfields, List.nil_append]

end DeclaredType

namespace Node

/-- A declaration refers to the node's own fragments and to its children. -/
theorem references_declaredType (direction : Direction) (n : Node) {name : String}
    (h : name ∈ (n.declaredType direction).references) :
    name ∈ n.head.fragments ∨ ∃ c ∈ n.children, c.declaration = name := by
  cases n with
  | leaf => simp [declaredType, DeclaredType.references] at h
  | object =>
    rw [declaredType, DeclaredType.references_ofFields] at h
    exact (List.mem_append.mp h).imp id List.mem_map.mp
  | union => exact Or.inr (List.mem_map.mp h)

/-- The declarations of a shape refer to each other, and to the fragments that are recorded on the
shape's nodes. -/
theorem mem_of_mem_references (direction : Direction) (n : Node) {d : Declaration}
    (hd : d ∈ n.typeDeclarations direction) {name : String} (hname : name ∈ d.references) :
    name ∈ n.declarations ∨ name ∈ n.fragmentNames := by
  obtain ⟨p, m, hm, rfl⟩ := (n.mem_typeDeclarations_iff direction).mp hd
  rcases references_declaredType direction m hname with hname | ⟨c, hc, rfl⟩
  · exact Or.inr (n.mem_fragmentNames_iff.mpr ⟨p, m, hm, hname⟩)
  · exact Or.inl (n.mem_declarations_iff.mpr ⟨_, c, hm.snoc hc, rfl⟩)

end Node

/-! ### Modules -/

section

variable {config : Config} {b : Bindings}

/-- A fragment's shape is declared under the fragment's name. -/
theorem Module.mem_declaredTypes_of_mem_fragmentNames (config : Config) {name : String}
    (hname : name ∈ FileBindings.fragmentNames b.files) :
    name ∈ (ofBindings config b).declaredTypes := by
  obtain ⟨file, hfile, f, hf, rfl⟩ := FileBindings.mem_fragmentNames.mp hname
  have hshape := Bindings.mem_shapes_iff.mpr (Or.inr (Or.inl ⟨file, hfile, f, hf, rfl⟩))
  have hdeclaration : f.shape.declaration = f.name := by
    simp [FragmentBinding.shape, Node.declaration, declarationName]
  refine mem_declaredTypes_iff.mpr ⟨_, hshape, ?_⟩
  rw [← hdeclaration]
  exact f.shape.declaration_mem_declarations

/-- An input object is declared under its own name. -/
theorem Module.mem_declaredTypes_of_mem_inputTypes (config : Config) {schema : Schema}
    {requests : List InputRequest}
    (h : InputRequest.declarations schema config requests = .ok b.inputTypes) {n : Node}
    (hn : n ∈ b.inputTypes) : n.name ∈ (ofBindings config b).declaredTypes := by
  have hshape := Bindings.mem_shapes_iff.mpr (Or.inl ⟨n, hn, rfl⟩)
  refine mem_declaredTypes_iff.mpr ⟨_, hshape, ?_⟩
  obtain ⟨t, fields, -, -, rfl⟩ := InputRequest.exists_inputObject h hn
  have hname : (Node.object (.plain [] t.name) (fields.map (·.1))).declaration = t.name := by
    simp [Node.declaration, declarationName, NodeHead.plain]
  rw [← hname]
  exact Node.declaration_mem_declarations _

/-- The fragments that are recorded on shapes are those of files. -/
theorem Bindings.MadeOf.mem_fragmentNames {schema : Schema} {documents : List Document}
    {extracted : List ExtractedFile} (h : b.MadeOf schema config documents extracted)
    (hdefines : b.DefinesFragments) {p : Direction × Node} (hp : p ∈ b.shapes) {name : String}
    (hname : name ∈ p.2.fragmentNames) : name ∈ FileBindings.fragmentNames b.files := by
  rcases mem_shapes_iff.mp hp with
    ⟨n, hn, rfl⟩ | ⟨file, hfile, f, hf, rfl⟩ | ⟨file, hfile, o, ho, rfl | rfl⟩
  · obtain ⟨i, fields, -, hfields, rfl⟩ := InputRequest.exists_inputObject h.inputTypes hn
    have hl := leavesAt_of_inputFields hfields
    simp [Node.fragmentNames, Node.fragmentNamesOf_leaves hl, NodeHead.plain] at hname
  · refine hdefines.ofFragment file hfile f hf name ?_
    exact Names.mem_union.mpr (List.mem_append.mp hname)
  · obtain ⟨d, -, path, hof⟩ := h.exists_of_mem_operations hfile ho
    obtain ⟨parameters, hparameters, hinput⟩ := hof.input
    have hl := leavesAt_of_variables hparameters
    rw [hinput] at hname
    simp [Node.fragmentNames, Node.fragmentNamesOf_leaves hl, NodeHead.plain] at hname
  · exact hdefines.ofOperation file hfile o ho name (hdefines.ofData file hfile o ho name hname)

/-- A member of a list's second part has the first part before it. -/
theorem prefix_of_append_eq {α : Type} {first second before after : List α} {x : α}
    (h : first ++ second = before ++ x :: after) (hx : x ∉ first) : first <+: before := by
  rcases List.append_eq_append_iff.mp h with ⟨rest, hbefore, -⟩ | ⟨rest, hfirst, hrest⟩
  · exact ⟨rest, hbefore.symm⟩
  · cases rest with
    | nil => simp [hfirst]
    | cons y rest =>
      obtain ⟨rfl, -⟩ := List.cons.inj hrest
      exact absurd (by simp [hfirst]) hx

/-- Input objects and fragments declare no operation. -/
theorem Module.operation_not_mem (inputTypes : List Node) (files : List FileBindings)
    (name : String) (kind : OperationKind) (input data : String) (document : Template) :
    .operation name kind input data document ∉ Node.typeDeclarationsOf .input inputTypes ++
      files.flatMap fun file => file.fragments.flatMap FragmentBinding.moduleDeclarations := by
  rw [List.mem_append, mem_typeDeclarationsOf]
  rintro (⟨n, -, hd⟩ | hd)
  · obtain ⟨_, _, hd⟩ := n.exists_type_of_mem .input hd
    simp at hd
  · obtain ⟨file, -, hd⟩ := List.mem_flatMap.mp hd
    obtain ⟨f, -, hd⟩ := List.mem_flatMap.mp hd
    rw [moduleDeclarations_fragment, List.mem_append, List.mem_singleton] at hd
    rcases hd with hd | hd
    · obtain ⟨_, _, hd⟩ := f.shape.exists_type_of_mem .output hd
      simp at hd
    · simp at hd

/-- The constants of all fragments stand before every operation. -/
theorem Module.exists_constant (hdefines : b.DefinesFragments) {before after : List Declaration}
    {d : Declaration} (h : (ofBindings config b).declarations = before ++ d :: after) {f : String}
    (hf : f ∈ d.substitutions) : ∃ document, .fragment f document ∈ before := by
  have hd : d ∈ (ofBindings config b).declarations := by simp [h]
  rcases mem_declarations_iff.mp hd with
    ⟨p, hp, hd⟩ | ⟨file, hfile, g, hg, rfl⟩ | ⟨file, hfile, o, ho, rfl⟩
  · obtain ⟨_, _, rfl⟩ := p.2.exists_type_of_mem p.1 hd
    simp [Declaration.substitutions] at hf
  · simp [Declaration.substitutions] at hf
  · have hname := hdefines.ofOperation file hfile o ho f hf
    obtain ⟨file', hfile', g, hg, rfl⟩ := FileBindings.mem_fragmentNames.mp hname
    refine ⟨⟨g.source, []⟩, ?_⟩
    rw [declarations_ofBindings] at h
    refine (prefix_of_append_eq h (operation_not_mem _ _ _ _ _ _ _)).subset ?_
    refine List.mem_append_right _ (List.mem_flatMap.mpr ⟨file', hfile', ?_⟩)
    refine List.mem_flatMap.mpr ⟨g, hg, ?_⟩
    rw [moduleDeclarations_fragment]
    exact List.mem_append_right _ (List.mem_singleton_self _)

/-- Every kind of operation is made by a function of the module, if subscriptions are enabled where
there are any. -/
theorem Module.exists_definer (m : Module) {kind : OperationKind} {f : String}
    (hf : kind.MadeBy f) (h : kind = .subscription → m.subscriptions = true) :
    ∃ g ∈ m.definitions, g.Defines f := by
  have hruntime : ∀ f ∈ ["defineQuery", "defineMutation"], ∃ g ∈ Boilerplate.runtime,
      g.Defines f := by
    decide
  have hsubscription : ∃ g ∈ Boilerplate.subscriptionRuntime, g.Defines "defineSubscription" := by
    decide
  cases hf with
  | query =>
    obtain ⟨g, hg, hdefines⟩ := hruntime "defineQuery" (by simp)
    exact ⟨g, List.mem_append_left _ hg, hdefines⟩
  | mutation =>
    obtain ⟨g, hg, hdefines⟩ := hruntime "defineMutation" (by simp)
    exact ⟨g, List.mem_append_left _ hg, hdefines⟩
  | subscription =>
    obtain ⟨g, hg, hdefines⟩ := hsubscription
    rw [definitions, h rfl]
    exact ⟨g, List.mem_append_right _ hg, hdefines⟩

end

/-! ### Lines -/

theorem FixedDefinition.endsLine_linesText (lines : List String) :
    EndsLine (linesText lines) := by
  refine Text.endsLine_join fun t ht => ?_
  obtain ⟨line, -, rfl⟩ := List.mem_map.mp ht
  exact Or.inr ⟨line, rfl⟩

theorem FixedDefinition.endsLine_text {g : FixedDefinition} (h : g.rest ≠ []) :
    EndsLine g.text := by
  obtain ⟨line, rest, hrest⟩ := List.exists_cons_of_ne_nil h
  have htext : g.text = linesText g.lead ++ g.keyword.text ++ " " ++ g.name ++ line ++ "\n" ++
      linesText rest := by
    simp [text, hrest, linesText, String.append_assoc]
  rw [htext]
  exact EndsLine.append (Or.inr ⟨_, rfl⟩) (endsLine_linesText rest)

/-- A function's definition stands on a line of its own. -/
theorem FixedDefinition.Defines.hasLine {g : FixedDefinition} {f : String} (h : g.Defines f) :
    HasLine g.text ("function " ++ f ++ "<V, D>(") := by
  obtain ⟨hkeyword, rfl, more, hmore⟩ := h
  cases hrest : g.rest with
  | nil => simp [hrest] at hmore
  | cons line rest =>
    have hline : line = "<V, D>(" ++ String.ofList more := by
      apply String.toList_injective
      simpa [hrest] using hmore.symm
    have htext : g.text = linesText g.lead ++ ("function " ++ g.name ++ "<V, D>(") ++
        (String.ofList more ++ "\n" ++ linesText rest) := by
      simp [text, hkeyword, hrest, hline, Keyword.text, linesText, String.append_assoc]
    exact ⟨_, _, htext, endsLine_linesText g.lead⟩

namespace Boilerplate

/-- Definitions with lines of their own make a text of lines. -/
theorem endsLine_definitionsText {definitions : List FixedDefinition}
    (hlines : definitions.all (fun g => !g.rest.isEmpty) = true) :
    EndsLine (definitionsText definitions) := by
  refine Text.endsLine_join fun t ht => ?_
  obtain ⟨d, hd, rfl⟩ := List.mem_map.mp ht
  exact FixedDefinition.endsLine_text (by simpa using List.all_eq_true.mp hlines d hd)

/-- A line of a definition is a line of the text around it. -/
theorem hasLine_definitionsText {definitions : List FixedDefinition} {g : FixedDefinition}
    {start : String} (hlines : definitions.all (fun g => !g.rest.isEmpty) = true)
    (hg : g ∈ definitions) (h : HasLine g.text start) :
    HasLine (definitionsText definitions) start := by
  obtain ⟨before, after, rfl⟩ := List.append_of_mem hg
  rw [List.all_append, Bool.and_eq_true] at hlines
  have hsplit : definitionsText (before ++ g :: after) =
      definitionsText before ++ (g.text ++ definitionsText after) := by
    simp [definitionsText]
  rw [hsplit]
  exact (h.before _).behind (endsLine_definitionsText hlines.1)

end Boilerplate

namespace Module

/-- A function's definition starts a line of the closing text. -/
theorem hasLine_closing (m : Module) {g : FixedDefinition} (hg : g ∈ m.definitions) {f : String}
    (hf : g.Defines f) : HasLine m.closing ("function " ++ f ++ "<V, D>(") := by
  have hblank : EndsLine "\n" := Or.inr ⟨"", rfl⟩
  rcases List.mem_append.mp hg with hg | hg
  · exact ((Boilerplate.hasLine_definitionsText rfl hg hf.hasLine).behind hblank).before _
  · by_cases hm : m.subscriptions = true
    · rw [if_pos hm] at hg
      rw [closing, if_pos hm]
      have hlast := (Boilerplate.hasLine_definitionsText rfl hg hf.hasLine).behind hblank
      exact hlast.behind (hblank.append (Boilerplate.endsLine_definitionsText rfl))
    · rw [if_neg hm] at hg
      simp at hg

/-- A declared type starts a line of the body. -/
theorem hasLine_body (m : Module) {name : String} (h : name ∈ m.declaredTypes) :
    HasLine m.body ("export type " ++ name ++ " = ") := by
  obtain ⟨d, hd, hname⟩ := List.mem_filterMap.mp h
  refine m.holds_body.hasLine (fun _ _ => Piece.endsLine) hd fun t ht => ?_
  cases ht with
  | declaration hspelled =>
    cases hspelled with
    | type =>
      obtain rfl := Option.some.inj hname
      exact ⟨_, String.append_assoc⟩
    | operation => simp [Declaration.typeName?] at hname
    | fragment => simp [Declaration.typeName?] at hname

/-- What is closed is closed in its text. -/
theorem Closed.closedText {m : Module} (h : m.Closed) : m.ClosedText where
  types d hd name hname := m.hasLine_body (h.types d hd name hname)
  constants := by
    intro before d after hsplit f hf
    obtain ⟨document, hdocument⟩ := h.constants before d after hsplit f hf
    obtain ⟨s, rest, hbody, hs, hrest⟩ := (hsplit ▸ m.holds_body).split
    obtain ⟨blank, t, u, rfl, -, ht⟩ := hrest.first
    cases ht with
    | declaration ht =>
      have hline : HasLine s ("const " ++ ("_gql_" ++ f) ++ " = ") := by
        refine hs.hasLine (fun _ _ => Piece.endsLine) hdocument fun v hv => ?_
        cases hv with
        | declaration hv =>
          cases hv with
          | fragment => exact ⟨_, String.append_assoc⟩
      exact ⟨s ++ blank, t, u, by rw [hbody]; simp [String.append_assoc], ht, hline.before blank⟩
  definers name kind input data document hd f hf := by
    obtain ⟨g, hg, hdefines⟩ := h.definers name kind input data document hd f hf
    exact m.hasLine_closing hg hdefines

end Module

/-! ### Runs -/

/-- A leaf that stands for an input object: that of a variable, or that of a field of an input
object that is declared itself. -/
inductive Bindings.NamesInput (schema : Schema) (documents : List Document) (b : Bindings) :
    (declaration : String) → FieldedType → Prop
  | ofVariable {o : OperationDefinition} {operation : String} {v : VariableDefinition}
      {i : FieldedType} (ho : .operation o ∈ Document.allDefinitions documents)
      (hname : o.name? = some operation) (hv : v ∈ o.parameters)
      (hi : schema.inputObject? v.declared.baseName = some i) :
      NamesInput schema documents b (declarationName [operation, "variables"] v.name) i
  | ofField {t : FieldedType} {f : Field} {i : FieldedType}
      (ht : schema.inputObject? t.name = some t) (hdeclared : ∃ n ∈ b.inputTypes, n.name = t.name)
      (hf : f ∈ t.fields) (hi : schema.inputObject? f.type.baseName = some i) :
      NamesInput schema documents b (declarationName [t.name] f.name) i

section

variable {schema : Schema} {config : Config} {documents : List Document}
  {extracted : List ExtractedFile} {b : Bindings}

theorem Node.typeDeclarations_leaf_mem (direction : Direction) {h : NodeHead} {fields : List Node}
    {h' : NodeHead} {text : String} (hn : leaf h' text ∈ fields) :
    .type (declarationName h'.path h'.name) (.leaf text) ∈
      (object h fields).typeDeclarations direction := by
  rw [typeDeclarations]
  refine List.mem_cons_of_mem _ (mem_typeDeclarationsOf.mpr ⟨_, hn, ?_⟩)
  rw [typeDeclarations]
  exact List.mem_singleton_self _

/-- An input object that is named is declared, and the leaf is its name. -/
theorem Bindings.AssembledFrom.declares_of_namesInput
    (h : b.AssembledFrom schema config documents extracted)
    (hmade : b.MadeOf schema config documents extracted) {declaration : String} {i : FieldedType}
    (hi : b.NamesInput schema documents declaration i) :
    .type declaration (.leaf i.name) ∈ (Module.ofBindings config b).declarations ∧
      i.name ∈ (Module.ofBindings config b).declaredTypes := by
  have hdeclared : ∀ name, (∃ n ∈ b.inputTypes, n.name = name) →
      name ∈ (Module.ofBindings config b).declaredTypes := by
    rintro name ⟨n, hn, rfl⟩
    exact Module.mem_declaredTypes_of_mem_inputTypes config h.inputTypes hn
  cases hi with
  | @ofVariable o operation v i ho hname hv hi =>
    refine ⟨?_, hdeclared _ (h.exists_declaration_of_variable ho hv hi)⟩
    obtain ⟨file, hfile, path, ⟨g, f, hg, -⟩ | ⟨o', linked, ho', hlinked, hof⟩⟩ :=
      hmade.exists_binding ho
    · simp at hg
    · obtain rfl := Definition.operation.inj ho'
      obtain ⟨parameters, hparameters, hinput⟩ := hof.input
      obtain rfl : operation = linked.name := Option.some.inj (hname.symm.trans hof.name)
      have hp := Except.mem_of_mapM_eq_ok hparameters hv (Scope.variableNode_of_inputObject hi)
      have hshape := Bindings.mem_shapes_iff.mpr
        (Or.inr (Or.inr ⟨file, hfile, linked, hlinked, Or.inl rfl⟩))
      apply mem_declarations_of_mem_shapes config hshape
      rw [hinput]
      exact Node.typeDeclarations_leaf_mem .input (List.mem_map_of_mem (f := Prod.fst) hp)
  | @ofField t f i ht hn hf hi =>
    refine ⟨?_, hdeclared _ (InputRequest.exists_declaration_of_field h.inputTypes ht hn hf hi)⟩
    obtain ⟨fields, hfields, hn⟩ := InputRequest.exists_fields_of_declared h.inputTypes ht hn
    have hp := Except.mem_of_mapM_eq_ok hfields hf (FieldedType.inputField_of_inputObject hi)
    have hshape := Bindings.mem_shapes_iff.mpr (Or.inl ⟨_, hn, rfl⟩)
    apply mem_declarations_of_mem_shapes config hshape
    exact Node.typeDeclarations_leaf_mem .input (List.mem_map_of_mem (f := Prod.fst) hp)

/-- The types that declarations refer to are declared. -/
theorem Bindings.MadeOf.mem_declaredTypes_of_mem_references
    (h : b.MadeOf schema config documents extracted) (hdefines : b.DefinesFragments)
    {d : Declaration} (hd : d ∈ (Module.ofBindings config b).declarations) {name : String}
    (hname : name ∈ d.references) : name ∈ (Module.ofBindings config b).declaredTypes := by
  rcases Module.mem_declarations_iff.mp hd with
    ⟨p, hp, hd⟩ | ⟨file, hfile, f, hf, rfl⟩ | ⟨file, hfile, o, ho, rfl⟩
  · rcases p.2.mem_of_mem_references p.1 hd hname with hname | hname
    · exact Module.mem_declaredTypes_iff.mpr ⟨p, hp, hname⟩
    · exact Module.mem_declaredTypes_of_mem_fragmentNames config
        (h.mem_fragmentNames hdefines hp hname)
  · simp [Declaration.references] at hname
  · have hshapes : ∀ p, p = (.input, o.input) ∨ p = (.output, o.data) → p ∈ b.shapes :=
      fun p hp => mem_shapes_iff.mpr (Or.inr (Or.inr ⟨file, hfile, o, ho, hp⟩))
    rcases List.mem_cons.mp hname with rfl | hname
    · exact Module.mem_declaredTypes_iff.mpr
        ⟨_, hshapes _ (Or.inl rfl), o.input.declaration_mem_declarations⟩
    · rw [List.mem_singleton.mp hname]
      exact Module.mem_declaredTypes_iff.mpr
        ⟨_, hshapes _ (Or.inr rfl), o.data.declaration_mem_declarations⟩

/-- A module has subscriptions only if they are enabled. -/
theorem Bindings.MadeOf.enabled_of_subscription (h : b.MadeOf schema config documents extracted)
    {name input data : String} {kind : OperationKind} {document : Template}
    (hd : .operation name kind input data document ∈ (Module.ofBindings config b).declarations)
    (hkind : kind = .subscription) : (Module.ofBindings config b).subscriptions = true := by
  rcases Module.mem_declarations_iff.mp hd with
    ⟨p, hp, hd⟩ | ⟨file, hfile, g, hg, hd⟩ | ⟨file, hfile, o, ho, hd⟩
  · obtain ⟨_, _, hd⟩ := p.2.exists_type_of_mem p.1 hd
    simp at hd
  · simp at hd
  · obtain ⟨definition, -, path, hof⟩ := h.exists_of_mem_operations hfile ho
    obtain ⟨-, rfl, -⟩ := Declaration.operation.inj hd
    rw [hof.kind] at hkind
    exact hof.enabled hkind

/-- The module of a run has what it refers to. -/
theorem Bindings.MadeOf.closed (h : b.MadeOf schema config documents extracted)
    (hdefines : b.DefinesFragments) : (Module.ofBindings config b).Closed where
  types _ hd _ hname := h.mem_declaredTypes_of_mem_references hdefines hd hname
  constants _ _ _ hsplit _ hf := Module.exists_constant hdefines hsplit hf
  definers _ _ _ _ _ hd _ hf := Module.exists_definer _ hf (h.enabled_of_subscription hd)

end

/-- The module of a run is closed under its references, and the input objects that its leaves stand
for are declared in it. Its body is made of its declarations, each as it is spelled, and so its text
is closed in the same way. -/
theorem Bindings.closed_of_generate {schema : Schema} {config : Config}
    {documents : List Document} {b : Bindings} (h : generate schema config documents = .ok b) :
    (Module.ofBindings config b).Closed ∧
    (∀ declaration i, b.NamesInput schema documents declaration i →
      .type declaration (.leaf i.name) ∈ (Module.ofBindings config b).declarations ∧
        i.name ∈ (Module.ofBindings config b).declaredTypes ∧
        HasLine (Module.ofBindings config b).body ("export type " ++ i.name ++ " = ")) ∧
    (Module.ofBindings config b).text = (Module.ofBindings config b).opening ++
      (Module.ofBindings config b).body ++ (Module.ofBindings config b).closing ∧
    Holds (Module.ofBindings config b).Piece (Module.ofBindings config b).body
      (Module.ofBindings config b).declarations ∧
    (Module.ofBindings config b).ClosedText := by
  obtain ⟨hnodup, extracted, hassembled⟩ := exists_assembledFrom h
  have hmade := hassembled.madeOf hnodup
  have hclosed := hmade.closed hassembled.definesFragments
  refine ⟨hclosed, ?_, rfl, Module.holds_body _, hclosed.closedText⟩
  intro declaration i hi
  obtain ⟨hleaf, hdeclared⟩ := hassembled.declares_of_namesInput hmade hi
  exact ⟨hleaf, hdeclared, Module.hasLine_body _ hdeclared⟩

/-- The sample schema with a filter that holds another filter, and with subscriptions. -/
def Schema.filterSchema : Schema :=
  { sampleSchema with
    subscription := some "Query"
    types := sampleSchema.types ++
      [.inputObject (sampleObject "Filter" [("name", "String"), ("not", "Filter")])] }

def filterVariable : VariableDefinition := ⟨.start, "filter", .named "Filter", none⟩

/-- A subscription to pets, which takes a filter and spreads a fragment of another document. -/
def filteringDocuments : List Document :=
  let name : Selection := .field .start none "name" [] [] []
  let pet : Selection := .field .start none "pet" [] [] [.spread .start "F" []]
  [⟨"pets", "", [.operation ⟨.start, .subscription, some "Q", [filterVariable], [], [pet]⟩]⟩,
    ⟨"fragments", "", [.fragment ⟨.start, "F", "Cat", [], [name]⟩]⟩]

theorem Bindings.closed_of_generate_sample :
    ∃ b, generate .filterSchema ⟨none, [], true⟩ filteringDocuments = .ok b ∧
      (Module.ofBindings ⟨none, [], true⟩ b).Closed ∧
      HasLine (Module.ofBindings ⟨none, [], true⟩ b).body "export type Filter = " := by
  have hsome :
      (generate .filterSchema ⟨none, [], true⟩ filteringDocuments).toOption.isSome := by
    decide +kernel
  obtain ⟨b, hb⟩ := Option.isSome_iff_exists.mp hsome
  have h := Except.toOption_eq_some.mp hb
  obtain ⟨hclosed, hinputs, -⟩ := closed_of_generate h
  have hvariable : b.NamesInput .filterSchema filteringDocuments
      (declarationName ["Q", "variables"] filterVariable.name)
      (Schema.sampleObject "Filter" [("name", "String"), ("not", "Filter")]) :=
    .ofVariable (v := filterVariable) (List.mem_cons_self ..) rfl (List.mem_singleton_self _) rfl
  obtain ⟨-, -, hline⟩ := hinputs _ _ hvariable
  exact ⟨b, h, hclosed, hline⟩

end QueryBindings
