import QueryBindings.Proofs.Bindings.Inputs
import QueryBindings.Proofs.Search.Distance
import QueryBindings.Proofs.Shape.LeafText
/-!
Which input types are declared, and in which order.

The types that are reached from the requested ones, by way of fields whose types are input objects,
are declared level by level. There is an answer if and only if all of them are input objects whose
fields have types that input can have. The declarations don't depend on the order of the requests,
but their order does.
-/
namespace QueryBindings

namespace SchemaType

/-- The types that input can have: scalars, enums and input objects. -/
def IsInput : SchemaType → Prop
  | builtin _ => True
  | scalar _ _ => True
  | enum _ => True
  | inputObject _ => True
  | object _ => False
  | interface _ => False
  | union _ => False

/-- The text of input: that of a scalar or an enum, and an input object's name. -/
inductive InputText (config : Config) : SchemaType → String → Prop
  | leaf {t : SchemaType} {text : String} (h : t.LeafText config text) : InputText config t text
  | inputObject (i : FieldedType) : InputText config (.inputObject i) i.name

/-- The request that a type makes when a leaf at some place has it. -/
def request? (location : Location) : SchemaType → Option InputRequest
  | inputObject i => some ⟨i.name, location⟩
  | _ => none

theorem inputText_inputObject_iff {config : Config} {i : FieldedType} {text : String} :
    (inputObject i).InputText config text ↔ text = i.name := by
  constructor
  · rintro (h | -)
    · cases h
    · rfl
  · rintro rfl
    exact .inputObject i

/-- The input text of a type other than an input object is its leaf's. -/
theorem inputText_iff_leafType? {config : Config} {t : SchemaType} {text : String}
    (ht : ∀ i, t ≠ inputObject i) : t.InputText config text ↔ t.leafType? config = some text := by
  rw [← leafText_iff]
  constructor
  · rintro (h | i)
    · exact h
    · exact absurd rfl (ht i)
  · exact .leaf

/-- A type can be input if and only if it has an input text. -/
theorem isInput_iff (config : Config) (t : SchemaType) :
    t.IsInput ↔ ∃ text, t.InputText config text := by
  cases t with
  | inputObject i => simp [IsInput, inputText_inputObject_iff]
  | builtin | scalar | enum | object | interface | union =>
    simp [IsInput, inputText_iff_leafType?, leafType?]

/-- A type has a leaf if and only if it has an input text, which is then the leaf's. -/
theorem inputLeaf_eq_ok_iff {config : Config} {use : TypeUse} {location : Location}
    {t : SchemaType} {leaf : InputLeaf} : t.inputLeaf config use location = .ok leaf ↔
      t.InputText config leaf.type ∧ leaf.request? = t.request? location := by
  obtain ⟨text, request?⟩ := leaf
  cases t with
  | inputObject i =>
    simp [inputLeaf, inputText_inputObject_iff, SchemaType.request?, eq_comm]
  | builtin | scalar | enum | object | interface | union =>
    simp [inputLeaf, inputText_iff_leafType?, leafType?, SchemaType.request?, eq_comm]

/-- No type has two input texts. -/
theorem InputText.unique {config : Config} {t : SchemaType} {text text' : String}
    (h : t.InputText config text) (h' : t.InputText config text') : text = text' := by
  cases h with
  | inputObject i => exact (inputText_inputObject_iff.mp h').symm
  | leaf h =>
    cases h' with
    | leaf h' => exact h.unique h'
    | inputObject => cases h

end SchemaType

namespace Schema

/-- An input object all of whose fields have types that input can have. -/
def AcceptsInput (s : Schema) (name : String) : Prop :=
  ∃ i, s.inputObject? name = some i ∧
    ∀ f ∈ i.fields, ∃ t, s.find? f.type.baseName = some t ∧ t.IsInput

/-- The types that are reached from requested ones by way of fields that hold input objects. -/
inductive ReachesInput (s : Schema) (requested : List String) : String → Prop
  | requested {name : String} (h : name ∈ requested) : ReachesInput s requested name
  | field {name : String} {i j : FieldedType} {f : Field} (h : ReachesInput s requested name)
      (hi : s.inputObject? name = some i) (hf : f ∈ i.fields)
      (hj : s.inputObject? f.type.baseName = some j) : ReachesInput s requested j.name

def inputsBelow (s : Schema) (name : String) : List String :=
  match s.inputObject? name with
  | some i => i.fields.filterMap fun f => (s.inputObject? f.type.baseName).map (·.name)
  | none => []

/-- The leaf of an input field: the modifiers and the type text of the field's own type. -/
def IsInputLeaf (s : Schema) (config : Config) (path : List String) (f : Field) (n : Node) : Prop :=
  ∃ t text, s.find? f.type.baseName = some t ∧ t.InputText config text ∧
    n = .leaf ⟨f.name, path, f.type.modifiers, [], none⟩ text

/-- The declaration of an input object: an object without a path, and in it one leaf for each field.
-/
def IsInputDeclaration (s : Schema) (config : Config) (n : Node) : Prop :=
  ∃ i fields, s.inputObject? n.name = some i ∧ n = .object (.plain [] i.name) fields ∧
    List.Forall₂ (s.IsInputLeaf config [i.name]) i.fields fields

/-- The declarations of the input types that are reached from requested ones: one for each type, in
the order of a breadth-first search. -/
structure DeclaresInputs (s : Schema) (config : Config) (requested : List String)
    (nodes : List Node) : Prop where
  nodup : (nodes.map Node.name).Nodup
  mem_iff : ∀ name, name ∈ nodes.map Node.name ↔ s.ReachesInput requested name
  order : ∀ depth, s.types.length < depth →
    nodes.map Node.name = Names.union [] (Names.within s.inputsBelow depth requested)
  declaration : ∀ n ∈ nodes, s.IsInputDeclaration config n

/-- More types are reached from more requests. -/
theorem ReachesInput.mono {s : Schema} {requested requested' : List String}
    (h : ∀ name ∈ requested, name ∈ requested') {name : String} (hn : s.ReachesInput requested name) :
    s.ReachesInput requested' name := by
  induction hn with
  | requested hm => exact .requested (h _ hm)
  | field _ hi hf hj ih => exact ih.field hi hf hj

end Schema

/-! ### Fields -/

namespace FieldedType

variable {schema : Schema} {config : Config} {t : FieldedType}

/-- An input field has a node if and only if its type is found and can be input. -/
theorem inputField_eq_ok_iff {f : Field} {p : Node × Option InputRequest} :
    t.inputField schema config f = .ok p ↔ ∃ type text, schema.find? f.type.baseName = some type ∧
      type.InputText config text ∧
      p = (.leaf ⟨f.name, [t.name], f.type.modifiers, [], none⟩ text, type.request? f.location) := by
  unfold inputField Schema.inputLeaf
  cases ht : schema.find? f.type.baseName with
  | none => simp
  | some type =>
    simp only [Except.bind_eq_ok, SchemaType.inputLeaf_eq_ok_iff, Except.pure_eq_ok,
      Option.some.injEq]
    constructor
    · rintro ⟨leaf, ⟨htext, hrequest⟩, rfl⟩
      exact ⟨type, _, rfl, htext, by rw [hrequest]⟩
    · rintro ⟨_, text, rfl, htext, rfl⟩
      exact ⟨⟨text, type.request? f.location⟩, ⟨htext, rfl⟩, rfl⟩

/-- A field has a node if and only if its type is one that input can have. -/
theorem exists_inputField_iff {f : Field} : (∃ p, t.inputField schema config f = .ok p) ↔
    ∃ type, schema.find? f.type.baseName = some type ∧ type.IsInput := by
  simp only [inputField_eq_ok_iff, SchemaType.isInput_iff config]
  constructor
  · rintro ⟨p, type, text, ht, htext, -⟩
    exact ⟨type, ht, text, htext⟩
  · rintro ⟨type, ht, text, htext⟩
    exact ⟨_, type, text, ht, htext, rfl⟩

/-- A field requests the input object that it holds. -/
theorem map_type_of_inputField {f : Field} {p : Node × Option InputRequest}
    (h : t.inputField schema config f = .ok p) :
    p.2.map (·.type) = (schema.inputObject? f.type.baseName).map (·.name) := by
  obtain ⟨type, text, ht, -, rfl⟩ := inputField_eq_ok_iff.mp h
  unfold Schema.inputObject?
  rw [ht]
  cases type <;> rfl

theorem isInputLeaf_of_inputField {f : Field} {p : Node × Option InputRequest}
    (h : t.inputField schema config f = .ok p) : schema.IsInputLeaf config [t.name] f p.1 := by
  obtain ⟨type, text, ht, htext, rfl⟩ := inputField_eq_ok_iff.mp h
  exact ⟨type, text, ht, htext, rfl⟩

/-- The fields of an input object request the input objects below it. -/
theorem map_type_of_inputFields {fields : List (Node × Option InputRequest)} {l : List Field}
    (h : l.mapM (t.inputField schema config) = .ok fields) :
    (fields.filterMap (·.2)).map (·.type) =
      l.filterMap fun f => (schema.inputObject? f.type.baseName).map (·.name) := by
  rw [Except.mapM_eq_ok] at h
  rw [List.map_filterMap]
  induction h with
  | nil => rfl
  | cons hf _ ih => rw [List.filterMap_cons, List.filterMap_cons, map_type_of_inputField hf, ih]

end FieldedType

/-! ### The search -/

namespace InputRequest

variable {schema : Schema} {config : Config} {requests : List InputRequest} {nodes : List Node}

/-- The search for input types goes from an input object to those that its fields hold. -/
theorem followsBy_search (schema : Schema) (config : Config) :
    (search schema config).FollowsBy schema.inputsBelow := by
  intro r t result next hl he
  cases t with
  | inputObject i =>
    obtain ⟨fields, hfields, he⟩ := Except.bind_eq_ok.mp he
    have hnext : fields.filterMap (·.2) = next := congrArg Prod.snd (Except.pure_eq_ok.mp he)
    have hi : schema.inputObject? r.type = some i :=
      Schema.inputObject?_eq_some.mpr ((schema.lookup_types r.type).symm.trans hl)
    have hname : (search schema config).name r = r.type := rfl
    have hbelow : schema.inputsBelow r.type =
        i.fields.filterMap fun f => (schema.inputObject? f.type.baseName).map (·.name) := by
      simp only [Schema.inputsBelow, hi]
    rw [hname, hbelow, ← hnext]
    exact FieldedType.map_type_of_inputFields hfields
  | builtin | scalar | object | interface | union | enum => simp [search, expand] at he

/-- A request can be answered if it is for an input object whose fields are input. -/
theorem answerable_iff {r : InputRequest} :
    (search schema config).Answerable r ↔ schema.AcceptsInput r.type := by
  have hlookup : (search schema config).table.lookup r.type = schema.find? r.type :=
    schema.lookup_types r.type
  constructor
  · rintro ⟨t, answer, hl, he⟩
    cases t with
    | inputObject i =>
      obtain ⟨fields, hfields, -⟩ := Except.bind_eq_ok.mp he
      refine ⟨i, Schema.inputObject?_eq_some.mpr (hlookup.symm.trans hl), fun f hf => ?_⟩
      exact FieldedType.exists_inputField_iff.mp (Except.exists_mapM_iff.mp ⟨fields, hfields⟩ f hf)
    | builtin | scalar | object | interface | union | enum => simp [search, expand] at he
  · rintro ⟨i, hi, hfields⟩
    obtain ⟨fields, hfields⟩ := Except.exists_mapM_iff.mpr fun f hf =>
      FieldedType.exists_inputField_iff.mpr (hfields f hf)
    exact ⟨.inputObject i, _, hlookup.trans (Schema.inputObject?_eq_some.mp hi),
      expand_inputObject hfields⟩

theorem follows_iff {r r' : InputRequest} (h : (search schema config).Follows r r') :
    ∃ i f j, schema.inputObject? r.type = some i ∧ f ∈ i.fields ∧
      schema.inputObject? f.type.baseName = some j ∧ r'.type = j.name := by
  obtain ⟨t, result, next, hl, he, hr⟩ := h
  have hnext := followsBy_search schema config r t result next hl he
  have hm : r'.type ∈ schema.inputsBelow r.type := hnext ▸ List.mem_map_of_mem hr
  unfold Schema.inputsBelow at hm
  split at hm
  · rename_i i hi
    obtain ⟨f, hf, hj⟩ := List.mem_filterMap.mp hm
    obtain ⟨j, hj, hname⟩ := Option.map_eq_some_iff.mp hj
    exact ⟨i, f, j, hi, hf, hj, hname.symm⟩
  · simp at hm

/-- The search requests only what is reached in the schema. -/
theorem reachesInput_of_reached {r : InputRequest}
    (h : (search schema config).Reached requests r) :
    schema.ReachesInput (requests.map (·.type)) r.type := by
  induction h with
  | start hr => exact .requested (List.mem_map_of_mem hr)
  | step _ hf ih =>
    obtain ⟨i, f, j, hi, hf, hj, hname⟩ := follows_iff hf
    exact hname ▸ ih.field hi hf hj

/-- What is reached in the schema is declared. -/
theorem exists_declaration_of_reachesInput (h : declarations schema config requests = .ok nodes)
    {name : String} (hn : schema.ReachesInput (requests.map (·.type)) name) :
    ∃ n ∈ nodes, n.name = name := by
  induction hn with
  | requested hm =>
    obtain ⟨r, hr, rfl⟩ := List.mem_map.mp hm
    exact (exists_declaration_iff h _).mpr ⟨r, .start hr, rfl⟩
  | field _ hi hf hj ih =>
    have hname := Schema.name_of_inputObject? hi
    exact exists_declaration_of_field h (hname.symm ▸ hi) (hname.symm ▸ ih) hf hj

/-! ### Declarations -/

/-- There are declarations if and only if every type that is reached is one that can be declared. -/
theorem exists_declarations_iff : (∃ nodes, declarations schema config requests = .ok nodes) ↔
    ∀ name, schema.ReachesInput (requests.map (·.type)) name → schema.AcceptsInput name := by
  have hrun : (∃ nodes, declarations schema config requests = .ok nodes) ↔
      ∃ found, (search schema config).run requests = .ok found := by
    constructor
    · rintro ⟨nodes, h⟩
      obtain ⟨found, hfound, -⟩ := Except.bind_eq_ok.mp h
      exact ⟨found, hfound⟩
    · rintro ⟨found, hfound⟩
      exact ⟨_, Except.bind_eq_ok.mpr ⟨found, hfound, rfl⟩⟩
  have hreached : (∃ found, (search schema config).run requests = .ok found) ↔
      ∀ r, (search schema config).Reached requests r → (search schema config).Answerable r :=
    Search.exists_run_iff (byName_search schema config)
  constructor
  · rintro ⟨nodes, h⟩ name hname
    obtain ⟨n, hn, rfl⟩ := exists_declaration_of_reachesInput h hname
    obtain ⟨r, hr, hrname⟩ := (exists_declaration_iff h n.name).mp ⟨n, hn, rfl⟩
    exact hrname ▸ answerable_iff.mp (hreached.mp (hrun.mp ⟨nodes, h⟩) r hr)
  · intro h
    refine hrun.mpr (hreached.mpr fun r hr => ?_)
    exact answerable_iff.mpr (h r.type (reachesInput_of_reached hr))

/-- The declarations of requested types are those of all types that they reach. -/
theorem declaresInputs (h : declarations schema config requests = .ok nodes) :
    schema.DeclaresInputs config (requests.map (·.type)) nodes := by
  obtain ⟨found, hfound, hnodes⟩ := Except.bind_eq_ok.mp h
  have hnodes := Except.pure_eq_ok.mp hnodes
  have hanswered := Search.answered_of_run hfound
  have hname : ∀ p ∈ found, p.2.name = p.1 := by
    intro p hp
    obtain ⟨i, fields, hi, -, hnode⟩ := answered_iff.mp (hanswered p hp)
    rw [hnode]
    exact Schema.name_of_inputObject? hi
  have hnames : nodes.map Node.name = Search.names found := by
    rw [← hnodes, List.map_map, Search.names]
    exact List.map_congr_left hname
  constructor
  case nodup =>
    rw [hnames]
    exact (Search.run_eq_ok (byName_search schema config) hfound).1
  case mem_iff =>
    intro name
    rw [List.mem_map]
    refine ⟨fun hn => ?_, exists_declaration_of_reachesInput h⟩
    obtain ⟨r, hr, rfl⟩ := (exists_declaration_iff h name).mp hn
    exact reachesInput_of_reached hr
  case order =>
    intro depth hdepth
    rw [hnames]
    refine Search.names_run (followsBy_search schema config) hfound ?_
    simpa [search] using hdepth
  case declaration =>
    intro n hn
    obtain ⟨i, fields, hi, hfields, rfl⟩ := exists_inputObject h hn
    refine ⟨i, _, hi, rfl, ?_⟩
    rw [List.forall₂_map_right_iff]
    exact (Except.mapM_eq_ok.mp hfields).imp fun f p hf => FieldedType.isInputLeaf_of_inputField hf

/-- A type has one declaration. -/
theorem eq_of_isInputDeclaration {n n' : Node} (h : schema.IsInputDeclaration config n)
    (h' : schema.IsInputDeclaration config n') (hname : n.name = n'.name) : n = n' := by
  obtain ⟨i, fields, hi, hn, hfields⟩ := h
  obtain ⟨i', fields', hi', hn', hfields'⟩ := h'
  rw [hname, hi', Option.some.injEq] at hi
  subst hi
  have hunique : Relator.RightUnique (schema.IsInputLeaf config [i'.name]) := by
    rintro f c c' ⟨t, text, ht, htext, rfl⟩ ⟨t', text', ht', htext', rfl⟩
    obtain rfl := Option.some.inj (ht.symm.trans ht')
    rw [htext.unique htext']
  rw [hn, hn', List.right_unique_forall₂' hunique hfields hfields']

/-- Where more types are reached, what is declared for fewer is declared as well. -/
theorem mem_of_declares {requested requested' : List String} {nodes' : List Node}
    (h : schema.DeclaresInputs config requested nodes)
    (h' : schema.DeclaresInputs config requested' nodes')
    (hr : ∀ name, schema.ReachesInput requested name → schema.ReachesInput requested' name) {n : Node}
    (hn : n ∈ nodes) : n ∈ nodes' := by
  have hreached := (h.mem_iff n.name).mp (List.mem_map_of_mem hn)
  obtain ⟨n', hn', hname⟩ := List.mem_map.mp ((h'.mem_iff n.name).mpr (hr _ hreached))
  rwa [eq_of_isInputDeclaration (h.declaration n hn) (h'.declaration n' hn') hname.symm]

/-- The declarations don't depend on the order of the requests, nor on how often they are made. -/
theorem exists_perm_declarations (h : declarations schema config requests = .ok nodes)
    {requests' : List InputRequest}
    (hr : ∀ name, name ∈ requests'.map (·.type) ↔ name ∈ requests.map (·.type)) :
    ∃ nodes', declarations schema config requests' = .ok nodes' ∧ nodes'.Perm nodes := by
  have hreach : ∀ name, schema.ReachesInput (requests'.map (·.type)) name ↔
      schema.ReachesInput (requests.map (·.type)) name := by
    intro name
    constructor
    · exact fun hn => hn.mono fun m => (hr m).mp
    · exact fun hn => hn.mono fun m => (hr m).mpr
  obtain ⟨nodes', h'⟩ := exists_declarations_iff.mpr fun name hname =>
    exists_declarations_iff.mp ⟨nodes, h⟩ name ((hreach name).mp hname)
  refine ⟨nodes', h', ?_⟩
  have hd := declaresInputs h
  have hd' := declaresInputs h'
  refine (List.perm_ext_iff_of_nodup hd'.nodup.of_map hd.nodup.of_map).mpr fun n => ?_
  constructor
  · intro hn
    exact mem_of_declares hd' hd (fun name => (hreach name).mp) hn
  · intro hn
    exact mem_of_declares hd hd' (fun name => (hreach name).mpr) hn

/-- The loop that looks up requested types comes to its end, whatever is requested. It succeeds if
and only if every type that is reached from the requested ones is an input object whose fields have
types that input can have. It then declares those types and no others, each once and in the order of
a breadth-first search, and the same declarations answer the requests in any other order and number.
-/
theorem declares_reached_inputs (schema : Schema) (config : Config)
    (requests : List InputRequest) :
    (∃ r, (search schema config).Ends [] requests r ∧
      declarations schema config requests = r.map fun found => found.map (·.2)) ∧
    ((∃ nodes, declarations schema config requests = .ok nodes) ↔
      ∀ name, schema.ReachesInput (requests.map (·.type)) name → schema.AcceptsInput name) ∧
    ∀ nodes, declarations schema config requests = .ok nodes →
      schema.DeclaresInputs config (requests.map (·.type)) nodes ∧
      ∀ requests' : List InputRequest,
        (∀ name, name ∈ requests'.map (·.type) ↔ name ∈ requests.map (·.type)) →
        ∃ nodes', declarations schema config requests' = .ok nodes' ∧ nodes'.Perm nodes := by
  refine ⟨⟨_, Search.ends_iff.mpr rfl, ?_⟩, exists_declarations_iff,
    fun nodes h => ⟨declaresInputs h, fun requests' hr => exists_perm_declarations h hr⟩⟩
  rw [declarations]
  cases (search schema config).run requests <;> rfl

end InputRequest

def Schema.sampleInputs : Schema :=
  let place : Location := ⟨none, 1, 1⟩
  let input (name : String) (fields : List (String × String)) : SchemaType :=
    .inputObject ⟨name, place, fields.map fun f => ⟨f.1, .at place, .named f.2 true, place⟩⟩
  ⟨"Query", none, none, [.builtin .int, input "Filter" [("not", "Filter"), ("page", "Page")],
    input "Page" [("size", "Int")], input "Order" [("then", "Order"), ("within", "Filter")]]⟩

theorem InputRequest.declares_reached_inputs_sample :
    let requests : List InputRequest := [⟨"Order", ⟨none, 1, 1⟩⟩, ⟨"Order", ⟨none, 2, 1⟩⟩]
    ∃ nodes, declarations Schema.sampleInputs .default requests = .ok nodes ∧
      nodes.map Node.name = ["Order", "Filter", "Page"] ∧
      Schema.sampleInputs.DeclaresInputs .default (requests.map (·.type)) nodes := by
  intro requests
  have hsome : (declarations Schema.sampleInputs .default requests).toOption.map
      (·.map Node.name) = some ["Order", "Filter", "Page"] := by
    decide +kernel
  obtain ⟨nodes, hnodes, hnames⟩ := Option.map_eq_some_iff.mp hsome
  have h := Except.toOption_eq_some.mp hnodes
  exact ⟨nodes, h, hnames, ((declares_reached_inputs _ _ _).2.2 nodes h).1⟩

end QueryBindings
