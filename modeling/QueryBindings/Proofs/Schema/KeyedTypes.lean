import QueryBindings.Proofs.Lookup
import QueryBindings.Proofs.Schema.Contents
/-!
Types whose fields, values and members are in maps.

A map has keys apart from the items under them, and nothing in it says that a key is the name of its
item. What is written is put under the name that is written, so looking up a key comes to finding the
item of that name, and types with and without keys take the same definitions and extensions.
-/
namespace QueryBindings

open TypeSystem (TypeSyntax FieldSyntax EnumValueSyntax)

/-- A map whose entries are in the order in which their keys came. -/
abbrev KeyedList (α : Type) := List (String × α)

namespace KeyedList

variable {α β ε : Type}

/-- Puts an item in the place of the one with the same key, or else behind all others. -/
def insert (m : KeyedList α) (key : String) (x : α) : KeyedList α :=
  if (m.lookup key).isSome then m.map fun p => if p.1 = key then (p.1, x) else p
  else m ++ [(key, x)]

/-- Puts items under their keys, up to the first whose key is taken. -/
def addAll (key : β → String) (item : β → α) (taken : β → ε) (m : KeyedList α) :
    List β → Except ε (KeyedList α)
  | [] => .ok m
  | x :: rest =>
    if (m.lookup (key x)).isSome then .error (taken x)
    else addAll key item taken (insert m (key x) (item x)) rest

/-- Every item is under its own name. -/
def Named (name : α → String) (m : KeyedList α) : Prop := ∀ p ∈ m, p.1 = name p.2

variable {name : α → String} {m m' : KeyedList α} {key : String} {x : α}

theorem insert_of_lookup_eq_none (h : m.lookup key = none) :
    insert m key x = m ++ [(key, x)] := by
  simp [insert, h]

theorem contains_keys (m : KeyedList α) (key : String) :
    (m.map (·.1)).contains key = (m.lookup key).isSome := by
  induction m with
  | nil => rfl
  | cons p m ih =>
    rw [List.map_cons, List.contains_cons, List.lookup_cons, ih]
    cases key == p.1 <;> rfl

/-- To look up a key is to find the item of that name. -/
theorem lookup_of_named (h : Named name m) :
    m.lookup key = (m.map (·.2)).find? (name · == key) := by
  induction m with
  | nil => rfl
  | cons p m ih =>
    obtain ⟨hp, hm⟩ := List.forall_mem_cons.mp h
    rw [List.map_cons, List.find?_cons, List.lookup_cons, ← hp, ih hm]
    by_cases hkey : key = p.1
    · simp [hkey]
    · simp [beq_false_of_ne hkey, beq_false_of_ne (Ne.symm hkey)]

theorem Named.insert (h : Named name m) (hx : key = name x) : Named name (insert m key x) := by
  unfold KeyedList.insert
  split
  · intro q hq
    obtain ⟨p, hp, rfl⟩ := List.mem_map.mp hq
    split
    · rename_i hkey
      exact hkey.trans hx
    · exact h p hp
  · exact List.forall_mem_append.mpr ⟨h, by simpa using hx⟩

/-- What is put in one after the other stands behind the rest, under its own name. -/
theorem Named.addAll {key : β → String} {item : β → α} {taken : β → ε} {l : List β}
    (h : Named name m) (hitem : ∀ x, key x = name (item x))
    (hm : addAll key item taken m l = .ok m') : Named name m' := by
  induction l generalizing m with
  | nil =>
    obtain rfl := Except.ok.inj hm
    exact h
  | cons x l ih =>
    rw [KeyedList.addAll] at hm
    split at hm
    · simp at hm
    · exact ih (h.insert (hitem x)) hm

end KeyedList

/-- A type whose fields, values or members are in a map. Of a member nothing is known but where it is
listed. -/
inductive KeyedType
  | builtin (b : Builtin)
  | scalar (name : String) (location : Location)
  | object (name : String) (location : Location) (fields : KeyedList Field)
  | interface (name : String) (location : Location) (fields : KeyedList Field)
  | union (name : String) (location : Location) (members : KeyedList Location)
  | enum (name : String) (location : Location) (values : KeyedList EnumValue)
  | inputObject (name : String) (location : Location) (fields : KeyedList Field)

namespace KeyedType

def addFields (path : Option String) (type : String) (fields : KeyedList Field)
    (l : List FieldSyntax) : Except SchemaError (KeyedList Field) :=
  fields.addAll FieldSyntax.name (Field.ofSyntax path)
    (fun f => .duplicateField type f.name (.ofPosition path f.position)) l

def addValues (path : Option String) (type : String) (values : KeyedList EnumValue)
    (l : List EnumValueSyntax) : Except SchemaError (KeyedList EnumValue) :=
  values.addAll EnumValueSyntax.name (fun v => ⟨v.name, .ofPosition path v.position⟩)
    (fun v => .duplicateEnumValue type v.name (.ofPosition path v.position)) l

def addMembers (location : Location) (type : String) (members : KeyedList Location)
    (l : List String) : Except SchemaError (KeyedList Location) :=
  members.addAll id (fun _ => location) (fun m => .duplicateMember type m location) l

def ofSyntax (path : Option String) (t : TypeSyntax) : Except SchemaError KeyedType :=
  let location := .ofPosition path t.position
  match t.body with
  | .scalar => .ok (.scalar t.name location)
  | .object fields =>
    (addFields path t.name [("__typename", .typename location)] fields).map (object t.name location)
  | .interface fields =>
    (addFields path t.name [("__typename", .typename location)] fields).map
      (interface t.name location)
  | .union members => (addMembers location t.name [] members).map (union t.name location)
  | .enum values => (addValues path t.name [] values).map (enum t.name location)
  | .inputObject fields => (addFields path t.name [] fields).map (inputObject t.name location)

def forget : KeyedType → SchemaType
  | builtin b => .builtin b
  | scalar name location => .scalar name location
  | object name location fields => .object ⟨name, location, fields.map (·.2)⟩
  | interface name location fields => .interface ⟨name, location, fields.map (·.2)⟩
  | union name location members => .union ⟨name, location, members.map (·.1)⟩
  | enum name location values => .enum ⟨name, location, values.map (·.2)⟩
  | inputObject name location fields => .inputObject ⟨name, location, fields.map (·.2)⟩

def extend (path : Option String) (extension : TypeSyntax) (t : KeyedType) :
    Except SchemaError KeyedType :=
  let location := .ofPosition path extension.position
  match t, extension.body with
  | .scalar name at_, .scalar => .ok (.scalar name at_)
  | .object name at_ fields, .object l =>
    (addFields path extension.name fields l).map (object name at_)
  | .interface name at_ fields, .interface l =>
    (addFields path extension.name fields l).map (interface name at_)
  | .union name at_ members, .union l =>
    (addMembers location extension.name members l).map (union name at_)
  | .enum name at_ values, .enum l => (addValues path extension.name values l).map (enum name at_)
  | .inputObject name at_ fields, .inputObject l =>
    (addFields path extension.name fields l).map (inputObject name at_)
  | t, _ => .error (.extensionOfOtherKind extension.name t.forget.kind location)

def fields : KeyedType → KeyedList Field
  | object _ _ fields | interface _ _ fields | inputObject _ _ fields => fields
  | _ => []

def values : KeyedType → KeyedList EnumValue
  | enum _ _ values => values
  | _ => []

def members : KeyedType → KeyedList Location
  | union _ _ members => members
  | _ => []

/-- The keys of a type's items are the items' names. -/
structure ItemsNamed (t : KeyedType) : Prop where
  fields : t.fields.Named Field.name
  values : t.values.Named EnumValue.name

/-- Every type is under its own name, and the keys in it are names as well. -/
structure AllNamed (types : KeyedList KeyedType) : Prop where
  names : types.Named (·.forget.name)
  items : ∀ p ∈ types, p.2.ItemsNamed

def mergeExtension (types : KeyedList KeyedType) (extension : Option String × TypeSyntax) :
    Except SchemaError (KeyedList KeyedType) :=
  let (path, e) := extension
  match types.lookup e.name with
  | none => .error (.extensionOfUndefined e.name (.ofPosition path e.position))
  | some t => do
    let extended ← t.extend path e
    return types.insert e.name extended

end KeyedType

/-! ### Types with and without keys -/

namespace KeyedType

variable {path : Option String} {name : String} {location : Location}

/-- Adding fields under keys adds them by name. -/
theorem addFields_forget {fields : KeyedList Field} (hf : fields.Named Field.name)
    (l : List FieldSyntax) :
    FieldedType.addFields path ⟨name, location, fields.map (·.2)⟩ l =
      (addFields path name fields l).map fun m => ⟨name, location, m.map (·.2)⟩ := by
  induction l generalizing fields with
  | nil => rfl
  | cons f l ih =>
    rw [FieldedType.addFields, addFields, KeyedList.addAll, FieldedType.field?,
      ← KeyedList.lookup_of_named hf]
    cases hl : fields.lookup f.name with
    | some => rfl
    | none =>
      have hins := KeyedList.insert_of_lookup_eq_none (x := Field.ofSyntax path f) hl
      have hnamed : KeyedList.Named Field.name (fields.insert f.name (.ofSyntax path f)) :=
        hf.insert rfl
      have h := ih hnamed
      simpa [hins, addFields] using h

theorem addValues_forget {values : KeyedList EnumValue} (hv : values.Named EnumValue.name)
    (l : List EnumValueSyntax) :
    EnumType.addValues path ⟨name, location, values.map (·.2)⟩ l =
      (addValues path name values l).map fun m => ⟨name, location, m.map (·.2)⟩ := by
  induction l generalizing values with
  | nil => rfl
  | cons v l ih =>
    rw [EnumType.addValues, addValues, KeyedList.addAll, ← List.isSome_find?,
      ← KeyedList.lookup_of_named hv]
    cases hl : values.lookup v.name with
    | some => rfl
    | none =>
      have hins := KeyedList.insert_of_lookup_eq_none
        (x := (⟨v.name, .ofPosition path v.position⟩ : EnumValue)) hl
      have hnamed : KeyedList.Named EnumValue.name
          (values.insert v.name ⟨v.name, .ofPosition path v.position⟩) := hv.insert rfl
      have h := ih hnamed
      simpa [hins, addValues] using h

theorem addMembers_forget {members : KeyedList Location} {at_ : Location} (l : List String) :
    UnionType.addMembers location ⟨name, at_, members.map (·.1)⟩ l =
      (addMembers location name members l).map fun m => ⟨name, at_, m.map (·.1)⟩ := by
  induction l generalizing members with
  | nil => rfl
  | cons m l ih =>
    rw [UnionType.addMembers, addMembers, KeyedList.addAll, KeyedList.contains_keys]
    cases hl : members.lookup m with
    | some => simp [hl, Except.map]
    | none =>
      have hins := KeyedList.insert_of_lookup_eq_none (x := location) hl
      have h := @ih (members.insert m location)
      simpa [hl, hins, addMembers] using h

theorem named_nil {α : Type} (name : α → String) : KeyedList.Named name [] := by
  intro p hp
  simp at hp

theorem named_typename (location : Location) :
    KeyedList.Named Field.name [("__typename", Field.typename location)] := by
  intro p hp
  rw [List.mem_singleton.mp hp]
  rfl

/-- A result with keys stands for one without: for the same error, or for the same type, under the
given name and with named items. -/
structure Stands (keyed : Except SchemaError KeyedType) (plain : Except SchemaError SchemaType)
    (name : String) : Prop where
  eq : plain = keyed.map forget
  name : ∀ t, keyed = .ok t → t.forget.name = name
  items : ∀ t, keyed = .ok t → t.ItemsNamed

theorem stands_ok {t : KeyedType} (hname : t.forget.name = name) (hi : t.ItemsNamed) :
    Stands (.ok t) (.ok t.forget) name := by
  refine ⟨rfl, fun t' ht => ?_, fun t' ht => ?_⟩
  · rwa [← Except.ok.inj ht]
  · rwa [← Except.ok.inj ht]

theorem stands_error (e : SchemaError) (name : String) : Stands (.error e) (.error e) name :=
  ⟨rfl, by simp, by simp⟩

/-- A kind of types that have fields, with maps and with lists. -/
structure Fielded (keyed : String → Location → KeyedList Field → KeyedType)
    (plain : FieldedType → SchemaType) : Prop where
  forget : ∀ name location m, (keyed name location m).forget = plain ⟨name, location, m.map (·.2)⟩
  name : ∀ t, (plain t).name = t.name
  fields : ∀ name location m, (keyed name location m).fields = m
  values : ∀ name location m, (keyed name location m).values = []

theorem fielded_object : Fielded object .object :=
  ⟨fun _ _ _ => rfl, fun _ => rfl, fun _ _ _ => rfl, fun _ _ _ => rfl⟩

theorem fielded_interface : Fielded interface .interface :=
  ⟨fun _ _ _ => rfl, fun _ => rfl, fun _ _ _ => rfl, fun _ _ _ => rfl⟩

theorem fielded_inputObject : Fielded inputObject .inputObject :=
  ⟨fun _ _ _ => rfl, fun _ => rfl, fun _ _ _ => rfl, fun _ _ _ => rfl⟩

theorem Fielded.stands {keyed : String → Location → KeyedList Field → KeyedType}
    {plain : FieldedType → SchemaType} (h : Fielded keyed plain) {fields : KeyedList Field}
    (hf : fields.Named Field.name) (l : List FieldSyntax) :
    Stands ((addFields path name fields l).map (keyed name location))
      ((FieldedType.addFields path ⟨name, location, fields.map (·.2)⟩ l).map plain) name := by
  rw [addFields_forget hf]
  cases hadd : addFields path name fields l with
  | error e => exact stands_error e name
  | ok m =>
    have hm : m.Named Field.name := by
      refine hf.addAll ?_ hadd
      intro f
      rfl
    change Stands (.ok (keyed name location m)) (.ok (plain ⟨name, location, m.map (·.2)⟩)) name
    rw [← h.forget]
    refine stands_ok (by rw [h.forget, h.name]) ⟨?_, ?_⟩
    · rwa [h.fields]
    · rw [h.values]
      exact named_nil _

theorem stands_addValues {values : KeyedList EnumValue} (hv : values.Named EnumValue.name)
    (l : List EnumValueSyntax) :
    Stands ((addValues path name values l).map (enum name location))
      ((EnumType.addValues path ⟨name, location, values.map (·.2)⟩ l).map .enum) name := by
  rw [addValues_forget hv]
  cases h : addValues path name values l with
  | error e => exact stands_error e name
  | ok m =>
    have hm : m.Named EnumValue.name := by
      refine hv.addAll ?_ h
      intro v
      rfl
    exact stands_ok (t := enum name location m) rfl ⟨named_nil _, hm⟩

theorem stands_addMembers (members : KeyedList Location) {at_ : Location} (l : List String) :
    Stands ((addMembers location name members l).map (union name at_))
      ((UnionType.addMembers location ⟨name, at_, members.map (·.1)⟩ l).map .union) name := by
  rw [addMembers_forget]
  cases addMembers location name members l with
  | error e => exact stands_error e name
  | ok m => exact stands_ok (t := union name at_ m) rfl ⟨named_nil _, named_nil _⟩

theorem stands_scalar (name : String) (location : Location) :
    Stands (.ok (scalar name location)) (.ok (.scalar name location)) name :=
  stands_ok (t := scalar name location) rfl ⟨named_nil _, named_nil _⟩

/-- A definition stands for the same type with maps and with lists. -/
theorem stands_ofSyntax (path : Option String) (t : TypeSyntax) :
    Stands (ofSyntax path t) (SchemaType.ofSyntax path t) t.name := by
  obtain ⟨position, name, body⟩ := t
  cases body with
  | scalar => exact stands_scalar _ _
  | object l => exact fielded_object.stands (named_typename _) l
  | interface l => exact fielded_interface.stands (named_typename _) l
  | union l => exact stands_addMembers [] l
  | enum l => exact stands_addValues (named_nil _) l
  | inputObject l => exact fielded_inputObject.stands (named_nil _) l

/-- An extension names the type that it extends. -/
theorem stands_extend (path : Option String) {t : KeyedType} {e : TypeSyntax}
    (hname : t.forget.name = e.name) (hi : t.ItemsNamed) :
    Stands (t.extend path e) (t.forget.extend path e) e.name := by
  obtain ⟨position, name, body⟩ := e
  cases t with
  | builtin b => cases body <;> exact stands_error _ _
  | scalar n l =>
    obtain rfl : n = name := hname
    cases body with
    | scalar => exact stands_scalar _ _
    | _ => exact stands_error _ _
  | object n l fields =>
    obtain rfl : n = name := hname
    cases body with
    | object added => exact fielded_object.stands hi.fields added
    | _ => exact stands_error _ _
  | interface n l fields =>
    obtain rfl : n = name := hname
    cases body with
    | interface added => exact fielded_interface.stands hi.fields added
    | _ => exact stands_error _ _
  | union n l members =>
    obtain rfl : n = name := hname
    cases body with
    | union added => exact stands_addMembers members added
    | _ => exact stands_error _ _
  | enum n l values =>
    obtain rfl : n = name := hname
    cases body with
    | enum added => exact stands_addValues hi.values added
    | _ => exact stands_error _ _
  | inputObject n l fields =>
    obtain rfl : n = name := hname
    cases body with
    | inputObject added => exact fielded_inputObject.stands hi.fields added
    | _ => exact stands_error _ _

theorem AllNamed.insert {types : KeyedList KeyedType} (h : AllNamed types) {t : KeyedType}
    (hname : name = t.forget.name) (ht : t.ItemsNamed) : AllNamed (types.insert name t) where
  names := h.names.insert hname
  items := by
    intro p hp
    unfold KeyedList.insert at hp
    split at hp
    · obtain ⟨q, hq, rfl⟩ := List.mem_map.mp hp
      split
      · exact ht
      · exact h.items q hq
    · rcases List.mem_append.mp hp with hp | hp
      · exact h.items p hp
      · rw [List.mem_singleton.mp hp]
        exact ht

/-- A type is found by name where it is looked up by key. -/
theorem AllNamed.find? {types : KeyedList KeyedType} (h : AllNamed types) (name : String) :
    SchemaType.find? (types.map (·.2.forget)) name = (types.lookup name).map forget := by
  have hmap : types.map (·.2.forget) = (types.map (·.2)).map forget := by
    rw [List.map_map]
    rfl
  rw [SchemaType.find?, hmap, KeyedList.lookup_of_named h.names, List.find?_map]
  rfl

/-- What is under a name is replaced wherever the name stands. -/
theorem AllNamed.forget_insert {types : KeyedList KeyedType} (h : AllNamed types)
    (hname : (types.lookup name).isSome = true) (t : KeyedType) :
    (types.insert name t).map (·.2.forget) =
      (types.map (·.2.forget)).map fun other => if other.name = name then t.forget else other := by
  rw [KeyedList.insert, if_pos hname, List.map_map, List.map_map]
  refine List.map_congr_left fun p hp => ?_
  have hkey : p.1 = p.2.forget.name := h.names p hp
  by_cases hp : p.1 = name
  · simp [hp, ← hkey]
  · simp [hp, ← hkey]

/-- An extension does the same to maps and to lists, and keys stay names. -/
theorem mergeExtension_forget {types : KeyedList KeyedType} (h : AllNamed types)
    (e : Option String × TypeSyntax) :
    SchemaType.mergeExtension (types.map (·.2.forget)) e =
        (mergeExtension types e).map (·.map (·.2.forget)) ∧
      ∀ types', mergeExtension types e = .ok types' → AllNamed types' := by
  obtain ⟨path, e⟩ := e
  rw [SchemaType.mergeExtension, mergeExtension, h.find?]
  cases hl : types.lookup e.name with
  | none => exact ⟨rfl, by simp⟩
  | some t =>
    have hmem := mem_of_lookup_eq_some hl
    obtain ⟨heq, hnamed, hitems⟩ := stands_extend path (h.names _ hmem).symm (h.items _ hmem)
    simp only [Option.map_some, heq]
    cases he : t.extend path e with
    | error => exact ⟨rfl, by simp⟩
    | ok extended =>
      constructor
      · exact congrArg Except.ok (h.forget_insert (by rw [hl]; rfl) extended).symm
      · intro types' htypes
        rw [← Except.pure_eq_ok.mp htypes]
        exact h.insert (hnamed _ he).symm (hitems _ he)

theorem mergeAll_forget {types : KeyedList KeyedType} (h : AllNamed types)
    (extensions : List (Option String × TypeSyntax)) :
    extensions.foldlM SchemaType.mergeExtension (types.map (·.2.forget)) =
        (extensions.foldlM mergeExtension types).map (·.map (·.2.forget)) ∧
      ∀ types', extensions.foldlM mergeExtension types = .ok types' → AllNamed types' := by
  induction extensions generalizing types with
  | nil =>
    refine ⟨rfl, fun types' htypes => ?_⟩
    rwa [← Except.ok.inj htypes]
  | cons e rest ih =>
    obtain ⟨heq, hnamed⟩ := mergeExtension_forget h e
    rw [List.foldlM_cons, List.foldlM_cons, heq]
    cases he : mergeExtension types e with
    | error =>
      refine ⟨rfl, fun types' htypes => ?_⟩
      cases htypes
    | ok middle => exact ih (hnamed middle he)

end KeyedType

end QueryBindings
