import QueryBindings.Proofs.Schema.Outlines
/-!
What definitions describe.

A builder takes definitions one by one and merges extensions at the end. Here it is said what comes
out of that without an order of steps: every type starts from its own definition and gets the
extensions that name it, no name is defined twice, and every root is named at most once.
-/
namespace QueryBindings

/-! ### Definitions -/

namespace DefinitionOutline

def named : DefinitionOutline → List (OperationKind × String)
  | roots named => named
  | _ => []

def type? : DefinitionOutline → Option TypeOutline
  | type t => some t
  | _ => none

def extension? : DefinitionOutline → Option TypeOutline
  | extension e => some e
  | _ => none

def namedOf (kind : OperationKind) (roots : List (OperationKind × String)) : List String :=
  (roots.filter (·.1 = kind)).map (·.2)

def rootsOf (ds : List DefinitionOutline) (kind : OperationKind) : List String :=
  namedOf kind (ds.flatMap named)

def types (ds : List DefinitionOutline) : List TypeOutline := ds.filterMap type?

def extensions (ds : List DefinitionOutline) : List TypeOutline := ds.filterMap extension?

theorem namedOf_cons (kind : OperationKind) (root : OperationKind × String)
    (roots : List (OperationKind × String)) : namedOf kind (root :: roots) =
      (if root.1 = kind then [root.2] else []) ++ namedOf kind roots := by
  by_cases h : root.1 = kind <;> simp [namedOf, h]

theorem rootsOf_cons (d : DefinitionOutline) (ds : List DefinitionOutline) (kind : OperationKind) :
    rootsOf (d :: ds) kind = namedOf kind d.named ++ rootsOf ds kind := by
  simp [rootsOf, namedOf]

end DefinitionOutline

open DefinitionOutline (namedOf rootsOf)

/-! ### Types -/

namespace TypeOutline

variable {o o' e : TypeOutline}

theorem add?_append (o : TypeOutline) (a b : List Item) :
    o.add? (a ++ b) = (o.add? a).bind (·.add? b) := by
  induction a generalizing o with
  | nil => rfl
  | cons i rest ih =>
    rw [List.cons_append, add?, add?]
    split
    · rfl
    · exact ih _

/-- Items that are added change nothing else. -/
theorem head_of_add? {items : List Item} (h : o.add? items = some o') :
    o'.name = o.name ∧ o'.kind = o.kind := by
  induction items generalizing o with
  | nil =>
    obtain rfl := Option.some.inj h
    exact ⟨rfl, rfl⟩
  | cons i rest ih =>
    rw [add?, Option.ite_none_left_eq_some] at h
    obtain ⟨hname, hkind⟩ := ih h.2
    exact ⟨hname, hkind⟩

theorem extend?_eq_some_iff :
    o.extend? e = some o' ↔ e.kind = o.kind ∧ o.add? e.items = some o' := by
  rw [extend?, Option.ite_none_right_eq_some]

theorem head_of_extend? (h : o.extend? e = some o') : o'.name = o.name ∧ o'.kind = o.kind :=
  head_of_add? (extend?_eq_some_iff.mp h).2

theorem head_of_define? (h : o.define? = some o') : o'.name = o.name ∧ o'.kind = o.kind := by
  obtain ⟨hname, hkind⟩ := head_of_extend? h
  exact ⟨hname, hkind⟩

def complete? (extensions : List TypeOutline) (o : TypeOutline) : Option TypeOutline :=
  (extensions.filter (·.name = o.name)).foldlM extend? o

/-- Extensions keep the name and the kind, and are of this kind themselves. -/
theorem head_of_foldlM_extend? {extensions : List TypeOutline}
    (h : extensions.foldlM extend? o = some o') :
    o'.name = o.name ∧ o'.kind = o.kind ∧ ∀ e ∈ extensions, e.kind = o.kind := by
  induction extensions generalizing o with
  | nil =>
    obtain rfl := Option.some.inj h
    exact ⟨rfl, rfl, by simp⟩
  | cons e rest ih =>
    rw [List.foldlM_cons] at h
    obtain ⟨extended, he, h⟩ := Option.bind_eq_some_iff.mp h
    obtain ⟨hname, hkind⟩ := head_of_extend? he
    obtain ⟨hname', hkind', hrest⟩ := ih h
    refine ⟨hname'.trans hname, hkind'.trans hkind, ?_⟩
    rw [List.forall_mem_cons]
    exact ⟨(extend?_eq_some_iff.mp he).1, fun f hf => (hrest f hf).trans hkind⟩

theorem name_of_complete? {extensions : List TypeOutline} (h : o.complete? extensions = some o') :
    o'.name = o.name := (head_of_foldlM_extend? h).1

/-! ### Lists of types -/

variable {types types' : List TypeOutline}

theorem find?_eq_some_iff (hn : (types.map name).Nodup) {n : String} :
    find? types n = some o ↔ o ∈ types ∧ o.name = n := find?_eq_some_iff_of_nodup hn

theorem isSome_find?_iff {n : String} : (find? types n).isSome ↔ n ∈ types.map name := by
  simp [find?]

/-- Names are kept if they are kept for every type. -/
theorem map_name_of_forall₂ {r : TypeOutline → TypeOutline → Prop}
    (hr : ∀ t t', r t t' → t'.name = t.name) (h : List.Forall₂ r types types') :
    types'.map name = types.map name := by
  induction h with
  | nil => rfl
  | cons ht _ ih => rw [List.map_cons, List.map_cons, hr _ _ ht, ih]

/-- A type before and after an extension is merged. -/
def MergedTo (e t t' : TypeOutline) : Prop :=
  if e.name = t.name then t.extend? e = some t' else t' = t

theorem MergedTo.name {t t' : TypeOutline} (h : MergedTo e t t') : t'.name = t.name := by
  unfold MergedTo at h
  split at h
  · exact (head_of_extend? h).1
  · rw [h]

/-- An extension is merged if some type has its name; it changes this type and no other. -/
theorem merge?_eq_some_iff (hn : (types.map TypeOutline.name).Nodup) :
    merge? types e = some types' ↔
      e.name ∈ types.map TypeOutline.name ∧ List.Forall₂ (MergedTo e) types types' := by
  constructor
  · intro h
    obtain ⟨t, ht, h⟩ := Option.bind_eq_some_iff.mp h
    obtain ⟨extended, hextended, h⟩ := Option.bind_eq_some_iff.mp h
    obtain rfl := Option.some.inj h
    obtain ⟨hm, hname⟩ := (find?_eq_some_iff hn).mp ht
    refine ⟨List.mem_map.mpr ⟨t, hm, hname⟩, ?_⟩
    rw [List.forall₂_map_right_iff, List.forall₂_same]
    intro other hother
    by_cases h : other.name = e.name
    · have hsame : other = t := List.inj_on_of_nodup_map hn hother hm (h.trans hname.symm)
      simp only [MergedTo, h, if_true]
      rw [hsame, hextended]
    · simp only [MergedTo, if_neg h, if_neg (Ne.symm h)]
  · rintro ⟨hname, hmerged⟩
    obtain ⟨t, hm, hname⟩ := List.mem_map.mp hname
    obtain ⟨extended, -, hextended⟩ := List.Forall₂.exists_right hmerged hm
    rw [MergedTo, if_pos hname.symm] at hextended
    have ht : find? types e.name = some t := (find?_eq_some_iff hn).mpr ⟨hm, hname⟩
    have hmap : types' = types.map fun other => if other.name = e.name then extended else other := by
      refine List.Forall₂.eq_map hmerged fun other hother after hafter => ?_
      by_cases h : other.name = e.name
      · have hsame : other = t := List.inj_on_of_nodup_map hn hother hm (h.trans hname.symm)
        rw [MergedTo, if_pos h.symm, hsame, hextended] at hafter
        rw [if_pos h]
        exact (Option.some.inj hafter).symm
      · rw [MergedTo, if_neg (Ne.symm h)] at hafter
        rw [if_neg h, hafter]
    simp only [merge?, ht, hmap, Option.bind_eq_bind, Option.bind_some, hextended, Option.pure_def]

/-- A type gets its extensions one by one. -/
theorem complete?_cons_eq_some_iff {extensions : List TypeOutline} :
    o.complete? (e :: extensions) = some o' ↔
      ∃ merged, MergedTo e o merged ∧ merged.complete? extensions = some o' := by
  by_cases h : e.name = o.name
  · have hfilter : (e :: extensions).filter (·.name = o.name) =
        e :: extensions.filter (·.name = o.name) := List.filter_cons_of_pos (by simpa using h)
    rw [complete?, hfilter, List.foldlM_cons]
    refine Option.bind_eq_some_iff.trans (exists_congr fun merged => ?_)
    rw [MergedTo, if_pos h]
    refine and_congr_right fun hm => ?_
    rw [complete?, (head_of_extend? hm).1]
  · have hfilter : (e :: extensions).filter (·.name = o.name) =
        extensions.filter (·.name = o.name) := List.filter_cons_of_neg (by simpa using h)
    rw [complete?, hfilter]
    simp only [MergedTo, if_neg h, exists_eq_left]
    rfl

/-- Extensions are merged if each of them names a type; every type gets those that name it. -/
theorem foldlM_merge?_eq_some_iff {extensions : List TypeOutline}
    (hn : (types.map TypeOutline.name).Nodup) : extensions.foldlM merge? types = some types' ↔
      (∀ e ∈ extensions, e.name ∈ types.map TypeOutline.name) ∧
        List.Forall₂ (fun t t' => t.complete? extensions = some t') types types' := by
  induction extensions generalizing types with
  | nil =>
    have hnil : ∀ t t' : TypeOutline, t.complete? [] = some t' ↔ t = t' :=
      fun t t' => ⟨Option.some.inj, congrArg some⟩
    simp only [hnil, List.forall₂_eq_eq_eq, List.not_mem_nil, false_implies, implies_true, true_and]
    exact ⟨Option.some.inj, congrArg some⟩
  | cons e rest ih =>
    simp only [complete?_cons_eq_some_iff, ← List.Forall₂.exists_comp_iff, List.foldlM_cons,
      Option.bind_eq_bind, Option.bind_eq_some_iff, merge?_eq_some_iff hn, List.forall_mem_cons]
    constructor
    · rintro ⟨merged, ⟨hname, hmerged⟩, h⟩
      have hnames := map_name_of_forall₂ (fun t t' => MergedTo.name) hmerged
      obtain ⟨hrest, hcomplete⟩ := (ih (hnames ▸ hn)).mp h
      exact ⟨⟨hname, hnames ▸ hrest⟩, merged, hmerged, hcomplete⟩
    · rintro ⟨⟨hname, hrest⟩, merged, hmerged, hcomplete⟩
      have hnames := map_name_of_forall₂ (fun t t' => MergedTo.name) hmerged
      exact ⟨merged, ⟨hname, hmerged⟩, (ih (hnames ▸ hn)).mpr ⟨hnames ▸ hrest, hcomplete⟩⟩

end TypeOutline

/-! ### Builders -/

def SchemaOutline.rootName? (o : SchemaOutline) : OperationKind → Option String
  | .query => some o.query
  | .mutation => o.mutation
  | .subscription => o.subscription

namespace BuilderOutline

variable {b b' : BuilderOutline}

theorem toList_update_root? {root : OperationKind × String} (h : b.root? root.1 = none)
    (kind : OperationKind) : (Function.update b.root? root.1 (some root.2) kind).toList =
      (b.root? kind).toList ++ if root.1 = kind then [root.2] else [] := by
  by_cases hk : root.1 = kind
  · subst hk
    simp [h]
  · simp [Function.update_of_ne (Ne.symm hk), hk]

/-- Roots can be named if every kind is named at most once, before and now taken together. -/
theorem foldlM_nameRoot?_eq_some_iff {roots : List (OperationKind × String)} :
    roots.foldlM nameRoot? b = some b' ↔
      (∀ kind, (b'.root? kind).toList = (b.root? kind).toList ++ namedOf kind roots) ∧
        b'.types = b.types ∧ b'.extensions = b.extensions := by
  induction roots generalizing b with
  | nil =>
    constructor
    · intro h
      obtain rfl := Option.some.inj h
      simp [namedOf]
    · rintro ⟨hroots, htypes, hextensions⟩
      have hsame : b' = b := by
        refine BuilderOutline.ext (funext fun kind => ?_) htypes hextensions
        have hkind := congrArg List.head? (hroots kind)
        simpa [namedOf] using hkind
      exact congrArg some hsame.symm
  | cons root rest ih =>
    simp only [List.foldlM_cons, Option.bind_eq_bind, Option.bind_eq_some_iff, nameRoot?,
      Option.ite_none_left_eq_some, Option.some.injEq, DefinitionOutline.namedOf_cons, ih,
      Bool.not_eq_true, Option.isSome_eq_false_iff, Option.isNone_iff_eq_none]
    constructor
    · rintro ⟨_, ⟨hnone, rfl⟩, hroots, hsame⟩
      refine ⟨fun kind => ?_, hsame⟩
      rw [hroots, toList_update_root? hnone, List.append_assoc]
    · rintro ⟨hroots, hsame⟩
      have hnone : b.root? root.1 = none := by
        have hkind := congrArg List.length (hroots root.1)
        have hle : (b'.root? root.1).toList.length ≤ 1 := Option.length_toList_le
        rw [← Option.toList_eq_nil_iff, ← List.length_eq_zero_iff]
        simp only [List.length_append, if_true, List.length_singleton] at hkind
        omega
      refine ⟨_, ⟨hnone, rfl⟩, fun kind => ?_, hsame⟩
      rw [hroots, toList_update_root? hnone, List.append_assoc]

/-- What taking definitions makes of a builder. -/
structure Takes (b : BuilderOutline) (ds : List DefinitionOutline) (b' : BuilderOutline) :
    Prop where
  roots : ∀ kind, (b'.root? kind).toList = (b.root? kind).toList ++ rootsOf ds kind
  types : ∃ ts, List.Forall₂ (fun t t' => t.define? = some t') (DefinitionOutline.types ds) ts ∧
    b'.types = b.types ++ ts
  nodup : (b'.types.map TypeOutline.name).Nodup
  extensions : b'.extensions = b.extensions ++ DefinitionOutline.extensions ds

theorem takes_nil_iff (hn : (b.types.map TypeOutline.name).Nodup) : b.Takes [] b' ↔ b' = b := by
  constructor
  · rintro ⟨hroots, ⟨ts, hts, htypes⟩, -, hextensions⟩
    obtain rfl : ts = [] := List.forall₂_nil_left_iff.mp hts
    have hextensions : b'.extensions = b.extensions := hextensions.trans (List.append_nil _)
    refine BuilderOutline.ext (funext fun kind => ?_) (by simpa using htypes) hextensions
    simpa [rootsOf, namedOf] using congrArg List.head? (hroots kind)
  · rintro rfl
    exact ⟨fun kind => by simp [rootsOf, namedOf], ⟨[], .nil, by simp⟩, hn, by
      simp [DefinitionOutline.extensions]⟩

/-- What stands first in a list of at most one member is that list or empty. -/
theorem toList_head?_of_toList_eq {o : Option String} {l rest : List String}
    (h : o.toList = l ++ rest) : l.head?.toList = l := by
  have hle : (l ++ rest).length ≤ 1 := h ▸ Option.length_toList_le
  match l, hle with
  | [], _ => rfl
  | [a], _ => rfl

theorem takes_roots_iff {named : List (OperationKind × String)} {ds : List DefinitionOutline} :
    b.Takes (.roots named :: ds) b' ↔
      ∃ taken, named.foldlM nameRoot? b = some taken ∧ taken.Takes ds b' := by
  simp only [foldlM_nameRoot?_eq_some_iff]
  constructor
  · rintro ⟨hroots, htypes, hnodup, hextensions⟩
    -- What is named so far is named at most once, so it is a builder's root.
    have hroot : ∀ kind, ((b.root? kind).toList ++ namedOf kind named).head?.toList =
        (b.root? kind).toList ++ namedOf kind named := by
      intro kind
      have hkind := hroots kind
      rw [DefinitionOutline.rootsOf_cons, ← List.append_assoc] at hkind
      exact toList_head?_of_toList_eq hkind
    refine ⟨⟨fun kind => ((b.root? kind).toList ++ namedOf kind named).head?, b.types,
      b.extensions⟩, ⟨hroot, rfl, rfl⟩, fun kind => ?_, htypes, hnodup, hextensions⟩
    rw [hroot, hroots, DefinitionOutline.rootsOf_cons, List.append_assoc]
    rfl
  · rintro ⟨taken, ⟨hnamed, hsame, hsame'⟩, hroots, htypes, hnodup, hextensions⟩
    refine ⟨fun kind => ?_, hsame ▸ htypes, hnodup, hsame' ▸ hextensions⟩
    rw [hroots, hnamed, DefinitionOutline.rootsOf_cons, List.append_assoc]
    rfl

theorem takes_type_iff {t : TypeOutline} {ds : List DefinitionOutline} :
    b.Takes (.type t :: ds) b' ↔
      ∃ taken, t.define?.bind b.addType? = some taken ∧ taken.Takes ds b' := by
  simp only [Option.bind_eq_some_iff, addType?, Option.ite_none_left_eq_some, Option.some.injEq,
    TypeOutline.isSome_find?_iff]
  constructor
  · rintro ⟨hroots, ⟨ts, hts, htypes⟩, hnodup, hextensions⟩
    obtain ⟨t', ts', ht', hts', rfl⟩ := List.forall₂_cons_left_iff.mp hts
    have hfresh : t'.name ∉ b.types.map TypeOutline.name := by
      rw [htypes, List.map_append, List.map_cons, List.nodup_middle, List.nodup_cons] at hnodup
      exact fun hm => hnodup.1 (List.mem_append_left _ hm)
    refine ⟨_, ⟨t', ht', hfresh, rfl⟩, hroots, ⟨ts', hts', ?_⟩, hnodup, hextensions⟩
    rw [htypes, List.append_assoc, List.singleton_append]
  · rintro ⟨_, ⟨t', ht', hfresh, rfl⟩, hroots, ⟨ts, hts, htypes⟩, hnodup, hextensions⟩
    refine ⟨hroots, ⟨t' :: ts, .cons ht' hts, ?_⟩, hnodup, hextensions⟩
    rw [htypes, List.append_assoc, List.singleton_append]

/-- The first definition is taken, and then the others. -/
theorem takes_cons_iff {d : DefinitionOutline} {ds : List DefinitionOutline} :
    b.Takes (d :: ds) b' ↔ ∃ taken, b.define? d = some taken ∧ taken.Takes ds b' := by
  cases d with
  | roots named => exact takes_roots_iff
  | type t => exact takes_type_iff
  | extension e =>
    simp only [define?, Option.some.injEq, exists_eq_left']
    constructor
    · rintro ⟨hroots, htypes, hnodup, hextensions⟩
      refine ⟨hroots, htypes, hnodup, ?_⟩
      rw [hextensions, List.append_assoc]
      rfl
    · rintro ⟨hroots, htypes, hnodup, hextensions⟩
      refine ⟨hroots, htypes, hnodup, ?_⟩
      rw [hextensions, List.append_assoc]
      rfl
  | directive =>
    simp only [define?, Option.some.injEq, exists_eq_left']
    exact ⟨fun h => ⟨h.roots, h.types, h.nodup, h.extensions⟩,
      fun h => ⟨h.roots, h.types, h.nodup, h.extensions⟩⟩

/-- No two types have the same name after a definition is taken. -/
theorem nodup_types_of_define? {d : DefinitionOutline} (hn : (b.types.map TypeOutline.name).Nodup)
    (h : b.define? d = some b') : (b'.types.map TypeOutline.name).Nodup := by
  cases d with
  | roots named => rwa [(foldlM_nameRoot?_eq_some_iff.mp h).2.1]
  | type t =>
    obtain ⟨t', -, h⟩ := Option.bind_eq_some_iff.mp h
    rw [addType?, Option.ite_none_left_eq_some, TypeOutline.isSome_find?_iff] at h
    obtain ⟨hfresh, h⟩ := h
    rw [← Option.some.inj h, List.map_append, List.map_singleton, ← List.concat_eq_append]
    exact hn.concat hfresh
  | extension e => rwa [← Option.some.inj h]
  | directive => rwa [← Option.some.inj h]

/-- Definitions can be taken if every type can be defined, no name is defined twice, and every root
is named at most once. -/
theorem foldlM_define?_eq_some_iff {ds : List DefinitionOutline}
    (hn : (b.types.map TypeOutline.name).Nodup) :
    ds.foldlM define? b = some b' ↔ b.Takes ds b' := by
  induction ds generalizing b with
  | nil =>
    rw [takes_nil_iff hn]
    exact ⟨fun h => (Option.some.inj h).symm, fun h => congrArg some h.symm⟩
  | cons d rest ih =>
    rw [List.foldlM_cons, takes_cons_iff]
    refine Option.bind_eq_some_iff.trans (exists_congr fun taken => and_congr_right fun htaken => ?_)
    exact ih (nodup_types_of_define? hn htaken)

/-- The root of a kind: the only name that is given for it, which must be an object's, or else its
default name if an object has it. -/
def rootOf? (types : List TypeOutline) (kind : OperationKind) : List String → Option (Option String)
  | [] =>
    let name := SchemaBuilder.defaultRootName kind
    some (if TypeOutline.isObject types name then some name else none)
  | [name] => if TypeOutline.isObject types name then some (some name) else none
  | _ => none

/-- A kind that has a root, or none by default, is named at most once. -/
theorem toList_head?_of_rootOf? {types : List TypeOutline} {kind : OperationKind}
    {named : List String} {root : Option String} (h : rootOf? types kind named = some root) :
    named.head?.toList = named := by
  unfold rootOf? at h
  split at h <;> simp_all

/-- A builder finds the root that is described by the names given for it. -/
theorem resolveRoot?_eq_rootOf? (b : BuilderOutline) (types : List TypeOutline)
    (kind : OperationKind) : b.resolveRoot? types kind = rootOf? types kind (b.root? kind).toList := by
  rw [resolveRoot?]
  cases b.root? kind <;> rfl

/-- A builder makes a schema of the types with all extensions, if every root is found. -/
theorem build?_eq_some_iff {o : SchemaOutline} : b.build? = some o ↔
    b.extensions.foldlM TypeOutline.merge? b.types = some o.types ∧
      ∀ kind, rootOf? o.types kind (b.root? kind).toList = some (o.rootName? kind) := by
  simp only [← resolveRoot?_eq_rootOf?, build?, Option.bind_eq_bind, Option.bind_eq_some_iff]
  constructor
  · rintro ⟨types, htypes, _, hquery, query, rfl, mutation, hmutation, subscription,
      hsubscription, h⟩
    obtain rfl := Option.some.inj h
    exact ⟨htypes, fun kind => by cases kind <;> assumption⟩
  · rintro ⟨htypes, hroots⟩
    exact ⟨o.types, htypes, _, hroots .query, o.query, rfl, _, hroots .mutation, _,
      hroots .subscription, rfl⟩

end BuilderOutline

/-! ### Schemas -/

namespace SchemaOutline

def builtins : List TypeOutline := SchemaType.builtins.map SchemaType.outline

/-- What a schema has to do with the definitions that it is built of. -/
structure DescribedBy (o : SchemaOutline) (ds : List DefinitionOutline) : Prop where
  types : ∃ ts, List.Forall₂ (fun t t' => t.define? = some t') (DefinitionOutline.types ds) ts ∧
    List.Forall₂ (fun t t' => t.complete? (DefinitionOutline.extensions ds) = some t')
      (builtins ++ ts) o.types
  nodup : (o.types.map TypeOutline.name).Nodup
  targets : ∀ e ∈ DefinitionOutline.extensions ds, e.name ∈ o.types.map TypeOutline.name
  roots : ∀ kind, BuilderOutline.rootOf? o.types kind (rootsOf ds kind) = some (o.rootName? kind)

/-- A schema is built of definitions if and only if they describe it. -/
theorem describe?_eq_some_iff {ds : List DefinitionOutline} {o : SchemaOutline} :
    describe? ds = some o ↔ o.DescribedBy ds := by
  have hempty : ∀ kind, (SchemaBuilder.empty.outline.root? kind).toList = [] := by
    intro kind
    cases kind <;> rfl
  have hbuiltins : SchemaBuilder.empty.outline.types = builtins := rfl
  have hnodup : (SchemaBuilder.empty.outline.types.map TypeOutline.name).Nodup := by decide
  simp only [describe?, Option.bind_eq_some_iff, BuilderOutline.foldlM_define?_eq_some_iff hnodup,
    BuilderOutline.build?_eq_some_iff]
  constructor
  · rintro ⟨b, ⟨hroots, ⟨ts, hts, htypes⟩, hn, hextensions⟩, hmerge, hresolve⟩
    rw [TypeOutline.foldlM_merge?_eq_some_iff hn] at hmerge
    obtain ⟨htargets, hcomplete⟩ := hmerge
    have hnames :=
      TypeOutline.map_name_of_forall₂ (fun _ _ => TypeOutline.name_of_complete?) hcomplete
    have hextensions : b.extensions = DefinitionOutline.extensions ds := hextensions
    rw [hextensions] at htargets hcomplete
    rw [hbuiltins] at htypes
    exact
      { types := ⟨ts, hts, htypes ▸ hcomplete⟩
        nodup := hnames ▸ hn
        targets := hnames ▸ htargets
        roots := fun kind => by
          rw [← hresolve kind, hroots kind, hempty]
          rfl }
  · rintro ⟨⟨ts, hts, hcomplete⟩, hn, htargets, hroots⟩
    have hnames :=
      TypeOutline.map_name_of_forall₂ (fun _ _ => TypeOutline.name_of_complete?) hcomplete
    have hroot : ∀ kind, (rootsOf ds kind).head?.toList = rootsOf ds kind :=
      fun kind => BuilderOutline.toList_head?_of_rootOf? (hroots kind)
    refine ⟨⟨fun kind => (rootsOf ds kind).head?, builtins ++ ts, DefinitionOutline.extensions ds⟩,
      ⟨fun kind => ?_, ⟨ts, hts, rfl⟩, hnames ▸ hn, rfl⟩, ?_, fun kind => ?_⟩
    · rw [hroot, hempty]
      rfl
    · rw [TypeOutline.foldlM_merge?_eq_some_iff (hnames ▸ hn)]
      exact ⟨hnames ▸ htargets, hcomplete⟩
    · rw [hroot]
      exact hroots kind

end SchemaOutline

/-- A schema can be built of definitions, however they are split into texts, if and only if they
describe one; this is then the schema without its places. -/
theorem Schema.exists_ofLoads_iff {loads : List Load} {o : SchemaOutline} :
    (∃ s, ofLoads loads = .ok s ∧ s.outline = o) ↔
      o.DescribedBy ((SchemaBuilder.definitionsOf loads).map TypeSystem.Definition.outline) := by
  rw [← SchemaOutline.describe?_eq_some_iff, ← outline_ofLoads, Option.map_eq_some_iff]
  simp only [Except.toOption_eq_some]

end QueryBindings
