import QueryBindings.Proofs.Module.Template
import QueryBindings.Proofs.Module.Written
/-!
How the declarations of a module are spelled.

Each form of declaration has its text here once more, as a rule and not as a function. The body of a
module is cut into pieces, which are empty lines, the titles of its sections, and the declarations in
their order, each as its rule spells it. All of them end their line, so a declaration starts one.
-/
namespace QueryBindings

namespace Text

variable {α β : Type}

/-- The text is made of pieces, and the items are those that pieces stand for, in their order. -/
def Holds (piece : String → Option α → Prop) (t : String) (items : List α) : Prop :=
  ∃ pieces : List (String × Option α), t = String.join (pieces.map (·.1)) ∧
    (∀ p ∈ pieces, piece p.1 p.2) ∧ pieces.filterMap (·.2) = items

/-- Nothing, or a text that ends with a line. -/
def EndsLine (t : String) : Prop := t = "" ∨ ∃ s, t = s ++ "\n"

/-- A line of the text starts in this way. -/
def HasLine (t start : String) : Prop :=
  ∃ before after, t = before ++ start ++ after ∧ EndsLine before

/-! ### Lines -/

variable {s t start : String}

theorem endsLine_behind (s line : String) : EndsLine (s ++ (line ++ "\n")) :=
  Or.inr ⟨s ++ line, by rw [String.append_assoc]⟩

theorem EndsLine.append (hs : EndsLine s) (ht : EndsLine t) : EndsLine (s ++ t) := by
  obtain rfl | ⟨u, rfl⟩ := ht
  · simpa using hs
  · exact Or.inr ⟨s ++ u, by rw [String.append_assoc]⟩

theorem endsLine_join {l : List String} (h : ∀ t ∈ l, EndsLine t) : EndsLine (String.join l) := by
  induction l with
  | nil => exact Or.inl (by simp)
  | cons t l ih =>
    obtain ⟨ht, hl⟩ := List.forall_mem_cons.mp h
    rw [String.join_cons]
    exact ht.append (ih hl)

theorem HasLine.before (h : HasLine s start) (t : String) : HasLine (s ++ t) start := by
  obtain ⟨before, after, rfl, hbefore⟩ := h
  exact ⟨before, after ++ t, by simp [String.append_assoc], hbefore⟩

theorem HasLine.behind (h : HasLine t start) (hs : EndsLine s) : HasLine (s ++ t) start := by
  obtain ⟨before, after, rfl, hbefore⟩ := h
  exact ⟨s ++ before, after, by simp [String.append_assoc], hs.append hbefore⟩

/-! ### Pieces -/

variable {piece : String → Option α → Prop} {items more : List α} {x : α}

theorem holds_nil (piece : String → Option α → Prop) : Holds piece "" [] :=
  ⟨[], by simp, by simp, rfl⟩

theorem holds_single {item : Option α} (h : piece t item) : Holds piece t item.toList :=
  ⟨[(t, item)], by simp, by simpa using h, by cases item <;> rfl⟩

/-- Two texts of pieces make one, with the items of both. -/
theorem Holds.append (hs : Holds piece s items) (ht : Holds piece t more) :
    Holds piece (s ++ t) (items ++ more) := by
  obtain ⟨before, rfl, hbefore, rfl⟩ := hs
  obtain ⟨after, rfl, hafter, rfl⟩ := ht
  exact ⟨before ++ after, by simp, List.forall_mem_append.mpr ⟨hbefore, hafter⟩, by simp⟩

/-- Joined texts hold the items of each of them. -/
theorem holds_join {f : β → String} {g : β → List α} {l : List β}
    (h : ∀ x ∈ l, Holds piece (f x) (g x)) :
    Holds piece (String.join (l.map f)) (l.flatMap g) := by
  induction l with
  | nil => simpa using holds_nil piece
  | cons x l ih =>
    obtain ⟨hx, hl⟩ := List.forall_mem_cons.mp h
    simpa using hx.append (ih hl)

/-- Texts with a separator between them hold the items of each, and none for the separator. -/
theorem holds_intercalate {separator : String} (hseparator : piece separator none)
    {f : β → String} {g : β → List α} {l : List β} (h : ∀ x ∈ l, Holds piece (f x) (g x)) :
    Holds piece (String.intercalate separator (l.map f)) (l.flatMap g) := by
  induction l with
  | nil => simpa using holds_nil piece
  | cons x l ih =>
    obtain ⟨hx, hl⟩ := List.forall_mem_cons.mp h
    cases l with
    | nil => simpa using hx
    | cons y l => simpa using (hx.append (holds_single hseparator)).append (ih hl)

/-- The items may be others, if a piece stands for what has become of its item. -/
theorem Holds.filterMap {piece' : String → Option β → Prop} (f : α → Option β)
    (hpiece : ∀ t item, piece t item → piece' t (item.bind f)) (h : Holds piece t items) :
    Holds piece' t (items.filterMap f) := by
  obtain ⟨pieces, rfl, hpieces, rfl⟩ := h
  refine ⟨pieces.map fun p => (p.1, p.2.bind f), by simp [Function.comp_def], ?_, ?_⟩
  · intro q hq
    obtain ⟨p, hp, rfl⟩ := List.mem_map.mp hq
    exact hpiece _ _ (hpieces p hp)
  · rw [List.filterMap_map, List.filterMap_filterMap]
    rfl

/-- Where the items are split, the text is. -/
theorem Holds.split (h : Holds piece t (items ++ more)) :
    ∃ s u, t = s ++ u ∧ Holds piece s items ∧ Holds piece u more := by
  obtain ⟨pieces, rfl, hpieces, heq⟩ := h
  obtain ⟨before, after, rfl, rfl, rfl⟩ := List.filterMap_eq_append_iff.mp heq
  obtain ⟨hbefore, hafter⟩ := List.forall_mem_append.mp hpieces
  exact ⟨_, _, by simp, ⟨before, rfl, hbefore, rfl⟩, ⟨after, rfl, hafter, rfl⟩⟩

/-- The first item stands behind pieces that stand for none. -/
theorem Holds.first (h : Holds piece t (x :: items)) :
    ∃ s u v, t = s ++ u ++ v ∧ Holds piece s [] ∧ piece u (some x) := by
  obtain ⟨pieces, rfl, hpieces, heq⟩ := h
  obtain ⟨before, ⟨u, item⟩, after, rfl, hnone, rfl, -⟩ := List.filterMap_eq_cons_iff.mp heq
  obtain ⟨hbefore, hrest⟩ := List.forall_mem_append.mp hpieces
  refine ⟨_, u, String.join (after.map (·.1)), by simp [String.append_assoc],
    ⟨before, rfl, hbefore, List.filterMap_eq_nil_iff.mpr hnone⟩, ?_⟩
  exact hrest _ (List.mem_cons_self ..)

/-- A text of pieces ends with a line if all of its pieces do. -/
theorem Holds.endsLine (hpiece : ∀ t item, piece t item → EndsLine t)
    (h : Holds piece t items) : EndsLine t := by
  obtain ⟨pieces, rfl, hpieces, -⟩ := h
  refine endsLine_join fun u hu => ?_
  obtain ⟨p, hp, rfl⟩ := List.mem_map.mp hu
  exact hpiece _ _ (hpieces p hp)

/-- An item's piece starts a line. -/
theorem Holds.hasLine (hpiece : ∀ t item, piece t item → EndsLine t) (h : Holds piece t items)
    (hx : x ∈ items) (hstart : ∀ u, piece u (some x) → ∃ rest, u = start ++ rest) :
    HasLine t start := by
  obtain ⟨before, after, rfl⟩ := List.append_of_mem hx
  obtain ⟨s, u, rfl, hs, hu⟩ := h.split
  obtain ⟨blank, v, w, rfl, hblank, hv⟩ := hu.first
  obtain ⟨rest, rfl⟩ := hstart v hv
  have hbefore := (hs.endsLine hpiece).append (hblank.endsLine hpiece)
  exact ⟨s ++ blank, rest ++ w, by simp [String.append_assoc], hbefore⟩

end Text

open Text (Holds HasLine EndsLine)

/-! ### Declarations -/

inductive TypeExpr.Spelled : TypeExpr → String → Prop
  | leaf (text : String) : Spelled (.leaf text) text
  | reference (name : String) : Spelled (.reference name) name
  | array {item : TypeExpr} {t : String} (h : Spelled item t) :
      Spelled (.array item) ("Array<" ++ t ++ ">")
  | orNull {inner : TypeExpr} {t : String} (h : Spelled inner t) :
      Spelled (.orNull inner) (t ++ " | null")

/-- A property has a line, with a question mark if it may be left out. -/
inductive Property.Spelled : Property → String → Prop
  | required {name t : String} {type : TypeExpr} (h : type.Spelled t) :
      Spelled ⟨name, false, type⟩ ("  " ++ name ++ ": " ++ t ++ "\n")
  | optional {name t : String} {type : TypeExpr} (h : type.Spelled t) :
      Spelled ⟨name, true, type⟩ ("  " ++ name ++ "?" ++ ": " ++ t ++ "\n")

inductive Property.SpelledAll : List Property → String → Prop
  | nil : SpelledAll [] ""
  | cons {p : Property} {properties : List Property} {line lines : String} (h : p.Spelled line)
      (hrest : SpelledAll properties lines) : SpelledAll (p :: properties) (line ++ lines)

/-- An object shape is intersected with the types of its fragments, and a union lists the types of
its members. -/
inductive DeclaredType.Spelled : DeclaredType → String → Prop
  | leaf (text : String) : Spelled (.leaf text) text
  | properties {p : Property} {properties : List Property} {lines : String}
      (h : Property.SpelledAll (p :: properties) lines) :
      Spelled (.object [] (p :: properties)) ("\x7b\n" ++ lines ++ "\x7d")
  | noProperties : Spelled (.object [] []) "\x7b\x7d"
  | intersection {fragment t : String} {fragments : List String} {properties : List Property}
      (h : Spelled (.object fragments properties) t) :
      Spelled (.object (fragment :: fragments) properties) (fragment ++ " & " ++ t)
  | never : Spelled (.alternatives []) "never"
  | alternative (name : String) : Spelled (.alternatives [name]) name
  | alternatives {name next t : String} {names : List String}
      (h : Spelled (.alternatives (next :: names)) t) :
      Spelled (.alternatives (name :: next :: names)) (name ++ " | " ++ t)

namespace Template

/-- Source as it stands in a literal: a backslash is before what would end the literal or open a
substitution, and before backslashes. -/
inductive SourceSpelled : List Char → List Char → Prop
  | nil : SourceSpelled [] []
  | plain {c : Char} {cs text : List Char} (hc : ¬ Special c cs) (h : SourceSpelled cs text) :
      SourceSpelled (c :: cs) (c :: text)
  | special {c : Char} {cs text : List Char} (hc : Special c cs) (h : SourceSpelled cs text) :
      SourceSpelled (c :: cs) ('\\' :: c :: text)

/-- Each fragment's constant is substituted on a line of its own. -/
inductive LinesSpelled : List String → String → Prop
  | nil : LinesSpelled [] ""
  | cons {fragment t : String} {fragments : List String} (h : LinesSpelled fragments t) :
      LinesSpelled (fragment :: fragments) ("\n$\x7b" ++ ("_gql_" ++ fragment) ++ "\x7d" ++ t)

inductive Spelled : Template → String → Prop
  | literal {source lines : String} {text : List Char} {fragments : List String}
      (hsource : SourceSpelled source.toList text) (hlines : LinesSpelled fragments lines) :
      Spelled ⟨source, fragments⟩ ("gql\x60" ++ String.ofList text ++ lines ++ "\x60")

end Template

inductive OperationKind.MadeBy : OperationKind → String → Prop
  | query : MadeBy .query "defineQuery"
  | mutation : MadeBy .mutation "defineMutation"
  | subscription : MadeBy .subscription "defineSubscription"

/-- Types and operations are exported, the constant of a fragment is not. -/
inductive Declaration.Spelled : Declaration → String → Prop
  | type {name t : String} {body : DeclaredType} (h : body.Spelled t) :
      Spelled (.type name body) ("export type " ++ name ++ " = " ++ t ++ "\n")
  | operation {name input data definer t : String} {kind : OperationKind} {document : Template}
      (hdefiner : kind.MadeBy definer) (h : document.Spelled t) :
      Spelled (.operation name kind input data document)
        ("export const " ++ name ++ " = " ++ definer ++ "<" ++ input ++ ", " ++ data ++ ">(" ++ t ++
          ")\n")
  | fragment {name t : String} {document : Template} (h : document.Spelled t) :
      Spelled (.fragment name document) ("const " ++ ("_gql_" ++ name) ++ " = " ++ t ++ "\n")

/-- A piece of a module's body: an empty line, a section's title, or a declaration. -/
inductive Module.Piece (m : Module) : String → Option Declaration → Prop
  | blank : m.Piece "\n" none
  | title {s : Section} (hs : s ∈ m.sections) : m.Piece ("/*\n * " ++ s.title ++ "\n */\n\n") none
  | declaration {d : Declaration} {t : String} (h : d.Spelled t) : m.Piece t (some d)

/-! ### What is written is spelled -/

theorem TypeExpr.spelled_text (e : TypeExpr) : e.Spelled e.text := by
  induction e with
  | leaf => exact .leaf _
  | reference => exact .reference _
  | array item ih => exact .array ih
  | orNull inner ih => exact .orNull ih

theorem Property.spelled_text (p : Property) : p.Spelled p.text := by
  obtain ⟨name, optional, type⟩ := p
  cases optional with
  | false =>
    simpa [text] using @Spelled.required name _ _ type.spelled_text
  | true => exact .optional type.spelled_text

theorem Property.spelledAll_text (properties : List Property) :
    SpelledAll properties (String.join (properties.map Property.text)) := by
  induction properties with
  | nil => simpa using SpelledAll.nil
  | cons p properties ih => simpa using SpelledAll.cons p.spelled_text ih

theorem DeclaredType.spelled_propertiesText (properties : List Property) :
    Spelled (.object [] properties) (propertiesText properties) := by
  cases properties with
  | nil => exact .noProperties
  | cons p properties => exact .properties (Property.spelledAll_text _)

theorem DeclaredType.spelled_text (d : DeclaredType) : d.Spelled d.text := by
  cases d with
  | leaf t => exact .leaf t
  | object fragments properties =>
    induction fragments with
    | nil => simpa [text] using spelled_propertiesText properties
    | cons f fragments ih => simpa [text, String.append_assoc] using Spelled.intersection ih
  | alternatives names =>
    match names with
    | [] => exact .never
    | name :: rest =>
      induction rest generalizing name with
      | nil => simpa [text] using Spelled.alternative name
      | cons next rest ih =>
        simpa [text, String.append_assoc] using @Spelled.alternatives name _ _ _ (ih next)

namespace Template

theorem sourceSpelled_escape (cs : List Char) : SourceSpelled cs (escape cs) := by
  induction cs with
  | nil => exact .nil
  | cons c cs ih =>
    rw [escape_cons]
    by_cases hc : Special c cs
    · simpa [hc] using SourceSpelled.special hc ih
    · simpa [hc] using SourceSpelled.plain hc ih

theorem linesSpelled_substitutions (fragments : List String) :
    LinesSpelled fragments (String.join (fragments.map substitution)) := by
  induction fragments with
  | nil => simpa using LinesSpelled.nil
  | cons f fragments ih =>
    rw [List.map_cons, String.join_cons]
    exact .cons ih

theorem spelled_text (t : Template) : t.Spelled t.text :=
  .literal (sourceSpelled_escape _) (linesSpelled_substitutions _)

end Template

theorem OperationKind.madeBy_definer (kind : OperationKind) : kind.MadeBy kind.definer := by
  cases kind with
  | query => exact .query
  | mutation => exact .mutation
  | subscription => exact .subscription

theorem Declaration.spelled_text (d : Declaration) : d.Spelled d.text := by
  cases d with
  | type name body => exact .type body.spelled_text
  | operation name kind input data document =>
    exact .operation kind.madeBy_definer document.spelled_text
  | fragment name document => exact .fragment document.spelled_text

/-- The body of a module is made of its declarations in their order, of titles and of empty lines.
-/
theorem Module.holds_body (m : Module) : Holds m.Piece m.body m.declarations := by
  have hgroup : ∀ group ∈ m.sections.flatMap Section.groups,
      Holds m.Piece (Section.groupText group) group := by
    intro group _
    have h := Text.holds_join (l := group) fun d _ =>
      Text.holds_single (Piece.declaration (m := m) d.spelled_text)
    simpa [Section.groupText] using h
  refine Text.holds_join fun s hs => ?_
  have hgroups := Text.holds_intercalate (Piece.blank (m := m)) fun group hmem =>
    hgroup group (List.mem_flatMap.mpr ⟨s, hs, hmem⟩)
  have htitle := (Text.holds_single (Piece.blank (m := m))).append
    (Text.holds_single (Piece.title hs))
  rw [Section.text, ← String.append_assoc]
  simpa [List.flatMap_def] using htitle.append hgroups

/-- Every declaration ends with a line. -/
theorem Declaration.Spelled.endsLine {d : Declaration} {t : String} (h : d.Spelled t) :
    EndsLine t := by
  cases h with
  | type => exact Or.inr ⟨_, rfl⟩
  | operation => exact Text.endsLine_behind _ ")"
  | fragment => exact Or.inr ⟨_, rfl⟩

theorem Module.Piece.endsLine {m : Module} {t : String} {d : Option Declaration}
    (h : m.Piece t d) : EndsLine t := by
  cases h with
  | blank => exact Or.inr ⟨"", rfl⟩
  | title => exact Text.endsLine_behind _ "\n */\n"
  | declaration h => exact h.endsLine

end QueryBindings
