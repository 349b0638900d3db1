import QueryBindings.Proofs.Module.TypeText
import QueryBindings.Proofs.Shape.WellFormed
import QueryBindings.Proofs.Syntax.Reading
import QueryBindings.Syntax.TypeSystem.Parser
/-!
Type annotations as texts and as modifiers.

The text of an annotation is read as a type that folds into the annotation again, as deep as a type
may be nested in an input object. The modifiers and the name of an annotation are another way to
write it: no two annotations share them, and every list of modifiers that does not say twice that a
layer is nullable belongs to one.
-/
namespace QueryBindings

open QueryBindings.Parser

namespace TypeAnnotation

def nesting : TypeAnnotation → Nat
  | named _ _ => 0
  | list item _ => item.nesting + 1

/-! ### Texts -/

theorem ofRefWith_marked (m n : Bool) (t : TypeRef) :
    ofRefWith m (t.marked n) = ofRefWith (m && n) t := by
  cases m <;> cases n <;> rfl

theorem ofRef_toRef (a : TypeAnnotation) : ofRef a.toRef = a := by
  induction a with
  | named name n => cases n <;> rfl
  | list item n ih =>
    rw [toRef, ofRef, ofRefWith_marked, Bool.true_and, ofRefWith]
    exact congrArg (list · n) ih

def bangTokens (nullable : Bool) : List Token := if nullable then [] else [.punctuator '!']

def tokens : TypeAnnotation → List Token
  | named name n => .name name :: bangTokens n
  | list item n => .punctuator '[' :: (item.tokens ++ .punctuator ']' :: bangTokens n)

theorem lex_bang (n : Bool) (cs : List Char) :
    Token.lex ((bang n).toList ++ cs) = (Token.lex cs).map (bangTokens n ++ ·) := by
  cases n with
  | true => simp [bang, bangTokens]
  | false => simpa [bang, bangTokens] using Token.lex_punctuator (c := '!') rfl cs

/-- The characters behind an annotation must not go on with its name. -/
theorem lex_text {a : TypeAnnotation} (h : Token.IsName a.baseName) {cs : List Char}
    (hcs : ∀ d ∈ cs.head?, Token.isNameChar d = false) :
    Token.lex (a.text.toList ++ cs) = (Token.lex cs).map (a.tokens ++ ·) := by
  induction a generalizing cs with
  | named name n =>
    have hname : Token.IsName name := h
    have hbang : ∀ d ∈ ((bang n).toList ++ cs).head?, Token.isNameChar d = false := by
      cases n with
      | true => simpa [bang] using hcs
      | false =>
        intro d hd
        obtain rfl := Option.some.inj hd
        rfl
    rw [text, String.toList_append, List.append_assoc, Token.lex_name hname hbang, lex_bang,
      Option.map_map]
    rfl
  | list item n ih =>
    have hcut : (list item n).text.toList ++ cs =
        '[' :: (item.text.toList ++ ']' :: ((bang n).toList ++ cs)) := by
      simp [text]
    rw [hcut, Token.lex_punctuator rfl, ih h (by simp; rfl), Token.lex_punctuator rfl, lex_bang,
      Option.map_map, Option.map_map, Option.map_map]
    congr 1
    funext l
    simp [tokens]

/-- A mark that is there is read, and none is read that is not. -/
theorem reads_readBang (n : Bool) (t : TypeRef) {b : List Token}
    (hb : b.head? ≠ some (.punctuator '!')) :
    Reads (bangTokens n ++ b) b (· = t.marked n) (TypeRef.readBang t) := by
  cases n with
  | true =>
    apply (reads_sees_other hb).bind
    rintro _ rfl
    exact .pure rfl
  | false =>
    apply (reads_sees _ _).bind
    rintro _ rfl
    exact (reads_punctuator '!' b).bind fun _ _ => .pure rfl

theorem reads_named (name : String) (n : Bool) {b : List Token}
    (hb : b.head? ≠ some (.punctuator '!')) :
    Reads (.name name :: (bangTokens n ++ b)) b (· = (named name n).toRef)
      (Parser.name >>= fun x => TypeRef.readBang (.named x)) := by
  apply (reads_name name _).bind
  rintro _ rfl
  exact reads_readBang n _ hb

/-- Each list layer takes one unit of room. -/
theorem reads_toRef (a : TypeAnnotation) {room : Nat} (h : a.nesting ≤ room) {b : List Token}
    (hb : b.head? ≠ some (.punctuator '!')) :
    Reads (a.tokens ++ b) b (· = a.toRef) (TypeRef.read room) := by
  induction a generalizing room b with
  | named name n =>
    cases room with
    | zero => exact reads_named name n hb
    | succ room =>
      apply (reads_sees_other (t := .punctuator '[') (by simp [tokens])).bind
      rintro _ rfl
      exact reads_named name n hb
  | list item n ih =>
    cases room with
    | zero => simp [nesting] at h
    | succ room =>
      have hitem := ih (Nat.le_of_succ_le_succ h) (b := .punctuator ']' :: (bangTokens n ++ b))
        (by simp)
      rw [tokens, List.cons_append, List.append_assoc, List.cons_append]
      apply (reads_sees _ _).bind
      rintro _ rfl
      apply (reads_punctuator '[' _).bind
      intro _ _
      apply hitem.bind
      rintro _ rfl
      apply (reads_punctuator ']' _).bind
      intro _ _
      exact reads_readBang n _ hb

end TypeAnnotation

namespace TypeSystem

open TypeAnnotation (ofRef)

/-- The text of an input object with one field of the given type. -/
def inputText (type : String) : String := "input I \x7b f: " ++ type ++ " \x7d"

def inputTokens (type : List Token) : List Token :=
  [.name "input", .name "I", .punctuator '\x7b', .name "f", .punctuator ':'] ++
    (type ++ [.punctuator '\x7d'])

/-- The text of the input object is scanned into its tokens. -/
theorem lex_inputText {a : TypeAnnotation} (h : Token.IsName a.baseName) :
    Token.lex (inputText a.text).toList = some (inputTokens a.tokens) := by
  have hinput : Token.IsName "input" :=
    ⟨'i', ['n', 'p', 'u', 't'], rfl, rfl, by simp [Token.isNameChar]⟩
  have hI : Token.IsName "I" := ⟨'I', [], rfl, rfl, by simp⟩
  have hf : Token.IsName "f" := ⟨'f', [], rfl, rfl, by simp⟩
  have hcut : (inputText a.text).toList = "input".toList ++ (' ' :: ("I".toList ++ (' ' :: '\x7b' ::
      ' ' :: ("f".toList ++ (':' :: ' ' :: (a.text.toList ++ [' ', '\x7d'])))))) := by
    simp [inputText]
  have hend : Token.lex [' ', '\x7d'] = some [.punctuator '\x7d'] := by
    rw [Token.lex_ignored rfl, Token.lex_punctuator rfl, Token.lex_nil]
    rfl
  rw [hcut, Token.lex_name hinput (by simp; rfl), Token.lex_ignored rfl,
    Token.lex_name hI (by simp; rfl), Token.lex_ignored rfl, Token.lex_punctuator rfl,
    Token.lex_ignored rfl, Token.lex_name hf (by simp; rfl), Token.lex_punctuator rfl,
    Token.lex_ignored rfl, TypeAnnotation.lex_text h (by simp; rfl), hend]
  rfl

theorem reads_skipDescription {b : List Token} (hb : ∀ s, b.head? ≠ some (.string s)) :
    Reads b b (fun _ => True) skipDescription := by
  apply (reads_peek b).bind
  rintro x rfl
  split
  · rename_i s hs
    exact absurd hs (hb s)
  · exact .pure trivial

theorem reads_readDirectives {b : List Token} (room : Nat)
    (hb : b.head? ≠ some (.punctuator '@')) : Reads b b (fun _ => True) (readDirectives room) := by
  have hnone : b.head?.any (· = .punctuator '@') = false := by
    cases h : b.head? <;> simp_all
  exact (reads_itemsWhile_none _ hnone).bind fun _ _ => .pure trivial

theorem reads_skipDefault {b : List Token} (room : Nat)
    (hb : b.head? ≠ some (.punctuator '=')) : Reads b b (fun _ => True) (skipDefault room) := by
  have hnone : Reads b b (· = none)
      (whenSeen (.punctuator '=') (do punctuator '='; Value.read false room)) := by
    apply (reads_sees_other hb).bind
    rintro _ rfl
    exact .pure rfl
  exact hnone.bind fun _ _ => .pure trivial

/-- The field is read with the annotation's type, if there is room for its lists. -/
theorem reads_readInputValue (a : TypeAnnotation) {room : Nat} (h : a.nesting ≤ room)
    (b : List Token) :
    Reads (.name "f" :: .punctuator ':' :: (a.tokens ++ .punctuator '\x7d' :: b))
      (.punctuator '\x7d' :: b) (fun field => field.name = "f" ∧ field.type = a.toRef)
      (readInputValue room) := by
  apply (reads_position _ _).bind
  intro position _
  apply (reads_skipDescription (by simp)).bind
  intro _ _
  apply (reads_name "f" _).bind
  rintro _ rfl
  apply (reads_punctuator ':' _).bind
  intro _ _
  apply (a.reads_toRef h (by simp)).bind
  rintro _ rfl
  apply (reads_skipDefault room (by simp)).bind
  intro _ _
  apply (reads_readDirectives room (by simp)).bind
  intro _ _
  exact .pure ⟨rfl, rfl⟩

/-- The brackets of an input object's fields take one unit of the room. -/
theorem reads_inputFields (a : TypeAnnotation) (h : a.nesting ≤ 49) :
    Reads (.punctuator '\x7b' :: .name "f" :: .punctuator ':' ::
        (a.tokens ++ [.punctuator '\x7d'])) []
      (fun fields => ∃ q, fields = [⟨q, "f", a.toRef⟩]) (readFields readInputValue) := by
  have hfield := reads_itemsUntil_one (reads_readInputValue a h []) (by simp) (by simp)
  have hfields : Reads (.punctuator '\x7b' :: .name "f" :: .punctuator ':' ::
        (a.tokens ++ [.punctuator '\x7d'])) []
      (fun fields => ∃ q, fields = [⟨q, "f", a.toRef⟩])
      (bracketed '\x7b' '\x7d' readInputValue (49 + 1)) := by
    apply (reads_punctuator '\x7b' _).bind
    intro _ _
    apply (reads_sees_other (t := .punctuator '\x7d') (by simp)).bind
    rintro _ rfl
    intro input hinput
    obtain ⟨fields, r, hread, hr, field, rfl, hname, htype⟩ := hfield input hinput
    exact ⟨[field], r, hread, hr, field.position, by rw [← hname, ← htype]⟩
  apply (reads_sees _ _).bind
  rintro _ rfl
  exact hfields

/-- The input object is read, if the annotation has no more than 49 layers of lists. -/
theorem reads_inputObject (a : TypeAnnotation) (h : a.nesting ≤ 49) :
    Reads (inputTokens a.tokens) [] (fun e => ∃ p q,
      e = .type ⟨p, "I", .inputObject [⟨q, "f", a.toRef⟩]⟩) Definition.read := by
  have hobject : Reads (inputTokens a.tokens) [] (fun reading => ∃ p q,
      reading.type = ⟨p, "I", .inputObject [⟨q, "f", a.toRef⟩]⟩) readInputObject := by
    apply (reads_position _ _).bind
    intro p _
    apply (reads_keyword "input" _).bind
    intro _ _
    apply (reads_name "I" _).bind
    rintro _ rfl
    apply (reads_readDirectives maxDepth (by simp)).bind
    intro _ _
    apply (reads_inputFields a h).bind
    rintro _ ⟨q, rfl⟩
    exact .pure ⟨p, q, rfl⟩
  -- Three times the next token decides, which is the keyword.
  apply (reads_peek _).bind
  rintro _ rfl
  apply (reads_skipDescription (by simp [inputTokens])).bind
  intro _ _
  apply (reads_peek _).bind
  rintro _ rfl
  have htype : Reads (inputTokens a.tokens) [] (fun reading => ∃ p q,
      reading.type = ⟨p, "I", .inputObject [⟨q, "f", a.toRef⟩]⟩) readType := by
    apply (reads_peek _).bind
    rintro _ rfl
    exact hobject
  apply htype.bind
  rintro reading ⟨p, q, hreading⟩
  exact .pure ⟨p, q, by rw [hreading]⟩

/-- An annotation's text as the type of a field is read as a type that folds into it. -/
theorem exists_parse_inputText {a : TypeAnnotation} (hname : Token.IsName a.baseName)
    (h : a.nesting ≤ 49) : ∃ p q t,
      Definition.parse (inputText a.text) = some [.type ⟨p, "I", .inputObject [⟨q, "f", t⟩]⟩] ∧
        ofRef t = a := by
  obtain ⟨tokens, hscan, htokens⟩ := Token.exists_scan (lex_inputText hname)
  rw [String.ofList_toList] at hscan
  have hne : tokens ≠ [] := by
    rintro rfl
    contradiction
  have hread := reads_inputObject a h
  rw [← htokens] at hread
  obtain ⟨e, hparse, p, q, rfl⟩ := parseAll_of_reads hscan hne hread
  exact ⟨p, q, a.toRef, hparse, a.ofRef_toRef⟩

end TypeSystem

namespace TypeAnnotation

/-! ### Modifiers -/

/-- The annotation that modifiers make of a name, from the outermost layer to the innermost. -/
def ofModifiers (name : String) : List Modifier → TypeAnnotation
  | [] => named name false
  | .arrayOf :: rest => list (ofModifiers name rest) false
  | [.nullable] => named name true
  | .nullable :: .arrayOf :: rest => list (ofModifiers name rest) true
  | .nullable :: .nullable :: rest => ofModifiers name (.nullable :: rest)

/-- Modifiers leave the name as it is. -/
theorem baseName_ofModifiers (name : String) (l : List Modifier) :
    (ofModifiers name l).baseName = name := by
  fun_induction ofModifiers name l with
  | case1 | case3 => rfl
  | case2 rest ih | case4 rest ih | case5 rest ih => exact ih

/-- Layers that are not said twice are the modifiers of the annotation that they make. -/
theorem modifiers_ofModifiers {name : String} {l : List Modifier} (h : Modifier.Undoubled l) :
    (ofModifiers name l).modifiers = l := by
  unfold Modifier.Undoubled at h
  fun_induction ofModifiers name l with
  | case1 | case3 => rfl
  | case2 rest ih =>
    rw [modifiers_list, ih fun hi => h (hi.trans (List.suffix_cons _ _).isInfix)]
    rfl
  | case4 rest ih =>
    rw [modifiers_list, ih fun hi => h (hi.trans (List.suffix_append [_, _] rest).isInfix)]
    rfl
  | case5 rest ih => exact absurd (List.prefix_append [_, _] rest).isInfix h

/-- The name and the modifiers of an annotation. -/
def unwrap (a : TypeAnnotation) : String × { l : List Modifier // Modifier.Undoubled l } :=
  (a.baseName, ⟨a.modifiers, a.undoubled_modifiers⟩)

theorem bijective_unwrap : Function.Bijective unwrap := by
  constructor
  · intro a b h
    obtain ⟨hname, hmodifiers⟩ := Prod.mk.inj h
    exact eq_iff_modifiers.mpr ⟨hname, congrArg Subtype.val hmodifiers⟩
  · rintro ⟨name, l, hl⟩
    refine ⟨ofModifiers name l, ?_⟩
    simp only [unwrap, baseName_ofModifiers, modifiers_ofModifiers hl]

/-- An annotation over a name of the grammar, with no more lists than a type in an input object may
have, is found again by its text. Any annotation is found again by its name and its modifiers, and
every list of modifiers that names no layer nullable twice is that of one. -/
theorem recovered_from_text_and_modifiers :
    (∀ a : TypeAnnotation, Token.IsName a.baseName → a.nesting ≤ 49 → ∃ p q t,
      TypeSystem.Definition.parse (TypeSystem.inputText a.text) =
        some [.type ⟨p, "I", .inputObject [⟨q, "f", t⟩]⟩] ∧ ofRef t = a) ∧
    Function.Bijective unwrap :=
  ⟨fun _ hname h => TypeSystem.exists_parse_inputText hname h, bijective_unwrap⟩

/-- The annotation `[[Int!]]!`. -/
theorem recovered_from_text_and_modifiers_sample :
    (∃ p q t, TypeSystem.Definition.parse (TypeSystem.inputText "[[Int!]]!") =
        some [.type ⟨p, "I", .inputObject [⟨q, "f", t⟩]⟩] ∧
      ofRef t = list (list (named "Int" false) true) false) ∧
      Function.Bijective unwrap := by
  have hname : Token.IsName "Int" := ⟨'I', ['n', 't'], rfl, rfl, by simp [Token.isNameChar]⟩
  have h := recovered_from_text_and_modifiers
  exact ⟨h.1 (list (list (named "Int" false) true) false) hname (by decide), h.2⟩

end TypeAnnotation

end QueryBindings
