import QueryBindings.Proofs.Syntax.Lookahead
import QueryBindings.Syntax.Executable.Parser
/-!
Definitions up to their positions.

The tokens of a definition determine it up to the positions in it. A definition ends with the brace
that closes its selections, so that nothing behind it matters, and it stands at its first token.
-/
namespace QueryBindings

open QueryBindings.Parser

/-! ### Without positions -/

mutual

def Selection.unplaced : Selection → Selection
  | .field _ alias? name arguments directives selections =>
    .field .start alias? name arguments directives (unplacedAll selections)
  | .spread _ fragment directives => .spread .start fragment directives
  | .inline _ condition? directives selections =>
    .inline .start condition? directives (unplacedAll selections)

def Selection.unplacedAll : List Selection → List Selection
  | [] => []
  | s :: rest => s.unplaced :: unplacedAll rest

end

def VariableDefinition.unplaced (v : VariableDefinition) : VariableDefinition :=
  { v with position := .start }

/-- The definition as it would be if everything stood at the start of the text. -/
def Definition.unplaced : Definition → Definition
  | operation o => operation {
      position := .start
      kind := o.kind
      name? := o.name?
      parameters := o.parameters.map VariableDefinition.unplaced
      directives := o.directives
      selections := Selection.unplacedAll o.selections }
  | fragment f => fragment {
      position := .start
      name := f.name
      condition := f.condition
      directives := f.directives
      selections := Selection.unplacedAll f.selections }
  | shorthand _ selections => shorthand .start (Selection.unplacedAll selections)

/-! ### Types and values -/

theorem forall₂_eq {α : Type} {xs ys : List α} (h : List.Forall₂ Eq xs ys) : xs = ys := by
  rwa [List.forall₂_eq_eq_eq] at h

theorem TypeRef.alike_readBang (inner : TypeRef) :
    Alike false Eq (readBang inner) (readBang inner) := by
  apply (alike_seesPunctuator '!').bind_rest
  rintro bang _ rfl
  apply Alike.ite
  · apply Alike.weaken
    apply (alike_punctuator '!').bind_eats
    intro _ _ _
    exact Alike.pure rfl
  · exact Alike.pure rfl

theorem TypeRef.alike_readName :
    Alike true Eq (do readBang (.named (← Parser.name))) (do readBang (.named (← Parser.name))) := by
  apply alike_name.bind_eats
  rintro name _ rfl
  exact alike_readBang _

theorem TypeRef.alike_read (room : Nat) : Alike true Eq (read room) (read room) := by
  induction room with
  | zero => exact alike_readName
  | succ room ih =>
    apply (alike_seesPunctuator '[').bind_rest
    rintro opens _ rfl
    apply Alike.ite
    · apply (alike_punctuator '[').bind_eats
      intro _ _ _
      apply ih.bind_rest
      rintro item _ rfl
      apply (alike_punctuator ']').bind_rest
      intro _ _ _
      exact alike_readBang _
    · exact alike_readName

namespace Value

theorem alike_readSimple (allowVariables : Bool) :
    Alike true Eq (readSimple allowVariables) (readSimple allowVariables) := by
  apply (alike_seesPunctuator '$').bind_rest
  rintro opens _ rfl
  apply Alike.ite
  · apply Alike.ite
    · apply (alike_punctuator '$').bind_eats
      intro _ _ _
      apply alike_name.bind_rest
      rintro name _ rfl
      exact Alike.pure rfl
    · exact Alike.failure
  · exact alike_take _

theorem alike_readField {value : Parser Value} (h : Alike true Eq value value) :
    Alike true Eq (readField value) (readField value) := by
  apply alike_name.bind_eats
  rintro name _ rfl
  apply (alike_punctuator ':').bind_eats
  intro _ _ _
  apply h.bind_eats
  rintro v _ rfl
  exact Alike.pure rfl

theorem alike_read (allowVariables : Bool) (room : Nat) :
    Alike true Eq (read allowVariables room) (read allowVariables room) := by
  induction room with
  | zero => exact alike_readSimple allowVariables
  | succ room ih =>
    apply (alike_seesPunctuator '[').bind_rest
    rintro opens _ rfl
    apply Alike.ite
    · apply (alike_punctuator '[').bind_eats
      intro _ _ _
      apply (closed_itemsUntil ih ']').alike.bind_eats
      intro items items' hitems
      exact Alike.pure (congrArg list (forall₂_eq hitems))
    · apply (alike_seesPunctuator '\x7b').bind_rest
      rintro opens' _ rfl
      apply Alike.ite
      · apply (alike_punctuator '\x7b').bind_eats
        intro _ _ _
        apply (closed_itemsUntil (alike_readField ih) '\x7d').alike.bind_eats
        intro fields fields' hfields
        exact Alike.pure (congrArg ofFields (forall₂_eq hfields))
      · exact alike_readSimple allowVariables

end Value

theorem Argument.alike_readAll (allowVariables : Bool) (room : Nat) :
    Alike false Eq (readAll allowVariables room) (readAll allowVariables room) :=
  (alike_optionalBracketed (fun room => Value.alike_readField (Value.alike_read allowVariables room))
    '(' ')' room).imp fun _ _ => forall₂_eq

namespace Directive

theorem alike_read (allowVariables : Bool) (room : Nat) :
    Alike true Eq (read allowVariables room) (read allowVariables room) := by
  apply (alike_punctuator '@').bind_eats
  intro _ _ _
  apply alike_name.bind_eats
  rintro name _ rfl
  apply (Argument.alike_readAll allowVariables room).bind_rest
  rintro arguments _ rfl
  exact Alike.pure rfl

theorem alike_readAll (allowVariables : Bool) (room : Nat) :
    Alike false Eq (readAll allowVariables room) (readAll allowVariables room) :=
  (alike_itemsWhile (alike_read allowVariables room) _).imp fun _ _ => forall₂_eq

end Directive

/-! ### Selections -/

theorem rel_eq {α : Type} {x y : Option α} (h : Option.Rel Eq x y) : x = y := by
  cases h with
  | none => rfl
  | some h => rw [h]

namespace Selection

abbrev SameAll (xs ys : List Selection) : Prop := unplacedAll xs = unplacedAll ys

theorem sameAll_of_forall₂ {xs ys : List Selection}
    (h : List.Forall₂ (fun x y => x.unplaced = y.unplaced) xs ys) : SameAll xs ys := by
  induction h with
  | nil => rfl
  | cons hxy _ ih => rw [SameAll, unplacedAll, unplacedAll, hxy, ih]

theorem sameAll_getD {xs ys : Option (List Selection)} (h : Option.Rel SameAll xs ys) :
    SameAll (xs.getD []) (ys.getD []) := by
  cases h with
  | none => rfl
  | some h => exact h

variable {selectionSet : Parser (List Selection)}

theorem alike_readField (hset : Alike true SameAll selectionSet selectionSet) (room : Nat) :
    Alike true (fun x y => x.unplaced = y.unplaced) (readField room selectionSet)
      (readField room selectionSet) := by
  apply alike_position.bind_rest
  intro position position' _
  apply alike_name.bind_eats
  rintro first _ rfl
  have hsecond : Alike true Eq (punctuator ':' >>= fun _ => Parser.name)
      (punctuator ':' >>= fun _ => Parser.name) :=
    (alike_punctuator ':').bind_eats fun _ _ _ => alike_name
  apply (hsecond.whenSeen _).bind_rest
  intro second second' h
  obtain rfl := rel_eq h
  apply (Argument.alike_readAll true room).bind_rest
  rintro arguments _ rfl
  apply (Directive.alike_readAll true room).bind_rest
  rintro directives _ rfl
  apply (hset.whenSeen _).bind_rest
  intro selections selections' hselections
  apply Alike.pure
  have hsame := sameAll_getD hselections
  cases second <;> simp only [unplaced, hsame]

theorem alike_readFragment (hset : Alike true SameAll selectionSet selectionSet) (room : Nat) :
    Alike true (fun x y => x.unplaced = y.unplaced) (readFragment room selectionSet)
      (readFragment room selectionSet) := by
  have hinline : ∀ (p p' : Position) (condition? : Option String),
      Alike true (fun x y => x.unplaced = y.unplaced)
        (Directive.readAll true room >>= fun directives => selectionSet >>= fun selections =>
          pure (inline p condition? directives selections))
        (Directive.readAll true room >>= fun directives => selectionSet >>= fun selections =>
          pure (inline p' condition? directives selections)) := by
    intro p p' condition?
    apply (Directive.alike_readAll true room).bind_rest
    rintro directives _ rfl
    apply hset.bind_eats
    intro selections selections' hselections
    apply Alike.pure
    rw [unplaced, unplaced, hselections]
  apply alike_position.bind_rest
  intro p p' _
  apply (alike_sees _).bind_rest
  rintro on _ rfl
  cases on with
  | true =>
    apply (alike_keyword "on").bind_eats
    intro _ _ _
    apply alike_name.bind_eats
    rintro condition _ rfl
    exact hinline p p' (some condition)
  | false =>
    apply alike_peek.bind_rest
    rintro next _ rfl
    split
    · apply alike_name.bind_eats
      rintro fragment _ rfl
      apply (Directive.alike_readAll true room).bind_rest
      rintro directives _ rfl
      exact Alike.pure rfl
    · exact hinline p p' none

theorem alike_read (hset : Alike true SameAll selectionSet selectionSet) (room : Nat) :
    Alike true (fun x y => x.unplaced = y.unplaced) (read room selectionSet)
      (read room selectionSet) := by
  apply (alike_sees .ellipsis).bind_rest
  rintro dots _ rfl
  apply Alike.ite
  · apply (alike_take _).bind_eats
    intro _ _ _
    exact alike_readFragment hset room
  · exact alike_readField hset room

/-- Selections end with the brace that closes them. -/
theorem closed_readSet (room : Nat) : Closed '\x7d' SameAll (readSet room) (readSet room) := by
  induction room with
  | zero =>
    intro input xs r h
    contradiction
  | succ room ih =>
    apply (alike_punctuator '\x7b').bind_closed
    intro _ _ _
    exact (closed_someUntil (alike_read ih.alike room) '\x7d').imp fun _ _ => sameAll_of_forall₂

end Selection

/-! ### Definitions -/

theorem VariableDefinition.alike_read (room : Nat) :
    Alike true (fun x y => x.unplaced = y.unplaced) (read room) (read room) := by
  apply alike_position.bind_rest
  intro p p' _
  apply (alike_punctuator '$').bind_eats
  intro _ _ _
  apply alike_name.bind_rest
  rintro name _ rfl
  apply (alike_punctuator ':').bind_rest
  intro _ _ _
  apply (TypeRef.alike_read room).bind_rest
  rintro type _ rfl
  have hdefault : Alike true Eq (punctuator '=' >>= fun _ => Value.read false room)
      (punctuator '=' >>= fun _ => Value.read false room) :=
    (alike_punctuator '=').bind_eats fun _ _ _ => Value.alike_read false room
  apply (hdefault.whenSeen _).bind_rest
  intro default? default?' h
  obtain rfl := rel_eq h
  exact Alike.pure rfl

theorem VariableDefinition.map_unplaced {xs ys : List VariableDefinition}
    (h : List.Forall₂ (fun x y => x.unplaced = y.unplaced) xs ys) :
    xs.map unplaced = ys.map unplaced := by
  induction h with
  | nil => rfl
  | cons hxy _ ih => rw [List.map_cons, List.map_cons, hxy, ih]

namespace Definition

abbrev Same (d e : Definition) : Prop := d.unplaced = e.unplaced

/-- An operation ends with a closing brace. -/
theorem closed_readOperation (kind : OperationKind) :
    Closed '\x7d' Same (readOperation kind) (readOperation kind) := by
  apply alike_position.bind_closed
  intro p p' _
  apply (alike_keyword kind.word).bind_closed
  intro _ _ _
  apply Alike.bind_closed (e := false) (R := Eq)
  · apply alike_peek.bind_rest
    rintro next _ rfl
    split
    · exact (alike_name.map fun _ _ h => congrArg some h).weaken
    · exact Alike.pure rfl
  rintro name? _ rfl
  apply (alike_optionalBracketed VariableDefinition.alike_read '(' ')' maxDepth).bind_closed
  intro parameters parameters' hparameters
  apply (Directive.alike_readAll true maxDepth).bind_closed
  rintro directives _ rfl
  apply (Selection.closed_readSet maxDepth).bind_pure
  intro selections selections' hselections
  simp only [Same, unplaced, VariableDefinition.map_unplaced hparameters, hselections]

theorem closed_readFragment : Closed '\x7d' Same readFragment readFragment := by
  apply alike_position.bind_closed
  intro p p' _
  apply (alike_keyword "fragment").bind_closed
  intro _ _ _
  apply alike_name.bind_closed
  rintro name _ rfl
  apply (alike_keyword "on").bind_closed
  intro _ _ _
  apply alike_name.bind_closed
  rintro condition _ rfl
  apply (Directive.alike_readAll true maxDepth).bind_closed
  rintro directives _ rfl
  apply (Selection.closed_readSet maxDepth).bind_pure
  intro selections selections' hselections
  simp only [Same, unplaced, hselections]

theorem closed_readShorthand : Closed '\x7d' Same readShorthand readShorthand := by
  apply alike_position.bind_closed
  intro p p' _
  apply (Selection.closed_readSet maxDepth).bind_pure
  intro selections selections' hselections
  simp only [Same, unplaced, hselections]

/-- Nothing behind a definition matters for it. -/
theorem closed_read : Closed '\x7d' Same read read := by
  apply alike_peek.bind_closed
  rintro next _ rfl
  split
  · exact closed_readOperation .query
  · exact closed_readOperation .mutation
  · exact closed_readOperation .subscription
  · exact closed_readFragment
  · exact closed_readShorthand

theorem position_of_bind {f : Position → Parser Definition} {input r : List PlacedToken}
    {e : Definition} (hf : ∀ p, Gives (fun d => d.position = p) (f p))
    (h : (Parser.position >>= f) input = some (e, r)) :
    input.head?.map (·.position) = some e.position := by
  obtain ⟨p, hp, he⟩ := position_bind_eq_some h
  rw [hp, hf p _ _ _ he]

/-- A definition stands at its first token. -/
theorem position_of_read {input r : List PlacedToken} {e : Definition}
    (h : read input = some (e, r)) : input.head?.map (·.position) = some e.position := by
  obtain ⟨next, input', hpeek, he⟩ := bind_eq_some.mp h
  obtain rfl : input = input' := (Prod.mk.inj (Option.some.inj hpeek)).2
  have hoperation : ∀ kind, readOperation kind input = some (e, r) →
      input.head?.map (·.position) = some e.position := by
    intro kind
    refine position_of_bind fun p => ?_
    exact .bind fun _ => .bind fun _ => .bind fun _ => .bind fun _ => .bind fun _ => .pure rfl
  split at he
  · exact hoperation .query he
  · exact hoperation .mutation he
  · exact hoperation .subscription he
  · refine position_of_bind (fun p => ?_) he
    exact .bind fun _ => .bind fun _ => .bind fun _ => .bind fun _ => .bind fun _ => .bind fun _ =>
      .pure rfl
  · exact position_of_bind (fun p => .bind fun _ => .pure rfl) he

/-- The tokens `ts` are read as the definition `e` up to positions, wherever they stand and whatever
follows. -/
def SpelledBy (e : Definition) (ts : List Token) : Prop :=
  ∀ used r, tokensOf used = ts → ∃ d, read (used ++ r) = some (d, r) ∧ Same d e

/-- The tokens `block` of a text are the definition `e`. -/
structure MadeOf (e : Definition) (block : List PlacedToken) : Prop where
  closes : ∃ ts, tokensOf block = ts ++ [.punctuator '\x7d']
  spelled : e.SpelledBy (tokensOf block)
  position : block.head?.map (·.position) = some e.position

theorem MadeOf.ne_nil {e : Definition} {block : List PlacedToken} (h : e.MadeOf block) :
    block ≠ [] := by
  rintro rfl
  obtain ⟨ts, hts⟩ := h.closes
  simp at hts

/-- A definition is made of the tokens that it is read from. -/
theorem madeOf_of_read {input r : List PlacedToken} {e : Definition}
    (h : read input = some (e, r)) : ∃ block, input = block ++ r ∧ e.MadeOf block := by
  obtain ⟨block, rfl, hcloses, hagain⟩ := closed_read input e r h
  have hposition := position_of_read h
  refine ⟨block, rfl, hcloses, ?_, ?_⟩
  · intro used r' hused
    obtain ⟨d, hd, hsame⟩ := hagain used r' hused
    exact ⟨d, hd, hsame.symm⟩
  · cases block with
    | nil =>
      obtain ⟨ts, hts⟩ := hcloses
      simp at hts
    | cons t block => exact hposition

/-! ### Documents -/

theorem read_nil : read [] = none := by
  cases h : read [] with
  | none => rfl
  | some z =>
    have hposition := position_of_read (e := z.1) (r := z.2) h
    contradiction

theorem parse_eq_some {text : String} {ds : List Definition} :
    parse text = some ds ↔ ∃ tokens, Token.scan text = some tokens ∧
      itemsWhile (fun _ => true) read tokens = some (ds, []) ∧ ds ≠ [] := by
  simp only [parse, parseAll, Option.bind_eq_bind, Option.bind_eq_some_iff]
  constructor
  · rintro ⟨tokens, hscan, ⟨items, rest⟩, hitems, h⟩
    dsimp only at h
    split at h
    · rename_i hall
      obtain rfl := Option.some.inj h
      obtain rfl := List.isEmpty_iff.mp hall.1
      exact ⟨tokens, hscan, hitems, by simpa using hall.2⟩
    · contradiction
  · rintro ⟨tokens, hscan, hitems, hne⟩
    exact ⟨tokens, hscan, (ds, []), hitems, by simp [hne]⟩

/-- The tokens of a document are those of its definitions. -/
theorem exists_blocks {n : Nat} {input r : List PlacedToken} {ds : List Definition}
    (h : itemsWhileWithin (fun _ => true) read n input = some (ds, r)) :
    ∃ blocks, input = blocks.flatten ∧ List.Forall₂ MadeOf ds blocks := by
  induction n generalizing input ds with
  | zero => contradiction
  | succ n ih =>
    rw [itemsWhileWithin_succ] at h
    obtain ⟨next, input', hpeek, h⟩ := bind_eq_some.mp h
    obtain ⟨hnext, rfl⟩ := Prod.mk.inj (Option.some.inj hpeek)
    cases input with
    | nil =>
      rw [← hnext] at h
      obtain ⟨rfl, -⟩ := Prod.mk.inj (Option.some.inj h)
      exact ⟨[], rfl, .nil⟩
    | cons t input =>
      rw [← hnext] at h
      obtain ⟨e, mid, he, h⟩ := bind_eq_some.mp h
      obtain ⟨es, r', hes, h⟩ := bind_eq_some.mp h
      obtain ⟨rfl, rfl⟩ := Prod.mk.inj (Option.some.inj h)
      obtain ⟨block, hblock, hmade⟩ := madeOf_of_read he
      obtain ⟨blocks, rfl, hall⟩ := ih hes
      exact ⟨block :: blocks, hblock, .cons hmade hall⟩

/-- A text with the tokens of one definition is read as this definition. -/
theorem parse_of_spelledBy {text : String} {tokens : List PlacedToken} {e : Definition}
    (hscan : Token.scan text = some tokens) (h : e.SpelledBy (tokensOf tokens)) :
    ∃ d, parse text = some [d] ∧ Same d e := by
  obtain ⟨d, hd, hsame⟩ := h tokens [] rfl
  rw [List.append_nil] at hd
  refine ⟨d, parse_eq_some.mpr ⟨tokens, hscan, ?_, by simp⟩, hsame⟩
  cases tokens with
  | nil =>
    rw [read_nil] at hd
    contradiction
  | cons t tokens =>
    change itemsWhileWithin _ read (tokens.length + 1 + 1) (t :: tokens) = _
    rw [itemsWhileWithin_succ]
    refine bind_eq_some.mpr ⟨some t.token, _, rfl, ?_⟩
    exact bind_eq_some.mpr ⟨d, [], hd, rfl⟩

/-- A text with only the first tokens of a definition cannot be read. -/
theorem parse_of_cut {text : String} {tokens : List PlacedToken} {ts : List Token} {e : Definition}
    (hscan : Token.scan text = some tokens) (h : e.SpelledBy (tokensOf tokens ++ ts))
    (hts : ts ≠ []) : parse text = none := by
  cases hparse : parse text with
  | none => rfl
  | some ds =>
    obtain ⟨tokens', hscan', hitems, hne⟩ := parse_eq_some.mp hparse
    obtain rfl := Option.some.inj (hscan.symm.trans hscan')
    obtain ⟨blocks, rfl, hall⟩ := exists_blocks hitems
    cases hall with
    | nil => contradiction
    | @cons e' block es blocks hmade _ =>
      -- The first definition would end before the tokens that were cut off.
      let lost : List PlacedToken := ts.map (⟨.start, ·⟩)
      have hlost : tokensOf lost = ts := by simp [lost, Function.comp_def]
      obtain ⟨d, hd, -⟩ := h (block ++ (blocks.flatten ++ lost)) [] (by simp [hlost])
      obtain ⟨d', hd', -⟩ := hmade.spelled block (blocks.flatten ++ lost) rfl
      rw [List.append_nil, hd'] at hd
      obtain ⟨-, hnil⟩ := Prod.mk.inj (Option.some.inj hd)
      rw [(List.append_eq_nil_iff.mp hnil).2] at hlost
      exact absurd hlost.symm hts

end Definition

end QueryBindings
