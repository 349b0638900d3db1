import Mathlib.Data.List.Basic
import QueryBindings.Module.TypeExpr
/-!
The type expressions of written types.

The marks of a written type are folded into layers, the layers are taken off as modifiers, and the
modifiers are put around a base. The text that comes out is the one that the written type has by its
structure. Over one base it tells written types with one name apart, up to marks that are repeated.

`TypeAnnotation.toRef` writes a folded type with one mark at most on every layer, which is what
`TypeRef.collapse` makes of the type that was folded.
-/
namespace QueryBindings

namespace TypeRef

def baseName : TypeRef → String
  | named name => name
  | list item => item.baseName
  | nonNull inner => inner.baseName

/-- A text, and null as an alternative unless the type is marked. -/
def orNull : TypeRef → String → String
  | named _, text => text ++ " | null"
  | list _, text => text ++ " | null"
  | nonNull _, text => text

/-- The expression for the values of a type, null left out. -/
def valueText (base : String) : TypeRef → String
  | named _ => base
  | list item => "Array<" ++ item.orNull (item.valueText base) ++ ">"
  | nonNull inner => inner.valueText base

def typeText (base : String) (t : TypeRef) : String := t.orNull (t.valueText base)

/-- The type with one mark wherever there are several in a row. -/
def collapse : TypeRef → TypeRef
  | named name => named name
  | list item => list item.collapse
  | nonNull inner =>
    match inner.collapse with
    | nonNull t => nonNull t
    | t => nonNull t

def marked (nullable : Bool) (t : TypeRef) : TypeRef := if nullable then t else nonNull t

theorem collapse_nonNull_nonNull (t : TypeRef) :
    (nonNull (nonNull t)).collapse = (nonNull t).collapse := by
  simp only [collapse]
  cases t.collapse <;> rfl

end TypeRef

namespace TypeAnnotation

open TypeRef (marked)

def toRef : TypeAnnotation → TypeRef
  | named name n => marked n (.named name)
  | list item n => marked n (.list item.toRef)

/-- The layers of a type are those of the written type without marks in a row. -/
theorem toRef_ofRefWith (n : Bool) (t : TypeRef) :
    (ofRefWith n t).toRef = (marked n t).collapse := by
  induction t generalizing n with
  | named name => cases n <;> rfl
  | list item ih => cases n <;> simp [ofRefWith, toRef, ih, marked, TypeRef.collapse]
  | nonNull inner ih =>
    rw [ofRefWith, ih]
    cases n with
    | true => rfl
    | false => exact (TypeRef.collapse_nonNull_nonNull inner).symm

theorem ofRefWith_collapse (n : Bool) (t : TypeRef) : ofRefWith n t.collapse = ofRefWith n t := by
  induction t generalizing n with
  | named name => rfl
  | list item ih => simp [TypeRef.collapse, ofRefWith, ih]
  | nonNull inner ih =>
    rw [ofRefWith, ← ih, TypeRef.collapse]
    cases inner.collapse <;> rfl

/-- Folding forgets how often a layer is marked and nothing else. -/
theorem ofRef_eq_iff {t u : TypeRef} : ofRef u = ofRef t ↔ u.collapse = t.collapse := by
  constructor
  · intro h
    have hrefs := congrArg toRef h
    rwa [ofRef, ofRef, toRef_ofRefWith, toRef_ofRefWith] at hrefs
  · intro h
    have hfolded := congrArg ofRef h
    rwa [ofRef, ofRef, ofRefWith_collapse, ofRefWith_collapse] at hfolded

theorem baseName_ofRefWith (n : Bool) (t : TypeRef) : (ofRefWith n t).baseName = t.baseName := by
  induction t generalizing n with
  | named name => rfl
  | list item ih => exact ih true
  | nonNull inner ih => exact ih false

theorem nullableModifier_inj {m n : Bool} : nullableModifier m = nullableModifier n ↔ m = n := by
  cases m <;> cases n <;> simp [nullableModifier]

theorem nullableModifier_append_inj {m n : Bool} {a b : List Modifier} :
    nullableModifier m ++ .arrayOf :: a = nullableModifier n ++ .arrayOf :: b ↔ m = n ∧ a = b := by
  cases m <;> cases n <;> simp [nullableModifier]

theorem nullableModifier_ne_append (m n : Bool) (a : List Modifier) :
    nullableModifier m ≠ nullableModifier n ++ .arrayOf :: a := by
  cases m <;> cases n <;> simp [nullableModifier]

/-- The modifiers and the name have all of an annotation. -/
theorem eq_iff_modifiers {a b : TypeAnnotation} :
    a = b ↔ a.baseName = b.baseName ∧ a.modifiers = b.modifiers := by
  constructor
  · rintro rfl
    exact ⟨rfl, rfl⟩
  · rintro ⟨hname, hmodifiers⟩
    induction a generalizing b with
    | named name n =>
      cases b with
      | named name' n' =>
        obtain rfl := nullableModifier_inj.mp hmodifiers
        exact congrArg (named · n) hname
      | list item' n' => exact absurd hmodifiers (nullableModifier_ne_append _ _ _)
    | list item n ih =>
      cases b with
      | named name' n' => exact absurd hmodifiers.symm (nullableModifier_ne_append _ _ _)
      | list item' n' =>
        obtain ⟨rfl, hitem⟩ := nullableModifier_append_inj.mp hmodifiers
        exact congrArg (list · n) (ih hname hitem)

end TypeAnnotation

namespace TypeExpr

open TypeAnnotation (ofRef ofRefWith)

/-- Each layer of a text is seven characters long, whichever it is. -/
theorem length_text_wrap (modifiers : List Modifier) (base : TypeExpr) :
    (wrap modifiers base).text.length = 7 * modifiers.length + base.text.length := by
  have harray : "Array<".length + ">".length = 7 := rfl
  have hnull : " | null".length = 7 := rfl
  induction modifiers with
  | nil => simp
  | cons m rest ih =>
    cases m with
    | arrayOf =>
      simp only [wrap_cons, wrapOne, text, String.length_append, ih, List.length_cons]
      omega
    | nullable =>
      simp only [wrap_cons, wrapOne, text, String.length_append, ih, List.length_cons]
      omega

/-- The end of a text tells its outermost layer. -/
theorem text_wrapOne_inj {m m' : Modifier} {t t' : TypeExpr} :
    (wrapOne m t).text = (wrapOne m' t').text ↔ m = m' ∧ t.text = t'.text := by
  constructor
  · intro h
    have hlast := congrArg (·.toList.reverse.head?) h
    cases m <;> cases m' <;> simp [wrapOne, text] at h hlast ⊢
    · exact h
    · exact h
  · rintro ⟨rfl, h⟩
    cases m <;> simp [wrapOne, text, h]

/-- Expressions for one base are equal only if they have equally many layers. -/
theorem length_eq_of_text_wrap {base : TypeExpr} {m m' : List Modifier}
    (h : (wrap m base).text = (wrap m' base).text) : m.length = m'.length := by
  have hlength := congrArg String.length h
  rw [length_text_wrap, length_text_wrap] at hlength
  omega

/-- The text around a base tells the modifiers: how many there are by its length, and each of them
at its end. -/
theorem eq_of_text_wrap {base : TypeExpr} {m m' : List Modifier}
    (h : (wrap m base).text = (wrap m' base).text) : m = m' := by
  induction m generalizing m' with
  | nil => exact (List.eq_nil_of_length_eq_zero (length_eq_of_text_wrap h).symm).symm
  | cons x m ih =>
    cases m' with
    | nil => exact absurd (length_eq_of_text_wrap h) (by simp)
    | cons x' m' =>
      obtain ⟨rfl, hrest⟩ := text_wrapOne_inj.mp h
      rw [ih hrest]

/-- An expression with the layers of a type is the type's own text. -/
theorem text_wrap_ofRefWith (n : Bool) (t : TypeRef) (base : TypeExpr) :
    (wrap (ofRefWith n t).modifiers base).text = (t.marked n).typeText base.text := by
  induction t generalizing n with
  | named name => cases n <;> rfl
  | list item ih =>
    have hitem : (wrap (ofRefWith true item).modifiers base).text = item.typeText base.text :=
      ih true
    cases n <;>
      simp [ofRefWith, TypeAnnotation.nullableModifier, wrapOne, text, hitem, TypeRef.marked,
        TypeRef.typeText, TypeRef.orNull, TypeRef.valueText]
  | nonNull inner ih =>
    rw [ofRefWith, ih]
    cases n <;> rfl

/-- The text of a written type around a base follows the type's structure, its name is the innermost
one, and types with one name have one text just when they are the same up to repeated marks. -/
theorem text_wrap_ofRef (t : TypeRef) (base : TypeExpr) :
    (wrap (ofRef t).modifiers base).text = t.typeText base.text ∧
      (ofRef t).baseName = t.baseName ∧
      ∀ u : TypeRef, u.baseName = t.baseName ∧
          (wrap (ofRef u).modifiers base).text = (wrap (ofRef t).modifiers base).text ↔
        u.collapse = t.collapse := by
  refine ⟨text_wrap_ofRefWith true t base, TypeAnnotation.baseName_ofRefWith true t, fun u => ?_⟩
  rw [← TypeAnnotation.ofRef_eq_iff, TypeAnnotation.eq_iff_modifiers, ofRef, ofRef,
    TypeAnnotation.baseName_ofRefWith, TypeAnnotation.baseName_ofRefWith]
  exact and_congr_right fun _ => ⟨eq_of_text_wrap, fun h => by rw [h]⟩

end TypeExpr

end QueryBindings
