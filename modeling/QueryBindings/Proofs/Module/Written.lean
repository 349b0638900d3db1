import QueryBindings.Module.Basic
/-!
What stands in the text of a module.

The opening text holds every import, the body the text of every declaration in the order of the
sections, and the closing text every definition. Texts that stand in order are pieces of a text that
don't overlap, so a piece of an earlier section ends before one of a later section starts.
-/
namespace QueryBindings

namespace Text

/-- The texts stand in a text one behind the other. -/
def InOrder (texts : List String) (t : String) : Prop :=
  ∃ pieces, t = String.join pieces ∧ texts.Sublist pieces

variable {a b : List String} {s t : String}

theorem inOrder_nil (t : String) : InOrder [] t := ⟨[t], by simp, by simp⟩

theorem inOrder_join (l : List String) : InOrder l (String.join l) := ⟨l, rfl, .refl l⟩

theorem InOrder.append (ha : InOrder a s) (hb : InOrder b t) : InOrder (a ++ b) (s ++ t) := by
  obtain ⟨before, rfl, ha⟩ := ha
  obtain ⟨after, rfl, hb⟩ := hb
  exact ⟨before ++ after, by simp, ha.append hb⟩

theorem InOrder.behind (h : InOrder b t) (s : String) : InOrder b (s ++ t) :=
  (inOrder_nil s).append h

theorem InOrder.before (h : InOrder a s) (t : String) : InOrder a (s ++ t) := by
  simpa using h.append (inOrder_nil t)

variable {α : Type} {texts : α → List String} {f : α → String}

/-- What stands in the members stands in their texts one after the other. -/
theorem inOrder_flatMap {l : List α} (h : ∀ x ∈ l, InOrder (texts x) (f x)) :
    InOrder (l.flatMap texts) (String.join (l.map f)) := by
  induction l with
  | nil => exact inOrder_nil _
  | cons x l ih =>
    obtain ⟨hx, hl⟩ := List.forall_mem_cons.mp h
    simpa using hx.append (ih hl)

theorem inOrder_intercalate (separator : String) {l : List α}
    (h : ∀ x ∈ l, InOrder (texts x) (f x)) :
    InOrder (l.flatMap texts) (String.intercalate separator (l.map f)) := by
  induction l with
  | nil => exact inOrder_nil _
  | cons x l ih =>
    obtain ⟨hx, hl⟩ := List.forall_mem_cons.mp h
    cases l with
    | nil => simpa using hx
    | cons y l => simpa using (hx.before separator).append (ih hl)

end Text

open Text (InOrder)

def Module.declarations (m : Module) : List Declaration :=
  m.sections.flatMap fun s => s.groups.flatten

def Module.imports (m : Module) : List Import :=
  Boilerplate.imports ++ if m.subscriptions then Boilerplate.subscriptionImports else []

def Module.definitions (m : Module) : List FixedDefinition :=
  Boilerplate.runtime ++ if m.subscriptions then Boilerplate.subscriptionRuntime else []

/-- A section's text has its declarations in their order. -/
theorem Section.inOrder_text (s : Section) :
    InOrder (s.groups.flatten.map Declaration.text) s.text := by
  have hgroups : InOrder (s.groups.flatMap fun group => group.map Declaration.text)
      (String.intercalate "\n" (s.groups.map groupText)) :=
    Text.inOrder_intercalate "\n" fun group _ => Text.inOrder_join (group.map Declaration.text)
  have hflatten : s.groups.flatten.map Declaration.text =
      s.groups.flatMap fun group => group.map Declaration.text := by
    rw [List.map_flatten, List.flatMap_def]
  rw [hflatten]
  exact hgroups.behind _

namespace Module

/-- A fixed text holds its parts, with a further text behind them where there are subscriptions. -/
theorem inOrder_fixed {α : Type} {f : α → String} (subscriptions : Bool) {always more : List α}
    {s t : String} (hs : InOrder (always.map f) s) (ht : InOrder (more.map f) t) :
    InOrder ((always ++ if subscriptions then more else []).map f)
      (s ++ if subscriptions then t else "") := by
  cases subscriptions with
  | false => simpa using hs
  | true =>
    rw [List.map_append]
    exact hs.append ht

theorem inOrder_opening (m : Module) : InOrder (m.imports.map Import.text) m.opening :=
  inOrder_fixed m.subscriptions ((Text.inOrder_join _).behind (Boilerplate.disclaimer ++ "\n"))
    (Text.inOrder_join _)

/-- The body of a module holds its declarations in their order. -/
theorem inOrder_body (m : Module) : InOrder (m.declarations.map Declaration.text) m.body := by
  rw [declarations, List.map_flatMap]
  exact Text.inOrder_flatMap fun s _ => s.inOrder_text.behind "\n"

/-- The closing text has its definitions in their order. -/
theorem inOrder_closing (m : Module) :
    InOrder (m.definitions.map FixedDefinition.text) m.closing :=
  inOrder_fixed m.subscriptions ((Text.inOrder_join _).behind "\n")
    ((Text.inOrder_join _).behind "\n")

/-- The text of a module holds its imports, its declarations and its definitions. -/
theorem inOrder_text (m : Module) :
    InOrder (m.imports.map Import.text ++ m.declarations.map Declaration.text ++
      m.definitions.map FixedDefinition.text) m.text :=
  (m.inOrder_opening.append m.inOrder_body).append m.inOrder_closing

end Module

end QueryBindings
