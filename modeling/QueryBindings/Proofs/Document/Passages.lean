import QueryBindings.Proofs.Document.Offsets
import QueryBindings.Proofs.Failure
import QueryBindings.Proofs.Syntax.Executable
import QueryBindings.Proofs.Syntax.Scanning
/-!
The passages of a document's text.

A text that is read as definitions falls into passages, one for each of them: ignored characters,
the definition from its first character to its closing brace, and the comments and ignored
characters behind it. A scan knows where a passage starts as long as every character before that
place on its line takes one column and no carriage return ends a comment.
-/
namespace QueryBindings

open Text

namespace Definition

/-- The characters `body` are those of the definition `e`: they start with a token, end with the
closing brace, and have the same tokens whatever follows. -/
structure Fills (e : Definition) (body : List Char) : Prop where
  start : ∃ c r, body = c :: r ∧ isBlank c = false ∧ c ≠ '#'
  brace : ∃ inner ts, body = inner ++ ['\x7d'] ∧ Token.lex inner = some ts ∧
    (∀ x, Token.lex (body ++ x) = (Token.lex x).map (ts ++ [.punctuator '\x7d'] ++ ·)) ∧
    e.SpelledBy (ts ++ [.punctuator '\x7d'])

end Definition

structure Passage where
  lead : List Char
  body : List Char
  tail : List Char
  definition : Definition

namespace Passage

def text (p : Passage) : List Char := p.lead ++ (p.body ++ p.tail)

/-- Ignored characters, a definition, and nothing but comments and ignored characters. -/
structure Valid (p : Passage) : Prop where
  lead : ∀ c ∈ p.lead, Token.isIgnored c = true
  body : p.definition.Fills p.body
  tail : Token.lex p.tail = some []

/-- The offsets of passages in a text, the first of which is given. -/
def starts (n : Nat) : List Passage → List Nat
  | [] => []
  | p :: ps => n :: starts (n + size p.text) ps

/-- Whether the definitions in passages behind the text `before` have the positions of the places
where their passages start. -/
def Placed (before : List Char) : List Passage → Prop
  | [] => True
  | p :: ps => p.definition.position = Position.start.afterLexeme before ∧
      Placed (before ++ p.text) ps

/-- Whether every passage behind the text `before` starts on a plain line. -/
def PlainStarts (before : List Char) : List Passage → Prop
  | [] => True
  | p :: ps => PlainLine before ∧ PlainStarts (before ++ p.text) ps

/-- Whether the definitions in passages behind the text `before` have these positions as far as a
scan counts them right. -/
def Counted (before : List Char) : List Passage → Prop
  | [] => True
  | p :: ps => p.definition.position.Counts before ∧ Counted (before ++ p.text) ps

end Passage

/-- The document's text consists of an opening and of passages that hold its definitions. -/
structure Document.Layout (d : Document) (opening : List Char) (passages : List Passage) : Prop where
  source : d.source.toList = opening ++ passages.flatMap Passage.text
  definitions : d.definitions = passages.map Passage.definition
  opening : Token.lex opening = some []
  valid : ∀ p ∈ passages, p.Valid

/-- Whether no carriage return ends a comment. A `#` inside a string counts as well. -/
def Text.FeedsEndComments (cs : List Char) : Prop :=
  ∀ a k b, cs = a ++ '#' :: (k ++ '\r' :: b) → '\n' ∈ k

/-- A text without carriage returns has none at the end of a comment. -/
theorem Text.feedsEndComments_of_no_return {cs : List Char} (h : '\r' ∉ cs) :
    FeedsEndComments cs := by
  rintro a k b rfl
  simp at h

theorem Text.FeedsEndComments.of_append {a b : List Char} (h : FeedsEndComments (a ++ b)) :
    FeedsEndComments a ∧ FeedsEndComments b := by
  constructor
  · rintro x k y rfl
    exact h x k (y ++ b) (by simp)
  · rintro x k y rfl
    exact h (a ++ x) k y (by simp)

/-! ### Positions -/

namespace Token

/-- A scan counts right over a text in which no carriage return ends a comment. -/
theorem Passes.counts {p q : Position} {u before : List Char} {ts : List PlacedToken}
    (h : Passes p u ts q) (hp : p.Counts before) (hu : FeedsEndComments u) :
    q.Counts (before ++ u) := by
  induction h generalizing before with
  | nil => simpa using hp
  | @ignored p q c u ts hc _ ih =>
    have hnext := ih (hp.ignored hc) (FeedsEndComments.of_append (a := [c]) hu).2
    simpa using hnext
  | @comment p q k u e ts hk he _ ih =>
    have hfeed : e = '\n' := by
      obtain he | rfl := he
      · exact he
      · exact absurd (Or.inl rfl) (hk '\n' (hu [] k u rfl))
    subst hfeed
    have hk' : '\n' ∉ k := fun h => hk '\n' h (Or.inl rfl)
    have hu' : FeedsEndComments (('#' :: (k ++ ['\n'])) ++ u) := by simpa using hu
    have hnext := ih (hp.comment hk') hu'.of_append.2
    simpa using hnext
  | @token p q c r u t ts hc hc' hread _ ih =>
    have hu' : FeedsEndComments ((c :: r) ++ u) := hu
    have hnext := ih (hp.lexeme (c :: r)) hu'.of_append.2
    simpa using hnext

end Token

/-! ### The passages of a text -/

/-- The tokens of a definition are those of a part of the text that it fills. -/
theorem exists_body {p : Position} {cs : List Char} {block more : List PlacedToken} {e : Definition}
    (h : Token.scanFrom p cs = some (block ++ more)) (hmade : e.MadeOf block) :
    ∃ gap body x q, cs = gap ++ (body ++ x) ∧ Token.lex gap = some [] ∧ e.Fills body ∧
      Token.Passes p gap [] e.position ∧ Token.Passes e.position body block q ∧
      Token.scanFrom q x = some more := by
  obtain ⟨ts, hts⟩ := hmade.closes
  obtain ⟨inner, x, q, rfl, hpasses, hlex, hx⟩ := Token.exists_passes h hts
  cases block with
  | nil => exact absurd rfl hmade.ne_nil
  | cons s block =>
    obtain ⟨gap, c, w, heq, hgap, hbody, hc, hc', hblank⟩ := hpasses.exists_gap
    have hposition : s.position = e.position := Option.some.inj hmade.position
    rw [hposition] at hgap hbody
    have hsilent : ∀ y, Token.lex (gap ++ y) = Token.lex y := by
      intro y
      rw [hgap.lex]
      simp
    obtain ⟨inner', rfl, hw⟩ : ∃ inner', inner = gap ++ inner' ∧ c :: w = inner' ++ ['\x7d'] := by
      obtain ⟨l, rfl, hl⟩ | ⟨inner', hinner, hw⟩ := List.append_eq_append_iff.mp heq
      · cases l with
        | nil => exact ⟨[], by simp, by simpa using hl.symm⟩
        | cons d l => simp at hl
      · exact ⟨inner', hinner, hw⟩
    have hspelled := hmade.spelled
    rw [hts] at hspelled
    refine ⟨gap, c :: w, x, q, ?_, ?_, ⟨⟨c, w, rfl, hblank, hc'⟩, inner', ts, hw, ?_, ?_, hspelled⟩,
      hgap, hbody, hx⟩
    · rw [hw]
      simp
    · rw [← List.append_nil gap, hsilent, Token.lex_nil]
    · rw [← hsilent, hlex]
    · intro y
      rw [hbody.lex, ← hts]

/-- A text whose tokens are those of definitions falls into passages. -/
theorem exists_passages {p : Position} {cs : List Char} {blocks : List (List PlacedToken)}
    {ds : List Definition} (h : Token.scanFrom p cs = some blocks.flatten)
    (hall : List.Forall₂ Definition.MadeOf ds blocks) :
    ∃ opening passages, cs = opening ++ passages.flatMap Passage.text ∧
      ds = passages.map Passage.definition ∧ Token.lex opening = some [] ∧
      (∀ p ∈ passages, p.Valid) ∧
      ∀ before, p.Counts before → FeedsEndComments cs →
        Passage.Counted (before ++ opening) passages := by
  induction hall generalizing p cs with
  | nil =>
    refine ⟨cs, [], by simp, rfl, ?_, by simp, fun _ _ _ => trivial⟩
    rw [← Token.map_scanFrom p, h]
    rfl
  | @cons e block ds blocks hmade _ ih =>
    obtain ⟨gap, body, x, q, rfl, hgap, hfills, hpass, hpass', hx⟩ := exists_body h hmade
    obtain ⟨opening, passages, rfl, rfl, hopening, hvalid, hcounted⟩ := ih hx
    refine ⟨gap, ⟨[], body, opening, e⟩ :: passages, ?_, rfl, hgap, ?_, ?_⟩
    · simp [Passage.text]
    · intro p hp
      obtain rfl | hp := List.mem_cons.mp hp
      · exact ⟨by simp, hfills, hopening⟩
      · exact hvalid p hp
    · intro before hp hfeeds
      have hstart := hpass.counts hp hfeeds.of_append.1
      have hstop := hpass'.counts hstart hfeeds.of_append.2.of_append.1
      refine ⟨hstart, ?_⟩
      have hrest := hcounted _ hstop hfeeds.of_append.2.of_append.2
      simpa [Passage.text] using hrest

/-! ### Offsets -/

namespace Passage

theorem text_ne_nil {p : Passage} (h : p.Valid) : p.text ≠ [] := by
  obtain ⟨c, r, hbody, -⟩ := h.body.start
  simp [text, hbody]

theorem le_of_mem_starts {n m : Nat} {passages : List Passage} (h : m ∈ starts n passages) :
    n ≤ m := by
  induction passages generalizing n with
  | nil => contradiction
  | cons p passages ih =>
    obtain rfl | h := List.mem_cons.mp h
    · exact Nat.le_refl m
    · exact Nat.le_trans (Nat.le_add_right _ _) (ih h)

/-- Passages start one behind the other. -/
theorem pairwise_starts {n : Nat} {passages : List Passage} (h : ∀ p ∈ passages, p.Valid) :
    (starts n passages).Pairwise (· < ·) := by
  induction passages generalizing n with
  | nil => exact .nil
  | cons p passages ih =>
    refine .cons ?_ (ih fun p hp => h p (List.mem_cons_of_mem _ hp))
    intro m hm
    have hpos := size_pos (text_ne_nil (h p (by simp)))
    have := le_of_mem_starts hm
    omega

/-- On plain lines every definition has the position of its passage. -/
theorem Counted.placed {before : List Char} {passages : List Passage}
    (hcounted : Counted before passages) (hplain : PlainStarts before passages) :
    Placed before passages := by
  induction passages generalizing before with
  | nil => trivial
  | cons p passages ih =>
    obtain ⟨hp, hcounted⟩ := hcounted
    obtain ⟨hline, hplain⟩ := hplain
    exact ⟨hp.exact_of_plain hline, ih hcounted hplain⟩

/-- A text without the characters that a scan counts in another way. -/
theorem plainStarts_of_forall {before : List Char} {passages : List Passage}
    (h : ∀ c ∈ before ++ passages.flatMap text, c ≠ '\t' ∧ c ≠ '\r' ∧ c ≠ '\ufeff') :
    PlainStarts before passages := by
  induction passages generalizing before with
  | nil => trivial
  | cons p passages ih =>
    refine ⟨?_, ih (by simpa using h)⟩
    intro c hc
    have hmem := (List.takeWhile_sublist _).subset hc
    exact h c (List.mem_append_left _ (List.mem_reverse.mp hmem))

/-- The offsets of definitions are those of their passages if and only if their positions are. -/
theorem mapM_offset?_eq_some {before cs : List Char} {passages : List Passage}
    (hcs : cs = before ++ passages.flatMap text) :
    (passages.map definition).mapM (fun e => offset? cs e.position) =
      some (starts (size before) passages) ↔ Placed before passages := by
  rw [Option.mapM_eq_some]
  induction passages generalizing before with
  | nil => simp [starts, Placed]
  | cons p passages ih =>
    have hcs' : cs = before ++ p.text ++ passages.flatMap text := by
      rw [hcs, List.flatMap_cons, List.append_assoc]
    have hrest := ih hcs'
    rw [size_append] at hrest
    rw [List.map_cons, starts, List.forall₂_cons, Placed, ← hrest, hcs, offset?_append_eq_some]

end Passage

namespace Document

/-- The definitions are found where their passages start just when they have these positions. -/
theorem Layout.offsets?_eq_some {d : Document} {opening : List Char} {passages : List Passage}
    (h : d.Layout opening passages) :
    d.offsets? = some (Passage.starts (size opening) passages) ↔
      Passage.Placed opening passages := by
  rw [← Passage.mapM_offset?_eq_some h.source, Document.offsets?, h.definitions]
  have hincreasing := Passage.pairwise_starts (n := size opening) h.valid
  constructor
  · intro hoffsets
    split at hoffsets
    · rename_i offsets hmap
      split at hoffsets
      · rw [hmap, hoffsets]
      · contradiction
    · contradiction
  · intro hmap
    rw [hmap]
    exact if_pos hincreasing

/-- A text that is read as a document has a layout, and the definitions have the positions of their
passages if these start on plain lines. -/
theorem exists_layout {path text : String} {d : Document} (h : parse path text = .ok d) :
    ∃ opening passages, d.Layout opening passages ∧
      (FeedsEndComments text.toList → Passage.PlainStarts opening passages →
        Passage.Placed opening passages) := by
  rw [parse] at h
  split at h
  · rename_i ds hds
    cases h
    obtain ⟨tokens, hscan, hitems, -⟩ := Definition.parse_eq_some.mp hds
    obtain ⟨blocks, rfl, hall⟩ := Definition.exists_blocks hitems
    obtain ⟨opening, passages, hsource, hdefinitions, hopening, hvalid, hcounted⟩ :=
      exists_passages hscan hall
    refine ⟨opening, passages, ⟨hsource, hdefinitions, hopening, hvalid⟩, ?_⟩
    intro hfeeds hplain
    exact (hcounted [] Position.counts_start hfeeds).placed hplain
  · contradiction

end Document

end QueryBindings
