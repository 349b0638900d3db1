import QueryBindings.Proofs.Document.Passages
/-!
The sources of a document's definitions.

When the definitions are found where they stand, a definition's source is its passage without the
blanks around it and the comment lines at its end. That is the definition again, unless these lines
reach into it: the last line of a block string may look like a comment. Then the source is no text
of a document.
-/
namespace QueryBindings

open Text

namespace Definition

/-- Whether a text is read as exactly one definition, which is `e` up to positions. -/
def Faithful (source : String) (e : Definition) : Prop :=
  ∃ d, parse source = some [d] ∧ d.unplaced = e.unplaced

variable {e : Definition} {lead body t : List Char}

/-- The characters of a definition between ignored characters and comments. -/
theorem Fills.faithful (h : e.Fills body) (hlead : ∀ c ∈ lead, Token.isIgnored c = true)
    (ht : Token.lex t = some []) : Faithful (String.ofList (lead ++ (body ++ t))) e := by
  obtain ⟨inner, ts, -, -, hclosed, hspelled⟩ := h.brace
  have hlex : Token.lex (lead ++ (body ++ t)) = some (ts ++ [.punctuator '\x7d']) := by
    rw [Token.lex_append_of_ignored hlead, hclosed, ht]
    simp
  obtain ⟨tokens, hscan, htokens⟩ := Token.exists_scan hlex
  rw [← htokens] at hspelled
  exact parse_of_spelledBy hscan hspelled

/-- The characters of a definition that are cut before a blank. -/
theorem Fills.parse_of_cut {u v : List Char} {b : Char} (h : e.Fills body)
    (hlead : ∀ c ∈ lead, Token.isIgnored c = true) (hb : isBlank b = true)
    (hcut : lead ++ body = u ++ b :: v) : parse (String.ofList u) = none := by
  obtain ⟨inner, ts, rfl, hinner, -, hspelled⟩ := h.brace
  cases hu : Token.lex u with
  | none =>
    rw [parse, Parser.parseAll, Token.scan_eq_none hu]
    rfl
  | some us =>
    have hinner' : ∃ v', u ++ b :: v' = lead ++ inner := by
      rw [← List.append_assoc] at hcut
      obtain rfl | ⟨v', z, rfl⟩ := v.eq_nil_or_concat
      · obtain rfl := List.singleton_inj.mp (List.append_inj' hcut rfl).2
        contradiction
      · have hcut' : lead ++ inner ++ ['\x7d'] = u ++ b :: v' ++ [z] := by simpa using hcut
        exact ⟨v', (List.append_inj' hcut' rfl).1.symm⟩
    obtain ⟨v', hv⟩ := hinner'
    have hlex : Token.lex (u ++ b :: v') = some ts := by
      rw [hv, Token.lex_append_of_ignored hlead, hinner]
    obtain ⟨rest, rfl⟩ := Token.lex_of_cut hb hlex hu
    obtain ⟨tokens, hscan, rfl⟩ := Token.exists_scan hu
    rw [List.append_assoc] at hspelled
    exact Definition.parse_of_cut hscan hspelled (by simp)

end Definition

namespace Passage

theorem hash_not_mem_lead {p : Passage} (h : p.Valid) : '#' ∉ p.lead := by
  intro hmem
  have := h.lead '#' hmem
  contradiction

/-- What a source made of the passage is: the definition in it, or no text of a document if the
comment lines at the end reach into the definition. -/
def Yields (p : Passage) (source : String) : Prop :=
  (¬Overreaches p.body p.tail ∧ Definition.Faithful source p.definition) ∨
    (Overreaches p.body p.tail ∧ Definition.parse source = none)

/-- The source between the ends of a passage is what the passage yields. -/
theorem yields_sourceBetween {p : Passage} (h : p.Valid) {cs before after : List Char}
    (hcs : cs = before ++ (p.text ++ after)) :
    p.Yields (p.definition.sourceBetween cs (size before) (size before + size p.text)) := by
  obtain ⟨c, r, hstart, hc, hc'⟩ := h.body.start
  obtain ⟨inner, ts, hbrace, -⟩ := h.body.brace
  have hlead : ∀ c ∈ trimStart p.lead, Token.isIgnored c = true :=
    fun c hc => h.lead c (mem_of_mem_trimStart hc)
  have hpiece : slice? cs (size before) (size before + size p.text) =
      some (p.lead ++ (p.body ++ p.tail)) := by
    rw [hcs]
    exact slice?_append before p.text after
  rw [Definition.sourceBetween, hpiece]
  obtain ⟨hnot, t, ht, heq⟩ | ⟨hover, u, b, v, heq, hne, hb, hcut⟩ :=
    dropTrailingComments_cases p.tail hbrace hstart rfl hc hc' (hash_not_mem_lead h)
  · left
    refine ⟨hnot, ?_⟩
    have hsilent : Token.lex t = some [] := by
      obtain ⟨x, hx⟩ := ht
      apply Token.lex_eq_nil_of_append (v := x)
      rw [hx]
      exact h.tail
    simp only [heq]
    rw [if_neg (by simp [hstart])]
    exact h.body.faithful hlead hsilent
  · right
    refine ⟨hover, ?_⟩
    simp only [heq]
    rw [if_neg (by simpa using hne)]
    exact h.body.parse_of_cut hlead hb hcut

end Passage

namespace Document

/-- The sources between the starts of passages are what they yield. -/
theorem yields_sourcesAt {before cs : List Char} {passages : List Passage}
    (hcs : cs = before ++ passages.flatMap Passage.text) (hvalid : ∀ p ∈ passages, p.Valid) :
    List.Forall₂ Passage.Yields passages
      (sourcesAt cs (passages.map Passage.definition) (Passage.starts (size before) passages)) := by
  induction passages generalizing before with
  | nil => exact .nil
  | cons p passages ih =>
    have hcs' : cs = before ++ (p.text ++ passages.flatMap Passage.text) := hcs
    have hstop : ((Passage.starts (size before + size p.text) passages).head?.getD (size cs)) =
        size before + size p.text := by
      cases passages with
      | nil =>
        rw [hcs']
        simp [Passage.starts]
      | cons q passages => rfl
    have hcs'' : cs = before ++ p.text ++ passages.flatMap Passage.text := by
      rw [hcs', List.append_assoc]
    have hrest := ih hcs'' fun q hq => hvalid q (List.mem_cons_of_mem p hq)
    rw [size_append] at hrest
    refine .cons ?_ hrest
    rw [hstop]
    exact Passage.yields_sourceBetween (hvalid p (by simp)) hcs'

/-- The sources of a document that has been read. Its text falls into passages, one for each
definition. A definition is found where its passage starts just if it has the position of that
place, which it has on a plain line when no carriage return ends a comment. Then its source is the
definition again, or no text of a document. -/
theorem sources_of_parse {path text : String} {d : Document} (h : parse path text = .ok d) :
    (∃ opening passages, d.Layout opening passages ∧
      (FeedsEndComments text.toList → Passage.PlainStarts opening passages →
        Passage.Placed opening passages)) ∧
    ∀ opening passages, d.Layout opening passages →
      (d.offsets? = some (Passage.starts (size opening) passages) ↔
        Passage.Placed opening passages) ∧
      (Passage.Placed opening passages →
        List.Forall₂ Passage.Yields passages d.definitionSources) := by
  refine ⟨exists_layout h, ?_⟩
  intro opening passages hlayout
  refine ⟨hlayout.offsets?_eq_some, ?_⟩
  intro hplaced
  rw [definitionSources, hlayout.offsets?_eq_some.mpr hplaced, hlayout.definitions]
  exact yields_sourcesAt hlayout.source hlayout.valid

def sampleText : String := "query Q { a }\n# B\nquery B { b }"

theorem sources_of_parse_sample : ∃ d opening passages, parse "d" sampleText = .ok d ∧
    d.Layout opening passages ∧ Passage.Placed opening passages ∧
    List.Forall₂ Passage.Yields passages d.definitionSources := by
  have hsome : (parse "d" sampleText).toOption.isSome = true := by decide +kernel
  obtain ⟨d, hd⟩ := Option.isSome_iff_exists.mp hsome
  have h : parse "d" sampleText = .ok d := Except.toOption_eq_some.mp hd
  have hsource : d.source = sampleText := by
    rw [parse] at h
    split at h
    · cases h
      rfl
    · contradiction
  obtain ⟨⟨opening, passages, hlayout, hplaced⟩, hyields⟩ := sources_of_parse h
  have hall : sampleText.toList.all (fun c => c ≠ '\t' ∧ c ≠ '\r' ∧ c ≠ '\ufeff') = true := by
    decide +kernel
  have hplain : Passage.PlainStarts opening passages := by
    apply Passage.plainStarts_of_forall
    rw [← hlayout.source, hsource]
    intro c hc
    exact of_decide_eq_true (List.all_eq_true.mp hall c hc)
  have hfeeds : FeedsEndComments sampleText.toList :=
    feedsEndComments_of_no_return (by decide +kernel)
  exact ⟨d, opening, passages, h, hlayout, hplaced hfeeds hplain,
    (hyields opening passages hlayout).2 (hplaced hfeeds hplain)⟩

end Document

end QueryBindings
