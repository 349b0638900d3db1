import QueryBindings.Proofs.Bindings.Extraction
import QueryBindings.Proofs.Document.Positions
/-!
The slices of a document's text.

Definitions may have any positions, also in a document that was not made from its text. Offsets that
are found and increase cut the text into an opening and one slice for each definition, one after
another up to the end; a source comes out of its own slice. Otherwise no slice is taken. In either
case there is one source for each definition, and a file that is extracted has one binding for each,
with that source.
-/
namespace QueryBindings

open Text

namespace Text

theorem trim_isInfix (cs : List Char) : trim cs <:+: cs := by
  have hstart : trimStart cs <:+ cs := List.dropWhile_suffix _
  have hend : trim cs <+: trimStart cs := by
    rw [← List.reverse_suffix, trim, trimEnd, List.reverse_reverse]
    exact List.dropWhile_suffix _
  exact hend.isInfix.trans hstart.isInfix

theorem dropTrailingComments_isInfix (cs : List Char) : dropTrailingComments cs <:+: cs := by
  obtain ⟨y, hy, -⟩ := exists_dropCommentLines (trim cs)
  have hcomments : dropTrailingComments cs <+: trim cs := ⟨y, hy.symm⟩
  exact hcomments.isInfix.trans (trim_isInfix cs)

/-- Of two places in a text, the one with the smaller offset comes first. -/
theorem exists_append_of_size_le {a a' b b' : List Char} (h : a ++ b = a' ++ b')
    (hsize : size a ≤ size a') : ∃ y, a' = a ++ y ∧ b = y ++ b' := by
  obtain h | ⟨y, rfl, hy⟩ := List.append_eq_append_iff.mp h
  · exact h
  · rw [size_append] at hsize
    have hsame : size (a' ++ y) = size a' := by
      rw [size_append]
      omega
    have hnil : y = [] := eq_nil_of_size_append hsame
    exact ⟨[], by simp [hnil], by simpa [hnil] using hy.symm⟩

/-- The part `piece` of a text is its slice from one offset to another: both are in the text, in
order and between characters. -/
structure Cut (cs : List Char) (span : Nat × Nat) (piece : List Char) : Prop where
  le : span.1 ≤ span.2
  stop_le : span.2 ≤ size cs
  start : ∃ before after, cs = before ++ after ∧ size before = span.1
  stop : ∃ before after, cs = before ++ after ∧ size before = span.2
  slice : slice? cs span.1 span.2 = some piece

/-- A part of a text is its slice between where it starts and where it ends. -/
theorem cut_append (before piece after : List Char) :
    Cut (before ++ (piece ++ after)) (size before, size before + size piece) piece := by
  constructor
  case le => exact Nat.le_add_right _ _
  case stop_le =>
    rw [size_append, size_append]
    dsimp only
    omega
  case start => exact ⟨before, piece ++ after, rfl, rfl⟩
  case stop => exact ⟨before ++ piece, after, by simp, size_append before piece⟩
  case slice => exact slice?_append before piece after

/-- The spans of pieces that follow one another from an offset on. -/
def spansFrom (n : Nat) : List (List Char) → List (Nat × Nat)
  | [] => []
  | piece :: rest => (n, n + size piece) :: spansFrom (n + size piece) rest

/-- Pieces that follow one another are the slices at their spans. -/
theorem cut_spansFrom (opening : List Char) (pieces : List (List Char)) :
    List.Forall₂ (Cut (opening ++ pieces.flatten)) (spansFrom (size opening) pieces) pieces := by
  induction pieces generalizing opening with
  | nil => exact .nil
  | cons piece rest ih =>
    refine .cons (cut_append opening piece rest.flatten) ?_
    have hrest := ih (opening ++ piece)
    rwa [size_append, List.append_assoc] at hrest

end Text

namespace Definition

/-- A definition's source comes out of a slice of the text: it is the part of the slice that is left
without trailing comments, or the canonical text if nothing is left. -/
structure DrawnFrom (e : Definition) (piece : List Char) (source : String) : Prop where
  part : dropTrailingComments piece <:+: piece
  eq : source = if dropTrailingComments piece = [] then e.canonicalSource
    else String.ofList (dropTrailingComments piece)

/-- The source of a definition is drawn from the slice between two offsets. -/
theorem drawnFrom_sourceBetween (e : Definition) {cs piece : List Char} {span : Nat × Nat}
    (h : Cut cs span piece) : e.DrawnFrom piece (e.sourceBetween cs span.1 span.2) := by
  refine ⟨dropTrailingComments_isInfix piece, ?_⟩
  rw [sourceBetween, h.slice]
  by_cases hnil : dropTrailingComments piece = [] <;> simp [hnil]

def sourcedOperation? (x : Definition × String) : Option (OperationDefinition × String) :=
  x.1.operation?.map (·, x.2)

def sourcedFragment? (x : Definition × String) : Option (FragmentDefinition × String) :=
  x.1.fragment?.map (·, x.2)

end Definition

namespace Document

/-! ### Slices -/

/-- Where the sources are cut out of a text: each from its own offset to the next one, the last one
to the end. -/
def spans (cs : List Char) : List Nat → List (Nat × Nat)
  | [] => []
  | start :: starts => (start, starts.head?.getD (size cs)) :: spans cs starts

/-- Every source is made of its own slice. -/
theorem sourcesAt_eq_zipWith (cs : List Char) (ds : List Definition) (offsets : List Nat) :
    sourcesAt cs ds offsets =
      List.zipWith (fun e span => e.sourceBetween cs span.1 span.2) ds (spans cs offsets) := by
  induction ds generalizing offsets with
  | nil => cases offsets <;> rfl
  | cons e ds ih =>
    cases offsets with
    | nil => rfl
    | cons start starts => rw [sourcesAt, ih, spans, List.zipWith_cons_cons]

theorem length_spans (cs : List Char) (offsets : List Nat) :
    (spans cs offsets).length = offsets.length := by
  induction offsets with
  | nil => rfl
  | cons start starts ih => rw [spans, List.length_cons, List.length_cons, ih]

/-- Places of a text that come one after another cut it into an opening and pieces. -/
theorem exists_tiling {cs : List Char} {offsets : List Nat}
    (hplaces : ∀ n ∈ offsets, ∃ before after, cs = before ++ after ∧ size before = n)
    (hincreasing : offsets.Pairwise (· < ·)) :
    ∃ opening pieces, cs = opening ++ pieces.flatten ∧
      size opening = offsets.head?.getD (size cs) ∧
      spans cs offsets = spansFrom (size opening) pieces := by
  induction offsets with
  | nil => exact ⟨cs, [], by simp, rfl, rfl⟩
  | cons start starts ih =>
    obtain ⟨hstart, hstarts⟩ := List.forall_mem_cons.mp hplaces
    obtain ⟨hlt, hrest⟩ := List.pairwise_cons.mp hincreasing
    obtain ⟨before, after, hcs, rfl⟩ := hstart
    obtain ⟨opening, pieces, hpieces, hopening, hspans⟩ := ih hstarts hrest
    -- The next place, or the end of the text, is not in front of this one.
    have hle : size before ≤ size opening := by
      rw [hopening]
      cases starts with
      | nil => simp [hcs]
      | cons next _ => exact Nat.le_of_lt (hlt next (by simp))
    obtain ⟨piece, rfl, -⟩ := exists_append_of_size_le (hcs.symm.trans hpieces) hle
    refine ⟨before, piece :: pieces, by rw [hpieces]; simp, rfl, ?_⟩
    rw [spans, spansFrom, hspans, ← hopening, size_append]

/-- The offsets of definitions are places in the text, one behind the other. -/
theorem places_of_offsets? {d : Document} {offsets : List Nat} (h : d.offsets? = some offsets) :
    (∀ n ∈ offsets, ∃ before after, d.source.toList = before ++ after ∧ size before = n) ∧
      offsets.Pairwise (· < ·) := by
  rw [offsets?] at h
  split at h
  · rename_i found hfound
    split at h
    · rename_i hincreasing
      cases h
      refine ⟨?_, hincreasing⟩
      intro n hn
      obtain ⟨e, -, he⟩ := List.Forall₂.exists_left (Option.mapM_eq_some.mp hfound) hn
      obtain ⟨before, after, hcs, hsize, -⟩ := offset?_eq_some_iff.mp he
      exact ⟨before, after, hcs, hsize⟩
    · contradiction
  · contradiction

/-- Every source is drawn from its own piece. -/
theorem drawnFrom_zipWith {cs : List Char} {ds : List Definition} {spans : List (Nat × Nat)}
    {pieces : List (List Char)} (hlength : ds.length = spans.length)
    (h : List.Forall₂ (Cut cs) spans pieces) :
    List.Forall₂ (fun x piece => x.1.DrawnFrom piece x.2)
      (ds.zip (List.zipWith (fun e span => e.sourceBetween cs span.1 span.2) ds spans)) pieces := by
  induction h generalizing ds with
  | nil =>
    rw [List.eq_nil_of_length_eq_zero hlength]
    exact .nil
  | cons hcut _ ih =>
    cases ds with
    | nil => contradiction
    | cons e ds => exact .cons (e.drawnFrom_sourceBetween hcut) (ih (Nat.succ.inj hlength))

end Document

/-! ### Bindings -/

namespace Scope

variable {s : Scope}

/-- An operation's binding has the source that it was extracted with. -/
theorem source_of_extractOperation {o : OperationDefinition} {source : String}
    {b : OperationBinding} {requests : List InputRequest}
    (h : s.extractOperation o source = .ok (.operation b requests)) : b.source = source := by
  unfold extractOperation at h
  cases hn : o.name? with
  | none => simp [hn] at h
  | some name =>
    simp only [hn] at h
    obtain ⟨root, -, h⟩ := Except.bind_eq_ok.mp h
    obtain ⟨parameters, -, h⟩ := Except.bind_eq_ok.mp h
    obtain ⟨selected, -, h⟩ := Except.bind_eq_ok.mp h
    cases Except.pure_eq_ok.mp h
    rfl

theorem source_of_extractFragment {f : FragmentDefinition} {source : String} {b : FragmentBinding}
    (h : s.extractFragment f source = .ok (.fragment b)) : b.source = source := by
  unfold extractFragment at h
  obtain ⟨t, -, h⟩ := Except.bind_eq_ok.mp h
  obtain ⟨selected, -, h⟩ := Except.bind_eq_ok.mp h
  cases Except.pure_eq_ok.mp h
  rfl

/-- An operation is extracted with its own source, and nothing else is extracted into one. -/
theorem sourcedOperation?_of_extract {x : Definition × String} {e : Extracted}
    (h : s.extract x = .ok e) :
    Option.Rel (fun y b => OperationBinding.Unlinked s y.1 b ∧ b.source = y.2)
      (Definition.sourcedOperation? x) e.operation? := by
  obtain ⟨d, source⟩ := x
  cases d with
  | operation o =>
    obtain ⟨b, parameters, hb, -, rfl⟩ := extractOperation_eq_ok h
    exact .some ⟨hb, source_of_extractOperation h⟩
  | fragment f =>
    obtain ⟨b, rfl, -⟩ := extractFragment_eq_ok h
    exact .none
  | shorthand p l => simp [extract] at h

theorem sourcedFragment?_of_extract {x : Definition × String} {e : Extracted}
    (h : s.extract x = .ok e) :
    Option.Rel (fun y b => FragmentBinding.Of s y.1 b ∧ b.source = y.2)
      (Definition.sourcedFragment? x) e.fragment? := by
  obtain ⟨d, source⟩ := x
  cases d with
  | operation o =>
    obtain ⟨b, parameters, -, -, rfl⟩ := extractOperation_eq_ok h
    exact .none
  | fragment f =>
    obtain ⟨b, rfl, hb⟩ := extractFragment_eq_ok h
    exact .some ⟨hb, source_of_extractFragment h⟩
  | shorthand p l => simp [extract] at h

end Scope

/-- Every definition that is extracted becomes an operation or a fragment. -/
theorem Extracted.length_operations_add_length_fragments (parts : List Extracted) :
    (parts.filterMap operation?).length + (parts.filterMap fragment?).length = parts.length := by
  induction parts with
  | nil => rfl
  | cons part parts ih =>
    cases part with
    | operation o requests =>
      simp only [List.filterMap_cons, operation?, fragment?, List.length_cons]
      omega
    | fragment f =>
      simp only [List.filterMap_cons, operation?, fragment?, List.length_cons]
      omega

/-- The bindings of a file are those of definitions with sources: one for each, in their order, and
with the definition's own source. -/
structure FileBindings.Records (s : Scope) (definitions : List (Definition × String))
    (file : FileBindings) : Prop where
  operations : List.Forall₂ (fun x b => OperationBinding.Unlinked s x.1 b ∧ b.source = x.2)
    (definitions.filterMap Definition.sourcedOperation?) file.operations
  fragments : List.Forall₂ (fun x b => FragmentBinding.Of s x.1 b ∧ b.source = x.2)
    (definitions.filterMap Definition.sourcedFragment?) file.fragments
  total : file.operations.length + file.fragments.length = definitions.length

/-- A document's bindings record its definitions and their sources. -/
theorem ExtractedFile.records_of_ofDocument {schema : Schema} {config : Config}
    {conditions : List (String × String)} {d : Document} {e : ExtractedFile}
    (h : ofDocument schema config conditions d = .ok e) :
    e.file.Records ⟨schema, config, conditions, d.path⟩
      (d.definitions.zip d.definitionSources) := by
  obtain ⟨parts, hparts, h⟩ := Except.bind_eq_ok.mp h
  cases Except.pure_eq_ok.mp h
  have hextracted := Except.mapM_eq_ok.mp hparts
  constructor
  case operations =>
    refine List.rel_filterMap ?_ hextracted
    intro x part hx
    exact Scope.sourcedOperation?_of_extract hx
  case fragments =>
    refine List.rel_filterMap ?_ hextracted
    intro x part hx
    exact Scope.sourcedFragment?_of_extract hx
  case total =>
    rw [hextracted.length_eq]
    exact Extracted.length_operations_add_length_fragments parts

namespace Document

/-- Every definition of a document gets one source, whatever its position is. The sources are the
canonical texts, or the positions lead to increasing offsets: these cut the text into an opening and
one slice after another, and each source comes out of its own slice. If the document is extracted,
each definition has one binding, with its own source. -/
theorem one_source_each (d : Document) :
    d.definitionSources.length = d.definitions.length ∧
    (d.offsets? = none ∧ d.definitionSources = d.definitions.map Definition.canonicalSource ∨
      ∃ offsets opening pieces, d.offsets? = some offsets ∧
        d.definitionSources = List.zipWith
          (fun e span => e.sourceBetween d.source.toList span.1 span.2)
          d.definitions (spans d.source.toList offsets) ∧
        d.source.toList = opening ++ pieces.flatten ∧
        spans d.source.toList offsets = spansFrom (size opening) pieces ∧
        List.Forall₂ (Cut d.source.toList) (spans d.source.toList offsets) pieces ∧
        List.Forall₂ (fun x piece => x.1.DrawnFrom piece x.2)
          (d.definitions.zip d.definitionSources) pieces) ∧
    ∀ schema config conditions e, ExtractedFile.ofDocument schema config conditions d = .ok e →
      e.file.Records ⟨schema, config, conditions, d.path⟩
        (d.definitions.zip d.definitionSources) := by
  refine ⟨d.length_definitionSources, ?_, fun _ _ _ _ => ExtractedFile.records_of_ofDocument⟩
  cases hoffsets : d.offsets? with
  | none =>
    left
    exact ⟨rfl, by rw [definitionSources, hoffsets]⟩
  | some offsets =>
    right
    obtain ⟨hplaces, hincreasing⟩ := places_of_offsets? hoffsets
    obtain ⟨opening, pieces, hpieces, -, hspans⟩ := exists_tiling hplaces hincreasing
    have hsources : d.definitionSources = List.zipWith
        (fun e span => e.sourceBetween d.source.toList span.1 span.2)
        d.definitions (spans d.source.toList offsets) := by
      rw [definitionSources, hoffsets]
      exact sourcesAt_eq_zipWith _ _ _
    have hcuts : List.Forall₂ (Cut d.source.toList) (spans d.source.toList offsets) pieces := by
      rw [hspans, hpieces]
      exact cut_spansFrom opening pieces
    refine ⟨offsets, opening, pieces, rfl, hsources, hpieces, hspans, hcuts, ?_⟩
    rw [hsources]
    apply drawnFrom_zipWith _ hcuts
    rw [length_spans, length_of_offsets? hoffsets]

def sampleMismatch : Document :=
  let name : Selection := .field .start none "name" [] [] []
  ⟨"d", "é\n# x\n",
    [.operation ⟨⟨1, 1⟩, .query, some "A", [], [], [.field .start none "owner" [] [] [name]]⟩,
      .fragment ⟨⟨2, 1⟩, "F", "Cat", [], [name]⟩, .fragment ⟨⟨3, 1⟩, "G", "Dog", [], [name]⟩]⟩

theorem one_source_each_sample : sampleMismatch.offsets? = some [0, 3, 7] ∧
    ∃ e, ExtractedFile.ofDocument Schema.sampleSchema .default [] sampleMismatch = .ok e ∧
      e.file.Records ⟨Schema.sampleSchema, .default, [], "d"⟩
        (sampleMismatch.definitions.zip sampleMismatch.definitionSources) := by
  have hoffsets : sampleMismatch.offsets? = some [0, 3, 7] := by decide +kernel
  have hsome : (ExtractedFile.ofDocument Schema.sampleSchema .default []
      sampleMismatch).toOption.isSome := by decide +kernel
  obtain ⟨e, he⟩ := Option.isSome_iff_exists.mp hsome
  have h := Except.toOption_eq_some.mp he
  exact ⟨hoffsets, e, h, (one_source_each sampleMismatch).2.2 _ _ _ e h⟩

end Document

end QueryBindings
