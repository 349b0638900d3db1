import Mathlib.Data.List.Basic
import QueryBindings.Module.Basic
/-!
Template literals are read as what was put into them.

`Template.read` reads a literal from behind its opening backquote: characters, of which some are
escaped by a backslash, and expressions that are substituted. What an operation or a fragment writes
is read as its source, and as one line with a constant for each fragment behind it. The literal ends
where its text does, whatever stands in the source.

Escaping replaces one kind of character after the other in the whole text. That comes to one pass in
which every character is looked at once, with the next one beside it.
-/
namespace QueryBindings

namespace Text

/-- Replacing a single character does so wherever it stands. -/
theorem replaceAll_singleton (c : Char) (replacement cs : List Char) :
    replaceAll [c] replacement cs = cs.flatMap fun x => if x = c then replacement else [x] := by
  induction cs with
  | nil => rfl
  | cons x cs ih =>
    rw [replaceAll] at ih
    by_cases h : x = c
    · simp [replaceAll, replaceFrom, dropPattern?, h, ih]
    · simp [replaceAll, replaceFrom, dropPattern?, h, Ne.symm h, ih]

/-- A pair is replaced where it stands, and what can't be the start of one stays. -/
theorem replaceAll_pair_cons (c d : Char) (replacement cs : List Char) (x : Char) :
    replaceAll [c, d] replacement (x :: cs) =
      if x = c ∧ cs.head? = some d then replacement ++ replaceAll [c, d] replacement cs.tail
      else x :: replaceAll [c, d] replacement cs := by
  cases cs with
  | nil => simp [replaceAll, replaceFrom, dropPattern?, Ne.symm]
  | cons y cs =>
    by_cases hx : c = x
    · by_cases hy : d = y
      · simp [replaceAll, replaceFrom, dropPattern?, hx, hy]
      · simp [replaceAll, replaceFrom, dropPattern?, hx, hy, Ne.symm hy]
    · simp [replaceAll, replaceFrom, dropPattern?, hx, Ne.symm hx]

end Text

namespace Template

/-! ### Escaping in one pass -/

/-- A character would not be read as itself, before the given text. -/
def Special (c : Char) (cs : List Char) : Prop :=
  c = '\\' ∨ c = '\x60' ∨ c = '$' ∧ cs.head? = some '\x7b'

instance (c : Char) (cs : List Char) : Decidable (Special c cs) := by
  unfold Special; infer_instance

/-- A backslash or a backquote with a backslash before it. -/
def marked (c : Char) : List Char := if c = '\\' ∨ c = '\x60' then ['\\', c] else [c]

/-- Marking backslashes and then backquotes marks every character once. -/
theorem replaceAll_marks (cs : List Char) :
    Text.replaceAll ['\x60'] ['\\', '\x60'] (Text.replaceAll ['\\'] ['\\', '\\'] cs) =
      cs.flatMap marked := by
  rw [Text.replaceAll_singleton, Text.replaceAll_singleton, List.flatMap_assoc]
  apply List.flatMap_congr
  intro c _
  by_cases hslash : c = '\\'
  · simp [hslash, marked]
  · by_cases hquote : c = '\x60'
    · simp [hquote, marked]
    · simp [hslash, hquote, marked]

/-- Marks put no brace before a text and take none away. -/
theorem head?_flatMap_marked (cs : List Char) :
    (cs.flatMap marked).head? = some '\x7b' ↔ cs.head? = some '\x7b' := by
  cases cs with
  | nil => rfl
  | cons c cs =>
    by_cases h : c = '\\' ∨ c = '\x60'
    · obtain rfl | rfl := h <;> simp [marked]
    · simp [marked, h]

@[simp] theorem escape_nil : escape [] = [] := rfl

/-- Each character is escaped if it is special before the rest of the text, and only then. -/
theorem escape_cons (c : Char) (cs : List Char) :
    escape (c :: cs) = (if Special c cs then ['\\', c] else [c]) ++ escape cs := by
  simp only [escape, replaceAll_marks, List.flatMap_cons]
  by_cases hmark : c = '\\' ∨ c = '\x60'
  · have hspecial : Special c cs := hmark.imp_right .inl
    have hne : c ≠ '$' := by rintro rfl; simp at hmark
    simp [marked, hmark, hspecial, Text.replaceAll_pair_cons, hne]
  · have hspecial : Special c cs ↔ c = '$' ∧ cs.head? = some '\x7b' := by
      simp only [Special, ← or_assoc, hmark, false_or]
    simp only [marked, hmark, if_false, List.singleton_append, Text.replaceAll_pair_cons,
      head?_flatMap_marked, hspecial]
    by_cases hpair : c = '$' ∧ cs.head? = some '\x7b'
    · obtain ⟨rfl, hhead⟩ := hpair
      obtain ⟨rest, rfl⟩ := List.head?_eq_some_iff.mp hhead
      have hbrace : marked '\x7b' = ['\x7b'] := by decide
      simp [hbrace, Text.replaceAll_pair_cons]
    · simp [hpair]

/-- Escaping does not put a brace before a text. -/
theorem head?_escape_append {cs rest : List Char} (h : rest.head? ≠ some '\x7b')
    (hhead : (escape cs ++ rest).head? = some '\x7b') : cs.head? = some '\x7b' := by
  cases cs with
  | nil => exact absurd hhead h
  | cons c cs =>
    rw [escape_cons] at hhead
    split at hhead
    · simp at hhead
    · simpa using hhead

/-! ### Reading -/

/-- A part of a literal: a character of its text, or an expression that is substituted. -/
inductive Piece
  | char (c : Char)
  | substitution (expression : String)
deriving DecidableEq

/-- What is read of a literal: its parts, and what follows it. -/
abbrev Reading := Option (List Piece × List Char)

def prepend (pieces : List Piece) (r : Reading) : Reading := r.map fun q => (pieces ++ q.1, q.2)

@[simp] theorem prepend_nil (r : Reading) : prepend [] r = r := by
  cases r <;> rfl

@[simp] theorem prepend_prepend (a b : List Piece) (r : Reading) :
    prepend a (prepend b r) = prepend (a ++ b) r := by
  cases r <;> simp [prepend]

@[simp] theorem prepend_some (a b : List Piece) (rest : List Char) :
    prepend a (some (b, rest)) = some (a ++ b, rest) := rfl

/-- Reads a literal from behind its opening backquote, up to the one that ends it. A backslash lets
the backslash, backquote or dollar sign behind it stand for itself, and an expression ends at the
first closing brace. -/
def read : List Char → Reading
  | [] => none
  | c :: rest =>
    if c = '\x60' then some ([], rest)
    else if c = '\\' then
      match rest with
      | [] => none
      | d :: rest =>
        if d = '\\' ∨ d = '\x60' ∨ d = '$' then prepend [.char d] (read rest) else none
    else if c = '$' ∧ rest.head? = some '\x7b' then
      if '\x7d' ∈ rest then
        prepend [.substitution (String.ofList (rest.tail.takeWhile (· != '\x7d')))]
          (read (rest.dropWhile (· != '\x7d')).tail)
      else none
    else prepend [.char c] (read rest)
termination_by cs => cs.length
decreasing_by
  · simp only [List.length_cons]
    omega
  · have hdrop := (List.dropWhile_suffix (l := rest) (· != '\x7d')).length_le
    simp only [List.length_cons, List.length_tail]
    omega
  · simp

theorem read_end (rest : List Char) : read ('\x60' :: rest) = some ([], rest) := by
  rw [read.eq_def]
  simp

/-- A character behind a backslash is read as itself. -/
theorem read_escaped {c : Char} (h : c = '\\' ∨ c = '\x60' ∨ c = '$') (rest : List Char) :
    read ('\\' :: c :: rest) = prepend [.char c] (read rest) := by
  rw [read.eq_def]
  simp [h]

/-- A character that is not special is read as itself. -/
theorem read_char {c : Char} {rest : List Char} (h : ¬ Special c rest) :
    read (c :: rest) = prepend [.char c] (read rest) := by
  simp only [Special, not_or] at h
  rw [read.eq_def]
  simp [h]

/-- An expression is read up to the first closing brace. -/
theorem read_substitution {expression : List Char} (h : '\x7d' ∉ expression) (rest : List Char) :
    read ('$' :: '\x7b' :: (expression ++ '\x7d' :: rest)) =
      prepend [.substitution (String.ofList expression)] (read rest) := by
  have hne : ∀ c ∈ expression, (c != '\x7d') = true := by
    intro c hc
    simpa using ne_of_mem_of_not_mem hc h
  rw [read.eq_def]
  simp [List.takeWhile_append_of_pos hne, List.dropWhile_append_of_pos hne]

/-- An escaped text is read as itself, unless what follows could open an expression with its last
character. -/
theorem read_escape (cs : List Char) {rest : List Char} (h : rest.head? ≠ some '\x7b') :
    read (escape cs ++ rest) = prepend (cs.map .char) (read rest) := by
  induction cs with
  | nil => simp
  | cons c cs ih =>
    rw [escape_cons]
    by_cases hspecial : Special c cs
    · have hc : c = '\\' ∨ c = '\x60' ∨ c = '$' := by
        obtain h | h | h := hspecial
        · exact .inl h
        · exact .inr (.inl h)
        · exact .inr (.inr h.1)
      simp [hspecial, read_escaped hc, ih]
    -- What is put in is a backslash, so no brace comes to stand behind a dollar sign.
    · have hplain : ¬ Special c (escape cs ++ rest) := by
        rintro (rfl | rfl | ⟨rfl, hhead⟩)
        · exact hspecial (.inl rfl)
        · exact hspecial (.inr (.inl rfl))
        · exact hspecial (.inr (.inr ⟨rfl, head?_escape_append h hhead⟩))
      simp [hspecial, read_char hplain, ih]

/-! ### Written templates -/

theorem toList_substitution (fragment : String) :
    (substitution fragment).toList =
      '\n' :: '$' :: '\x7b' :: ((bindingName fragment).toList ++ ['\x7d']) := by
  simp [substitution]

/-- The line of a fragment is read as a line feed and the fragment's constant. -/
theorem read_line {fragment : String} (h : ∀ c ∈ fragment.toList, Token.isNameChar c = true)
    (rest : List Char) :
    read ((substitution fragment).toList ++ rest) =
      prepend [.char '\n', .substitution (bindingName fragment)] (read rest) := by
  have hbrace : '\x7d' ∉ (bindingName fragment).toList := by
    simp only [bindingName, String.toList_append, List.mem_append, not_or]
    exact ⟨by decide, fun hmem => absurd (h _ hmem) (by decide)⟩
  have hfeed : ∀ cs, ¬ Special '\n' cs := by simp [Special]
  rw [toList_substitution]
  simp only [List.cons_append, List.append_assoc, List.nil_append, read_char (hfeed _),
    read_substitution hbrace, prepend_prepend, String.ofList_toList]

def linePieces (fragments : List String) : List Piece :=
  fragments.flatMap fun f => [.char '\n', .substitution (bindingName f)]

/-- The lines of fragments are read one by one. -/
theorem read_lines {fragments : List String}
    (h : ∀ f ∈ fragments, ∀ c ∈ f.toList, Token.isNameChar c = true) (rest : List Char) :
    read (fragments.flatMap (fun f => (substitution f).toList) ++ rest) =
      prepend (linePieces fragments) (read rest) := by
  induction fragments with
  | nil => simp [linePieces]
  | cons f fragments ih =>
    obtain ⟨hf, hrest⟩ := List.forall_mem_cons.mp h
    rw [List.flatMap_cons, List.append_assoc, read_line hf, ih hrest, prepend_prepend]
    rfl

def literal (t : Template) : String :=
  escaped t.source ++ String.join (t.fragments.map substitution)

theorem text_eq (t : Template) : t.text = "gql\x60" ++ t.literal ++ "\x60" := by
  simp [text, literal, String.append_assoc]

theorem toList_literal (t : Template) : t.literal.toList =
    escape t.source.toList ++ t.fragments.flatMap fun f => (substitution f).toList := by
  simp [literal, escaped, List.flatMap_map]

/-- A literal ends at the backquote behind it, whatever comes then, and is read as its parts. -/
theorem read_literal {t : Template}
    (h : ∀ f ∈ t.fragments, ∀ c ∈ f.toList, Token.isNameChar c = true) (rest : List Char) :
    read (t.literal.toList ++ '\x60' :: rest) =
      some (t.source.toList.map .char ++ linePieces t.fragments, rest) := by
  have hhead : (t.fragments.flatMap (fun f => (substitution f).toList) ++ '\x60' :: rest).head? ≠
      some '\x7b' := by
    cases t.fragments with
    | nil => simp
    | cons f fragments => simp [toList_substitution]
  rw [toList_literal, List.append_assoc, read_escape _ hhead, read_lines h, read_end]
  simp

theorem text_operation (name input data : String) (kind : OperationKind) (document : Template) :
    (Declaration.operation name kind input data document).text =
      "export const " ++ name ++ " = " ++ kind.definer ++ "<" ++ input ++ ", " ++ data ++ ">(" ++
        document.text ++ ")\n" := rfl

theorem text_fragment (name : String) (document : Template) :
    (Declaration.fragment name document).text =
      "const " ++ bindingName name ++ " = " ++ document.text ++ "\n" := rfl

theorem groupText_nil : Section.groupText [] = "" := rfl

theorem groupText_cons (d : Declaration) (l : List Declaration) :
    Section.groupText (d :: l) = d.text ++ Section.groupText l := by
  simp [Section.groupText, String.join_cons]

theorem groupText_append (a b : List Declaration) :
    Section.groupText (a ++ b) = Section.groupText a ++ Section.groupText b := by
  simp [Section.groupText]

/-- A text has a template between two others. Read from behind its opening backquote, the template
has the given parts, and it ends at the backquote that the text behind follows. -/
def Embedded (text before : String) (pieces : List Piece) (behind : String) : Prop :=
  ∃ literal, text = before ++ "gql\x60" ++ literal ++ "\x60" ++ behind ∧
    ∀ rest, read (literal.toList ++ '\x60' :: rest) = some (pieces, rest)

/-- A template is read back wherever it stands. -/
theorem embedded {t : Template} (h : ∀ f ∈ t.fragments, ∀ c ∈ f.toList, Token.isNameChar c = true)
    {text before behind : String} (htext : text = before ++ (t.text ++ behind)) :
    Embedded text before (t.source.toList.map .char ++ linePieces t.fragments) behind :=
  ⟨t.literal, by rw [htext, text_eq]; simp only [String.append_assoc], read_literal h⟩

/-- The template of an operation's document is read as its source, and behind that one line for each
fragment, which substitutes the fragment's constant. The template of a fragment's document is read
as its source. -/
theorem read_documents (o : OperationBinding) (f : FragmentBinding)
    (h : ∀ n ∈ o.fragments, ∀ c ∈ n.toList, Token.isNameChar c = true) :
    Embedded (Section.groupText o.moduleDeclarations)
      ("export const " ++ o.name ++ " = " ++ o.kind.definer ++ "<" ++ o.input.declaration ++ ", " ++
        o.data.declaration ++ ">(")
      (o.source.toList.map .char ++
        o.fragments.flatMap fun n => [.char '\n', .substitution ("_gql_" ++ n)])
      (")\n" ++
        Section.groupText (o.input.typeDeclarations .input ++ o.data.typeDeclarations .output)) ∧
    Embedded (Section.groupText f.moduleDeclarations)
      (Declaration.text (.type f.name (.ofFields .output f.fragments none f.fields)) ++
        Section.groupText (Node.typeDeclarationsOf .output f.fields) ++
        "const " ++ ("_gql_" ++ f.name) ++ " = ")
      (f.source.toList.map .char) "\n" := by
  constructor
  · apply embedded (t := ⟨o.source, o.fragments⟩) h
    rw [OperationBinding.moduleDeclarations, groupText_cons, text_operation]
    simp only [String.append_assoc]
  · have hpieces : f.source.toList.map Piece.char =
        f.source.toList.map .char ++ linePieces [] := (List.append_nil _).symm
    rw [hpieces]
    apply embedded (t := ⟨f.source, []⟩) (by simp)
    rw [FragmentBinding.moduleDeclarations, groupText_cons, groupText_append, groupText_cons,
      groupText_nil, text_fragment, bindingName]
    simp only [String.append_assoc, String.append_empty]

def sampleOperation : OperationBinding where
  name := "Q"
  kind := .query
  location := ⟨none, 1, 1⟩
  source := "\\\\\x60$$\x7b$"
  fragments := ["F", "G"]
  input := .object ⟨"Input", ["Q"], [], [], none⟩ []
  data := .object ⟨"Data", ["Q"], [], [], none⟩ []

def sampleFragment : FragmentBinding := ⟨"F", "Query", ⟨none, 1, 1⟩, "\x60$\x7b\x7d\\", [], []⟩

theorem read_documents_sample :
    Embedded (Section.groupText sampleOperation.moduleDeclarations)
      "export const Q = defineQuery<Q_Input, Q_Data>("
      [.char '\\', .char '\\', .char '\x60', .char '$', .char '$', .char '\x7b', .char '$',
        .char '\n', .substitution "_gql_F", .char '\n', .substitution "_gql_G"]
      ")\nexport type Q_Input = \x7b\x7d\nexport type Q_Data = \x7b\x7d\n" ∧
    Embedded (Section.groupText sampleFragment.moduleDeclarations)
      "export type F = \x7b\x7d\nconst _gql_F = "
      [.char '\x60', .char '$', .char '\x7b', .char '\x7d', .char '\\'] "\n" := by
  have hall : (sampleOperation.fragments.all fun n => n.toList.all Token.isNameChar) = true := by
    decide
  have h : ∀ n ∈ sampleOperation.fragments, ∀ c ∈ n.toList, Token.isNameChar c = true :=
    fun n hn => List.all_eq_true.mp (List.all_eq_true.mp hall n hn)
  exact read_documents sampleOperation sampleFragment h

end Template

end QueryBindings
