import QueryBindings.Document.Offset
import QueryBindings.Files.Error
import QueryBindings.Syntax.Executable.Parser
import QueryBindings.Syntax.Executable.Printer
import QueryBindings.Text.Blank
/-!
Documents, and the source text of each definition in them.

A definition's source reaches from its own position to that of the next definition, without the
comment lines at its end: these belong to the definition that follows. When the positions don't lead
into the text in increasing order, or nothing is left of a source, the canonical text stands in.
-/
namespace QueryBindings

structure Document where
  path : String
  source : String
  definitions : List Definition

inductive DocumentError
  | unreadable (reason : ReadError)
  | malformed (path : String)
deriving DecidableEq

/-- The error's text.  What a malformed text violates is not told. -/
def DocumentError.message : DocumentError → String
  | unreadable reason =>
    "Failure while trying to read a document file from disk: " ++ reason.message
  | malformed path => s!"Error parsing document `{path}`: "

namespace Text

theorem length_trimEnd_le (cs : List Char) : (trimEnd cs).length ≤ cs.length := by
  have h := (List.dropWhile_sublist isBlank (l := cs.reverse)).length_le
  simpa [trimEnd] using h

def isCommentLine (line : List Char) : Bool := (trimStart line).head? = some '#'

/-- The text before the last line feed and the text after it. -/
def splitAtLastFeed? : List Char → Option (List Char × List Char)
  | [] => none
  | c :: cs =>
    match splitAtLastFeed? cs with
    | some (before, last) => some (c :: before, last)
    | none => if c = '\n' then some ([], cs) else none

/-- The two parts make up the text, with the line feed between them. -/
theorem eq_of_splitAtLastFeed? {cs before last : List Char}
    (h : splitAtLastFeed? cs = some (before, last)) : cs = before ++ '\n' :: last := by
  induction cs generalizing before with
  | nil => simp [splitAtLastFeed?] at h
  | cons c cs ih =>
    simp only [splitAtLastFeed?] at h
    split at h
    · rename_i hs
      simp only [Option.some.injEq, Prod.mk.injEq] at h
      obtain ⟨rfl, rfl⟩ := h
      simpa using ih hs
    · split at h <;> simp_all

/-- Removes the comment lines at the end of a text, and the blanks before them; the first line
stays. -/
def dropCommentLines (cs : List Char) : List Char :=
  match h : splitAtLastFeed? cs with
  | none => cs
  | some (before, last) =>
    have shorter : (trimEnd before).length < cs.length := by
      have := length_trimEnd_le before
      rw [eq_of_splitAtLastFeed? h]
      simp only [List.length_append, List.length_cons]
      omega
    if isCommentLine last then dropCommentLines (trimEnd before) else cs
termination_by cs.length

/-- A definition's source without blanks at both ends and comment lines at its end. -/
def dropTrailingComments (cs : List Char) : List Char := dropCommentLines (trim cs)

end Text

namespace Definition

def canonicalSource (d : Definition) : String := Text.trimmed d.text

/-- The part of a text between two offsets as the source of a definition. -/
def sourceBetween (d : Definition) (cs : List Char) (start stop : Nat) : String :=
  match Text.slice? cs start stop with
  | none => d.canonicalSource
  | some piece =>
    let source := Text.dropTrailingComments piece
    if source.isEmpty then d.canonicalSource else String.ofList source

end Definition

namespace Document

def parse (path text : String) : Except DocumentError Document :=
  match Definition.parse text with
  | some definitions => .ok ⟨path, text, definitions⟩
  | none => .error (.malformed path)

/-- The offsets of the definitions, if all their positions are in the text and in increasing order.
-/
def offsets? (d : Document) : Option (List Nat) :=
  match d.definitions.mapM (fun e => Text.offset? d.source.toList e.position) with
  | some offsets => if offsets.Pairwise (· < ·) then some offsets else none
  | none => none

/-- The sources of definitions that start at the given offsets. -/
def sourcesAt (cs : List Char) : List Definition → List Nat → List String
  | d :: ds, start :: starts =>
    d.sourceBetween cs start (starts.head?.getD (Text.size cs)) :: sourcesAt cs ds starts
  | _, _ => []

def definitionSources (d : Document) : List String :=
  match d.offsets? with
  | some offsets => sourcesAt d.source.toList d.definitions offsets
  | none => d.definitions.map Definition.canonicalSource

end Document

end QueryBindings
