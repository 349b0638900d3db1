import QueryBindings.Syntax.Number
import QueryBindings.Syntax.StringText
/-!
Cutting a text into tokens.

`Token.read?` takes the longest token at the start of a text and tells how many characters it covers
beyond the first; `Token.scan` passes over what stands between tokens and gives every token its
position.  A text is refused as a whole when any part of it is no token.
-/
namespace QueryBindings.Token

/-- The token that starts with `c` and the number of its characters that it takes from `rest`. -/
def read? (c : Char) (rest : List Char) : Option (Token × Nat) :=
  if isNameStart c then
    let tail := rest.takeWhile isNameChar
    some (.name (String.ofList (c :: tail)), tail.length)
  else if c = '-' ∨ c.isDigit then
    let tail := rest.takeWhile (!endsNumber ·)
    (number? (c :: tail)).map (·, tail.length)
  else if isPunctuator c then some (.punctuator c, 0)
  else if c = '.' then
    match rest with
    | '.' :: '.' :: _ => some (.ellipsis, 2)
    | _ => none
  else if c = '"' then
    match rest with
    | '"' :: '"' :: body =>
      (blockContent? ' ' body).map fun content =>
        (.string (String.ofList (blockValue content)), content.length + 5)
    | _ => do
      let content ← quotedContent? false rest
      let value ← unescape? content
      return (.string (String.ofList value), content.length + 1)
  else none

/-- What follows a comment, the character that ends it included. -/
def afterComment : List Char → List Char
  | [] => []
  | c :: rest => if c = '\n' ∨ c = '\r' then rest else afterComment rest

theorem length_afterComment_le (cs : List Char) : (afterComment cs).length ≤ cs.length := by
  induction cs with
  | nil => simp [afterComment]
  | cons c rest ih =>
    simp only [afterComment]
    split
    · simp
    · exact Nat.le_succ_of_le ih

/-- The tokens of a text whose first character is at `p`. -/
def scanFrom (p : Position) : List Char → Option (List PlacedToken)
  | [] => some []
  | c :: rest =>
    if isIgnored c then scanFrom (p.afterIgnored c) rest
    else if c = '#' then scanFrom p.nextLine (afterComment rest)
    else match read? c rest with
      | none => none
      | some (token, n) =>
        (scanFrom (p.afterLexeme (c :: rest.take n)) (rest.drop n)).map (⟨p, token⟩ :: ·)
termination_by cs => cs.length
decreasing_by
  · simp
  · have := length_afterComment_le rest
    simp only [List.length_cons]; omega
  · simp only [List.length_drop, List.length_cons]; omega

def scan (text : String) : Option (List PlacedToken) := scanFrom .start text.toList

end QueryBindings.Token
