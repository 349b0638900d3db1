import QueryBindings.Text.Hex
/-!
JSON texts, as far as options are read from them.

Numbers keep no value, since no option is a number. A string may contain the codes of surrogates
that belong to no pair; it is well formed as JSON, but it stands for no text.
-/
namespace QueryBindings

inductive Json
  | null
  | bool (value : Bool)
  | number
  | string (text? : Option String)
  | array (items : List Json)
  | object (members : List (Option String × Json))

namespace Json

def isSpace (c : Char) : Bool := c = ' ' || c = '\n' || c = '\t' || c = '\r'

def skipSpace (cs : List Char) : List Char := cs.dropWhile isSpace

/-- A part of a string: a character as written, or one that an escape gives by its code. -/
inductive StringPart
  | char (c : Char)
  | code (n : Nat)

/-- The characters that a backslash may precede, and what they stand for. -/
def simpleEscape? (c : Char) : Option Char :=
  if c = '"' ∨ c = '\\' ∨ c = '/' then some c
  else if c = 'b' then some '\x08'
  else if c = 'f' then some '\x0c'
  else if c = 'n' then some '\n'
  else if c = 'r' then some '\r'
  else if c = 't' then some '\t'
  else none

/-- The parts of a string behind its opening quote, and what follows the closing one. -/
def readParts : List Char → Option (List StringPart × List Char)
  | [] => none
  | '"' :: rest => some ([], rest)
  | '\\' :: 'u' :: a :: b :: c :: d :: rest => do
    let n ← Text.hexValue? [a, b, c, d]
    let (parts, rest) ← readParts rest
    return (.code n :: parts, rest)
  | '\\' :: e :: rest => do
    let char ← simpleEscape? e
    let (parts, rest) ← readParts rest
    return (.char char :: parts, rest)
  | c :: rest =>
    if c.toNat < 0x20 ∨ c = '\\' then none
    else do
      let (parts, rest) ← readParts rest
      return (.char c :: parts, rest)

def isHighSurrogate (n : Nat) : Bool := 0xD800 ≤ n && n < 0xDC00

def isLowSurrogate (n : Nat) : Bool := 0xDC00 ≤ n && n < 0xE000

/-- The text of a string's parts, unless a surrogate stands alone. -/
def textOfParts? : List StringPart → Option (List Char)
  | [] => some []
  | .char c :: rest => (textOfParts? rest).map (c :: ·)
  | .code n :: .code m :: rest =>
    if isHighSurrogate n && isLowSurrogate m then
      (textOfParts? rest).map (Char.ofNat (0x10000 + (n - 0xD800) * 0x400 + (m - 0xDC00)) :: ·)
    else if isHighSurrogate n || isLowSurrogate n then none
    else (textOfParts? (.code m :: rest)).map (Char.ofNat n :: ·)
  | .code n :: rest =>
    if isHighSurrogate n || isLowSurrogate n then none
    else (textOfParts? rest).map (Char.ofNat n :: ·)

def readString (cs : List Char) : Option (Option String × List Char) :=
  (readParts cs).map fun (parts, rest) => ((textOfParts? parts).map String.ofList, rest)

/-- Passes over at least one digit. -/
def skipDigits (cs : List Char) : Option (List Char) :=
  if (cs.head?.any Char.isDigit) then some (cs.dropWhile Char.isDigit) else none

def skipFraction (cs : List Char) : Option (List Char) :=
  match cs with
  | '.' :: rest => skipDigits rest
  | _ => some cs

def skipExponent (cs : List Char) : Option (List Char) :=
  match cs with
  | e :: rest =>
    if e = 'e' ∨ e = 'E' then
      match rest with
      | sign :: digits =>
        if sign = '+' ∨ sign = '-' then skipDigits digits else skipDigits rest
      | [] => none
    else some cs
  | [] => some []

/-- Passes over a number, which has no leading zeros. -/
def skipNumber (cs : List Char) : Option (List Char) := do
  let cs := if cs.head? = some '-' then cs.tail else cs
  let afterWhole ← if cs.head? = some '0' then some cs.tail else skipDigits cs
  skipExponent (← skipFraction afterWhole)

def skipWord : List Char → List Char → Option (List Char)
  | [], cs => some cs
  | w :: ws, c :: cs => if w = c then skipWord ws cs else none
  | _ :: _, [] => none

/-- Reads the items of an array behind the opening bracket, with `value` for each of them. -/
def readItems (value : List Char → Option (Json × List Char)) : Nat → List Char →
    Option (List Json × List Char)
  | 0, _ => none
  | n + 1, cs => do
    let (item, rest) ← value cs
    match skipSpace rest with
    | ',' :: rest =>
      let (items, rest) ← readItems value n rest
      return (item :: items, rest)
    | ']' :: rest => return ([item], rest)
    | _ => none

/-- Reads a key and a colon, and a value behind them. -/
def readMember (value : List Char → Option (Json × List Char)) (cs : List Char) :
    Option ((Option String × Json) × List Char) := do
  match skipSpace cs with
  | '"' :: rest =>
    let (key, rest) ← readString rest
    match skipSpace rest with
    | ':' :: rest =>
      let (v, rest) ← value rest
      return ((key, v), rest)
    | _ => none
  | _ => none

def readMembers (value : List Char → Option (Json × List Char)) : Nat → List Char →
    Option (List (Option String × Json) × List Char)
  | 0, _ => none
  | n + 1, cs => do
    let (member, rest) ← readMember value cs
    match skipSpace rest with
    | ',' :: rest =>
      let (members, rest) ← readMembers value n rest
      return (member :: members, rest)
    | '\x7d' :: rest => return ([member], rest)
    | _ => none

/-- Reads a value; `n` bounds its nesting and its number of items. -/
def readValue : Nat → List Char → Option (Json × List Char)
  | 0, _ => none
  | n + 1, cs =>
    match skipSpace cs with
    | '"' :: rest => (readString rest).map fun (text?, rest) => (.string text?, rest)
    | '[' :: rest =>
      match skipSpace rest with
      | ']' :: rest => some (.array [], rest)
      | rest => (readItems (readValue n) n rest).map fun (items, rest) => (.array items, rest)
    | '\x7b' :: rest =>
      match skipSpace rest with
      | '\x7d' :: rest => some (.object [], rest)
      | rest =>
        (readMembers (readValue n) n rest).map fun (members, rest) => (.object members, rest)
    | 'n' :: rest => (skipWord ['u', 'l', 'l'] rest).map (.null, ·)
    | 't' :: rest => (skipWord ['r', 'u', 'e'] rest).map (.bool true, ·)
    | 'f' :: rest => (skipWord ['a', 'l', 's', 'e'] rest).map (.bool false, ·)
    | rest => (skipNumber rest).map (.number, ·)

/-- Reads a text that holds one value and nothing else but spaces. Every value takes a character, so
the length of the text bounds nesting and items. -/
def parse (text : String) : Option Json := do
  let cs := text.toList
  let (value, rest) ← readValue (cs.length + 1) cs
  if (skipSpace rest).isEmpty then some value else none

end Json

end QueryBindings
