import QueryBindings.Text.Replace
/-!
Template literals that hold GraphQL source.

Backslashes, backquotes and the opening of a substitution are escaped, so a literal's own text
contains no substitution and ends only at its last backquote. Each fragment is then substituted on a
line of its own.
-/
namespace QueryBindings

/-- GraphQL source, and the fragments whose sources belong behind it. -/
structure Template where
  source : String
  fragments : List String
deriving DecidableEq

namespace Template

/-- Escapes a text for a template literal. Backslashes go first, so those that are put in are not
escaped again. -/
def escape (cs : List Char) : List Char :=
  let slashes := Text.replaceAll ['\\'] ['\\', '\\'] cs
  let quotes := Text.replaceAll ['\x60'] ['\\', '\x60'] slashes
  Text.replaceAll ['$', '\x7b'] ['\\', '$', '\x7b'] quotes

def escaped (s : String) : String := String.ofList (escape s.toList)

def bindingName (fragment : String) : String := "_gql_" ++ fragment

def substitution (fragment : String) : String := "\n$\x7b" ++ bindingName fragment ++ "\x7d"

def text (t : Template) : String :=
  "gql\x60" ++ escaped t.source ++ String.join (t.fragments.map substitution) ++ "\x60"

end Template

end QueryBindings
