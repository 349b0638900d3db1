import QueryBindings.Decimal.Binary64
import QueryBindings.Syntax.Position
/-!
Tokens of GraphQL texts.

A token carries the value that its text stands for: the digits of a number are read and the escapes
of a string resolved before any grammar looks at it.
-/
namespace QueryBindings

inductive Token
  | punctuator (c : Char)
  | ellipsis
  | name (text : String)
  | int (value : Int)
  | float (value : Decimal.Binary64)
  | string (value : String)
deriving DecidableEq

structure PlacedToken where
  position : Position
  token : Token
deriving DecidableEq

namespace Token

def isNameStart (c : Char) : Bool := c = '_' || c.isAlpha

def isNameChar (c : Char) : Bool := c = '_' || c.isAlphanum

def isPunctuator (c : Char) : Bool :=
  ['(', ')', '[', ']', '\x7b', '\x7d', '!', '$', ':', '=', '@', '|', '&'].contains c

def isIgnored (c : Char) : Bool := [' ', '\t', '\n', '\r', ',', '\ufeff'].contains c

def endsNumber (c : Char) : Bool :=
  [' ', '\t', '\n', '\r', ',', '#', '!', '$', ':', '=', '@', '|', '&', '(', ')', '[', ']',
    '\x7b', '\x7d'].contains c

end Token

end QueryBindings
