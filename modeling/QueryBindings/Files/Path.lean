import QueryBindings.Text.Lines
/-!
Paths and their order.

A path is read as a list of components: names, and steps to the parent. A leading slash and a
leading dot are components of their own; empty components and other dots vanish. Paths are ordered
component by component, so everything in a directory comes before everything in a directory of a
longer name.
-/
namespace QueryBindings.Path

inductive Component
  | root
  | current
  | parent
  | name (text : String)
deriving DecidableEq

/-- A segment behind the first slash, or the first segment of a path; empty ones and dots vanish. -/
def component? (segment : String) : Option Component :=
  if segment = "" ∨ segment = "." then none
  else if segment = ".." then some .parent
  else some (.name segment)

def segments (path : String) : List String := Text.split '/' path

def isAbsolute (path : String) : Bool := path.toList.head? = some '/'

def components (path : String) : List Component :=
  let inner := (segments path).filterMap component?
  if isAbsolute path then .root :: inner
  else if (segments path).head? = some "." then .current :: inner
  else inner

namespace Component

def rank : Component → Nat
  | root => 0
  | current => 1
  | parent => 2
  | name _ => 3

def text : Component → String
  | name t => t
  | _ => ""

/-- The root comes first, then the leading dot, then the parent, then names in the order of their
characters. -/
def lt (a b : Component) : Bool :=
  a.rank < b.rank || (a.rank == b.rank && a.text < b.text)

end Component

def componentsLt : List Component → List Component → Bool
  | _, [] => false
  | [], _ :: _ => true
  | a :: as, b :: bs => a.lt b || (a == b && componentsLt as bs)

def lt (a b : String) : Bool := componentsLt (components a) (components b)

/-- The paths in their order; those of equal components stay as they come. -/
def sort (paths : List String) : List String := paths.mergeSort fun a b => !lt b a

def join (directory name : String) : String :=
  if directory.toList.getLast? = some '/' then directory ++ name else directory ++ "/" ++ name

/-- The path from the root that takes one name after another. -/
def absolute (names : List String) : String := String.join (names.map ("/" ++ ·))

/-- The part of a file's name behind its last dot, unless nothing stands before that dot. -/
def fileExtension? (fileName : String) : Option String :=
  let parts := Text.split '.' fileName
  match parts.reverse with
  | [] => none
  | last :: before => if before.all (· = "") ∧ before.length ≤ 1 then none else some last

end QueryBindings.Path
