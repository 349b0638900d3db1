import QueryBindings.Files.Error
import QueryBindings.Files.Path
/-!
A file system as a value: a tree of directories and files, and the directory that relative paths
start from.

Every step of a path leads from a directory: a name to one of its entries, two dots to its parent,
and an empty step or a dot to itself. A path that ends in a slash therefore names no file. A step
other than an empty one has to be allowed by the directory that it leads from.
-/
namespace QueryBindings

/-- What may be done with a directory: list its entries, and take the steps of paths from it. -/
structure Access where
  list : Bool
  search : Bool
deriving DecidableEq

def Access.full : Access := ⟨true, true⟩

/-- What stands in a directory under a name; pipes, sockets and devices are special. -/
inductive Entry
  | file (content : List UInt8)
  | special (content : List UInt8)
  | directory (entries : List (String × Entry)) (access : Access := .full)

namespace Entry

/-- The entry that a list of names leads to. -/
def at? : Entry → List String → Option Entry
  | e, [] => some e
  | .directory entries _, n :: rest => (entries.lookup n).bind (at? · rest)
  | _, _ :: _ => none

/-- Changes the entry of a name, or adds one. -/
def updateEntry (name : String) (change : Option Entry → Entry) :
    List (String × Entry) → List (String × Entry)
  | [] => [(name, change none)]
  | (other, e) :: rest =>
    if other = name then (name, change (some e)) :: rest
    else (other, e) :: updateEntry name change rest

/-- Puts an entry where a list of names leads, making the directories on the way. -/
def put (new : Entry) : List String → Option Entry → Entry
  | [], _ => new
  | n :: rest, some (.directory entries access) =>
    .directory (updateEntry n (put new rest) entries) access
  | n :: rest, _ => .directory [(n, put new rest none)]

inductive Kind
  | file
  | special
  | directory
deriving DecidableEq

/-- An entry as a walk meets it: the path that leads to it as it is shown, the names that lead to it
from the root, and its kind. -/
structure Found where
  shown : String
  names : List String
  kind : Kind
deriving DecidableEq

mutual

/-- An entry and all that is under it, a directory before its entries. -/
def walk (shown : String) (names : List String) : Entry → List Found
  | .file _ => [⟨shown, names, .file⟩]
  | .special _ => [⟨shown, names, .special⟩]
  | .directory entries _ => ⟨shown, names, .directory⟩ :: walkIn shown names entries

def walkIn (shown : String) (names : List String) : List (String × Entry) → List Found
  | [] => []
  | (n, e) :: rest => walk (Path.join shown n) (names ++ [n]) e ++ walkIn shown names rest

end

end Entry

structure FileSystem where
  root : Entry
  workingDirectory : List String

namespace FileSystem

def maxNameSize : Nat := 255

def maxPathSize : Nat := 4095

def isTooLong (path : String) : Bool := maxPathSize < path.utf8ByteSize

/-- Whether paths may lead on from a place. -/
def isSearchable (fs : FileSystem) (names : List String) : Bool :=
  match fs.root.at? names with
  | some (.directory _ access) => access.search
  | _ => false

def isListable (fs : FileSystem) (names : List String) : Bool :=
  match fs.root.at? names with
  | some (.directory _ access) => access.list
  | _ => false

/-- Takes one step of a path from the entry that a list of names leads to. -/
def enter (fs : FileSystem) (here : List String) (segment : String) :
    Except SystemError (List String) :=
  match fs.root.at? here with
  | some (.directory entries access) =>
    if segment = "" then .ok here
    else if !access.search then .error .permissionDenied
    else if segment = "." then .ok here
    else if segment = ".." then .ok here.dropLast
    else if maxNameSize < segment.utf8ByteSize then .error .nameTooLong
    else if (entries.lookup segment).isSome then .ok (here ++ [segment])
    else .error .noEntry
  | _ => .error .notADirectory

/-- What every path has to be, whatever it is to lead to: not empty, not too long, and without the
character that ends a path for the system. -/
def checkPath (path : String) : Except SystemError Unit :=
  if path.contains '\x00' then .error .unexpectedNul
  else if path = "" then .error .noEntry
  else if isTooLong path then .error .nameTooLong
  else .ok ()

def start (fs : FileSystem) (path : String) : List String :=
  if Path.isAbsolute path then [] else fs.workingDirectory

/-- The places that a path leads through, from where it starts to what it names; each is given by
the names that lead to it from the root. -/
def placesOn (fs : FileSystem) (path : String) : List (List String) :=
  go (fs.start path) (Path.segments path)
where
  go (here : List String) : List String → List (List String)
    | [] => [here]
    | segment :: rest =>
      match fs.enter here segment with
      | .ok there => here :: go there rest
      | .error _ => [here]

/-- The names that lead from the root to what a path names. -/
def resolve (fs : FileSystem) (path : String) : Except SystemError (List String) := do
  checkPath path
  (Path.segments path).foldlM fs.enter (fs.start path)

def find (fs : FileSystem) (path : String) : Except SystemError (List String × Entry) := do
  let names ← fs.resolve path
  match fs.root.at? names with
  | some e => .ok (names, e)
  | none => .error .noEntry

def read (fs : FileSystem) (path : String) : Except SystemError (List UInt8) := do
  match ← fs.find path with
  | (_, .file content) => .ok content
  | (_, .special content) => .ok content
  | (_, .directory _ _) => .error .isADirectory

/-- The text of a source file, which has to be a file and not a special entry. -/
def readText (fs : FileSystem) (path : String) : Except ReadError String :=
  match fs.find path with
  | .ok (_, .file content) => (Text.decodeUtf8 content).mapError (.notUtf8 path)
  | _ => .error (.notAFile path)

/-- The names that lead to the file which writing to a path makes or replaces. -/
def target (fs : FileSystem) (path : String) : Except SystemError (List String) := do
  checkPath path
  let segments := Path.segments path
  let trailing := segments.reverse.takeWhile (· = "")
  let stem := segments.take (segments.length - trailing.length)
  match stem.getLast? with
  | none => .error .isADirectory
  | some last =>
    let parent ← stem.dropLast.foldlM fs.enter (fs.start path)
    if last = "." ∨ last = ".." then
      let _ ← fs.enter parent last
      .error .isADirectory
    else match fs.root.at? parent with
      | some (.directory entries access) =>
        if !access.search then .error .permissionDenied
        else if !trailing.isEmpty then .error .isADirectory
        else if maxNameSize < last.utf8ByteSize then .error .nameTooLong
        else match entries.lookup last with
          | some (.directory _ _) => .error .isADirectory
          | _ => .ok (parent ++ [last])
      | _ => .error .notADirectory

end FileSystem

end QueryBindings
