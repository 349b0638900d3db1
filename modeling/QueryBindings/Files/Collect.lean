import QueryBindings.Files.Tree
import QueryBindings.Names
/-!
Finding source files.

A path that names a file stands for that file, whatever it is called. A path that names a directory
stands for all files under it whose extension is one of those asked for, and a path that names a
special entry for no file. A file that is reached more than once is shown as it was reached first,
and the files are shown in the order of their paths.

Directories are opened by their paths as shown, and files are told apart by their paths from the
root; if the system doesn't take one of these paths, nothing is found.
-/
namespace QueryBindings

/-- Extensions without the dots before them, in their order and each of them once. -/
def normalizeExtensions (extensions : List String) : List String :=
  (Names.union [] (extensions.map withoutDots)).mergeSort fun a b => a ≤ b
where
  withoutDots (e : String) : String := String.ofList (e.toList.dropWhile (· = '.'))

/-- Why the files that a path stands for can't be told. -/
inductive ScanError
  /-- The given path leads nowhere, or the walk from it comes to a directory that can't be
  opened. -/
  | stopped (path : String) (place : String) (reason : SystemError)
  /-- A file can't be told from others, since its path from the root, or that of a place on the way
  to it, isn't taken. -/
  | unresolved (file : String) (reason : SystemError)
deriving DecidableEq

def ScanError.message : ScanError → String
  | stopped path place reason =>
    "Failed to scan files at/under " ++ Text.quoted path ++ ": IO error for operation on " ++
      place ++ ": " ++ reason.message ++ ": " ++ reason.message
  | unresolved file reason =>
    "Failed to resolve " ++ Text.quoted file ++ ": " ++ reason.message

namespace Entry.Found

def hasExtension (extensions : List String) (f : Found) : Bool :=
  match f.names.getLast? with
  | none => false
  | some name => (Path.fileExtension? name).any extensions.contains

end Entry.Found

namespace FileSystem

/-- Why a place can't be reached by its path from the root. -/
def rootFault? (fs : FileSystem) (names : List String) : Option SystemError :=
  if isTooLong (Path.absolute names) then some .nameTooLong
  else if (List.range names.length).all fun n => fs.isSearchable (names.take n) then none
  else some .permissionDenied

/-- Why a file that is found from a path can't be told from others. -/
def fileFault? (fs : FileSystem) (path : String) (f : Entry.Found) : Option SystemError :=
  (fs.placesOn path ++ [f.names]).findSome? fs.rootFault?

/-- Why a directory that a walk meets can't be opened. The directories around it have been opened
before, so what is to be allowed is the last step and the listing itself. -/
def directoryFault? (fs : FileSystem) (f : Entry.Found) : Option SystemError :=
  if isTooLong f.shown then some .nameTooLong
  else if fs.isSearchable f.names.dropLast ∧ fs.isListable f.names then none
  else some .permissionDenied

/-- What stops the walk from a path at an entry that it meets. -/
def obstacle? (fs : FileSystem) (extensions : List String) (path : String) (f : Entry.Found) :
    Option ScanError :=
  match f.kind with
  | .directory => (fs.directoryFault? f).map (.stopped path f.shown)
  | .file =>
    if f.hasExtension extensions then (fs.fileFault? path f).map (.unresolved f.shown) else none
  | .special => none

def filesAt (fs : FileSystem) (extensions : List String) (path : String) :
    Except ScanError (List Entry.Found) :=
  match fs.find path with
  | .error reason => .error (.stopped path path reason)
  | .ok (names, .file _) =>
    match fs.fileFault? path ⟨path, names, .file⟩ with
    | some reason => .error (.unresolved path reason)
    | none => .ok [⟨path, names, .file⟩]
  | .ok (_, .special _) => .ok []
  | .ok (names, .directory entries access) =>
    if access.list then
      let walk := Entry.walkIn path names entries
      match walk.findSome? (fs.obstacle? extensions path) with
      | some e => .error e
      | none => .ok (walk.filter fun f => f.kind = .file ∧ f.hasExtension extensions)
    else .error (.stopped path path .permissionDenied)

/-- Keeps the first of those that are the same file. -/
def keepFirst : List Entry.Found → List Entry.Found
  | [] => []
  | f :: rest => f :: (keepFirst rest).filter (·.names ≠ f.names)

/-- The files that paths stand for, in the order of their paths as shown. -/
def collect (fs : FileSystem) (extensions paths : List String) :
    Except ScanError (List String) := do
  let found ← paths.mapM (fs.filesAt extensions)
  return Path.sort ((keepFirst found.flatten).map (·.shown))

end FileSystem

end QueryBindings
