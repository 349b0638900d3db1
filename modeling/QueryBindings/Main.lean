import QueryBindings.Command.Generate
import QueryBindings.Command.Parser
/-!
The program: it reads the command line, looks at the files that the arguments name, runs the command
on them as a value, and writes what the run leaves behind.
-/
namespace QueryBindings.Program

/-- What the system allows with a directory on disk. -/
def accessOf (e : IO.FS.DirEntry) : IO Access := do
  let here : IO.FS.DirEntry := ⟨e.path, "."⟩
  let listing ← e.path.readDir.toBaseIO
  return ⟨listing.isOk, ← here.path.pathExists⟩

/-- What stands at a place on disk, without anything in it. -/
def outline (e : IO.FS.DirEntry) : IO Entry := do
  match (← e.path.metadata).type with
  | .dir => return .directory [] (← accessOf e)
  | .file => return .file []
  | _ => return .special []

/-- What stands at a place on disk. Special entries may have content without an end, so it is left
out, and so is what is behind names that can be listed but not followed. -/
partial def loadEntry (e : IO.FS.DirEntry) : IO Entry := do
  match ← outline e with
  | .directory _ access =>
    let entries ← if access.list then e.path.readDir else pure #[]
    let load (e : IO.FS.DirEntry) : IO Entry := if access.search then loadEntry e else pure (.file [])
    return .directory (← entries.toList.mapM fun e => return (e.fileName, ← load e)) access
  | .file _ => return .file (← IO.FS.readBinFile e.path).toList
  | .special _ => return .special []

def namesOf (e : IO.FS.DirEntry) : IO (List String) := do
  return (Path.segments (← IO.FS.realPath e.path).toString).filter (· ≠ "")

/-- The path that the first segments of a path make. -/
def stem (path : String) (n : Nat) : String := String.intercalate "/" ((Path.segments path).take n)

def addWay (base : IO.FS.DirEntry) (root : Entry) (path : String) : IO Entry := do
  let mut root := root
  for n in List.range (Path.segments path).length do
    let here : IO.FS.DirEntry := ⟨base.path, stem path (n + 1)⟩
    if ← here.path.pathExists then
      let names ← namesOf here
      if (root.at? names).isNone then
        root := Entry.put (← outline here) names (some root)
  return root

def addAll (base : IO.FS.DirEntry) (root : Entry) (path : String) : IO Entry := do
  let here : IO.FS.DirEntry := ⟨base.path, path⟩
  if ← here.path.pathExists then
    return Entry.put (← loadEntry here) (← namesOf here) (some root)
  else return root

/-- The part of the file system that the arguments name. -/
def snapshot (base : IO.FS.DirEntry) (a : GenerateArguments) : IO FileSystem := do
  let workingDirectory ← namesOf base
  let inputs := a.config.toList ++ a.schema ++ a.documents
  let mut root := Entry.put (.directory []) workingDirectory none
  for path in a.out.toList ++ inputs do
    root ← addWay base root path
  for path in inputs do
    root ← addAll base root path
  return ⟨root, workingDirectory⟩

def usage : String :=
  "Usage: [-v] generate <DOCUMENT_PATHS>... --schema <SCHEMA>... [--config <CONFIG>]\n" ++
    "         [--graphql-file-exts <EXTS>] [--id-type <TYPE>] [-o <OUT>]\n" ++
    "         [--scalar <NAME=TS_TYPE>]... [--subscriptions]"

def refusalText : Refusal → String
  | .missingArgument => "a required argument is missing"
  | .unknownCommand => "there is no such command"
  | .unknownArgument => "there is no such argument"
  | .invalidScalar message => message
  | .missingValue => "an argument needs a value"
  | .repeated => "an argument is given twice"
  | .unexpectedValue => "an argument has a value that it does not take"
  | .help => usage
  | .version => "0.1.0"

def run (a : GenerateArguments) : IO UInt32 := do
  let base : IO.FS.DirEntry := ⟨← IO.currentDir, "."⟩
  let outcome := a.run (← snapshot base a)
  if let some file := outcome.written then
    let target : IO.FS.DirEntry := ⟨base.path, file.path⟩
    IO.FS.writeFile target.path file.text
  if let some text := outcome.stdout then IO.println text
  if let some text := outcome.stderr then IO.eprintln text
  return if outcome.success then 0 else 1

def refuse (reason : Refusal) : IO UInt32 := do
  match reason with
  | .help | .version =>
    IO.println (refusalText reason)
    return 0
  | _ =>
    IO.eprintln ("error: " ++ refusalText reason)
    return 2

end QueryBindings.Program

def main (args : List String) : IO UInt32 := do
  match QueryBindings.CommandLine.parse args with
  | .error reason => QueryBindings.Program.refuse reason
  | .ok (.nothing _) =>
    IO.println QueryBindings.Program.usage
    return 0
  | .ok (.generate _ a) => QueryBindings.Program.run a
