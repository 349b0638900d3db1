import QueryBindings.Bindings.Generate
import QueryBindings.Command.Arguments
import QueryBindings.Config.Reader
import QueryBindings.Files.Collect
import QueryBindings.Module.Basic
import QueryBindings.Schema.Builder
/-!
The command that generates bindings, as a function of the file system.

Its steps are: options, schema files, schema, document files, documents, bindings, module. The first
step that fails ends the command. An error that has a cause names the cause once more behind its own
text.
-/
namespace QueryBindings

/-- Why the text of a file of options can't be had. -/
inductive ConfigReadError
  | system (reason : SystemError)
  | notUtf8
deriving DecidableEq

def ConfigReadError.message : ConfigReadError → String
  | system reason => reason.message
  | notUtf8 => "stream did not contain valid UTF-8"

inductive GenerateError
  | configUnreadable (path : String) (reason : ConfigReadError)
  | configInvalid (path : String)
  | scan (reason : ScanError)
  | noSchemaFiles (paths : List String)
  | load (reason : SchemaError)
  | build (reason : SchemaError)
  | document (reason : DocumentError)
  | bindings (reason : BindingError)

namespace GenerateError

def message : GenerateError → String
  | configUnreadable path reason =>
    "Failed to read " ++ Text.quoted path ++ ": " ++ reason.message
  | configInvalid path => "Invalid config file " ++ Text.quoted path ++ ": "
  | scan reason => reason.message
  | noSchemaFiles paths =>
    "No schema files found under [" ++ String.intercalate ", " (paths.map Text.quoted) ++ "]."
  | load (.unreadable reason) => (SchemaError.unreadable reason).message ++ ": " ++ reason.message
  | load reason => reason.message
  | build reason => "Failed to build the GraphQL schema: " ++ reason.message
  | document (.unreadable reason) =>
    (DocumentError.unreadable reason).message ++ ": " ++ reason.message
  | document reason => reason.message
  | bindings reason => reason.message

end GenerateError

structure Generated where
  files : Nat
  operations : Nat
  fragments : Nat
  inputTypes : Nat
  output : String
deriving DecidableEq

namespace Generated

def ofBindings (config : Config) (b : Bindings) : Generated where
  files := b.files.length
  operations := b.operationCount
  fragments := b.fragmentCount
  inputTypes := b.inputTypes.length
  output := (Module.ofBindings config b).text

def summary (g : Generated) : String :=
  "✅ Generated hooks successfully:\n" ++
    "  * Processed " ++ Decimal.natural g.files ++ " document files.\n" ++
    "  * Generated " ++ Decimal.natural g.operations ++ " operations.\n" ++
    "  * Generated " ++ Decimal.natural g.fragments ++ " fragments.\n" ++
    "  * Generated " ++ Decimal.natural g.inputTypes ++ " input types."

end Generated

namespace FileSystem

def readConfig (fs : FileSystem) (path : String) : Except GenerateError Config := do
  let bytes ← (fs.read path).mapError fun e => .configUnreadable path (.system e)
  let text ← (Text.decodeUtf8 bytes).mapError fun _ => .configUnreadable path .notUtf8
  match Config.parse text with
  | some config => .ok config
  | none => .error (.configInvalid path)

def loadSchema (fs : FileSystem) (b : SchemaBuilder) :
    List String → Except SchemaError SchemaBuilder
  | [] => .ok b
  | path :: rest =>
    match fs.readText path with
    | .error e => .error (.unreadable e)
    | .ok text =>
      match b.load (some path) text with
      | (b, none) => fs.loadSchema b rest
      | (_, some e) => .error e

def readDocument (fs : FileSystem) (path : String) : Except DocumentError Document :=
  match fs.readText path with
  | .error e => .error (.unreadable e)
  | .ok text => Document.parse path text

end FileSystem

namespace GenerateArguments

/-- The options: those of the file, if there is one, below those of the command line. -/
def options (a : GenerateArguments) (fs : FileSystem) : Except GenerateError Config := do
  let config ← match a.config with
    | some path => fs.readConfig path
    | none => .ok Config.default
  return config.override a.idType a.scalars a.subscriptions

/-- The module for the files that the arguments name. -/
def generate (a : GenerateArguments) (fs : FileSystem) : Except GenerateError Generated := do
  let config ← a.options fs
  let extensions := normalizeExtensions a.extensions
  let schemaPaths ← (fs.collect extensions a.schema).mapError .scan
  if schemaPaths.isEmpty then .error (.noSchemaFiles a.schema)
  let builder ← (fs.loadSchema .empty schemaPaths).mapError .load
  let schema ← builder.build.mapError .build
  let documentPaths ← (fs.collect extensions a.documents).mapError .scan
  let documents ← (documentPaths.mapM fs.readDocument).mapError .document
  let b ← (Bindings.generate schema config documents).mapError .bindings
  return .ofBindings config b

end GenerateArguments

/-- A file that a run has written: the path as it was given, the names that lead to it, its text. -/
structure WrittenFile where
  path : String
  names : List String
  text : String
deriving DecidableEq

structure Outcome where
  success : Bool
  stdout : Option String
  stderr : Option String
  written : Option WrittenFile
deriving DecidableEq

namespace Outcome

def failed (message : String) : Outcome := ⟨false, none, some ("❌ " ++ message), none⟩

end Outcome

/-- Runs the command.  The module goes to a file if one is named, else to the standard output. -/
def GenerateArguments.run (a : GenerateArguments) (fs : FileSystem) : Outcome :=
  match a.generate fs with
  | .error e => .failed ("Generation failed: " ++ e.message)
  | .ok g =>
    match a.out with
    | none => ⟨true, some g.output, some g.summary, none⟩
    | some path =>
      match fs.target path with
      | .error e => .failed ("Failed to write " ++ Text.quoted path ++ ": " ++ e.message)
      | .ok names =>
        ⟨true, some (g.summary ++ "\n  * Wrote " ++ Text.quoted path ++ "."), none,
          some ⟨path, names, g.output⟩⟩

end QueryBindings
