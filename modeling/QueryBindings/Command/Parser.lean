import QueryBindings.Command.Arguments
import QueryBindings.Text.Lines
/-!
Reading a command line.

The arguments are read from left to right. The values of an option, and names of documents in a row,
are collected first and take effect when the next argument needs their place; an argument that
nobody knows is refused even before that. Two dashes end the options.
-/
namespace QueryBindings.CommandLine

/-- Where values go: to an option, or to the list of documents. -/
inductive Target
  | schema
  | documents
  | config
  | extensions
  | idType
  | out
  | scalar
deriving DecidableEq

inductive Flag
  | value (target : Target)
  | subscriptions
  | verbose
  | help
  | version
deriving DecidableEq

inductive Level
  | program
  | generate
deriving DecidableEq

def longFlag? : Level → String → Option Flag
  | .program, "verbose" => some .verbose
  | .program, "version" => some .version
  | .generate, "schema" => some (.value .schema)
  | .generate, "config" => some (.value .config)
  | .generate, "graphql-file-exts" => some (.value .extensions)
  | .generate, "id-type" => some (.value .idType)
  | .generate, "out" => some (.value .out)
  | .generate, "scalar" => some (.value .scalar)
  | .generate, "subscriptions" => some .subscriptions
  | _, "help" => some .help
  | _, _ => none

def shortFlag? : Level → Char → Option Flag
  | .program, 'v' => some .verbose
  | .program, 'V' => some .version
  | .generate, 'o' => some (.value .out)
  | _, 'h' => some .help
  | _, _ => none

inductive Shape
  | separator
  | long (name : String) (value : Option String)
  | short (chars : List Char)
  | plain
deriving DecidableEq

def shapeOf (arg : String) : Shape :=
  match arg.toList with
  | ['-', '-'] => .separator
  | '-' :: '-' :: cs =>
    let name := String.ofList (cs.takeWhile (· ≠ '='))
    match cs.dropWhile (· ≠ '=') with
    | [] => .long name none
    | _ :: value => .long name (some (String.ofList value))
  | '-' :: c :: cs => .short (c :: cs)
  | _ => .plain

/-- The values that have taken effect. -/
structure Given where
  schema : List String
  documents : List String
  config : Option String
  extensions : Option (List String)
  idType : Option String
  out : Option String
  scalars : List (String × String)
  subscriptions : Bool
deriving DecidableEq

namespace Given

def nothing : Given := ⟨[], [], none, none, none, none, [], false⟩

def checkPath (value : String) : Except Refusal String :=
  if value = "" then .error .missingValue else .ok value

/-- The values of an option that may be given once. -/
def single (before : Option String) (values : List String) : Except Refusal (Option String) :=
  if before.isSome then .error .repeated else .ok values.head?

def mapping (value : String) : Except Refusal (String × String) :=
  (parseScalarMapping value).mapError .invalidScalar

def add (g : Given) (target : Target) (values : List String) : Except Refusal Given :=
  if values.isEmpty then .error .missingValue
  else match target with
    | .schema => do return { g with schema := g.schema ++ (← values.mapM checkPath) }
    | .documents => do return { g with documents := g.documents ++ (← values.mapM checkPath) }
    | .config => do
      let value ← single g.config values
      let _ ← values.mapM checkPath
      return { g with config := value }
    | .extensions =>
      .ok { g with extensions := some (g.extensions.getD [] ++ values.flatMap (Text.split ',')) }
    | .idType => do return { g with idType := ← single g.idType values }
    | .out => do
      let value ← single g.out values
      let _ ← values.mapM checkPath
      return { g with out := value }
    | .scalar => do return { g with scalars := g.scalars ++ (← values.mapM mapping) }

/-- The arguments of the command, once all have been read. -/
def complete (g : Given) : Except Refusal GenerateArguments :=
  if g.schema.isEmpty || g.documents.isEmpty then .error .missingArgument
  else .ok
    { schema := g.schema
      documents := g.documents
      config := g.config
      extensions := g.extensions.getD ["graphql", "gql"]
      idType := g.idType
      out := g.out
      scalars := g.scalars
      subscriptions := g.subscriptions }

end Given

/-- Values that have been collected and have not taken effect; `takesMore` says whether an option
waits for the next argument. -/
structure Pending where
  target : Target
  values : List String
  takesMore : Bool
deriving DecidableEq

structure State where
  given : Given
  pending : Option Pending
deriving DecidableEq

namespace State

def initial : State := ⟨.nothing, none⟩

/-- Lets the collected values take effect. -/
def settle (s : State) : Except Refusal State :=
  match s.pending with
  | none => .ok s
  | some p => do return ⟨← s.given.add p.target p.values, none⟩

/-- Takes an option together with its value. -/
def attach (s : State) (target : Target) (value : String) : Except Refusal State := do
  let s ← s.settle
  return ⟨← s.given.add target [value], none⟩

/-- Takes an option whose value is to come. -/
def await (s : State) (target : Target) : Except Refusal State := do
  let s ← s.settle
  return { s with pending := some ⟨target, [], true⟩ }

def flag (s : State) : Flag → Except Refusal State
  | .value target => s.await target
  | .subscriptions => do
    let s ← s.settle
    if s.given.subscriptions then .error .repeated
    else return { s with given := { s.given with subscriptions := true } }
  | .verbose => .ok s
  | .help => do
    let _ ← s.settle
    .error .help
  | .version => do
    let _ ← s.settle
    .error .version

def long (s : State) (name : String) (value : Option String) : Except Refusal State :=
  match longFlag? .generate name, value with
  | none, _ => .error .unknownArgument
  | some (.value target), some v => s.attach target v
  | some _, some _ => .error .unexpectedValue
  | some f, none => s.flag f

/-- Takes short flags in one argument; what follows one with a value is that value. -/
def short (s : State) : List Char → Except Refusal State
  | [] => .ok s
  | c :: rest =>
    match shortFlag? .generate c, rest with
    | none, _ => .error .unknownArgument
    | some (.value target), [] => s.await target
    | some (.value target), '=' :: value => s.attach target (String.ofList value)
    | some (.value target), value => s.attach target (String.ofList value)
    | some f, rest => do (← s.flag f).short rest

def document (s : State) (arg : String) : Except Refusal State :=
  match s.pending with
  | some ⟨.documents, values, _⟩ =>
    .ok { s with pending := some ⟨.documents, values ++ [arg], false⟩ }
  | _ => do
    let s ← s.settle
    return { s with pending := some ⟨.documents, [arg], false⟩ }

/-- Takes an argument that is no flag: a value that an option waits for, else a document. -/
def plain (s : State) (arg : String) : Except Refusal State :=
  match s.pending with
  | some ⟨target, values, true⟩ =>
    .ok { s with pending := some ⟨target, values ++ [arg], target = .schema⟩ }
  | _ => s.document arg

def readAll (s : State) : List String → Except Refusal State
  | [] => s.settle
  | arg :: rest =>
    match shapeOf arg with
    | .separator => do (← rest.foldlM document s).settle
    | .long name value => do (← s.long name value).readAll rest
    | .short chars => do (← s.short chars).readAll rest
    | .plain => do (← s.plain arg).readAll rest

end State

def readGenerate (args : List String) : Except Refusal GenerateArguments := do
  (← State.initial.readAll args).given.complete

/-- What is known before the command: whether more output is asked for. -/
def readVerbose (verbose : Bool) : Flag → Except Refusal Bool
  | .verbose => if verbose then .error .repeated else .ok true
  | .help => .error .help
  | .version => .error .version
  | _ => .ok verbose

def readProgramShort (verbose : Bool) : List Char → Except Refusal Bool
  | [] => .ok verbose
  | c :: rest =>
    match shortFlag? .program c with
    | none => .error .unknownArgument
    | some f => do readProgramShort (← readVerbose verbose f) rest

def readProgramLong (verbose : Bool) (name : String) (value : Option String) :
    Except Refusal Bool :=
  match longFlag? .program name, value with
  | none, _ => .error .unknownArgument
  | some _, some _ => .error .unexpectedValue
  | some f, none => readVerbose verbose f

def isCommand (arg : String) : Bool := arg = "generate" || arg = "help"

/-- Reads the arguments behind the command `help`, which name the command to explain. -/
def readHelp : List String → Refusal
  | [] => .help
  | [command] => if isCommand command then .help else .unknownCommand
  | _ => .unknownCommand

/-- Reads what follows two dashes before a command: commands are not looked for there. -/
def readSeparated (verbose : Bool) : List String → Except Refusal Invocation
  | [] => .ok (.nothing verbose)
  | arg :: _ => .error (if isCommand arg then .unknownArgument else .unknownCommand)

def readProgram (verbose : Bool) : List String → Except Refusal Invocation
  | [] => .ok (.nothing verbose)
  | arg :: rest =>
    if arg = "generate" then do return .generate verbose (← readGenerate rest)
    else if arg = "help" then .error (readHelp rest)
    else match shapeOf arg with
      | .separator => readSeparated verbose rest
      | .long name value => do readProgram (← readProgramLong verbose name value) rest
      | .short chars => do readProgram (← readProgramShort verbose chars) rest
      | .plain => .error .unknownCommand

def parse (args : List String) : Except Refusal Invocation := readProgram false args

end QueryBindings.CommandLine
