import QueryBindings.Text.Blank
/-!
What a command line asks for, and why one is refused.
-/
namespace QueryBindings

structure GenerateArguments where
  schema : List String
  documents : List String
  config : Option String
  extensions : List String
  idType : Option String
  out : Option String
  scalars : List (String × String)
  subscriptions : Bool
deriving DecidableEq

/-- A command line: a command with its arguments, or none. -/
inductive Invocation
  | nothing (verbose : Bool)
  | generate (verbose : Bool) (arguments : GenerateArguments)
deriving DecidableEq

/-- Why a command line is not carried out; a request for help or for the version is among the
reasons. -/
inductive Refusal
  | missingArgument
  | unknownCommand
  | unknownArgument
  | invalidScalar (message : String)
  | missingValue
  | repeated
  | unexpectedValue
  | help
  | version
deriving DecidableEq

/-- Reads the mapping of a scalar's name to a type, which an equals sign separates. -/
def parseScalarMapping (arg : String) : Except String (String × String) :=
  let cs := arg.toList
  let name := Text.trim (cs.takeWhile (· ≠ '='))
  match cs.dropWhile (· ≠ '=') with
  | [] => .error (refused arg)
  | _ :: rest =>
    let type := Text.trim rest
    if name.isEmpty || type.isEmpty then .error (refused arg)
    else .ok (String.ofList name, String.ofList type)
where
  refused (arg : String) : String := "expected `NAME=TS_TYPE`, got `" ++ arg ++ "`"

end QueryBindings
