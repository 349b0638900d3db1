import QueryBindings.Text.Quoted
import QueryBindings.Text.Utf8
/-!
Why the file system refuses something, and why a source file can't be read.
-/
namespace QueryBindings

inductive SystemError
  | noEntry
  | permissionDenied
  | notADirectory
  | isADirectory
  | nameTooLong
  | unexpectedNul
deriving DecidableEq

def SystemError.message : SystemError → String
  | noEntry => "No such file or directory (os error 2)"
  | permissionDenied => "Permission denied (os error 13)"
  | notADirectory => "Not a directory (os error 20)"
  | isADirectory => "Is a directory (os error 21)"
  | nameTooLong => "File name too long (os error 36)"
  | unexpectedNul => "file name contained an unexpected NUL byte"

inductive ReadError
  | notAFile (path : String)
  | notUtf8 (path : String) (fault : Text.Utf8Fault)
deriving DecidableEq

def ReadError.message : ReadError → String
  | notAFile path => "`" ++ Text.quoted path ++ "` is not a file"
  | notUtf8 path fault => "`" ++ Text.quoted path ++ "` is not valid UTF-8: " ++ fault.message

end QueryBindings
