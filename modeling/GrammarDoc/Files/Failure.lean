import GrammarDoc.Files.Path
import GrammarDoc.Text.Quoted

namespace GrammarDoc.Files

/-- Why a file operation is refused. -/
inductive Cause where
  | notFound
  | busy
  | exists
  | notADirectory
  | isADirectory
  | nameTooLong
deriving Repr, DecidableEq

namespace Cause

def number : Cause → Nat
  | notFound => 2
  | busy => 16
  | «exists» => 17
  | notADirectory => 20
  | isADirectory => 21
  | nameTooLong => 36

def phrase : Cause → String
  | notFound => "No such file or directory"
  | busy => "Device or resource busy"
  | «exists» => "File exists"
  | notADirectory => "Not a directory"
  | isADirectory => "Is a directory"
  | nameTooLong => "File name too long"

end Cause

/-- A refused operation on a path, or on two. -/
structure Failure where
  cause : Cause
  path : String
  target? : Option String
deriving Repr, DecidableEq

def Failure.message (e : Failure) : String :=
  "[Errno " ++ toString e.cause.number ++ "] " ++ e.cause.phrase ++ ": " ++ Text.quoted e.path ++
    (e.target?.map fun target => " -> " ++ Text.quoted target).getD ""

/-- What is said of a path with a zero character in it, which no file system takes. -/
def zeroInPath : String :=
  "embedded null byte"

end GrammarDoc.Files
