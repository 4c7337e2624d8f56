/-
  Cascade.Error — what can go wrong with a sheet as a whole: its text, the source or
  sink of its bytes, or the sink of its text.
-/

import Cascade.Fault

namespace Cascade

/-- Why a source, a sink or a file refuses. -/
inductive IoFault where
  | notFound
  | notADirectory
  | isADirectory
  | nameTooLong
  /-- A sink took no byte of a text that has some left. -/
  | nothingWritten
  | other (text : String)
  deriving DecidableEq, Repr

def IoFault.message : IoFault → String
  | .notFound => "No such file or directory (os error 2)"
  | .notADirectory => "Not a directory (os error 20)"
  | .isADirectory => "Is a directory (os error 21)"
  | .nameTooLong => "File name too long (os error 36)"
  | .nothingWritten => "failed to write whole buffer"
  | .other text => text

inductive Error where
  | syntactic (e : SyntaxError)
  | io (fault : IoFault)
  /-- A sink of text refused. -/
  | format
  deriving DecidableEq, Repr

namespace Error

/-- The line at fault, if the text is. -/
def line? : Error → Option UInt32
  | .syntactic e => some e.line
  | _ => none

def message : Error → String
  | .syntactic e => e.message
  | .io fault => "I/O error: " ++ fault.message
  | .format => "Formatting error: an error occurred when formatting an argument"

end Error

end Cascade
