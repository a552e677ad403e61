import Reckoner.Diagnostic.Code
import Reckoner.Span

/-!
Reports of errors: a code, a message, places in one line with remarks, and notes. -/

namespace Reckoner

/-- A place in the line and a remark on it. -/
structure Label where
  span : Span
  message : String
  primary : Bool
deriving DecidableEq, Repr

/-- The report of one error, on a line of the program if its number is known. -/
structure Diagnostic where
  code : Code
  message : String
  line : Option Nat
  labels : List Label
  notes : List String
deriving DecidableEq, Repr

namespace Diagnostic

/-- The report with the number of the line it is about. -/
def onLine (d : Diagnostic) (line : Nat) : Diagnostic := { d with line := some line }

/-- The report with one more note. -/
def withNote (d : Diagnostic) (note : String) : Diagnostic := { d with notes := d.notes ++ [note] }

/-- The place of the error: the first label that is a primary one. -/
def primarySpan? (d : Diagnostic) : Option Span := (d.labels.find? (·.primary)).map (·.span)

/-- The report in one line, without its places. -/
def headline (d : Diagnostic) : String := "error[" ++ d.code.id ++ "]: " ++ d.message

end Diagnostic

end Reckoner
