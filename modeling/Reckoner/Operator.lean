/-!
The four operators that values are combined with. -/

namespace Reckoner

/-- A binary arithmetic operator. -/
inductive Operator where | add | sub | mul | div
deriving DecidableEq, Repr

namespace Operator

/-- The sign that spells the operator. -/
def symbol : Operator → String
  | .add => "+"
  | .sub => "-"
  | .mul => "*"
  | .div => "/"

/-- The operation's name, as error messages use it. -/
def noun : Operator → String
  | .add => "addition"
  | .sub => "subtraction"
  | .mul => "multiplication"
  | .div => "division"

end Operator

end Reckoner
