import Reckoner.Value.Integer

/-!
What a type needs to serve as the values of a program. Evaluation builds values from integer
literals and combines them with the operators, and looks into them nowhere else. -/

namespace Reckoner

/-- Values of type `V` whose operations fail with errors of type `E`. -/
class Value (V : Type) (E : outParam Type) where
  /-- The value of an integer literal. -/
  ofInteger : Integer → V
  /-- The result of an operation. -/
  apply : Operator → V → V → Except E V

instance : Value Integer IntegerError where
  ofInteger := id
  apply := Integer.apply

end Reckoner
