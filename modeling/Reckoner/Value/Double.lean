import Reckoner.Value
import Reckoner.Value.Decimal

/-!
Floating-point numbers of 64 bits. Operations are those of the format and never fail. -/

namespace Reckoner

/-- A floating-point number. -/
structure Double where
  val : Float

namespace Double

/-- What an operator means on floating-point numbers. -/
def calculate : Operator → Float → Float → Float
  | .add, a, b => a + b
  | .sub, a, b => a - b
  | .mul, a, b => a * b
  | .div, a, b => a / b

/-- The nearest number to an integer. -/
def ofInteger (n : Integer) : Double := ⟨Float.ofInt n.val⟩

/-- The text of the number without its sign, from the exponent and fraction fields. -/
def magnitudeText (exponent fraction : Nat) : String :=
  if exponent = 2047 then (if fraction = 0 then "inf" else "NaN")
  else if exponent = 0 then
    if fraction = 0 then "0" else (Binary.mk fraction (-1074) false).shortest.text
  else
    let narrow := fraction = 0 && 1 < exponent
    (Binary.mk (1 <<< 52 + fraction) (exponent - 1075) narrow).shortest.text

/-- The shortest text that reads back as the number, without an exponent. Only a NaN has no sign. -/
def text (x : Double) : String :=
  let bits := x.val.toBits.toNat
  let exponent := bits >>> 52 % 1 <<< 11
  let fraction := bits % 1 <<< 52
  let body := magnitudeText exponent fraction
  if bits < 1 <<< 63 || body == "NaN" then body else "-" ++ body

end Double

instance : ToString Double := ⟨Double.text⟩

/-- Operations on floating-point numbers have no errors to tell of. -/
instance instToStringEmpty : ToString Empty := ⟨nofun⟩

instance : Value Double Empty where
  ofInteger := Double.ofInteger
  apply op a b := .ok ⟨Double.calculate op a.val b.val⟩

end Reckoner
