import Reckoner.Operator

/-!
Integers of 64 bits. Arithmetic is that of the integers, division rounds toward zero, and a result
that does not fit is an error: nothing ever wraps. -/

namespace Reckoner

/-- An integer that fits in 64 bits with its sign. -/
structure Integer where
  val : Int
  lower : -0x8000000000000000 ≤ val
  upper : val < 0x8000000000000000
deriving DecidableEq, Repr

/-- Why an operation on integers has no result. -/
inductive IntegerError where
  | divisionByZero
  | overflow (op : Operator)
deriving DecidableEq, Repr

namespace Integer

/-- The integer of that value, if it fits. -/
def ofInt? (n : Int) : Option Integer :=
  if h : -0x8000000000000000 ≤ n ∧ n < 0x8000000000000000 then some ⟨n, h.1, h.2⟩ else none

/-- What an operator means on integers of any size. -/
def exact : Operator → Int → Int → Int
  | .add, a, b => a + b
  | .sub, a, b => a - b
  | .mul, a, b => a * b
  | .div, a, b => a.tdiv b

/-- The result of an operation, if it has one that fits. -/
def apply (op : Operator) (a b : Integer) : Except IntegerError Integer :=
  if op = .div ∧ b.val = 0 then .error .divisionByZero
  else
    match ofInt? (exact op a.val b.val) with
    | some n => .ok n
    | none => .error (.overflow op)

/-- The value of decimal digits. -/
def ofDigits (ds : List Char) : Nat := ds.foldl (fun n d => 10 * n + (d.toNat - '0'.toNat)) 0

/-- Splits off one sign: whether it is a minus sign, and the characters behind it. -/
def splitSign : List Char → Bool × List Char
  | '-' :: cs => (true, cs)
  | '+' :: cs => (false, cs)
  | cs => (false, cs)

/-- The integer that a text spells: digits, with at most one sign in front of them. -/
def ofText? (s : String) : Option Integer :=
  let (negative, ds) := splitSign s.toList
  if ds.isEmpty || !ds.all Char.isDigit then none
  else ofInt? (if negative then -(ofDigits ds : Int) else ofDigits ds)

/-- The integer in decimal digits. -/
def text (n : Integer) : String := toString n.val

end Integer

/-- What went wrong, in words. -/
def IntegerError.message : IntegerError → String
  | .divisionByZero => "division by zero"
  | .overflow op => "integer overflow in " ++ op.noun

instance : ToString Integer := ⟨Integer.text⟩

instance : ToString IntegerError := ⟨IntegerError.message⟩

end Reckoner
