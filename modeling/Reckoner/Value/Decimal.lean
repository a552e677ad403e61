/-!
Shortest decimals. A positive value `m · 2 ^ q` stands for all reals that round to it; of the
decimals among these the ones with the fewest digits are taken, and of those the nearest one. -/

namespace Reckoner

/-- The value `digits · 10 ^ exponent`. -/
structure Decimal where
  digits : Nat
  exponent : Int
deriving DecidableEq, Repr

/-- A positive binary value `mantissa · 2 ^ exponent` and the reals that round to it. -/
structure Binary where
  mantissa : Nat
  exponent : Int
  /-- Whether the next smaller value is only half as far away as the next larger one. -/
  narrowBelow : Bool
deriving DecidableEq, Repr

namespace Decimal

/-- The power of a base, when the exponent is not negative, and one otherwise. -/
def scaleUp (base : Nat) (e : Int) : Nat := base.pow e.toNat

/-- The text of a decimal without an exponent: zeros fill up to the point from both sides. -/
def text (d : Decimal) : String :=
  let ds := Nat.toDigits 10 d.digits
  let places := (-d.exponent).toNat
  if places = 0 then String.ofList (ds ++ .replicate d.exponent.toNat '0')
  else
    let ds := .replicate (places + 1 - ds.length) '0' ++ ds
    let whole := ds.length - places
    String.ofList (ds.take whole ++ '.' :: ds.drop whole)

/-- Drops the zero digits at the end, for at most `n` of them. -/
def strip : Nat → Decimal → Decimal
  | 0, d => d
  | n + 1, d => if d.digits % 10 = 0 then strip n ⟨d.digits / 10, d.exponent + 1⟩ else d

end Decimal

namespace Binary

/-- Four times the value, the lower and the upper end of its interval, all in units of a quarter of
`2 ^ exponent`. -/
def quarters (b : Binary) : Nat × Nat × Nat :=
  let v := 4 * b.mantissa
  (v, if b.narrowBelow then v - 1 else v - 2, v + 2)

/-- Numerator and denominator of a number of quarters, counted in units of `10 ^ k`. -/
def ratio (b : Binary) (k : Int) (x : Nat) : Nat × Nat :=
  let e := b.exponent - 2
  (x * Decimal.scaleUp 2 e * Decimal.scaleUp 10 (-k), Decimal.scaleUp 2 (-e) * Decimal.scaleUp 10 k)

/-- The multiple of `10 ^ k` that rounds to the value, if there is one; the nearer of two, and the
larger of two that are equally near. -/
def onGrid? (b : Binary) (k : Int) : Option Nat :=
  let (v, lower, upper) := b.quarters
  let (n, d) := b.ratio k v
  let lo := (b.ratio k lower).1
  let hi := (b.ratio k upper).1
  let inside (c : Nat) : Bool :=
    if b.mantissa % 2 = 0 then lo ≤ c * d && c * d ≤ hi else lo < c * d && c * d < hi
  let below := n / d
  let above := below + 1
  match inside below, inside above with
  | true, true => some (if n - below * d < above * d - n then below else above)
  | true, false => some below
  | false, true => some above
  | false, false => none

/-- The exponent `p` for which the value lies from `10 ^ (p - 1)` up to `10 ^ p`. No value that is
given here lies below `10 ^ (-325)`. -/
def magnitude (b : Binary) : Int :=
  let (n, d) := b.ratio (-325) b.quarters.1
  (toString (n / d)).length - 325

/-- The shortest decimal that rounds to the value; with 17 digits there always is one. -/
def shortest (b : Binary) : Decimal :=
  let p := b.magnitude
  let found := (List.range 17).findSome? fun (i : Nat) =>
    let k := p - (i + 1)
    (b.onGrid? k).map fun c => Decimal.mk c k
  (found.getD ⟨0, 0⟩).strip 17

end Binary

end Reckoner
