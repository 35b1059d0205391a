import NestedPath.Double.Basic

/-!
Doubles as decimal text with a fixed number of places.

The exact value is rounded once, in whole numbers; a half goes to the even neighbour.
-/

namespace NestedPath

/-- The quotient rounded to the nearest whole number, a half to the even neighbour. -/
def roundDiv (n d : Nat) : Nat :=
  if 2 * (n % d) < d then n / d
  else if d < 2 * (n % d) then n / d + 1
  else n / d + n / d % 2

def paddedNumeral (width n : Nat) : String :=
  String.ofList ((Nat.toDigits 10 n).leftpad width '0')

namespace Double

/-- The magnitude of a finite double in units of `10 ^ -places`, rounded. -/
def inUnits (places : Nat) (d : Double) : Nat :=
  let significand := if d.exponent = 0 then d.fraction else 1 <<< 52 + d.fraction
  let e := max d.exponent 1
  if 1075 ≤ e then significand <<< (e - 1075) * Nat.pow 10 places
  else roundDiv (significand * Nat.pow 10 places) (1 <<< (1075 - e))

/-- A double with a fixed number of decimal places, without an exponent. -/
def toFixed (places : Nat) (d : Double) : String :=
  let sign := if d.negative then "-" else ""
  if d.exponent = 2047 then
    if d.fraction = 0 then sign ++ "inf" else "NaN"
  else
    let units := d.inUnits places
    let one := Nat.pow 10 places
    sign ++ toString (units / one) ++ "." ++ paddedNumeral places (units % one)

end Double

end NestedPath
