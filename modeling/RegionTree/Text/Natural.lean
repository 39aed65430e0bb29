set_option autoImplicit false

/-!
# Natural numbers in decimal

A number is written by decimal digits, which may come after a plus sign; leading zeros make no
difference.
-/

namespace RegionTree.Text

/-- The value of decimal digits. -/
def digitsValue (digits : List Char) : Nat :=
  digits.foldl (fun n c => 10 * n + (c.toNat - '0'.toNat)) 0

/-- The number that a text writes, if it is below a bound. -/
def natural? (bound : Nat) (s : String) : Option Nat :=
  let digits := match s.toList with
    | '+' :: rest => rest
    | cs => cs
  if digits.isEmpty || !digits.all Char.isDigit then none
  else
    let n := digitsValue digits
    if n < bound then some n else none

end RegionTree.Text
