set_option autoImplicit false

/-!
# Shortest decimal text of a binary fraction

A finite floating-point number is `m · 2^e`.  Its shortest decimal is the one with the fewest
digits among those that round back to it, and among these the nearest.  `shortest` looks for it
grid by grid: for one digit, two digits and so on it tests the two neighbours of the number on the
grid of decimals with that many digits.

`text` writes it positionally when the point is at most sixteen digits to the right or at most
five zeros stand in front, and in scientific notation otherwise.
-/

namespace RegionTree.Decimal

/-- A non-negative fraction. -/
structure Ratio where
  num : Nat
  den : Nat
  deriving DecidableEq, Repr

/-- `n · b^e`. -/
def Ratio.scaled (n b : Nat) (e : Int) : Ratio :=
  if 0 ≤ e then ⟨n * Nat.pow b e.toNat, 1⟩ else ⟨n, Nat.pow b (-e).toNat⟩

/-- Whether one fraction is below another. -/
def Ratio.lt (a b : Ratio) : Bool := decide (a.num * b.den < b.num * a.den)

/-- A positive number and the numbers that round to it. -/
structure Rounded where
  value : Ratio
  low : Ratio
  high : Ratio
  /-- Whether `low` and `high` themselves round to the number. -/
  closed : Bool
  deriving Repr

/-- Whether a fraction rounds to the number. -/
def Rounded.admits (r : Rounded) (x : Ratio) : Bool :=
  if r.closed then !x.lt r.low && !r.high.lt x else r.low.lt x && x.lt r.high

/-- The positive number with fraction bits `mantissa` and exponent bits `exponent`. -/
def Rounded.ofBits (mantissa exponent : Nat) : Rounded :=
  let m := if exponent == 0 then mantissa else mantissa + Nat.pow 2 52
  let e : Int := (max exponent 1 : Nat) - 1075
  let narrow := mantissa == 0 && decide (1 < exponent)
  ⟨.scaled m 2 e,
    if narrow then .scaled (4 * m - 1) 2 (e - 2) else .scaled (2 * m - 1) 2 (e - 1),
    .scaled (2 * m + 1) 2 (e - 1), m % 2 == 0⟩

/-- The exponent `k` with `10^(k-1) ≤ x < 10^k`, found by search from a bound. -/
def magnitude (x : Ratio) : Nat → Int → Int
  | 0, k => k
  | fuel + 1, k =>
    if x.lt (.scaled 1 10 (k - 1)) then magnitude x fuel (k - 1) else k

/-- The digits of the better neighbour on a grid, if one of them rounds to the number. -/
def onGrid? (r : Rounded) (unit : Int) : Option Nat :=
  let scale := Ratio.scaled 1 10 (-unit)
  let num := r.value.num * scale.num
  let den := r.value.den * scale.den
  let below := num / den
  let above := below + 1
  let low := r.admits (.scaled below 10 unit)
  let high := r.admits (.scaled above 10 unit)
  let twice := 2 * (num % den)
  if low && high then
    if twice < den || twice == den && below % 2 == 0 then some below else some above
  else if low then some below
  else if high then some above
  else none

/-- The first grid, counting digits up from `digits`, with a neighbour that rounds to the number:
its digits and the exponent of the last one. -/
def shortestFrom (r : Rounded) (k : Int) : Nat → Nat → Nat × Int
  | 0, _ => (0, 0)
  | fuel + 1, digits =>
    match onGrid? r (k - digits) with
    | some d => (d, k - digits)
    | none => shortestFrom r k fuel (digits + 1)

/-- Digits without zeros at their end, and the exponent of the last. -/
def trim : Nat → Nat × Int → Nat × Int
  | 0, d => d
  | fuel + 1, (d, e) => if d != 0 && d % 10 == 0 then trim fuel (d / 10, e + 1) else (d, e)

/-- The shortest decimal of a positive number: its digits and the exponent of the last. -/
def shortest (r : Rounded) : Nat × Int :=
  trim 20 (shortestFrom r (magnitude r.value 700 310) 18 1)

/-- Writes digits with the exponent of the last. -/
def write (digits : Nat) (exponent : Int) : String :=
  let ds := Nat.toDigits 10 digits
  let point : Int := ds.length + exponent
  if 0 ≤ exponent && point ≤ 16 then
    String.ofList (ds ++ List.replicate exponent.toNat '0' ++ ['.', '0'])
  else if 0 < point && point ≤ 16 then
    String.ofList (ds.take point.toNat ++ ['.'] ++ ds.drop point.toNat)
  else if -5 < point && point ≤ 0 then
    String.ofList (['0', '.'] ++ List.replicate (-point).toNat '0' ++ ds)
  else
    let tail := match ds with
      | [d] => [d]
      | d :: rest => d :: '.' :: rest
      | [] => []
    String.ofList tail ++ "e" ++ toString (point - 1)

/-- The shortest text of a finite floating-point number. -/
def text (x : Float) : String :=
  let bits := x.toBits.toNat
  let sign := if bits / Nat.pow 2 63 == 1 then "-" else ""
  let exponent := bits / Nat.pow 2 52 % Nat.pow 2 11
  let mantissa := bits % Nat.pow 2 52
  if exponent == 0 && mantissa == 0 then sign ++ "0.0"
  else
    let (digits, last) := shortest (.ofBits mantissa exponent)
    sign ++ write digits last

end RegionTree.Decimal
