import TapeCompiler.Number.Rounding

/-! # Shortest decimals

`shortest` gives the decimal of fewest digits that reads back as a given number, and of
those the one nearest to it, a tie going to the even one.

A decimal of `k` digits lies on a grid whose step is fixed by the magnitude of the number,
and if any point of that grid reads back then so does one of the number's two neighbours on
it.  So for each length only two candidates are tried.  Seventeen digits always suffice.
-/

namespace TapeCompiler.Number

/-- A positive decimal: `digits` without leading zeros, the point standing after `point` of
them (before them all, after `-point` zeros, when `point` is not positive). -/
structure Decimal where
  digits : List Char
  point : Int
deriving DecidableEq

/-- How many decimal digits `n` has; zero has one. -/
def digitCount (n : Nat) : Nat := (Nat.toDigits 10 n).length

/-- The number of digits before the point of the ratio `n / d`, counted below zero by the
zeros after the point. -/
def pointOf (n d : Nat) : Int :=
  if d ≤ n then digitCount (n / d) else 1 - digitCount ((d - 1) / n)

/-- The ratio `n / d` in steps of `10 ^ step`, as a ratio again. -/
def inSteps (n d : Nat) (step : Int) : Nat × Nat :=
  (n * Nat.pow 10 (-step).toNat, d * Nat.pow 10 step.toNat)

/-- The two neighbours of `n / d` among the naturals, the nearer first and of two equally
near ones the even. -/
def neighbours (n d : Nat) : List Nat :=
  let low := n / d
  if roundHalfEven n d = low then [low, low + 1] else [low + 1, low]

/-- The number nearest to `m` steps of `10 ^ step`. -/
def ofSteps (m : Nat) (step : Int) : Number :=
  ofRatio false (m * Nat.pow 10 step.toNat) (Nat.pow 10 (-step).toNat)

/-- The digits of `m` without the zeros at their end. -/
def significantDigits (m : Nat) : List Char :=
  ((Nat.toDigits 10 m).reverse.dropWhile (· == '0')).reverse

/-- The decimal of `length` digits that reads back as `n / d`, if there is one. -/
def shortestOfLength? (n d length : Nat) : Option Decimal :=
  let step := pointOf n d - length
  let (steps, unit) := inSteps n d step
  (neighbours steps unit).find? (fun m => ofSteps m step == ofRatio false n d)
    |>.map fun m => ⟨significantDigits m, digitCount m + step⟩

/-- The shortest decimal that reads back as the positive ratio `n / d`. -/
def shortest (n d : Nat) : Decimal :=
  ((List.range 17).findSome? fun k => shortestOfLength? n d (k + 1)).getD
    ⟨significantDigits n, digitCount n⟩

end TapeCompiler.Number
