import TapeCompiler.Number.Basic

/-! # Rounding

Arithmetic on numbers rounds to the nearest number of 53 significant bits, a half going to
the even neighbour.  Numbers below the least normal one are multiples of `2 ^ -1074`, and
from `2 ^ 1024` on a result is infinite.

`nearest` does the rounding for a ratio of naturals.  An integer result needs no more than
that; a ratio that is not an integer is first counted in units of `2 ^ -1074`, which makes
the small numbers a case like any other.
-/

namespace TapeCompiler.Number

/-- The quotient `n / d` as a natural, a half going to the even neighbour. -/
def roundHalfEven (n d : Nat) : Nat :=
  let q := n / d
  let twice := 2 * (n % d)
  if twice < d then q
  else if d < twice then q + 1
  else if q % 2 = 0 then q else q + 1

/-- How many low bits of `n` do not fit in 53. -/
def excessBits (n : Nat) : Nat := n.log2 - 52

/-- The natural of at most 53 significant bits that is nearest to `n / d`. -/
def nearest (n d : Nat) : Nat :=
  let excess := excessBits (n / d)
  roundHalfEven n (d <<< excess) <<< excess

/-- The integer of magnitude `m`, infinite from `2 ^ 1024` on. -/
def ofMagnitude (negative : Bool) (m : Nat) : Number :=
  if m < 1 <<< 1024 then .integer (signed negative m) else .infinity negative

/-- The number of magnitude `u` times `2 ^ -1074`, in lowest terms. -/
def ofUnits (negative : Bool) (u : Nat) : Number :=
  let one := 1 <<< 1074
  if u % one = 0 then ofMagnitude negative (u / one)
  else
    let common := Nat.gcd u one
    .fraction (signed negative (u / common)) (1074 - common.log2)

/-- The number nearest to the ratio `n / d`, which is taken to be positive. -/
def ofRatio (negative : Bool) (n d : Nat) : Number :=
  if n % d = 0 then ofMagnitude negative (nearest (n / d) 1)
  else ofUnits negative (nearest (n <<< 1074) d)

/-- The number nearest to the natural `n`. -/
def round (n : Nat) : Number := ofMagnitude false (nearest n 1)

/-- Multiplication by a natural factor that is not zero. -/
def scale (factor : Nat) : Number → Number
  | .integer n => ofMagnitude (n < 0) (nearest (n.natAbs * factor) 1)
  | .fraction n h => ofRatio (n < 0) (n.natAbs * factor) (1 <<< h)
  | .infinity negative => .infinity negative

/-- The number nearest to one more than a number.  Below `safeLimit` nothing is rounded. -/
def next : Number → Number
  | .integer n =>
    if n.natAbs < safeLimit then .integer (n + 1)
    else ofMagnitude (n < 0) (nearest (n + 1).natAbs 1)
  | .fraction n h =>
    let sum := n + (1 <<< h : Nat)
    ofRatio (sum < 0) sum.natAbs (1 <<< h)
  | .infinity negative => .infinity negative

/-- The number nearest to the decimal `mantissa` with its last `places` digits after the
point. -/
def ofDecimal (mantissa : Int) (places : Nat) : Number :=
  ofRatio (mantissa < 0) mantissa.natAbs (Nat.pow 10 places)

end TapeCompiler.Number
