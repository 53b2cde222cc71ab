import TapeCompiler.Number.Shortest

/-! # The text of a number

Safe integers are written out in full.  Every other number is written with the digits of its
shortest decimal, `Style` deciding between positional notation and an exponent.
-/

namespace TapeCompiler.Number

/-- Where positional notation ends. -/
structure Style where
  /-- The most digits before the point. -/
  wholeDigits : Nat
  /-- The most zeros between the point and the first digit that counts. -/
  leadingZeros : Nat

/-- Positional notation serves from `1e-6` up to `1e21`. -/
def plain : Style := ⟨21, 5⟩

/-- The digits of the natural `n`. -/
def natText (n : Nat) : String := String.ofList (Nat.toDigits 10 n)

/-- The integer `n` in full. -/
def intText (n : Int) : String :=
  if n < 0 then "-" ++ natText n.natAbs else natText n.natAbs

/-- The digits, with a point after the first of them if there are more. -/
def leadText : List Char → List Char
  | [] => []
  | [d] => [d]
  | d :: rest => d :: '.' :: rest

/-- Lays a decimal out: positionally within the bounds of `style`, and else with an exponent
that carries its sign. -/
def Style.layout (style : Style) (d : Decimal) : List Char :=
  let size := d.digits.length
  if 0 < d.point ∧ d.point ≤ style.wholeDigits then
    let whole := d.point.toNat
    if size ≤ whole then d.digits ++ List.replicate (whole - size) '0'
    else d.digits.take whole ++ '.' :: d.digits.drop whole
  else if d.point ≤ 0 ∧ -d.point ≤ style.leadingZeros then
    '0' :: '.' :: List.replicate (-d.point).toNat '0' ++ d.digits
  else
    let exponent := d.point - 1
    leadText d.digits ++ 'e' :: (if exponent < 0 then '-' else '+') ::
      Nat.toDigits 10 exponent.natAbs

/-- The text of the ratio `n / d` with a sign. -/
def ratioText (negative : Bool) (n d : Nat) : String :=
  let text := String.ofList (plain.layout (shortest n d))
  if negative then "-" ++ text else text

def text : Number → String
  | .integer n =>
    if n.natAbs < safeLimit then intText n else ratioText (n < 0) n.natAbs 1
  | .fraction n h => ratioText (n < 0) n.natAbs (1 <<< h)
  | .infinity negative => if negative then "-Infinity" else "Infinity"

end TapeCompiler.Number
