/-! # Numbers

Counts, sizes, constants and coordinates are numbers: integers, fractions whose denominator
is a power of two, and the two infinities.  Integers are kept exactly, whatever their size;
the operations that round do so in `TapeCompiler.Number.Rounding`.

Of the values of a machine number two are left out.  One is not a number.  As a tape size, a stride or
a position it would be refused like a fraction, but a report with such a line would compare with no
other, so what is proved about reports is about lines and columns that are numbers.  The other is the
negative zero.  It equals zero, is written like it and is the same place in a list, so there is one
zero here.

A number that the library makes is in lowest terms: a `fraction` has an odd numerator and
at least one halving, so equal numbers are equal as data.

* `Number.order`: the exact order of numbers.
* `Number.index?`: a number as a place in a list.
-/

namespace TapeCompiler

/-- A number.  `fraction n h` is `n` halved `h` times. -/
inductive Number where
  | integer (value : Int)
  | fraction (numerator : Int) (halvings : Nat)
  | infinity (negative : Bool)
deriving DecidableEq

namespace Number

instance : Inhabited Number := ⟨.integer 0⟩

/-- The natural number `n`, exactly. -/
def ofNat (n : Nat) : Number := .integer n

/-- The least magnitude from which on not every integer has 53 significant bits. -/
def safeLimit : Nat := 9007199254740992

/-- A safe integer is one of magnitude below `safeLimit`: it and its neighbours need no
rounding. -/
def isSafeInteger : Number → Bool
  | .integer n => n.natAbs < safeLimit
  | _ => false

/-- The magnitude `m` with a sign. -/
def signed (negative : Bool) (m : Nat) : Int := if negative then -(m : Int) else m

/-- The place in a list that a number stands for: only the naturals stand for one. -/
def index? : Number → Option Nat
  | .integer (.ofNat n) => some n
  | _ => none

@[simp] theorem index?_ofNat (n : Nat) : (ofNat n).index? = some n := rfl

def numerator : Number → Int
  | .integer n => n
  | .fraction n _ => n
  | .infinity _ => 0

def denominator : Number → Nat
  | .integer _ => 1
  | .fraction _ h => 1 <<< h
  | .infinity _ => 1

def order : Number → Number → Ordering
  | .infinity a, .infinity b => compare b a
  | .infinity negative, _ => if negative then .lt else .gt
  | _, .infinity negative => if negative then .gt else .lt
  | a, b => compare (a.numerator * b.denominator) (b.numerator * a.denominator)

end Number

end TapeCompiler
