import TapeCompiler.Number.Rounding
import TapeCompiler.Text.Width

/-! # Positions

A position is a line, a column and an offset, written as numbers.  Lines and columns count from
one, offsets from zero, and a line feed is the only character that ends a line.

* `Position.advance`: the position at a given offset, walking the code units of a text from
  another position.  Where the text has no unit, the walk meets one that ends no line.
* `Span`: a stretch of a file.
-/

namespace TapeCompiler

/-- A place in a text. -/
structure Position where
  line : Number
  column : Number
  offset : Number
deriving DecidableEq

/-- A stretch of a file; `stop` is the place just behind it. -/
structure Span where
  file : String
  start : Position
  stop : Position
deriving DecidableEq

namespace Position

/-- The position behind one code unit, which belongs to the character `c` if there is one. -/
def stepUnit (p : Position) (c : Option Char) : Position :=
  if c = some '\n' then ⟨p.line.next, .ofNat 1, p.offset.next⟩
  else ⟨p.line, p.column.next, p.offset.next⟩

/-- Walks code units for as long as the offset is below `target`, at most `steps` of them. -/
def walk (units : Array Char) (target : Number) : Nat → Position → Position
  | 0, p => p
  | steps + 1, p =>
    if p.offset.order target = .lt then
      walk units target steps (p.stepUnit (p.offset.index?.bind (units[·]?)))
    else p

/-- More steps of one than lead from the offset `a` to the offset `b`, if both are finite. -/
def enoughSteps (a b : Number) : Nat :=
  let distance := b.numerator * a.denominator - a.numerator * b.denominator
  distance.toNat / (a.denominator * b.denominator) + 2

/-- Walks the code units of `text` from the offset of `p` up to the offset `target`.  Nothing
is walked when `target` lies behind `p`, yet the offset becomes `target` all the same. -/
def advance (text : List Char) (p : Position) (target : Number) : Position :=
  { walk (Text.units text).toArray target (enoughSteps p.offset target) p with offset := target }

end Position

namespace Span

/-- From the start of `a` to the end of `b`, in the file of `a`. -/
def join (a b : Span) : Span := ⟨a.file, a.start, b.stop⟩

end Span

end TapeCompiler
