import TapeCompiler.Diagnostic.Basic
import TapeCompiler.Number.Rounding

/-! # The tape of a program

A tape has a number of cells that stand `stride` bytes apart.  Both can be chosen: the number
of cells is a positive safe integer, by default 30000, and the stride is 1 or 8, by default 1.
`TapeOptions.resolve` checks a choice and reports everything that is wrong with it.
-/

namespace TapeCompiler

/-- The distance in bytes between neighbouring cells: one packs byte cells, eight spaces word
cells. -/
inductive Stride where
  | one
  | eight
deriving DecidableEq

namespace Stride

def bytes : Stride → Nat
  | .one => 1
  | .eight => 8

/-- The stride of a number of bytes. -/
def ofNumber? : Number → Option Stride
  | .integer 1 => some .one
  | .integer 8 => some .eight
  | _ => none

end Stride

/-- The tape of a compiled program. -/
structure Tape where
  cells : Number
  stride : Stride
deriving DecidableEq

namespace Tape

/-- The bytes that the pointer may reach. -/
def addressable (t : Tape) : Number := t.cells.scale t.stride.bytes

/-- The bytes that are allocated: twice those that the pointer may reach. -/
def allocated (t : Tape) : Number := t.addressable.scale 2

end Tape

/-- A choice of tape; what is not chosen has its default. -/
structure TapeOptions where
  cells : Option Number
  stride : Option Number
deriving DecidableEq

/-- What is wrong with a choice of tape. -/
inductive OptionError where
  | badCells (got : Number)
  | badStride (got : Number)
deriving DecidableEq

namespace OptionError

def message : OptionError → String
  | .badCells got =>
    "Tape size must be a positive integer number of cells (got " ++ got.text ++ ")"
  | .badStride got => "Cell stride must be 1 or 8 (got " ++ got.text ++ ")"

/-- The diagnostic of an option error; it has no place. -/
def diagnostic (file : String) (e : OptionError) : Diagnostic :=
  .error .invalidOption e.message file

end OptionError

namespace TapeOptions

def defaultCells : Number := .integer 30000

def defaultStride : Number := .integer 1

/-- Whether a number can be a number of cells. -/
def isCellCount : Number → Bool
  | .integer n => 1 ≤ n && n < Number.safeLimit
  | _ => false

def cellErrors (cells : Number) : List OptionError :=
  if isCellCount cells then [] else [.badCells cells]

/-- The tape of a choice, or everything that is wrong with it, the number of cells first. -/
def resolve (o : TapeOptions) : Except (List OptionError) Tape :=
  let cells := o.cells.getD defaultCells
  let stride := o.stride.getD defaultStride
  match Stride.ofNumber? stride, cellErrors cells with
  | some s, [] => .ok ⟨cells, s⟩
  | some _, errors => .error errors
  | none, errors => .error (errors ++ [.badStride stride])

end TapeOptions

end TapeCompiler
