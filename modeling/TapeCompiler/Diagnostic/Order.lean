import TapeCompiler.Diagnostic.Basic
import TapeCompiler.Text.Collation

/-! # The order of diagnostics

Diagnostics are compared by file, line, column, severity, identifier and message, in this order.
A missing line or column counts as infinite.  Where both lines, or both columns, are the same
infinity the comparison is undecided: nothing after that counts, and sorting leaves the two as
they are.
-/

namespace TapeCompiler.Diagnostic

/-- A line or a column for comparing: a missing one is infinite. -/
def coordinate (n : Option Number) : Number := n.getD (.infinity false)

/-- Compares two lines or two columns; `none` when they are the same infinity. -/
def compareCoordinates (a b : Number) : Option Ordering :=
  match a, b with
  | .infinity x, .infinity y => if x = y then none else some (Number.order a b)
  | _, _ => some (Number.order a b)

def severityRank : Severity → Nat
  | .error => 0
  | .warning => 1
  | .info => 2

/-- Compares what is left when file, line and column agree. -/
def compareRest (a b : Diagnostic) : Ordering :=
  (compare (severityRank a.severity) (severityRank b.severity)).then
    ((Collation.compareTexts a.id b.id).then (Collation.compareTexts a.message b.message))

/-- Goes on with `next` if a comparison is decided and found equality. -/
def thenCompare (first : Option Ordering) (next : Option Ordering) : Option Ordering :=
  match first with
  | some .eq => next
  | decided => decided

/-- Compares two diagnostics; `none` is undecided. -/
def compareReports (a b : Diagnostic) : Option Ordering :=
  thenCompare (some (Collation.compareTexts a.file b.file))
    (thenCompare (compareCoordinates (coordinate a.line) (coordinate b.line))
      (thenCompare (compareCoordinates (coordinate a.column) (coordinate b.column))
        (some (compareRest a b))))

/-- Whether `a` comes before `b`. -/
def before (a b : Diagnostic) : Bool := compareReports a b == some .lt

/-- Puts `d` into a sorted list, behind those that come before it. -/
def insert (d : Diagnostic) : List Diagnostic → List Diagnostic
  | [] => [d]
  | e :: rest => if before e d then e :: insert d rest else d :: e :: rest

/-- Sorts diagnostics for a report.  Of two that neither comes before the other, the first stays
first. -/
def sort (diagnostics : List Diagnostic) : List Diagnostic := diagnostics.foldr insert []

end TapeCompiler.Diagnostic
