/-! # Collation

The order of texts in reports.  Two texts are first compared by the weights of their characters:
blank, punctuation, symbols, digits, letters, a letter weighing the same in either case.  If that
leaves them equal, a small letter comes before its capital at the first place where they differ.

The weights are those of printable ASCII, and that is the text for which this is the order of a
report.  Any other character weighs more, by its code: that is a choice made here so that every two
texts can be compared, and not the order of any language.
-/

namespace TapeCompiler.Collation

/-- The printable characters that are neither digits nor letters, lightest first. -/
def symbols : List Char :=
  [' ', '_', '-', ',', ';', ':', '!', '?', '.', '\'', '"', '(', ')', '[', ']', '\x7b', '\x7d',
   '@', '*', '/', '\\', '&', '#', '%', '\x60', '^', '+', '<', '=', '>', '|', '~', '$']

/-- The weight of a character, which has a meaning for printable ASCII only. -/
def weight (c : Char) : Nat :=
  if c.isDigit then 100 + (c.toNat - '0'.toNat)
  else if c.isAlpha then 200 + (c.toLower.toNat - 'a'.toNat)
  else if symbols.contains c then symbols.idxOf c
  else 300 + c.toNat

/-- Compares two lists of naturals place by place; a proper beginning comes first. -/
def compareKeys : List Nat → List Nat → Ordering
  | [], [] => .eq
  | [], _ :: _ => .lt
  | _ :: _, [] => .gt
  | x :: xs, y :: ys => (compare x y).then (compareKeys xs ys)

/-- The rank of a letter's case: small letters first. -/
def caseRank (c : Char) : Nat := if c.isUpper then 1 else 0

def compareTexts (a b : String) : Ordering :=
  (compareKeys (a.toList.map weight) (b.toList.map weight)).then
    (compareKeys (a.toList.map caseRank) (b.toList.map caseRank))

end TapeCompiler.Collation
