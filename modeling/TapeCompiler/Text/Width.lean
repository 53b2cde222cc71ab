/-! # Code units

Columns and offsets count code units of sixteen bits: a character takes one of them, or two
when its code is above `0xFFFF`.

A text that is cut after so many code units can lose the second half of its last character.  The
first half that is left is no character; it is written as the replacement character.

Texts are lists of characters.  That nothing is lost by it, since compilation depends on the code units
only and reads half of a character like the replacement character, is shown in
`TapeCompiler.Proofs.CodeUnits`.
-/

namespace TapeCompiler.Text

/-- How many code units a character takes. -/
def width (c : Char) : Nat := if c.toNat < 0x10000 then 1 else 2

/-- One entry for each code unit of a text: the character that the unit belongs to. -/
def units (text : List Char) : List Char :=
  text.flatMap fun c => List.replicate (width c) c

/-- What is written for half of a character. -/
def replacement : Char := '\uFFFD'

/-- The first `room` code units of a text, a character that is cut in two being replaced. -/
def beginning (room : Nat) : List Char → List Char
  | [] => []
  | c :: rest =>
    if width c ≤ room then c :: beginning (room - width c) rest
    else if room = 0 then []
    else [replacement]

/-- A character has at least one code unit. -/
theorem width_pos (c : Char) : 0 < width c := by
  unfold width
  split <;> decide

end TapeCompiler.Text
