/-! # Line endings

Texts are made with a line feed behind each line; `LineEnding.apply` puts another ending in its
place.
-/

namespace TapeCompiler

/-- What ends a line of output. -/
structure LineEnding where
  chars : List Char
deriving DecidableEq

namespace LineEnding

def lf : LineEnding := ⟨['\n']⟩

def crlf : LineEnding := ⟨['\r', '\n']⟩

/-- Writes a character with the given line ending. -/
def applyChar (e : LineEnding) (c : Char) : List Char := if c = '\n' then e.chars else [c]

def apply (e : LineEnding) (text : String) : String :=
  if e = lf then text else String.ofList (text.toList.flatMap e.applyChar)

/-- A choice of line ending; to choose an empty one is to choose none, and then it is a line
feed. -/
def chosen (e : LineEnding) : LineEnding := if e.chars = [] then lf else e

end LineEnding

end TapeCompiler
