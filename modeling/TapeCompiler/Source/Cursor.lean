import TapeCompiler.Source.Position

/-! # Cursors

A cursor is where a reader stands in a text: a position whose coordinates are counted exactly.

* `Cursor.step`: the cursor behind one character.
* `Cursor.endOf`: the cursor behind a whole text.
* `Cursor.position`: the position at which a cursor stands.
-/

namespace TapeCompiler

/-- Where a reader stands in a text. -/
structure Cursor where
  line : Nat
  column : Nat
  offset : Nat
deriving DecidableEq

namespace Cursor

def start : Cursor := ⟨1, 1, 0⟩

/-- The cursor behind the character `c`. -/
def step (p : Cursor) (c : Char) : Cursor :=
  if c = '\n' then ⟨p.line + 1, 1, p.offset + 1⟩
  else ⟨p.line, p.column + Text.width c, p.offset + Text.width c⟩

/-- The cursor behind the last character of a text. -/
def endOf (text : List Char) : Cursor := text.foldl step start

/-- The position at which a cursor stands. -/
def position (p : Cursor) : Position := ⟨.ofNat p.line, .ofNat p.column, .ofNat p.offset⟩

end Cursor

namespace Span

/-- The stretch of a file between two cursors. -/
def between (file : String) (start stop : Cursor) : Span := ⟨file, start.position, stop.position⟩

/-- The empty span behind the last character of a text. -/
def endOf (file : String) (text : List Char) : Span :=
  .between file (.endOf text) (.endOf text)

end Span

end TapeCompiler
