import TapeCompiler.Token.Basic

/-! # Statements

A program is a list of statements, and so is the body of a loop.  Every statement carries a
note: the parser notes the span that a statement was read from, and a tree made by hand has
notes of type `Unit`.  Two trees are the same up to their notes when `erase` makes them
equal.
-/

namespace TapeCompiler

/-- A statement with notes of type `α`. -/
inductive Statement (α : Type) where
  | counted (command : Counted) (count : Number) (note : α)
  | read (note : α)
  | write (note : α)
  | loop (body : List (Statement α)) (note : α)

namespace Counted

def statementName : Counted → String
  | .moveLeft => "MoveLeft"
  | .moveRight => "MoveRight"
  | .increment => "Add"
  | .decrement => "Subtract"

end Counted

namespace Statement

variable {α : Type}

def note : Statement α → α
  | .counted _ _ note => note
  | .read note => note
  | .write note => note
  | .loop _ note => note

mutual

/-- The statement without its notes. -/
def erase : Statement α → Statement Unit
  | .counted command count _ => .counted command count ()
  | .read _ => .read ()
  | .write _ => .write ()
  | .loop body _ => .loop (eraseAll body) ()

def eraseAll : List (Statement α) → List (Statement Unit)
  | [] => []
  | s :: rest => s.erase :: eraseAll rest

end

end Statement

/-- The span of a block: from the start of its first statement to the end of its last, and none when
there are no statements.  It follows from the statements, so a tree holds no note for it. -/
def blockSpan? (statements : List (Statement Span)) : Option Span :=
  match statements.head?, statements.getLast? with
  | some first, some last => some (first.note.join last.note)
  | _, _ => none

end TapeCompiler
