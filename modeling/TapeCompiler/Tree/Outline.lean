import TapeCompiler.Tree.Basic

/-! # Outlines

The outline of a program has one line per node, indented by two spaces per level.  A list of
statements is headed by `Block`, and the block of a loop stands one level below its `Loop`.
-/

namespace TapeCompiler.Outline

variable {α : Type}

/-- A line at a level. -/
def line (depth : Nat) (name : String) : String :=
  String.ofList (List.replicate (2 * depth) ' ') ++ name ++ "\n"

mutual

/-- The lines of a statement at a level. -/
def statement (depth : Nat) : Statement α → List String
  | .counted command count _ => [line depth (command.statementName ++ "(" ++ count.text ++ ")")]
  | .read _ => [line depth "Read"]
  | .write _ => [line depth "Write"]
  | .loop body _ => line depth "Loop" :: line (depth + 1) "Block" :: statements (depth + 2) body

def statements (depth : Nat) : List (Statement α) → List String
  | [] => []
  | s :: rest => statement depth s ++ statements depth rest

end

def text (program : List (Statement α)) : String :=
  String.join (line 0 "Block" :: statements 1 program)

end TapeCompiler.Outline
