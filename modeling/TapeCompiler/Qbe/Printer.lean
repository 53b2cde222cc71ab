import TapeCompiler.Number.Text
import TapeCompiler.Qbe.Basic

/-! # The text of a module

Labels start a line; instructions and jumps are indented by a tab.  Functions are separated by
an empty line, and the text of a module ends with a line feed.
-/

namespace TapeCompiler.Qbe

def BaseType.text : BaseType → String
  | .word => "w"
  | .long => "l"

def Value.text : Value → String
  | .temp name => "%" ++ name
  | .const value => value.text

def LoadOp.text : LoadOp → String
  | .byte => "loadub"
  | .word => "loadw"

def StoreOp.text : StoreOp → String
  | .byte => "storeb"
  | .word => "storew"

def Argument.text (a : Argument) : String := a.type.text ++ " " ++ a.value.text

def Operation.text : Operation → String
  | .copy value => "copy " ++ value.text
  | .add lhs rhs => "add " ++ lhs.text ++ ", " ++ rhs.text
  | .sub lhs rhs => "sub " ++ lhs.text ++ ", " ++ rhs.text
  | .load op address => op.text ++ " " ++ address.text
  | .alloc8 bytes => "alloc8 " ++ bytes.text
  | .above type lhs rhs => "cugt" ++ type.text ++ " " ++ lhs.text ++ ", " ++ rhs.text

def Instr.text : Instr → String
  | .assign dest type operation => dest.text ++ " =" ++ type.text ++ " " ++ operation.text
  | .store op value address => op.text ++ " " ++ value.text ++ ", " ++ address.text
  | .call target args =>
    "call $" ++ target ++ "(" ++ String.intercalate ", " (args.map Argument.text) ++ ")"

def Jump.text : Jump → String
  | .jnz cond ifNonZero ifZero => "jnz " ++ cond.text ++ ", @" ++ ifNonZero ++ ", @" ++ ifZero
  | .ret none => "ret"
  | .ret (some value) => "ret " ++ value.text

def Block.lines (b : Block) : List String :=
  ("@" ++ b.label) :: b.instrs.map (fun i => "\t" ++ i.text) ++
    (b.jump.map fun j => "\t" ++ j.text).toList

/-- The first line of a function. -/
def Function.header (f : Function) : String :=
  (if f.exported then "export " else "") ++ "function " ++
    (match f.returnType with
    | some type => type.text ++ " "
    | none => "") ++
    "$" ++ f.name ++ "() \x7b"

def Function.lines (f : Function) : List String :=
  f.header :: f.blocks.flatMap Block.lines ++ ["\x7d"]

/-- The text of a function, without a line feed at its end. -/
def Function.text (f : Function) : String := String.intercalate "\n" f.lines

def Module.text (m : Module) : String :=
  String.intercalate "\n" (m.functions.map fun f => f.text ++ "\n")

end TapeCompiler.Qbe
