import TapeCompiler.Number.Basic

/-! # The intermediate language

The part of the QBE intermediate language that a tape program needs: words (32 bits) and longs
(64 bits, also pointers), arithmetic, byte and word access to memory, one comparison, calls,
and blocks that end in a conditional jump or a return.
-/

namespace TapeCompiler.Qbe

/-- The type of a value: a word or a long. -/
inductive BaseType where
  | word
  | long
deriving DecidableEq

/-- An operand: a temporary or a constant. -/
inductive Value where
  | temp (name : String)
  | const (value : Number)
deriving DecidableEq

/-- A load of an unsigned byte or of a word. -/
inductive LoadOp where
  | byte
  | word
deriving DecidableEq

/-- A store of a byte or of a word. -/
inductive StoreOp where
  | byte
  | word
deriving DecidableEq

/-- The right-hand side of an assignment.  `above` compares unsigned values of a type. -/
inductive Operation where
  | copy (value : Value)
  | add (lhs rhs : Value)
  | sub (lhs rhs : Value)
  | load (op : LoadOp) (address : Value)
  | alloc8 (bytes : Number)
  | above (type : BaseType) (lhs rhs : Value)
deriving DecidableEq

structure Argument where
  type : BaseType
  value : Value
deriving DecidableEq

inductive Instr where
  | assign (dest : Value) (type : BaseType) (operation : Operation)
  | store (op : StoreOp) (value address : Value)
  | call (target : String) (args : List Argument)
deriving DecidableEq

/-- What ends a block. -/
inductive Jump where
  | jnz (cond : Value) (ifNonZero ifZero : String)
  | ret (value : Option Value)
deriving DecidableEq

/-- A labelled block.  One without a jump falls through to the next. -/
structure Block where
  label : String
  instrs : List Instr
  jump : Option Jump
deriving DecidableEq

/-- A function without parameters. -/
structure Function where
  exported : Bool
  name : String
  returnType : Option BaseType
  blocks : List Block
deriving DecidableEq

structure Module where
  functions : List Function
deriving DecidableEq

end TapeCompiler.Qbe
