import TapeCompiler.Qbe.Basic

/-! # Building a function

A function is written down item by item: a label opens a block, and instructions and jumps
belong to the block opened last.

* `Function.append` adds one item and refuses an instruction or a jump outside any block and a
  second jump in a block.
* `blocksOf` gives the blocks of a whole list of items at once.
-/

namespace TapeCompiler.Qbe

/-- A line of a function body. -/
inductive Item where
  | label (name : String)
  | instr (instr : Instr)
  | jump (jump : Jump)
deriving DecidableEq

/-- Why an item cannot be added. -/
inductive BuildError where
  | noOpenBlock (function : String)
  | terminated (label : String) (jump : Jump)
deriving DecidableEq

def Jump.keyword : Jump → String
  | .jnz _ _ _ => "jnz"
  | .ret _ => "ret"

def BuildError.message : BuildError → String
  | .noOpenBlock function => "Function $" ++ function ++ " has no open block"
  | .terminated label jump => "Block @" ++ label ++ " already ends in " ++ jump.keyword

def Function.empty (name : String) (exported : Bool) (returnType : Option BaseType) : Function :=
  ⟨exported, name, returnType, []⟩

/-- Adds an instruction or a jump to a block; a label is none of its business. -/
def Block.append (b : Block) : Item → Except BuildError Block
  | .label _ => .ok b
  | .instr i => .ok { b with instrs := b.instrs ++ [i] }
  | .jump j =>
    match b.jump with
    | some earlier => .error (.terminated b.label earlier)
    | none => .ok { b with jump := some j }

/-- Adds an item at the end of a function. -/
def Function.append (f : Function) : Item → Except BuildError Function
  | .label name => .ok { f with blocks := f.blocks ++ [⟨name, [], none⟩] }
  | item =>
    match f.blocks.getLast? with
    | none => .error (.noOpenBlock f.name)
    | some last =>
      (last.append item).map fun b => { f with blocks := f.blocks.dropLast ++ [b] }

/-- What a list of items holds: the instructions and the first jump before its first label,
and the blocks from there on. -/
structure Listing where
  instrs : List Instr
  jump : Option Jump
  blocks : List Block
deriving DecidableEq

/-- Sorts a list of items into blocks. -/
def listingOf : List Item → Listing
  | [] => ⟨[], none, []⟩
  | item :: rest =>
    let l := listingOf rest
    match item with
    | .label name => ⟨[], none, ⟨name, l.instrs, l.jump⟩ :: l.blocks⟩
    | .instr i => { l with instrs := i :: l.instrs }
    | .jump j => { l with jump := some j }

/-- The blocks that a list of items opens. -/
def blocksOf (items : List Item) : List Block := (listingOf items).blocks

end TapeCompiler.Qbe
