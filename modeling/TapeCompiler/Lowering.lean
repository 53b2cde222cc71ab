import TapeCompiler.Qbe.Builder
import TapeCompiler.Tape
import TapeCompiler.Tree.Basic

/-! # Lowering

A program becomes one exported function `main`.  Its block `runtime` allocates and clears the
tape and points `ptr` at its first byte, and its block `start` begins the program.  Every move
of the pointer is followed by a guard that returns 1 when the pointer has left the tape; the
end of the program returns 0.

Temporaries and labels are numbered.  A statement uses as many numbers as `temps` and `labels`
say, whatever its surroundings, so the items of a statement depend only on the two numbers that
it starts from.

* `statement`, `statements`: the items of a statement and of a list of them.
* `mainFunction`: the function of a program.
* `lower`: the module of a program on a chosen tape.
-/

namespace TapeCompiler.Lowering

open Qbe (Value Operation Instr Item Jump)

variable {α : Type}

/-! ## Names -/

/-- The first byte of the tape. -/
def tape : Value := .temp "tape"

/-- The byte that the pointer points at. -/
def ptr : Value := .temp "ptr"

/-- The numbered temporary `n`. -/
def temp (n : Nat) : Value := .temp ("v" ++ Number.natText n)

/-- A label with a number. -/
def label (name : String) (n : Nat) : String := name ++ Number.natText n

def const (n : Nat) : Value := .const (.ofNat n)

/-! ## How many numbers a statement uses -/

mutual

/-- How many temporaries a statement uses. -/
def temps : Statement α → Nat
  | .counted _ _ _ => 2
  | .read _ => 0
  | .write _ => 0
  | .loop body _ => 2 + tempsAll body

def tempsAll : List (Statement α) → Nat
  | [] => 0
  | s :: rest => temps s + tempsAll rest

end

mutual

/-- How many labels a statement uses. -/
def labels : Statement α → Nat
  | .counted .moveLeft _ _ => 2
  | .counted .moveRight _ _ => 2
  | .counted .increment _ _ => 0
  | .counted .decrement _ _ => 0
  | .read _ => 0
  | .write _ => 0
  | .loop body _ => 1 + labelsAll body

def labelsAll : List (Statement α) → Nat
  | [] => 0
  | s :: rest => labels s + labelsAll rest

end

/-! ## The items of a statement -/

/-- The load that fits a stride. -/
def loadOp : Stride → Qbe.LoadOp
  | .one => .byte
  | .eight => .word

/-- The store that fits a stride. -/
def storeOp : Stride → Qbe.StoreOp
  | .one => .byte
  | .eight => .word

/-- Loads the current cell into a temporary. -/
def loadCell (stride : Stride) (t : Nat) : Item :=
  .instr (.assign (temp t) .word (.load (loadOp stride) ptr))

/-- Returns 1 unless the pointer is on the tape.  The comparison is unsigned, so a pointer below
the first byte of the tape counts as one far above its last. -/
def guard (limit : Number) (t l : Nat) : List Item :=
  let cont := label "cont" l
  let halt := label "halt" (l + 1)
  [ .instr (.assign (temp t) .long (.sub ptr tape)),
    .instr (.assign (temp (t + 1)) .word (.above .long (.const limit) (temp t))),
    .jump (.jnz (temp (t + 1)) cont halt),
    .label halt,
    .jump (.ret (some (const 1))),
    .label cont ]

/-- Moves the pointer by an operation on it and a distance, then guards it. -/
def move (operation : Value → Value → Operation) (layout : Tape) (count : Number)
    (t l : Nat) : List Item :=
  let distance := count.scale layout.stride.bytes
  .instr (.assign ptr .long (operation ptr (.const distance))) :: guard layout.addressable t l

/-- Changes the current cell by an operation on it and a count. -/
def change (operation : Value → Value → Operation) (layout : Tape) (count : Number)
    (t : Nat) : List Item :=
  [ loadCell layout.stride t,
    .instr (.assign (temp (t + 1)) .word (operation (temp t) (.const count))),
    .instr (.store (storeOp layout.stride) (temp (t + 1)) ptr) ]

/-- Calls a function on a file descriptor and the byte at the pointer. -/
def transfer (target : String) (descriptor : Nat) : Item :=
  .instr (.call target [⟨.word, const descriptor⟩, ⟨.long, ptr⟩, ⟨.long, const 1⟩])

/-- Loads the current cell and enters the loop `l` or leaves it. -/
def test (stride : Stride) (t l : Nat) : List Item :=
  [loadCell stride t, .jump (.jnz (temp t) (label "loop" l) (label "end" l))]

mutual

/-- The items of a statement, with temporaries from `t` and labels from `l` on. -/
def statement (layout : Tape) (t l : Nat) : Statement α → List Item
  | .counted .moveLeft count _ => move .sub layout count t l
  | .counted .moveRight count _ => move .add layout count t l
  | .counted .increment count _ => change .add layout count t
  | .counted .decrement count _ => change .sub layout count t
  | .read _ => [transfer "read" 0]
  | .write _ => [transfer "write" 1]
  | .loop body _ =>
    test layout.stride t l ++ .label (label "loop" l) ::
      (statements layout (t + 1) (l + 1) body ++
        (test layout.stride (t + 1 + tempsAll body) l ++ [.label (label "end" l)]))

def statements (layout : Tape) (t l : Nat) : List (Statement α) → List Item
  | [] => []
  | s :: rest => statement layout t l s ++ statements layout (t + temps s) (l + labels s) rest

end

/-! ## The function of a program -/

/-- Allocates and clears the tape and sets the pointer. -/
def prologue (layout : Tape) : List Item :=
  [ .label "runtime",
    .instr (.assign tape .long (.alloc8 layout.allocated)),
    .instr (.call "memset" [⟨.long, tape⟩, ⟨.word, const 0⟩, ⟨.long, .const layout.allocated⟩]),
    .instr (.assign ptr .long (.copy tape)),
    .label "start" ]

def firstTemp : Nat := 0

def firstLabel : Nat := 0

def body (layout : Tape) (program : List (Statement α)) : List Item :=
  prologue layout ++
    (statements layout firstTemp firstLabel program ++ [.jump (.ret (some (const 0)))])

/-- The function `main` before its first block. -/
def emptyMain : Qbe.Function := .empty "main" true (some .word)

def mainFunction (layout : Tape) (program : List (Statement α)) : Qbe.Function :=
  { emptyMain with blocks := Qbe.blocksOf (body layout program) }

/-- The module of a program on a chosen tape, or what is wrong with the choice. -/
def lower (options : TapeOptions) (program : List (Statement α)) :
    Except (List OptionError) Qbe.Module :=
  options.resolve.map fun layout => ⟨[mainFunction layout program]⟩

theorem lower_eq_ok {options : TapeOptions} {layout : Tape} (h : options.resolve = .ok layout)
    (program : List (Statement α)) :
    lower options program = .ok ⟨[mainFunction layout program]⟩ := by
  rw [lower, h]
  rfl

end TapeCompiler.Lowering
