import Mathlib.Logic.Function.Basic
import TapeCompiler.Proofs.Run
import TapeCompiler.Tree.Basic

/-! # What a program means

The meaning of a program is given on its tree, without any compiling: a tape of `size` cells of
`width` bits, a pointer to one of them, an input and an output.

* `Store`: the state of a running program, and what the commands do to it.  A command that would
  take the pointer off the tape has no next store.
* `Store.act`: a counted command.  Its count is done at once: a move is checked where it ends.
* `Interpreter.step`: runs the first of the statements that are still to be done.  A loop whose
  cell is not zero puts its body in front of itself.

`Store.act_add` is why a run of moves may be checked once: the pointer moves in one direction only,
so if it leaves the tape on the way it is off the tape in the end.
-/

namespace TapeCompiler

/-- The state of a running program. -/
structure Store (size width : Nat) where
  cells : Fin size → BitVec width
  pointer : Fin size
  input : List Byte
  output : List Byte

namespace Store

variable {size width : Nat}

/-- A cleared tape with the pointer on its first cell. -/
def start (nonempty : 0 < size) (input : List Byte) : Store size width :=
  ⟨fun _ => 0, ⟨0, nonempty⟩, input, []⟩

def cell (s : Store size width) : BitVec width := s.cells s.pointer

def put (s : Store size width) (value : BitVec width) : Store size width :=
  { s with cells := Function.update s.cells s.pointer value }

/-- Moves the pointer by a distance, unless that takes it off the tape. -/
def shift (s : Store size width) (distance : Int) : Option (Store size width) :=
  if h : 0 ≤ s.pointer + distance ∧ s.pointer + distance < size then
    some { s with pointer := ⟨(s.pointer + distance).toNat, by omega⟩ }
  else none

/-- Adds to the current cell, modulo two to the width. -/
def change (s : Store size width) (amount : Int) : Store size width :=
  s.put (s.cell + BitVec.ofInt width amount)

/-- Runs a counted command, unless it takes the pointer off the tape. -/
def act (s : Store size width) (command : Counted) (count : Nat) : Option (Store size width) :=
  match command with
  | .moveLeft => s.shift (-count)
  | .moveRight => s.shift count
  | .increment => some (s.change count)
  | .decrement => some (s.change (-count))

/-- A value with its lowest byte replaced. -/
def withLowByte (value : BitVec width) (b : Byte) : BitVec width :=
  BitVec.ofNat width (value.toNat / 256 * 256 + b.toNat)

/-- Puts the next byte of the input in the lowest byte of the current cell.  At the end of the
input nothing happens. -/
def read (s : Store size width) : Store size width :=
  match s.input with
  | [] => s
  | b :: rest => { s.put (withLowByte s.cell b) with input := rest }

def write (s : Store size width) : Store size width :=
  { s with output := s.output ++ [s.cell.setWidth 8] }

def ending (s : Store size width) (status : BitVec 32) : Ending :=
  .returned status s.output s.input

end Store

namespace Interpreter

variable {α : Type} {size width : Nat}

/-- The statements that are still to be done, and the store. -/
structure Config (α : Type) (size width : Nat) where
  pending : List (Statement α)
  store : Store size width

/-- Does the first of the pending statements.  The run ends with status 0 when there are none, and
with status 1 when the pointer leaves the tape.  A count that is no natural has no meaning. -/
def step : Config α size width → Progress (Config α size width) Ending
  | ⟨[], s⟩ => .done (s.ending 0)
  | ⟨.counted command count _ :: rest, s⟩ =>
    match count.index? with
    | none => .done .fault
    | some n =>
      match s.act command n with
      | some s' => .next ⟨rest, s'⟩
      | none => .done (s.ending 1)
  | ⟨.read _ :: rest, s⟩ => .next ⟨rest, s.read⟩
  | ⟨.write _ :: rest, s⟩ => .next ⟨rest, s.write⟩
  | ⟨.loop body note :: rest, s⟩ =>
    if s.cell = 0 then .next ⟨rest, s⟩ else .next ⟨body ++ .loop body note :: rest, s⟩

/-- The start of a program. -/
def start (program : List (Statement α)) (nonempty : 0 < size) (input : List Byte) :
    Config α size width :=
  ⟨program, .start nonempty input⟩

end Interpreter

/-! ## Runs of a command -/

namespace Store

variable {size width : Nat}

theorem shift_add (s : Store size width) {d e : Int} (same : 0 ≤ d ∧ 0 ≤ e ∨ d ≤ 0 ∧ e ≤ 0) :
    s.shift (d + e) = (s.shift d).bind fun s' => s'.shift e := by
  have hp := s.pointer.isLt
  by_cases h : 0 ≤ s.pointer + d ∧ s.pointer + d < size
  · have hd : s.shift d = some { s with pointer := ⟨(s.pointer + d).toNat, by omega⟩ } := dif_pos h
    have hcast : ((s.pointer + d).toNat : Int) = s.pointer + d := by omega
    rw [hd]
    simp only [Option.bind_some, shift, hcast, Int.add_assoc]
  · have hd : s.shift d = none := dif_neg h
    have hde : s.shift (d + e) = none := dif_neg (by omega)
    rw [hd, hde]
    rfl

theorem put_put (s : Store size width) (v w : BitVec width) : (s.put v).put w = s.put w := by
  simp [put]

@[simp] theorem cell_put (s : Store size width) (v : BitVec width) : (s.put v).cell = v := by
  simp [put, cell]

theorem change_add (s : Store size width) (d e : Int) :
    s.change (d + e) = (s.change d).change e := by
  simp only [change, put_put, cell_put, BitVec.ofInt_add, BitVec.add_assoc]

/-- A counted command may be done in two parts. -/
theorem act_add (s : Store size width) (command : Counted) (m n : Nat) :
    s.act command (m + n) = (s.act command m).bind fun s' => s'.act command n := by
  cases command with
  | moveLeft =>
    have hsum : (-((m + n : Nat) : Int)) = -(m : Int) + -(n : Int) := by omega
    simp only [act, hsum]
    exact s.shift_add (.inr ⟨by omega, by omega⟩)
  | moveRight =>
    simp only [act, Int.natCast_add]
    exact s.shift_add (.inl ⟨by omega, by omega⟩)
  | increment => simp only [act, Int.natCast_add, change_add, Option.bind_some]
  | decrement =>
    have hsum : (-((m + n : Nat) : Int)) = -(m : Int) + -(n : Int) := by omega
    simp only [act, hsum, change_add, Option.bind_some]

theorem ending_shift {s s' : Store size width} {distance : Int} (h : s.shift distance = some s')
    (status : BitVec 32) : s'.ending status = s.ending status := by
  unfold shift at h
  split at h
  · cases h
    rfl
  · cases h

/-- A counted command reads and writes nothing. -/
theorem ending_act {s s' : Store size width} {command : Counted} {n : Nat}
    (h : s.act command n = some s') (status : BitVec 32) : s'.ending status = s.ending status := by
  cases command with
  | moveLeft => exact ending_shift h status
  | moveRight => exact ending_shift h status
  | increment => cases h; rfl
  | decrement => cases h; rfl

end Store

end TapeCompiler
