import Mathlib.Algebra.Group.Nat.Defs
import Mathlib.Logic.Function.Basic
import TapeCompiler.Proofs.Run
import TapeCompiler.Qbe.Builder

/-! # Running the intermediate language

A reading of the part of the intermediate language that `Qbe.Basic` describes.

Arithmetic wraps around at the width of its type.  A temporary keeps the type that it was assigned
with: a long may be used as a word, which takes its low half, but not the other way round.  Memory
is a partial map of bytes.  Only allocated bytes can be read or written, and a word lies in memory
with its lowest byte first.  The outside world is a `Host` that chooses where a region goes and what
it holds at first, the bytes that `read` takes, and the bytes that `write` has been given.

Whatever has no meaning, from an unknown temporary to a byte outside memory or the end of the last
block, is a `fault`.

* `Data.execute`: one instruction.
* `step`: one step of a function.  Where the function stands is a `Listing`, what is left of
  the open block and the blocks behind it, so a block without a jump runs on into the next.
* `Module.Ends`: how the run of a module ends.
-/

namespace TapeCompiler.Qbe

abbrev Address := BitVec 64

/-! ## Memory -/

/-- The byte at every address, and none where nothing is allocated. -/
abbrev Memory := Address → Option Byte

namespace Memory

def read (m : Memory) (a : Address) : Nat → Option (List Byte)
  | 0 => some []
  | n + 1 => do
    let b ← m a
    let rest ← m.read (a + 1) n
    some (b :: rest)

/-- Memory with bytes laid over it from an address on. -/
def overlay (m : Memory) (a : Address) (bytes : List Byte) : Memory :=
  fun x => bytes[(x - a).toNat]?.or (m x)

def write (m : Memory) (a : Address) (bytes : List Byte) : Option Memory :=
  if ∀ i < bytes.length, (m (a + BitVec.ofNat 64 i)).isSome then some (m.overlay a bytes) else none

def allocate (m : Memory) (a : Address) (n : Nat) (contents : Address → Byte) : Memory :=
  fun x => if (x - a).toNat < n then some (contents x) else m x

end Memory

/-- The number that bytes stand for, the lowest byte first. -/
def ofBytes : List Byte → Nat
  | [] => 0
  | b :: rest => b.toNat + 256 * ofBytes rest

/-- The lowest `n` bytes of a number. -/
def toBytes : Nat → Nat → List Byte
  | 0, _ => []
  | n + 1, v => BitVec.ofNat 8 v :: toBytes n (v / 256)

/-! ## Values -/

def BaseType.wrap : BaseType → BitVec 64 → BitVec 64
  | .long, v => v
  | .word, v => (v.setWidth 32).setWidth 64

def LoadOp.bytes : LoadOp → Nat
  | .byte => 1
  | .word => 4

def StoreOp.bytes : StoreOp → Nat
  | .byte => 1
  | .word => 4

/-- A value with its type.  A word has a zero upper half, which nothing can see. -/
structure Scalar where
  type : BaseType
  bits : BitVec 64
deriving DecidableEq

def Scalar.as? (s : Scalar) : BaseType → Option (BitVec 64)
  | .long => if s.type = .long then some s.bits else none
  | .word => some (BaseType.word.wrap s.bits)

structure Data where
  temps : String → Option Scalar
  memory : Memory
  input : List Byte
  output : List Byte

/-- Where a region of a size goes, and what memory holds before anything is written to it.  A
region never wraps around the end of the address space. -/
structure Host where
  place : Nat → Address
  contents : Address → Byte
  place_fits : ∀ n ≤ 2 ^ 64, (place n).toNat + n ≤ 2 ^ 64

instance : Inhabited Host := ⟨⟨fun _ => 0, fun _ => 255, fun n hn => by simpa using hn⟩⟩

/-! ## Instructions -/

namespace Data

/-- The value of an operand that is used with a type.  Constants are exact integers. -/
def operand (d : Data) (type : BaseType) : Value → Option (BitVec 64)
  | .const (.integer n) => some (type.wrap (BitVec.ofInt 64 n))
  | .const _ => none
  | .temp name => (d.temps name).bind (·.as? type)

def set (d : Data) (name : String) (value : Scalar) : Data :=
  { d with temps := Function.update d.temps name (some value) }

/-- A number loaded into a value of a type.  A byte is extended by zeros; a word that becomes a long
is extended by its sign. -/
def extend : LoadOp → BaseType → Nat → BitVec 64
  | .word, .long, v => (BitVec.ofNat 32 v).signExtend 64
  | _, _, v => BitVec.ofNat 64 v

/-- The value of an operation, and the memory behind it. -/
def evaluate (host : Host) (d : Data) (type : BaseType) :
    Operation → Option (BitVec 64 × Memory)
  | .copy v => do
    let x ← d.operand type v
    some (x, d.memory)
  | .add v w => do
    let x ← d.operand type v
    let y ← d.operand type w
    some (type.wrap (x + y), d.memory)
  | .sub v w => do
    let x ← d.operand type v
    let y ← d.operand type w
    some (type.wrap (x - y), d.memory)
  | .load op v => do
    let a ← d.operand .long v
    let bytes ← d.memory.read a op.bytes
    some (extend op type (ofBytes bytes), d.memory)
  | .above compared v w => do
    let x ← d.operand compared v
    let y ← d.operand compared w
    some (if y < x then 1 else 0, d.memory)
  | .alloc8 bytes =>
    match type, bytes.index? with
    | .long, some n =>
      if n ≤ 2 ^ 64 then some (host.place n, d.memory.allocate (host.place n) n host.contents)
      else none
    | _, _ => none

def arguments (d : Data) : List Argument → Option (List Scalar)
  | [] => some []
  | a :: rest => do
    let v ← d.operand a.type a.value
    let vs ← d.arguments rest
    some (⟨a.type, v⟩ :: vs)

/-- Calls a function of the outside world: `memset` fills memory, `read` takes bytes from the
standard input for as long as there are any, and `write` gives bytes to the standard output. -/
def call (d : Data) (target : String) : List Scalar → Option Data
  | [⟨.long, a⟩, ⟨.word, v⟩, ⟨.long, n⟩] =>
    if target = "memset" then do
      let m ← d.memory.write a (List.replicate n.toNat (v.setWidth 8))
      some { d with memory := m }
    else none
  | [⟨.word, descriptor⟩, ⟨.long, a⟩, ⟨.long, n⟩] =>
    if target = "read" ∧ descriptor = 0 then do
      let m ← d.memory.write a (d.input.take n.toNat)
      some { d with memory := m, input := d.input.drop n.toNat }
    else if target = "write" ∧ descriptor = 1 then do
      let bytes ← d.memory.read a n.toNat
      some { d with output := d.output ++ bytes }
    else none
  | _ => none

def execute (host : Host) (d : Data) : Instr → Option Data
  | .assign (.temp name) type operation => do
    let (v, m) ← d.evaluate host type operation
    some ({ d with memory := m }.set name ⟨type, v⟩)
  | .assign (.const _) _ _ => none
  | .store op value address => do
    let v ← d.operand .word value
    let a ← d.operand .long address
    let m ← d.memory.write a (toBytes op.bytes v.toNat)
    some { d with memory := m }
  | .call target args => do
    let values ← d.arguments args
    d.call target values

/-- The address and the number of bytes that an instruction is about to read or write: those of a
load, a store, or a call of `read` or `write`. -/
def access? (d : Data) : Instr → Option (Address × Nat)
  | .assign _ _ (.load op address) => (d.operand .long address).map (·, op.bytes)
  | .assign _ _ _ => none
  | .store op _ address => (d.operand .long address).map (·, op.bytes)
  | .call target args =>
    match d.arguments args with
    | some [_, a, n] =>
      if target = "read" ∨ target = "write" then some (a.bits, n.bits.toNat) else none
    | _ => none

end Data

/-! ## Functions -/

structure State where
  control : Listing
  data : Data

def State.access? (s : State) : Option (Address × Nat) :=
  s.control.instrs.head?.bind s.data.access?

def enter (label : String) : List Block → Option Listing
  | [] => none
  | b :: later => if b.label = label then some ⟨b.instrs, b.jump, later⟩ else enter label later

/-- One step: an instruction, the jump at the end of a block, or falling through to the next
block. -/
def step (f : Function) (host : Host) (s : State) : Progress State Ending :=
  match s.control with
  | ⟨i :: rest, jump, later⟩ =>
    match s.data.execute host i with
    | some d => .next ⟨⟨rest, jump, later⟩, d⟩
    | none => .done .fault
  | ⟨[], none, b :: later⟩ => .next ⟨⟨b.instrs, b.jump, later⟩, s.data⟩
  | ⟨[], none, []⟩ => .done .fault
  | ⟨[], some (.jnz cond ifNonZero ifZero), _⟩ =>
    match s.data.operand .word cond with
    | none => .done .fault
    | some v =>
      match enter (if v = 0 then ifZero else ifNonZero) f.blocks with
      | some control => .next ⟨control, s.data⟩
      | none => .done .fault
  | ⟨[], some (.ret value), _⟩ =>
    match f.returnType, value.bind (s.data.operand .word) with
    | some .word, some v => .done (.returned (v.setWidth 32) s.data.output s.data.input)
    | _, _ => .done .fault

/-- The start of a function: no temporary has a value and nothing is allocated. -/
def Function.start (f : Function) (input : List Byte) : State :=
  ⟨⟨[], none, f.blocks⟩, ⟨fun _ => none, fun _ => none, input, []⟩⟩

def Module.main? (m : Module) : Option Function :=
  m.functions.find? fun f => f.exported && f.name = "main"

/-- The run of a module ends with `ending`. -/
def Module.Ends (m : Module) (host : Host) (input : List Byte) (ending : Ending) : Prop :=
  ∃ f, m.main? = some f ∧ TapeCompiler.Ends (step f host) (f.start input) ending

end TapeCompiler.Qbe
