import Mathlib.Algebra.Group.Int.Defs
import TapeCompiler.Lowering
import TapeCompiler.Proofs.Interpreter
import TapeCompiler.Proofs.Labels
import TapeCompiler.Proofs.Layout
import TapeCompiler.Proofs.Memory

/-! # A store in memory

How the memory and the temporaries of a running function stand for the tape of the interpreter, and
what each instruction that a statement is lowered to does to them.

* `Represents`: the pointer is a cell's address and every cell is in memory, lowest byte first.  It
  is an invariant of the program points between statements, and of those inside one where the
  pointer has not just been moved.
* `OnTape`: the bytes of an access belong to the cells of the tape.
* `execute_load`, `execute_store`, `execute_read`, `execute_write`, `execute_offset` and
  `execute_above`: one lemma for each instruction.
-/

namespace TapeCompiler

namespace Qbe.Data

variable {host : Host} {d : Data} {type : BaseType}

theorem temps_set_self (d : Data) (name : String) (v : Scalar) :
    (d.set name v).temps name = some v :=
  Function.update_self name _ _

theorem temps_set_of_ne (d : Data) {name other : String} (v : Scalar) (h : other ≠ name) :
    (d.set name v).temps other = d.temps other :=
  Function.update_of_ne h _ _

theorem evaluate_add {v w : Value} {x y : BitVec 64} (hx : d.operand type v = some x)
    (hy : d.operand type w = some y) :
    d.evaluate host type (.add v w) = some (type.wrap (x + y), d.memory) := by
  simp [evaluate, hx, hy]

theorem evaluate_sub {v w : Value} {x y : BitVec 64} (hx : d.operand type v = some x)
    (hy : d.operand type w = some y) :
    d.evaluate host type (.sub v w) = some (type.wrap (x - y), d.memory) := by
  simp [evaluate, hx, hy]

theorem evaluate_above {compared : BaseType} {v w : Value} {x y : BitVec 64}
    (hx : d.operand compared v = some x) (hy : d.operand compared w = some y) :
    d.evaluate host type (.above compared v w) = some (if y < x then 1 else 0, d.memory) := by
  simp [evaluate, hx, hy]

theorem extend_word (op : LoadOp) (v : Nat) : extend op .word v = BitVec.ofNat 64 v := by
  cases op <;> rfl

theorem execute_assign {name : String} {operation : Operation} {v : BitVec 64} {m : Memory}
    (h : d.evaluate host type operation = some (v, m)) :
    d.execute host (.assign (.temp name) type operation) =
      some ({ d with memory := m }.set name ⟨type, v⟩) := by
  simp [execute, h]

end Qbe.Data

namespace Lowering

open Qbe (Address Data Host Memory Scalar ofBytes toBytes)

variable {layout : Tape} {host : Host}

/-! ## Cells -/

/-- How many bytes of a cell are used. -/
def cellBytes (stride : Stride) : Nat := (loadOp stride).bytes

theorem storeOp_bytes (stride : Stride) : (storeOp stride).bytes = cellBytes stride := by
  cases stride <;> rfl

theorem cellBytes_le (stride : Stride) : cellBytes stride ≤ stride.bytes := by
  cases stride <;> decide

theorem cellBytes_eq_succ (stride : Stride) : ∃ n, cellBytes stride = n + 1 := by
  cases stride with
  | one => exact ⟨0, rfl⟩
  | eight => exact ⟨3, rfl⟩

theorem two_pow_width (stride : Stride) : 2 ^ stride.width = 256 ^ cellBytes stride := by
  cases stride <;> rfl

theorem width_le (stride : Stride) : stride.width ≤ 32 := by
  cases stride <;> decide

theorem ofBytes_cell {stride : Stride} (v : BitVec stride.width) :
    ofBytes (toBytes (cellBytes stride) v.toNat) = v.toNat := by
  rw [Qbe.ofBytes_toBytes, ← two_pow_width]
  exact Nat.mod_eq_of_lt v.isLt

/-- The first byte of the tape. -/
def base (layout : Tape) (host : Host) : Address :=
  host.place (2 * (layout.size * layout.stride.bytes))

/-- The first byte of a cell. -/
def cellAddress (layout : Tape) (host : Host) (i : Nat) : Address :=
  base layout host + BitVec.ofNat 64 (i * layout.stride.bytes)

theorem cell_disjoint (stride : Stride) {i j : Nat} (h : i ≠ j) :
    i * stride.bytes + cellBytes stride ≤ j * stride.bytes ∨
      j * stride.bytes + cellBytes stride ≤ i * stride.bytes := by
  have hbytes := cellBytes_le stride
  rcases Nat.lt_or_gt_of_ne h with hlt | hlt
  · left
    have hmul := Nat.mul_le_mul_right stride.bytes hlt
    rw [Nat.succ_mul] at hmul
    omega
  · right
    have hmul := Nat.mul_le_mul_right stride.bytes hlt
    rw [Nat.succ_mul] at hmul
    omega

theorem cell_within (layout : Tape) {i : Nat} (hi : i < layout.size) :
    i * layout.stride.bytes + cellBytes layout.stride ≤ layout.size * layout.stride.bytes := by
  have hbytes := cellBytes_le layout.stride
  have hmul := Nat.mul_le_mul_right layout.stride.bytes hi
  rw [Nat.succ_mul] at hmul
  omega

/-! ## The representation -/

/-- The whole region of the tape is allocated. -/
def Mapped (layout : Tape) (host : Host) (m : Memory) : Prop :=
  ∀ k < 2 * (layout.size * layout.stride.bytes), (m (base layout host + BitVec.ofNat 64 k)).isSome

structure Represents (layout : Tape) (host : Host) (s : Store layout.size layout.stride.width)
    (d : Data) : Prop where
  tape : d.temps "tape" = some ⟨.long, base layout host⟩
  pointer : d.temps "ptr" = some ⟨.long, cellAddress layout host s.pointer⟩
  cells : ∀ i : Fin layout.size,
    d.memory.read (cellAddress layout host i) (cellBytes layout.stride) =
      some (toBytes (cellBytes layout.stride) (s.cells i).toNat)
  mapped : Mapped layout host d.memory
  input : d.input = s.input
  output : d.output = s.output

/-- An access of `n` bytes at the pointer touches nothing but cells of the tape: its offset from the
first byte is a multiple of the stride, and its last byte lies below the limit of the tape, which
is half of the allocated region. -/
structure OnTape (layout : Tape) (host : Host) (d : Data) (a : Address) (n : Nat) : Prop where
  tape : d.temps "tape" = some ⟨.long, base layout host⟩
  pointer : d.temps "ptr" = some ⟨.long, a⟩
  aligned : layout.stride.bytes ∣ (a - base layout host).toNat
  within : (a - base layout host).toNat + n ≤ layout.size * layout.stride.bytes
  mapped : Mapped layout host d.memory

namespace Represents

variable {s : Store layout.size layout.stride.width} {d : Data}

theorem set_temp (h : Represents layout host s d) (t : Nat) (v : Scalar) :
    Represents layout host s (d.set ("v" ++ Number.natText t) v) where
  tape := by rw [d.temps_set_of_ne v (temp_ne_tape t).symm, h.tape]
  pointer := by rw [d.temps_set_of_ne v (temp_ne_ptr t).symm, h.pointer]
  cells := h.cells
  mapped := h.mapped
  input := h.input
  output := h.output

theorem onTape (h : Represents layout host s d) (accepted : layout.Accepted) {n : Nat}
    (hn : n ≤ cellBytes layout.stride) :
    OnTape layout host d (cellAddress layout host s.pointer) n := by
  have hwithin := cell_within layout s.pointer.isLt
  have hregion := accepted.region_lt
  have hoffset : (cellAddress layout host s.pointer - base layout host).toNat =
      s.pointer * layout.stride.bytes :=
    Memory.toNat_offset _ (by omega)
  refine ⟨h.tape, h.pointer, ?_, ?_, h.mapped⟩
  · rw [hoffset]
    exact Nat.dvd_mul_left _ _
  · rw [hoffset]
    omega

theorem overlay (h : Represents layout host s d) (accepted : layout.Accepted) {bytes : List Byte}
    (hlen : bytes.length ≤ cellBytes layout.stride) {v : BitVec layout.stride.width}
    (hcell : (d.memory.overlay (cellAddress layout host s.pointer) bytes).read
        (cellAddress layout host s.pointer) (cellBytes layout.stride) =
      some (toBytes (cellBytes layout.stride) v.toNat)) :
    Represents layout host (s.put v)
      { d with memory := d.memory.overlay (cellAddress layout host s.pointer) bytes } where
  tape := h.tape
  pointer := h.pointer
  cells := by
    intro i
    by_cases hi : i = s.pointer
    · subst hi
      simpa [Store.put] using hcell
    · -- The bytes of any other cell lie wholly before or behind those written.
      have hne : (i : Nat) ≠ s.pointer := fun heq => hi (Fin.ext heq)
      have hi' := cell_within layout i.isLt
      have hp' := cell_within layout s.pointer.isLt
      have hregion := accepted.region_lt
      have hdisjoint := cell_disjoint layout.stride hne
      have hsame : (s.put v).cells i = s.cells i := Function.update_of_ne hi _ _
      rw [hsame]
      exact Memory.read_overlay_of_disjoint (by omega) (by omega) (by omega) (by omega) (h.cells i)
  mapped := fun k hk => Memory.isSome_overlay (h.mapped k hk)
  input := h.input
  output := h.output

theorem write (h : Represents layout host s d) {bytes : List Byte}
    (hlen : bytes.length ≤ cellBytes layout.stride) :
    d.memory.write (cellAddress layout host s.pointer) bytes =
      some (d.memory.overlay (cellAddress layout host s.pointer) bytes) := by
  apply Memory.write_eq_some
  intro i hi
  have hwithin := cell_within layout s.pointer.isLt
  rw [cellAddress, Memory.offset_add]
  exact h.mapped _ (by omega)

end Represents

/-! ## Operands -/

theorem operand_ptr {d : Data} {a : Address} (h : d.temps "ptr" = some ⟨.long, a⟩) :
    d.operand .long ptr = some a := by
  simp [ptr, Data.operand, h, Scalar.as?]

theorem operand_tape {d : Data} {a : Address} (h : d.temps "tape" = some ⟨.long, a⟩) :
    d.operand .long tape = some a := by
  simp [tape, Data.operand, h, Scalar.as?]

theorem operand_const (d : Data) (type : Qbe.BaseType) (n : Nat) :
    d.operand type (.const (.ofNat n)) = some (type.wrap (BitVec.ofNat 64 n)) := by
  simp [Number.ofNat, Data.operand]

theorem operand_temp (d : Data) (t : Nat) (v : Scalar) (type : Qbe.BaseType) :
    (d.set ("v" ++ Number.natText t) v).operand type (temp t) = v.as? type := by
  simp [temp, Data.operand, Data.temps_set_self]

/-! ## Instructions -/

section Instructions

variable {s : Store layout.size layout.stride.width} {d : Data}

/-- The value of the current cell as a word. -/
def cellScalar (s : Store layout.size layout.stride.width) : Scalar :=
  ⟨.word, BitVec.ofNat 64 s.cell.toNat⟩

theorem execute_load (h : Represents layout host s d) (t : Nat) :
    d.execute host (.assign (temp t) .word (.load (loadOp layout.stride) ptr)) =
      some (d.set ("v" ++ Number.natText t) (cellScalar s)) := by
  have hread : d.memory.read (cellAddress layout host s.pointer) (loadOp layout.stride).bytes =
      some (toBytes (cellBytes layout.stride) s.cell.toNat) := h.cells s.pointer
  apply Data.execute_assign
  simp only [Data.evaluate, operand_ptr h.pointer, hread, Option.bind_eq_bind, Option.bind_some,
    Data.extend_word, ofBytes_cell]

theorem onTape_ptr (h : Represents layout host s d) (accepted : layout.Accepted) {n : Nat}
    (hn : n ≤ cellBytes layout.stride) :
    ∀ a m, (d.operand .long ptr).map (·, n) = some (a, m) → OnTape layout host d a m := by
  intro a m haccess
  simp only [operand_ptr h.pointer, Option.map_some, Option.some.injEq, Prod.mk.injEq] at haccess
  obtain ⟨rfl, rfl⟩ := haccess
  exact h.onTape accepted hn

theorem onTape_load (h : Represents layout host s d) (accepted : layout.Accepted) (t : Nat) :
    ∀ a n, d.access? (.assign (temp t) .word (.load (loadOp layout.stride) ptr)) = some (a, n) →
      OnTape layout host d a n :=
  onTape_ptr h accepted (Nat.le_refl _)

theorem onTape_store (h : Represents layout host s d) (accepted : layout.Accepted)
    (v : Qbe.Value) :
    ∀ a n, d.access? (.store (storeOp layout.stride) v ptr) = some (a, n) →
      OnTape layout host d a n :=
  onTape_ptr h accepted (Nat.le_of_eq (storeOp_bytes layout.stride))

theorem toNat_wrap_cell (s : Store layout.size layout.stride.width) :
    (Qbe.BaseType.word.wrap (cellScalar s).bits).toNat = s.cell.toNat := by
  have hlt : s.cell.toNat < 2 ^ 32 :=
    Nat.lt_of_lt_of_le s.cell.isLt (Nat.pow_le_pow_right (by decide) (width_le layout.stride))
  simp only [cellScalar, Qbe.BaseType.wrap, BitVec.toNat_setWidth, BitVec.toNat_ofNat]
  omega

/-- A loop sees a zero word exactly when its cell is zero. -/
theorem wrap_cell_eq_zero (s : Store layout.size layout.stride.width) :
    Qbe.BaseType.word.wrap (cellScalar s).bits = 0 ↔ s.cell = 0 := by
  rw [← BitVec.toNat_inj, toNat_wrap_cell, ← BitVec.toNat_inj]
  simp

/-! ### Arithmetic on cells -/

theorem setWidth_wrap {w : Nat} (hw : w ≤ 32) (v : BitVec 64) :
    (Qbe.BaseType.word.wrap v).setWidth w = v.setWidth w := by
  apply BitVec.eq_of_toNat_eq
  have hdvd : 2 ^ w ∣ 2 ^ 32 := Nat.pow_dvd_pow 2 hw
  simp only [Qbe.BaseType.wrap, BitVec.toNat_setWidth]
  rw [Nat.mod_eq_of_lt (a := v.toNat % 2 ^ 32) (by omega), Nat.mod_mod_of_dvd _ hdvd]

theorem setWidth_word {w : Nat} (hw : w ≤ 32) (c : BitVec w) :
    (Qbe.BaseType.word.wrap (BitVec.ofNat 64 c.toNat)).setWidth w = c := by
  rw [setWidth_wrap hw, BitVec.setWidth_ofNat_of_le (by omega), BitVec.ofNat_toNat,
    BitVec.setWidth_eq]

theorem setWidth_amount {w : Nat} (hw : w ≤ 32) (n : Nat) :
    (Qbe.BaseType.word.wrap (BitVec.ofNat 64 n)).setWidth w = BitVec.ofInt w n := by
  rw [setWidth_wrap hw, BitVec.setWidth_ofNat_of_le (by omega), BitVec.ofInt_natCast]

/-- Adding to a cell as a word and keeping its low bits is adding to the cell. -/
theorem word_add {w : Nat} (hw : w ≤ 32) (c : BitVec w) (n : Nat) :
    (Qbe.BaseType.word.wrap (Qbe.BaseType.word.wrap (BitVec.ofNat 64 c.toNat) +
        Qbe.BaseType.word.wrap (BitVec.ofNat 64 n))).setWidth w = c + BitVec.ofInt w n := by
  rw [setWidth_wrap hw, BitVec.setWidth_add _ _ (by omega), setWidth_word hw, setWidth_amount hw]

theorem word_sub {w : Nat} (hw : w ≤ 32) (c : BitVec w) (n : Nat) :
    (Qbe.BaseType.word.wrap (Qbe.BaseType.word.wrap (BitVec.ofNat 64 c.toNat) -
        Qbe.BaseType.word.wrap (BitVec.ofNat 64 n))).setWidth w = c + BitVec.ofInt w (-n) := by
  have h64 : w ≤ 64 := by omega
  rw [setWidth_wrap hw, BitVec.sub_eq_add_neg, BitVec.setWidth_add _ _ h64,
    BitVec.setWidth_neg_of_le h64, setWidth_word hw, setWidth_amount hw, BitVec.ofInt_neg]

/-- Storing a word whose low bits are `c` puts `c` in the current cell. -/
theorem execute_store (h : Represents layout host s d) (accepted : layout.Accepted) {t : Nat}
    {v : BitVec 64} (htemp : d.operand .word (temp t) = some v) {c : BitVec layout.stride.width}
    (hc : v.setWidth layout.stride.width = c) :
    ∃ d', d.execute host (.store (storeOp layout.stride) (temp t) ptr) = some d' ∧
      Represents layout host (s.put c) d' := by
  have hbytes : toBytes (cellBytes layout.stride) v.toNat =
      toBytes (cellBytes layout.stride) c.toNat := by
    apply Qbe.toBytes_congr
    rw [← hc, BitVec.toNat_setWidth, two_pow_width, Nat.mod_mod]
  have hlen : (toBytes (cellBytes layout.stride) c.toNat).length ≤ cellBytes layout.stride :=
    Nat.le_of_eq (Qbe.length_toBytes _ _)
  have hwithin := cell_within layout s.pointer.isLt
  have hregion := accepted.region_lt
  refine ⟨_, ?_, h.overlay accepted hlen (v := c) ?_⟩
  · simp only [Data.execute, htemp, operand_ptr h.pointer, storeOp_bytes, hbytes, h.write hlen,
      Option.bind_eq_bind, Option.bind_some]
  · have hfit : s.pointer * layout.stride.bytes +
        (toBytes (cellBytes layout.stride) c.toNat).length ≤ 2 ^ 64 := by
      rw [Qbe.length_toBytes]
      omega
    have hself := d.memory.read_overlay_self (base layout host) (by omega) hfit
    rwa [Qbe.length_toBytes] at hself

/-! ### Input and output -/

theorem arguments_at {a : Address} (h : d.operand .long ptr = some a) (descriptor : Nat) :
    d.arguments [⟨.word, const descriptor⟩, ⟨.long, ptr⟩, ⟨.long, const 1⟩] =
      some [⟨.word, Qbe.BaseType.word.wrap (BitVec.ofNat 64 descriptor)⟩, ⟨.long, a⟩,
        ⟨.long, 1⟩] := by
  simp only [Data.arguments, const, operand_const, h, Option.bind_eq_bind, Option.bind_some]
  rfl

theorem arguments_transfer (h : Represents layout host s d) (descriptor : Nat) :
    d.arguments [⟨.word, const descriptor⟩, ⟨.long, ptr⟩, ⟨.long, const 1⟩] =
      some [⟨.word, Qbe.BaseType.word.wrap (BitVec.ofNat 64 descriptor)⟩,
        ⟨.long, cellAddress layout host s.pointer⟩, ⟨.long, 1⟩] :=
  arguments_at (operand_ptr h.pointer) descriptor

theorem onTape_transfer (h : Represents layout host s d) (accepted : layout.Accepted)
    (target : String) (descriptor : Nat) :
    ∀ a n, d.access?
        (.call target [⟨.word, const descriptor⟩, ⟨.long, ptr⟩, ⟨.long, const 1⟩]) = some (a, n) →
      OnTape layout host d a n := by
  intro a n haccess
  simp only [Data.access?, arguments_transfer h] at haccess
  split at haccess
  · simp only [Option.some.injEq, Prod.mk.injEq] at haccess
    obtain ⟨rfl, rfl⟩ := haccess
    obtain ⟨k, hk⟩ := cellBytes_eq_succ layout.stride
    exact h.onTape accepted (by rw [hk]; exact Nat.le_add_left 1 k)
  · cases haccess

/-- The first byte of the current cell can be replaced on its own. -/
theorem Represents.putLowByte (h : Represents layout host s d) (accepted : layout.Accepted)
    (b : Byte) :
    Represents layout host (s.put (Store.withLowByte s.cell b))
      { d with memory := d.memory.overlay (cellAddress layout host s.pointer) [b] } := by
  obtain ⟨n, hn⟩ := cellBytes_eq_succ layout.stride
  have hwithin := cell_within layout s.pointer.isLt
  have hregion := accepted.region_lt
  apply h.overlay accepted (by simp [hn])
  have hcell := h.cells s.pointer
  -- Only the first byte of the cell changes, so the others still hold the same digits.
  have hvalue : toBytes (n + 1) (Store.withLowByte s.cell b).toNat =
      b :: toBytes n (s.cell.toNat / 256) := by
    rw [Store.withLowByte, BitVec.toNat_ofNat, two_pow_width, hn, Qbe.toBytes_mod,
      Qbe.toBytes_withLowByte]
  rw [hn] at hcell ⊢
  rw [hvalue]
  exact Memory.read_overlay_first (by omega) hcell

theorem execute_read (h : Represents layout host s d) (accepted : layout.Accepted) :
    ∃ d', d.execute host (.call "read" [⟨.word, const 0⟩, ⟨.long, ptr⟩, ⟨.long, const 1⟩]) =
        some d' ∧ Represents layout host s.read d' := by
  obtain ⟨n, hn⟩ := cellBytes_eq_succ layout.stride
  have hlen : (d.input.take 1).length ≤ cellBytes layout.stride := by
    rw [List.length_take]
    omega
  refine ⟨{ d with
    memory := d.memory.overlay (cellAddress layout host s.pointer) (d.input.take 1)
    input := d.input.drop 1 }, ?_, ?_⟩
  · simp only [Data.execute, arguments_transfer h, Option.bind_eq_bind, Option.bind_some, Data.call]
    rw [if_pos (by decide)]
    have hone : (1 : BitVec 64).toNat = 1 := rfl
    simp only [hone, h.write hlen, Option.bind_some]
  · cases hinput : s.input with
    | nil =>
      -- At the end of the input the call writes no byte.
      have hread : s.read = s := by simp only [Store.read, hinput]
      rw [hread, h.input, hinput]
      have hsame := Memory.overlay_nil d.memory (cellAddress layout host s.pointer)
      refine ⟨h.tape, h.pointer, ?_, ?_, hinput.symm, h.output⟩
      · simpa only [List.take_nil, hsame] using h.cells
      · simpa only [List.take_nil, hsame] using h.mapped
    | cons b rest =>
      have hput := h.putLowByte accepted b
      simp only [Store.read, hinput, h.input]
      exact ⟨hput.tape, hput.pointer, hput.cells, hput.mapped, rfl, hput.output⟩

theorem execute_write (h : Represents layout host s d) :
    ∃ d', d.execute host (.call "write" [⟨.word, const 1⟩, ⟨.long, ptr⟩, ⟨.long, const 1⟩]) =
        some d' ∧ Represents layout host s.write d' := by
  obtain ⟨n, hn⟩ := cellBytes_eq_succ layout.stride
  -- Whatever the width of a cell, its lowest byte comes first.
  have hlow : d.memory.read (cellAddress layout host s.pointer) 1 = some [s.cell.setWidth 8] := by
    have hcell := h.cells s.pointer
    rw [hn, toBytes, Memory.read_cons] at hcell
    rw [Memory.read_cons, hcell.1]
    exact ⟨by rw [BitVec.ofNat_toNat]; rfl, rfl⟩
  refine ⟨{ d with output := d.output ++ [s.cell.setWidth 8] }, ?_, ?_⟩
  · simp only [Data.execute, arguments_transfer h, Option.bind_eq_bind, Option.bind_some, Data.call]
    rw [if_neg (by decide), if_pos (by decide)]
    have hone : (1 : BitVec 64).toNat = 1 := rfl
    simp only [hone, hlow, Option.bind_some]
  · exact ⟨h.tape, h.pointer, h.cells, h.mapped, h.input, by simp only [Store.write, h.output]⟩

/-! ### Moves and their guard

Behind a move the pointer may be anywhere, so its place is an integer offset from the first byte of
the tape, negative when it lies below. -/

def offsetAddress (layout : Tape) (host : Host) (x : Int) : Address :=
  base layout host + BitVec.ofInt 64 x

theorem cellAddress_eq (i : Nat) :
    cellAddress layout host i = offsetAddress layout host (i * layout.stride.bytes) := by
  rw [cellAddress, offsetAddress, ← Int.natCast_mul, BitVec.ofInt_natCast]

theorem execute_moveRight (h : Represents layout host s d) (n : Nat) :
    d.execute host (.assign ptr .long (.add ptr (.const (.ofNat (n * layout.stride.bytes))))) =
      some (d.set "ptr"
        ⟨.long, offsetAddress layout host ((s.pointer + n) * layout.stride.bytes)⟩) := by
  have hsum : cellAddress layout host s.pointer + BitVec.ofNat 64 (n * layout.stride.bytes) =
      offsetAddress layout host ((s.pointer + n) * layout.stride.bytes) := by
    rw [cellAddress_eq, offsetAddress, BitVec.add_assoc, ← BitVec.ofInt_natCast, ← BitVec.ofInt_add,
      Int.natCast_mul, ← Int.add_mul, offsetAddress]
  rw [← hsum]
  exact Data.execute_assign (Data.evaluate_add (operand_ptr h.pointer) (operand_const d .long _))

theorem execute_moveLeft (h : Represents layout host s d) (n : Nat) :
    d.execute host (.assign ptr .long (.sub ptr (.const (.ofNat (n * layout.stride.bytes))))) =
      some (d.set "ptr"
        ⟨.long, offsetAddress layout host ((s.pointer + -n) * layout.stride.bytes)⟩) := by
  have hsum : cellAddress layout host s.pointer - BitVec.ofNat 64 (n * layout.stride.bytes) =
      offsetAddress layout host ((s.pointer + -n) * layout.stride.bytes) := by
    rw [cellAddress_eq, offsetAddress, BitVec.sub_eq_add_neg, BitVec.add_assoc,
      ← BitVec.ofInt_natCast, ← BitVec.ofInt_neg, ← BitVec.ofInt_add, Int.natCast_mul,
      ← Int.neg_mul, ← Int.add_mul, offsetAddress]
  rw [← hsum]
  exact Data.execute_assign (Data.evaluate_sub (operand_ptr h.pointer) (operand_const d .long _))

theorem execute_offset {x : Int} (htape : d.temps "tape" = some ⟨.long, base layout host⟩)
    (hptr : d.temps "ptr" = some ⟨.long, offsetAddress layout host x⟩) (t : Nat) :
    d.execute host (.assign (temp t) .long (.sub ptr tape)) =
      some (d.set ("v" ++ Number.natText t) ⟨.long, BitVec.ofInt 64 x⟩) := by
  have hdifference : offsetAddress layout host x - base layout host = BitVec.ofInt 64 x := by
    rw [offsetAddress, BitVec.add_comm, BitVec.add_sub_cancel]
  rw [← hdifference]
  exact Data.execute_assign (Data.evaluate_sub (operand_ptr hptr) (operand_tape htape))

theorem execute_above (d : Data) (t limit : Nat) (y : BitVec 64) :
    (d.set ("v" ++ Number.natText t) ⟨.long, y⟩).execute host
        (.assign (temp (t + 1)) .word (.above .long (.const (.ofNat limit)) (temp t))) =
      some ((d.set ("v" ++ Number.natText t) ⟨.long, y⟩).set ("v" ++ Number.natText (t + 1))
        ⟨.word, if y < BitVec.ofNat 64 limit then 1 else 0⟩) :=
  Data.execute_assign (Data.evaluate_above (operand_const _ .long limit) (operand_temp d t _ .long))

/-- An offset passes the guard exactly when it is on the tape.  One below the tape wraps around to
a value far above the limit. -/
theorem ofInt_lt_iff {x : Int} {limit : Nat} (hlimit : limit < 2 ^ 60) (hlow : -2 ^ 60 < x)
    (hhigh : x < 2 ^ 60) : BitVec.ofInt 64 x < BitVec.ofNat 64 limit ↔ 0 ≤ x ∧ x < limit := by
  rw [BitVec.lt_def, BitVec.toNat_ofInt, BitVec.toNat_ofNat]
  omega

theorem Represents.shift (h : Represents layout host s d) {distance : Int}
    {s' : Store layout.size layout.stride.width} (hs : s.shift distance = some s') :
    Represents layout host s' (d.set "ptr"
      ⟨.long, offsetAddress layout host ((s.pointer + distance) * layout.stride.bytes)⟩) := by
  unfold Store.shift at hs
  split at hs
  · rename_i hbounds
    cases hs
    have hcell : cellAddress layout host (s.pointer + distance).toNat =
        offsetAddress layout host ((s.pointer + distance) * layout.stride.bytes) := by
      rw [cellAddress_eq, Int.toNat_of_nonneg hbounds.1]
    constructor
    · rw [d.temps_set_of_ne _ (by decide), h.tape]
    · rw [d.temps_set_self, hcell]
    · exact h.cells
    · exact h.mapped
    · exact h.input
    · exact h.output
  · cases hs

/-- A move leaves the tape exactly when its offset in bytes does. -/
theorem shift_isSome_iff (s : Store layout.size layout.stride.width) (distance : Int) :
    (s.shift distance).isSome ↔
      0 ≤ (s.pointer + distance) * layout.stride.bytes ∧
        (s.pointer + distance) * layout.stride.bytes <
          ((layout.size * layout.stride.bytes : Nat) : Int) := by
  have hsome : (s.shift distance).isSome ↔
      0 ≤ s.pointer + distance ∧ s.pointer + distance < layout.size := by
    unfold Store.shift
    split <;> simp_all
  -- The stride is a positive factor on both sides.
  rw [hsome, Int.natCast_mul]
  generalize s.pointer + distance = x
  cases layout.stride with
  | one => simp only [Stride.bytes]; omega
  | eight => simp only [Stride.bytes]; omega

theorem offset_bounds (accepted : layout.Accepted) (p : Fin layout.size) {distance : Int}
    (hdistance : distance.natAbs < Number.safeLimit) :
    -2 ^ 60 < (p + distance) * layout.stride.bytes ∧
      (p + distance) * layout.stride.bytes < 2 ^ 60 := by
  have hp := p.isLt
  have hsize := accepted.size_lt
  unfold Number.safeLimit at hdistance hsize
  cases layout.stride with
  | one => simp only [Stride.bytes]; omega
  | eight => simp only [Stride.bytes]; omega

end Instructions

end Lowering

end TapeCompiler
