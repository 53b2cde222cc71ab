import TapeCompiler.Proofs.LoweringSoundness

/-! # Byte cells and word cells

At stride 1 a cell is a byte, at stride 8 a word of four bytes.  A program cannot tell the two apart
as long as no addition or subtraction gives more than a byte can hold.

* `Qbe.Module.StaysInByte`: what that means for a run of a module.
* `Interpreter.StaysInByte`: the same for the interpreter.  `staysInByte_start` leads from the first
  to the second, since every change that the interpreter comes to is an instruction of the module.
* `Store.Alike`: a tape of bytes and a tape of wider cells that hold the same numbers.
* `width_simulation`: interpreters on such tapes go in step.
* `strides_agree`: so modules for the two strides end alike.

Reading a byte replaces the lowest byte of a cell only.  It keeps the tapes alike because the other
bytes of the wider cell are zero before and after.
-/

namespace TapeCompiler

/-! ## Results that fit in a byte -/

namespace Qbe

/-- An operand of a word operation as an integer.  A constant is taken as it is written. -/
def Data.integer? (d : Data) : Value → Option Int
  | .const (.integer n) => some n
  | v => (d.operand .word v).map fun x => (x.toNat : Int)

/-- What the addition or subtraction of words that comes next gives when nothing is wrapped around. -/
def Data.result? (d : Data) : Instr → Option Int
  | .assign _ .word (.add v w) => do
    let x ← d.integer? v
    let y ← d.integer? w
    some (x + y)
  | .assign _ .word (.sub v w) => do
    let x ← d.integer? v
    let y ← d.integer? w
    some (x - y)
  | _ => none

def State.result? (s : State) : Option Int := s.control.instrs.head?.bind s.data.result?

/-- No addition or subtraction of words in the run has a result that needs more than a byte. -/
def Module.StaysInByte (m : Module) (host : Host) (input : List Byte) : Prop :=
  ∀ f s r, m.main? = some f → Reachable (step f host) (f.start input) s → s.result? = some r →
    0 ≤ r ∧ r < 256

def State.inByte (s : State) : Bool := s.result?.all fun r => decide (0 ≤ r ∧ r < 256)

/-- Of a run that ends it can be found out by running. -/
theorem Module.staysInByte_of_passes {m : Module} {f : Function} {host : Host} {input : List Byte}
    {n : Nat} (hf : m.main? = some f) (h : passes (step f host) State.inByte n (f.start input)) :
    m.StaysInByte host input := by
  intro g s r hg hs hr
  rw [hf, Option.some.injEq] at hg
  subst hg
  have hcheck := check_of_passes h hs
  simpa [State.inByte, hr] using hcheck

end Qbe

namespace Interpreter

variable {α : Type} {size width : Nat}

def result? : Config α size width → Option Int
  | ⟨.counted .increment count _ :: _, s⟩ => count.index?.map fun n => s.cell.toNat + (n : Int)
  | ⟨.counted .decrement count _ :: _, s⟩ => count.index?.map fun n => s.cell.toNat - (n : Int)
  | _ => none

def StaysInByte (c : Config α size width) : Prop :=
  ∀ c' r, Reachable step c c' → result? c' = some r → 0 ≤ r ∧ r < 256

theorem StaysInByte.next {c c' : Config α size width} (h : StaysInByte c)
    (hstep : step c = .next c') : StaysInByte c' :=
  fun d r hd => h d r (hd.head hstep)

end Interpreter

/-! ## Tapes that hold the same numbers -/

/-- A tape of bytes and a tape of cells of some width hold the same numbers. -/
structure Store.Alike {size width : Nat} (s : Store size 8) (s' : Store size width) : Prop where
  cells : ∀ i, (s.cells i).toNat = (s'.cells i).toNat
  pointer : s.pointer = s'.pointer
  input : s.input = s'.input
  output : s.output = s'.output

namespace Store.Alike

variable {size width : Nat} {s : Store size 8} {s' : Store size width}

theorem start (nonempty : 0 < size) (input : List Byte) :
    Alike (.start nonempty input) (.start nonempty input : Store size width) :=
  ⟨fun _ => by simp [Store.start], rfl, rfl, rfl⟩

theorem cell (h : Alike s s') : s.cell.toNat = s'.cell.toNat := by
  rw [Store.cell, Store.cell, h.cells, h.pointer]

theorem cell_lt (h : Alike s s') : s'.cell.toNat < 256 := by
  rw [← h.cell]
  exact s.cell.isLt

theorem cell_eq_zero_iff (h : Alike s s') : s.cell = 0 ↔ s'.cell = 0 := by
  rw [← BitVec.toNat_inj, h.cell, ← BitVec.toNat_inj]
  simp

theorem ending (h : Alike s s') (status : BitVec 32) : s.ending status = s'.ending status := by
  rw [Store.ending, Store.ending, h.input, h.output]

theorem put (h : Alike s s') {v : BitVec 8} {v' : BitVec width} (hv : v.toNat = v'.toNat) :
    Alike (s.put v) (s'.put v') where
  cells := by
    intro i
    by_cases hi : i = s'.pointer
    · simp [Store.put, h.pointer, hi, hv]
    · simp [Store.put, h.pointer, hi, h.cells]
  pointer := h.pointer
  input := h.input
  output := h.output

theorem shift (h : Alike s s') (distance : Int) :
    Option.Rel Alike (s.shift distance) (s'.shift distance) := by
  obtain ⟨cells, pointer, input, output⟩ := s
  obtain ⟨cells', _, _, _⟩ := s'
  obtain ⟨hcells, rfl, rfl, rfl⟩ := h
  unfold Store.shift
  split
  · exact .some ⟨hcells, rfl, rfl, rfl⟩
  · exact .none

/-- A sum that fits in the width is not wrapped around. -/
theorem toNat_add_ofInt {w : Nat} (x : BitVec w) {amount : Int} (hlow : 0 ≤ x.toNat + amount)
    (hhigh : x.toNat + amount < ((2 ^ w : Nat) : Int)) :
    (x + BitVec.ofInt w amount).toNat = (x.toNat + amount).toNat := by
  have hsum : x + BitVec.ofInt w amount = BitVec.ofInt w (x.toNat + amount) := by
    rw [BitVec.ofInt_add, BitVec.ofInt_natCast, BitVec.ofNat_toNat, BitVec.setWidth_eq]
  rw [hsum, BitVec.toNat_ofInt, Int.emod_eq_of_lt hlow hhigh]

theorem change (h : Alike s s') (hwidth : 8 ≤ width) {amount : Int}
    (hlow : 0 ≤ s'.cell.toNat + amount) (hhigh : s'.cell.toNat + amount < 256) :
    Alike (s.change amount) (s'.change amount) := by
  have hfits : 2 ^ 8 ≤ 2 ^ width := Nat.pow_le_pow_right (by decide) hwidth
  apply h.put
  rw [toNat_add_ofInt s'.cell hlow (by omega), toNat_add_ofInt s.cell, h.cell]
  · rwa [h.cell]
  · rwa [h.cell]

theorem read (h : Alike s s') (hwidth : 8 ≤ width) : Alike s.read s'.read := by
  have hfits : 2 ^ 8 ≤ 2 ^ width := Nat.pow_le_pow_right (by decide) hwidth
  unfold Store.read
  rw [← h.input]
  cases hinput : s.input with
  | nil => exact h
  | cons b rest =>
    have hbyte : (withLowByte s.cell b).toNat = (withLowByte s'.cell b).toNat := by
      have hcell := h.cell_lt
      have hb := b.isLt
      have hquotient : s.cell.toNat / 256 = 0 ∧ s'.cell.toNat / 256 = 0 := by
        rw [h.cell]
        omega
      rw [withLowByte, withLowByte, hquotient.1, hquotient.2, BitVec.toNat_ofNat, BitVec.toNat_ofNat,
        Nat.mod_eq_of_lt (by omega), Nat.mod_eq_of_lt (by omega)]
    have hput := h.put hbyte
    exact ⟨hput.cells, hput.pointer, rfl, hput.output⟩

theorem write (h : Alike s s') : Alike s.write s'.write where
  cells := h.cells
  pointer := h.pointer
  input := h.input
  output := by
    have hbyte : s.cell.setWidth 8 = s'.cell.setWidth 8 := by
      apply BitVec.eq_of_toNat_eq
      rw [BitVec.toNat_setWidth, BitVec.toNat_setWidth, h.cell]
    rw [Store.write, Store.write, h.output, hbyte]

end Store.Alike

/-! ## Interpreters in step -/

namespace Interpreter

variable {α : Type} {size width : Nat}

/-- The same statements on tapes that hold the same numbers, where everything that is still to come
stays in a byte. -/
structure Alike (a : Config α size 8) (b : Config α size width) : Prop where
  pending : a.pending = b.pending
  store : Store.Alike a.store b.store
  stays : StaysInByte b

theorem act_alike {command : Counted} {count : Number} {n : Nat} {note : α}
    {rest : List (Statement α)} {s : Store size 8} {s' : Store size width} (hwidth : 8 ≤ width)
    (hcount : count.index? = some n) (h : Store.Alike s s')
    (hstays : StaysInByte ⟨.counted command count note :: rest, s'⟩) :
    Option.Rel Store.Alike (s.act command n) (s'.act command n) := by
  have hfits := fun r => hstays _ r (.refl step _)
  cases command with
  | moveLeft => exact h.shift _
  | moveRight => exact h.shift _
  | increment =>
    obtain ⟨hlow, hhigh⟩ := hfits (s'.cell.toNat + (n : Int)) (by simp [result?, hcount])
    exact .some (h.change hwidth hlow hhigh)
  | decrement =>
    obtain ⟨hlow, hhigh⟩ := hfits (s'.cell.toNat - (n : Int)) (by simp [result?, hcount])
    exact .some (h.change hwidth (by omega) (by omega))

theorem step_alike (hwidth : 8 ≤ width) {a : Config α size 8} {b : Config α size width}
    (h : Alike a b) : Progress.Agree Alike (step a) (step b) := by
  obtain ⟨pending, s⟩ := a
  obtain ⟨_, s'⟩ := b
  obtain ⟨rfl, hstore, hstays⟩ := h
  cases pending with
  | nil =>
    simp only [step, hstore.ending]
    exact .done
  | cons statement rest =>
    cases statement with
    | counted command count note =>
      cases hcount : count.index? with
      | none =>
        simp only [step, hcount]
        exact .done
      | some n =>
        have hact := act_alike hwidth hcount hstore hstays
        simp only [step, hcount]
        generalize s.act command n = outcome at hact
        generalize hs' : s'.act command n = outcome' at hact
        cases hact with
        | none =>
          rw [hstore.ending]
          exact .done
        | @some t t' hstore' =>
          have hnext : step ⟨.counted command count note :: rest, s'⟩ = .next ⟨rest, t'⟩ := by
            simp only [step, hcount, hs']
          exact .next ⟨rfl, hstore', hstays.next hnext⟩
    | read note => exact .next ⟨rfl, hstore.read hwidth, hstays.next rfl⟩
    | write note => exact .next ⟨rfl, hstore.write, hstays.next rfl⟩
    | loop body note =>
      by_cases hcell : s'.cell = 0
      · have hnext : step ⟨.loop body note :: rest, s'⟩ = .next ⟨rest, s'⟩ := by
          rw [step, if_pos hcell]
        rw [hnext, step, if_pos (hstore.cell_eq_zero_iff.2 hcell)]
        exact .next ⟨rfl, hstore, hstays.next hnext⟩
      · have hnext : step ⟨.loop body note :: rest, s'⟩ =
            .next ⟨body ++ .loop body note :: rest, s'⟩ := by rw [step, if_neg hcell]
        rw [hnext, step, if_neg (hstore.cell_eq_zero_iff.not.2 hcell)]
        exact .next ⟨rfl, hstore, hstays.next hnext⟩

/-- The first interpreter does in each of its steps what the second does. -/
theorem width_simulation (hwidth : 8 ≤ width) :
    Simulation step step (fun _ => True)
      (Alike : Config α size 8 → Config α size width → Prop) :=
  fun _ _ h => ⟨_, .last trivial rfl, step_alike hwidth h⟩

end Interpreter

/-! ## Modules -/

namespace Lowering

open Qbe (Data Host Item State listingOf)

variable {α : Type} {layout : Tape} {host : Host} {program : List (Statement α)}

/-- Behind its load, a change is about to give the result that the interpreter is about to give. -/
theorem reaches_change {s : Store layout.size layout.stride.width} {d : Data} {t n : Nat}
    {operation : Qbe.Value → Qbe.Value → Qbe.Operation} {rest : List Item} {r : Int}
    (h : Represents layout host s d)
    (hresult : ∀ (d : Data) v w, d.integer? v = some (s.cell.toNat : Int) →
      d.integer? w = some (n : Int) →
        d.result? (.assign (temp (t + 1)) .word (operation v w)) = some r) :
    ∃ state, Reachable (Qbe.step (mainFunction layout program) host)
        ⟨listingOf (change operation layout (.ofNat n) t ++ rest), d⟩ state ∧
      state.result? = some r := by
  refine ⟨_, .head (step_instr (execute_load h t)) (.refl _ _), hresult _ _ _ ?_ rfl⟩
  have hcell : (d.set ("v" ++ Number.natText t) (cellScalar s)).integer? (temp t) =
      ((cellScalar s).as? .word).map fun x => (x.toNat : Int) := by
    rw [← operand_temp d t]
    rfl
  rw [hcell, Qbe.Scalar.as?, Option.map_some, toNat_wrap_cell]

theorem reaches_result {c : Interpreter.Config α layout.size layout.stride.width} {state : State}
    {r : Int} (h : Related layout host program c state) (hr : Interpreter.result? c = some r) :
    ∃ state', Reachable (Qbe.step (mainFunction layout program) host) state state' ∧
      state'.result? = some r := by
  cases h with
  | intro resumes hd hcounts =>
    cases resumes with
    | done => cases hr
    | again _ _ => cases hr
    | @next t l statement pending rest _ _ =>
      cases statement with
      | read note => cases hr
      | write note => cases hr
      | loop loopBody note => cases hr
      | counted command count note =>
        simp only [Statement.countsSafeAll, Statement.countsSafe, Bool.and_eq_true] at hcounts
        obtain ⟨n, rfl, _, _⟩ := Number.isCount_iff.1 hcounts.1
        cases command with
        | moveLeft => cases hr
        | moveRight => cases hr
        | increment =>
          cases hr
          exact reaches_change hd fun _ _ _ hv hw => by simp [Data.result?, hv, hw]
        | decrement =>
          cases hr
          exact reaches_change hd fun _ _ _ hv hw => by simp [Data.result?, hv, hw]

theorem staysInByte_start (accepted : layout.Accepted) (hcounts : Statement.countsSafeAll program)
    {input : List Byte} (h : Qbe.Module.StaysInByte ⟨[mainFunction layout program]⟩ host input) :
    Interpreter.StaysInByte (Interpreter.start program accepted.size_pos input :
      Interpreter.Config α layout.size layout.stride.width) := by
  intro c r hc hr
  obtain ⟨state, hprologue, hrelated⟩ := exists_related_start accepted hcounts host input
  obtain ⟨state', hreach, hrelated'⟩ := (lowering_simulation accepted).reaches hrelated hc
  obtain ⟨state'', hreach', hresult⟩ := reaches_result hrelated' hr
  exact h _ _ r (main_eq layout program)
    (hprologue.reachable.trans (hreach.trans hreach')) hresult

/-- A program whose additions and subtractions on word cells all give results from 0 to 255 does the
same on byte cells: its modules for the two strides end with the same status, the same output and the
same rest of the input, or neither of them ends. -/
theorem strides_agree {narrow wide : TapeOptions} {cells : Number}
    (hnarrow : narrow.resolve = .ok ⟨cells, .one⟩) (hwide : wide.resolve = .ok ⟨cells, .eight⟩)
    {program : List (Statement α)} (hcounts : Statement.countsSafeAll program) :
    ∃ bytes words, lower narrow program = .ok bytes ∧ lower wide program = .ok words ∧
      ∀ (host host' : Host) (input : List Byte), words.StaysInByte host' input →
        ∀ ending, bytes.Ends host input ending ↔ words.Ends host' input ending := by
  have hbytes := TapeOptions.resolve_accepted hnarrow
  have hwords := TapeOptions.resolve_accepted hwide
  refine ⟨_, _, lower_eq_ok hnarrow program, lower_eq_ok hwide program,
    fun host host' input hstays ending => ?_⟩
  have hstart : Interpreter.Alike (Interpreter.start program hbytes.size_pos input)
      (Interpreter.start program hwords.size_pos input :
        Interpreter.Config α (Tape.size ⟨cells, .one⟩) 32) :=
    ⟨rfl, .start _ input, staysInByte_start hwords hcounts hstays⟩
  rw [ends_module_iff hbytes hcounts, ends_module_iff hwords hcounts]
  exact (Interpreter.width_simulation (by decide)).ends_iff hstart

/-- Reads a byte and writes its double. -/
def doubling : List (Statement Unit) :=
  [.read (),
    .loop [.counted .decrement (.integer 1) (), .counted .moveRight (.integer 1) (),
      .counted .increment (.integer 2) (), .counted .moveLeft (.integer 1) ()] (),
    .counted .moveRight (.integer 1) (), .write ()]

/-- Doubling 2 stays in a byte, so with byte cells it also gives 4. -/
theorem strides_agree_doubling :
    TapeOptions.resolve ⟨some (.integer 2), none⟩ = .ok ⟨.integer 2, .one⟩ ∧
      TapeOptions.resolve ⟨some (.integer 2), some (.integer 8)⟩ = .ok ⟨.integer 2, .eight⟩ ∧
      Statement.countsSafeAll doubling ∧
      ∃ bytes words, lower ⟨some (.integer 2), none⟩ doubling = .ok bytes ∧
        lower ⟨some (.integer 2), some (.integer 8)⟩ doubling = .ok words ∧
        words.StaysInByte default [2] ∧
        ∀ host, bytes.Ends host [2] (.returned 0 [4] []) := by
  have hnarrow : TapeOptions.resolve ⟨some (.integer 2), none⟩ = .ok ⟨.integer 2, .one⟩ := by decide
  have hwide : TapeOptions.resolve ⟨some (.integer 2), some (.integer 8)⟩ =
      .ok ⟨.integer 2, .eight⟩ := by decide
  have hcounts : Statement.countsSafeAll doubling := by decide
  have hstays : Qbe.Module.StaysInByte ⟨[mainFunction ⟨.integer 2, .eight⟩ doubling]⟩ default [2] :=
    Qbe.Module.staysInByte_of_passes (n := 100) (main_eq _ _) rfl
  have hrun : Ends Interpreter.step
      (Interpreter.start doubling Nat.two_pos [2] : Interpreter.Config Unit 2 32)
      (.returned 0 [4] []) := ⟨_, ⟨14, rfl⟩, rfl⟩
  have hwords : Qbe.Module.Ends ⟨[mainFunction ⟨.integer 2, .eight⟩ doubling]⟩ default [2]
      (.returned 0 [4] []) :=
    (ends_module_iff (TapeOptions.resolve_accepted hwide) hcounts default _ _).2 hrun
  obtain ⟨bytes, words, hbytes, hlower, hagree⟩ := strides_agree hnarrow hwide hcounts
  refine ⟨hnarrow, hwide, hcounts, bytes, words, hbytes, hlower, ?_, fun host => ?_⟩
  · cases hlower
    exact hstays
  · cases hlower
    exact (hagree host default [2] hstays _).2 hwords

end Lowering

end TapeCompiler
