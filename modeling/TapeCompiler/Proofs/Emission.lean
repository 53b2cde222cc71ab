import TapeCompiler.Proofs.ControlFlow

/-! # Emitting with counters

`Lowering.statements` works out beforehand how many numbers a statement uses.  Here the items of a
statement are added to a function one at a time, and each number is drawn from a counter at the moment
when it is needed.  Both ways give the same items.

* `Context`: a function, the next free numbers and the tape.
* `emit`, `emitAll`: a statement and a list of statements, as actions on a context.
* `emitAll_run`: emitting adds the items of `statements` and moves the counters on.
* `emitProgram_run`: emitting a whole program gives its `mainFunction`.
-/

namespace TapeCompiler

namespace Qbe

/-- Adds items one by one until one is refused. -/
def Function.appendAll (f : Function) (items : List Item) : Except BuildError Function :=
  items.foldlM append f

theorem Builds.appendAll_eq {f g : Function} {items : List Item} (h : Builds f items g) :
    f.appendAll items = .ok g := by
  induction h with
  | done f => rfl
  | add happend _ _ ih =>
    rw [Function.appendAll, List.foldlM_cons, happend]
    exact ih

end Qbe

namespace Lowering

open Qbe (Function Item Operation Value)

variable {α : Type}

/-! ## Actions on a context -/

/-- A function under construction, the numbers of the next temporary and of the next label, and the
tape of the program. -/
structure Context where
  function : Function
  nextTemp : Nat
  nextLabel : Nat
  layout : Tape

/-- An action on a context.  It stops at the first item that is refused. -/
abbrev Emit := StateT Context (Except Qbe.BuildError)

def add (item : Item) : Emit Unit := do
  let c ← get
  let f ← c.function.append item
  set { c with function := f }

def freshTemp : Emit Value :=
  modifyGet fun c => (temp c.nextTemp, { c with nextTemp := c.nextTemp + 1 })

def freshLabelNumber : Emit Nat :=
  modifyGet fun c => (c.nextLabel, { c with nextLabel := c.nextLabel + 1 })

def freshLabel (stem : String) : Emit String := return label stem (← freshLabelNumber)

/-- Loads the current cell into a new temporary. -/
def emitLoad : Emit Value := do
  let cell ← freshTemp
  add (.instr (.assign cell .word (.load (loadOp (← get).layout.stride) ptr)))
  return cell

/-- Returns 1 unless the pointer is on the tape. -/
def emitGuard : Emit Unit := do
  let cont ← freshLabel "cont"
  let halt ← freshLabel "halt"
  let offset ← freshTemp
  add (.instr (.assign offset .long (.sub ptr tape)))
  let inBounds ← freshTemp
  add (.instr (.assign inBounds .word (.above .long (.const (← get).layout.addressable) offset)))
  add (.jump (.jnz inBounds cont halt))
  add (.label halt)
  add (.jump (.ret (some (const 1))))
  add (.label cont)

def emitMove (operation : Value → Value → Operation) (count : Number) : Emit Unit := do
  let distance := count.scale (← get).layout.stride.bytes
  add (.instr (.assign ptr .long (operation ptr (.const distance))))
  emitGuard

def emitChange (operation : Value → Value → Operation) (count : Number) : Emit Unit := do
  let cell ← emitLoad
  let result ← freshTemp
  add (.instr (.assign result .word (operation cell (.const count))))
  add (.instr (.store (storeOp (← get).layout.stride) result ptr))

/-- Loads the current cell and enters the loop `n` or leaves it. -/
def emitTest (n : Nat) : Emit Unit := do
  let cell ← emitLoad
  add (.jump (.jnz cell (label "loop" n) (label "end" n)))

mutual

/-- Adds the items of a statement, with numbers that no statement before it has used. -/
def emit : Statement α → Emit Unit
  | .counted .moveLeft count _ => emitMove .sub count
  | .counted .moveRight count _ => emitMove .add count
  | .counted .increment count _ => emitChange .add count
  | .counted .decrement count _ => emitChange .sub count
  | .read _ => add (transfer "read" 0)
  | .write _ => add (transfer "write" 1)
  | .loop body _ => do
    let n ← freshLabelNumber
    emitTest n
    add (.label (label "loop" n))
    emitAll body
    emitTest n
    add (.label (label "end" n))

def emitAll : List (Statement α) → Emit Unit
  | [] => return ()
  | s :: rest => do
    emit s
    emitAll rest

end

/-! ## What an action adds -/

section Runs

variable (c : Context)

theorem add_run (item : Item) :
    (add item).run c = do
      let f ← c.function.append item
      return ((), { c with function := f }) := by
  simp [add]

theorem freshTemp_run :
    freshTemp.run c = pure (temp c.nextTemp, { c with nextTemp := c.nextTemp + 1 }) := rfl

theorem freshLabelNumber_run :
    freshLabelNumber.run c = pure (c.nextLabel, { c with nextLabel := c.nextLabel + 1 }) := rfl

theorem freshLabel_run (stem : String) :
    (freshLabel stem).run c =
      pure (label stem c.nextLabel, { c with nextLabel := c.nextLabel + 1 }) := rfl

/-- Adds items to the function of a context, and skips numbers. -/
def Context.write (items : List Item) (temps labels : Nat) :
    Except Qbe.BuildError (Unit × Context) := do
  let f ← c.function.appendAll items
  return ((), ⟨f, c.nextTemp + temps, c.nextLabel + labels, c.layout⟩)

theorem emitMove_run (operation : Value → Value → Operation) (count : Number) :
    (emitMove operation count).run c =
      c.write (move operation c.layout count c.nextTemp c.nextLabel) 2 2 := by
  simp [emitMove, emitGuard, freshLabel_run, freshTemp_run, add_run, Context.write, move, guard,
    Function.appendAll]

theorem emitChange_run (operation : Value → Value → Operation) (count : Number) :
    (emitChange operation count).run c =
      c.write (change operation c.layout count c.nextTemp) 2 0 := by
  simp [emitChange, emitLoad, freshTemp_run, add_run, Context.write, change, loadCell,
    Function.appendAll]

theorem emitTest_run (n : Nat) :
    (emitTest n).run c = c.write (test c.layout.stride c.nextTemp n) 1 0 := by
  simp [emitTest, emitLoad, freshTemp_run, add_run, Context.write, test, loadCell,
    Function.appendAll]

end Runs

mutual

/-- Emitting a statement adds its items, with the next numbers, and skips as many as it uses. -/
theorem emit_run (c : Context) :
    ∀ s : Statement α, (emit s).run c =
      c.write (statement c.layout c.nextTemp c.nextLabel s) (temps s) (labels s)
  | .counted .moveLeft count _ => emitMove_run c .sub count
  | .counted .moveRight count _ => emitMove_run c .add count
  | .counted .increment count _ => emitChange_run c .add count
  | .counted .decrement count _ => emitChange_run c .sub count
  | .read _ => by simp [emit, add_run, Context.write, statement, Function.appendAll, temps, labels]
  | .write _ => by simp [emit, add_run, Context.write, statement, Function.appendAll, temps, labels]
  | .loop body _ => by
    -- The body is emitted in a context that the first test has changed, so any context is meant here.
    have hbody := fun c => emitAll_run c body
    have htemps : c.nextTemp + (2 + tempsAll body) = c.nextTemp + 1 + tempsAll body + 1 := by omega
    have hlabels : c.nextLabel + (1 + labelsAll body) = c.nextLabel + 1 + labelsAll body := by omega
    simp [emit, freshLabelNumber_run, emitTest_run, add_run, hbody, Context.write, statement,
      Function.appendAll, temps, labels, htemps, hlabels]

theorem emitAll_run (c : Context) :
    ∀ ss : List (Statement α), (emitAll ss).run c =
      c.write (statements c.layout c.nextTemp c.nextLabel ss) (tempsAll ss) (labelsAll ss)
  | [] => rfl
  | s :: rest => by
    have hs := emit_run c s
    have hrest := fun c => emitAll_run c rest
    simp [emitAll, hs, hrest, Context.write, statements, Function.appendAll, tempsAll, labelsAll,
      Nat.add_assoc]

end

/-! ## Whole programs -/

/-- The context in which a program starts. -/
def Context.initial (layout : Tape) : Context := ⟨emptyMain, firstTemp, firstLabel, layout⟩

def emitProgram (program : List (Statement α)) : Emit Unit := do
  forM (prologue (← get).layout) add
  emitAll program
  add (.jump (.ret (some (const 0))))

theorem forM_add_run (items : List Item) (c : Context) :
    StateT.run (forM items add) c = c.write items 0 0 := by
  induction items generalizing c with
  | nil => rfl
  | cons item rest ih => simp [add_run, ih, Context.write, Function.appendAll]

/-- Emitting a program gives its function, and leaves the counters behind the numbers it uses. -/
theorem emitProgram_run (layout : Tape) (program : List (Statement α)) :
    (emitProgram program).run (.initial layout) =
      .ok ((), ⟨mainFunction layout program, tempsAll program, labelsAll program, layout⟩) := by
  have hbuilt := (builds_body layout program).appendAll_eq
  have hrun : (emitProgram program).run (.initial layout) =
      (Context.initial layout).write (body layout program) (tempsAll program) (labelsAll program) := by
    simp [emitProgram, forM_add_run, emitAll_run, add_run, Context.write, body, Function.appendAll,
      Context.initial]
  have hnumbers : firstTemp + tempsAll program = tempsAll program ∧
      firstLabel + labelsAll program = labelsAll program := ⟨Nat.zero_add _, Nat.zero_add _⟩
  rw [hrun, Context.write, Context.initial, hbuilt, hnumbers.1, hnumbers.2]
  rfl

end Lowering

end TapeCompiler
