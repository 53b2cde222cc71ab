import TapeCompiler.Proofs.ControlFlow

/-! # What a function remembers of its building

Items may come in any order, and those that do not fit are refused.  An instruction behind the jump
of its block does fit, and so does a label that was used before.

* `Builder.perform`: the call that adds an item, with the function that it leaves behind.
* `Builder.perform_run`: a refused call changes nothing.
* `Function.attemptAll_eq`: what one item does to the last block, many items do one after the other.
* `listingOf_interval`: what stands between two labels makes one block.
* `builder_keeps_history`: the function that any items leave behind.
-/

namespace TapeCompiler.Qbe

/-! ## Calls that may be refused -/

/-- A call on a function under construction.  One that is refused leaves a function behind as well. -/
abbrev Builder := EStateM BuildError Function

namespace Builder

/-- The block opened last. -/
def current : Builder Block := do
  let f ← get
  match f.blocks.getLast? with
  | some b => return b
  | none => throw (.noOpenBlock f.name)

def setCurrent (b : Block) : Builder Unit :=
  modify fun f => { f with blocks := f.blocks.dropLast ++ [b] }

/-- The call that adds an item. -/
def perform : Item → Builder Unit
  | .label name => modify fun f => { f with blocks := f.blocks ++ [⟨name, [], none⟩] }
  | .instr i => do
    let b ← current
    setCurrent { b with instrs := b.instrs ++ [i] }
  | .jump j => do
    let b ← current
    match b.jump with
    | some earlier => throw (.terminated b.label earlier)
    | none => setCurrent { b with jump := some j }

theorem current_run (f : Function) :
    current.run f =
      match f.blocks.getLast? with
      | some b => .ok b f
      | none => .error (.noOpenBlock f.name) f := by
  simp only [current, EStateM.run_bind, EStateM.run_get]
  cases f.blocks.getLast? <;> rfl

theorem setCurrent_run (b : Block) (f : Function) :
    (setCurrent b).run f = .ok () { f with blocks := f.blocks.dropLast ++ [b] } := rfl

/-- A call does what `append` does, and one that is refused leaves the function as it was. -/
theorem perform_run (item : Item) (f : Function) :
    (perform item).run f =
      match f.append item with
      | .ok g => .ok () g
      | .error e => .error e f := by
  cases item with
  | label name => rfl
  | instr i =>
    simp only [perform, EStateM.run_bind, current_run, Function.append]
    cases f.blocks.getLast? with
    | none => rfl
    | some b => rfl
  | jump j =>
    simp only [perform, EStateM.run_bind, current_run, Function.append]
    cases f.blocks.getLast? with
    | none => rfl
    | some b => cases hjump : b.jump <;> simp [Block.append, hjump, setCurrent_run, Except.map]

theorem perform_eq_error_iff {item : Item} {f g : Function} {e : BuildError} :
    (perform item).run f = .error e g ↔ f.append item = .error e ∧ g = f := by
  rw [perform_run]
  cases f.append item <;> simp [eq_comm]

end Builder

/-! ## Items one by one -/

namespace Function

variable (f : Function) (bs : List Block)

/-- The function behind a call, whether or not the call was refused. -/
def attempt (item : Item) : Function :=
  match (Builder.perform item).run f with
  | .ok _ g => g
  | .error _ g => g

/-- The function behind a sequence of calls. -/
def attemptAll (items : List Item) : Function := items.foldl attempt f

theorem attempt_of_ok {f g : Function} {item : Item} (h : f.append item = .ok g) :
    f.attempt item = g := by
  simp only [attempt, Builder.perform_run, h]

theorem attempt_of_error {f : Function} {item : Item} {e : BuildError}
    (h : f.append item = .error e) : f.attempt item = f := by
  simp only [attempt, Builder.perform_run, h]

theorem attemptAll_concat (items : List Item) (item : Item) :
    f.attemptAll (items ++ [item]) = (f.attemptAll items).attempt item := by
  simp [attemptAll]

/-- An item is refused if it needs a block and there is none, or if it is a second jump. -/
theorem append_eq_error_iff (item : Item) :
    (∃ e, f.append item = .error e) ↔
      (f.blocks = [] ∧ ∀ name, item ≠ .label name) ∨
        ∃ j last, item = .jump j ∧ f.blocks.getLast? = some last ∧ last.jump ≠ none := by
  cases hlast : f.blocks.getLast? with
  | none =>
    have hblocks : f.blocks = [] := List.getLast?_eq_none_iff.1 hlast
    cases item <;> simp [append, hblocks]
  | some last =>
    have hblocks : f.blocks ≠ [] := by
      intro hempty
      simp [hempty] at hlast
    cases item with
    | label name => simp [append, hblocks]
    | instr i => simp [append, hlast, hblocks, Block.append, Except.map]
    | jump j =>
      cases hjump : last.jump <;> simp [append, hlast, hblocks, Block.append, Except.map, hjump]

theorem attempt_label (name : String) :
    (f.withBlocks bs).attempt (.label name) = f.withBlocks (bs ++ [⟨name, [], none⟩]) := rfl

theorem attempt_instr (b : Block) (i : Instr) :
    (f.withBlocks (bs ++ [b])).attempt (.instr i) =
      f.withBlocks (bs ++ [{ b with instrs := b.instrs ++ [i] }]) := by
  exact attempt_of_ok (append_instr f bs b i)

/-- Only the first jump of a block counts. -/
theorem attempt_jump (b : Block) (j : Jump) :
    (f.withBlocks (bs ++ [b])).attempt (.jump j) =
      f.withBlocks (bs ++ [{ b with jump := b.jump.or (some j) }]) := by
  cases hjump : b.jump with
  | none =>
    exact attempt_of_ok (append_jump f bs hjump j)
  | some earlier =>
    have herror : (f.withBlocks (bs ++ [b])).append (.jump j) =
        .error (.terminated b.label earlier) := by
      simp [append, withBlocks, Block.append, Except.map, hjump]
    rw [attempt_of_error herror, Option.some_or, ← hjump]

/-- The last block goes on with what comes before the first label, and each label opens one more. -/
theorem attemptAll_eq (b : Block) (items : List Item) :
    (f.withBlocks (bs ++ [b])).attemptAll items =
      f.withBlocks (bs ++ b.resume (listingOf items)) := by
  -- The blocks before the last one are left free, since a label turns the last block into one of them.
  induction items generalizing bs b with
  | nil => simp [attemptAll, Block.resume, listingOf]
  | cons item rest ih =>
    rw [attemptAll, List.foldl_cons, ← attemptAll]
    cases item with
    | label name =>
      rw [attempt_label, ih]
      simp [Block.resume, listingOf]
    | instr i =>
      rw [attempt_instr, ih]
      simp [Block.resume, listingOf]
    | jump j =>
      rw [attempt_jump, ih]
      simp [Block.resume, listingOf]

/-- Before the first label there is no block, and all items are refused. -/
theorem attemptAll_withBlocks_nil (items : List Item) :
    (f.withBlocks []).attemptAll items = f.withBlocks (blocksOf items) := by
  induction items with
  | nil => rfl
  | cons item rest ih =>
    cases item with
    | label name => exact attemptAll_eq f [] ⟨name, [], none⟩ rest
    | instr i => exact ih
    | jump j => exact ih

end Function

/-! ## Between two labels -/

def Item.instr? : Item → Option Instr
  | .instr i => some i
  | _ => none

def Item.jump? : Item → Option Jump
  | .jump j => some j
  | _ => none

/-- At the end of the items, or in front of a label, a block is over. -/
def AtLabel (items : List Item) : Prop := items = [] ∨ ∃ name rest, items = .label name :: rest

/-- A label ends what comes before it, and what comes behind it does not change that. -/
theorem listingOf_label (before : List Item) (name : String) (behind : List Item) :
    listingOf (before ++ .label name :: behind) =
      { listingOf before with
        blocks := blocksOf before ++
          ⟨name, (listingOf behind).instrs, (listingOf behind).jump⟩ :: blocksOf behind } := by
  induction before with
  | nil => rfl
  | cons item rest ih => cases item <;> simp [listingOf, blocksOf, ih]

/-- What stands in front of a label makes up the open block: all its instructions, and the first of
its jumps. -/
theorem listingOf_interval {between after : List Item} (hbetween : labelsOf between = [])
    (hafter : AtLabel after) :
    (listingOf (between ++ after)).instrs = between.filterMap Item.instr? ∧
      (listingOf (between ++ after)).jump = between.findSome? Item.jump? := by
  induction between with
  | nil =>
    rcases hafter with rfl | ⟨name, rest, rfl⟩
    · exact ⟨rfl, rfl⟩
    · exact ⟨rfl, rfl⟩
  | cons item rest ih =>
    cases item with
    | label name => cases hbetween
    | instr i =>
      obtain ⟨hinstrs, hjump⟩ := ih hbetween
      exact ⟨congrArg (i :: ·) hinstrs, hjump⟩
    | jump j => exact ⟨(ih hbetween).1, rfl⟩

/-! ## The whole history -/

/-- A function keeps the history of its building.  Whatever calls came before, the next one is refused
only if it needs a block and there is none, or if it is a jump and the last block has one already, and
then it leaves the function as it was.  There is one block for each label, in their order.  It holds
the instructions between its label and the next one, in their order, and the first jump among them. -/
theorem builder_keeps_history (name : String) (exported : Bool) (returnType : Option BaseType)
    (items : List Item) :
    ∃ f, (Function.empty name exported returnType).attemptAll items = f ∧
      f.name = name ∧ f.exported = exported ∧ f.returnType = returnType ∧
      (∀ item, (∃ e, f.append item = .error e) ↔
        (f.blocks = [] ∧ ∀ label, item ≠ .label label) ∨
          ∃ j last, item = .jump j ∧ f.blocks.getLast? = some last ∧ last.jump ≠ none) ∧
      (∀ item e g, (Builder.perform item).run f = .error e g ↔ f.append item = .error e ∧ g = f) ∧
      (∀ item e, f.append item = .error e →
        (Function.empty name exported returnType).attemptAll (items ++ [item]) = f) ∧
      f.blocks.map Block.label = labelsOf items ∧
      ∀ before label between after, items = before ++ .label label :: (between ++ after) →
        labelsOf between = [] → AtLabel after →
        f.blocks[(labelsOf before).length]? =
          some ⟨label, between.filterMap Item.instr?, between.findSome? Item.jump?⟩ := by
  have hbuilt : (Function.empty name exported returnType).attemptAll items =
      (Function.empty name exported returnType).withBlocks (blocksOf items) :=
    (Function.empty name exported returnType).attemptAll_withBlocks_nil items
  refine ⟨(Function.empty name exported returnType).withBlocks (blocksOf items), hbuilt, rfl, rfl, rfl,
    Function.append_eq_error_iff _, fun item e g => Builder.perform_eq_error_iff,
    fun item e herror => ?_, map_label_blocksOf items, ?_⟩
  · rw [Function.attemptAll_concat, hbuilt, Function.attempt_of_error herror]
  · rintro before label between after rfl hbetween hafter
    obtain ⟨hinstrs, hjump⟩ := listingOf_interval hbetween hafter
    -- As many blocks come before this one as there are labels before its own.
    have hblocks : (blocksOf before).length = (labelsOf before).length := by
      rw [← map_label_blocksOf, List.length_map]
    simp [Function.withBlocks, blocksOf, listingOf_label, hinstrs, hjump, ← hblocks]

/-- The first item finds no block and the second return comes too late, but the call in front of it
is taken. -/
example :
    ((Function.empty "f" false none).attemptAll
      [.jump (.ret none), .label "a", .jump (.ret none), .instr (.call "g" []),
        .jump (.ret (some (.temp "x"))), .label "a"]).blocks =
      [⟨"a", [.call "g" []], some (.ret none)⟩, ⟨"a", [], none⟩] := by
  decide

end TapeCompiler.Qbe
