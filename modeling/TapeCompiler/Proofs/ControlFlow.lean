import TapeCompiler.Proofs.Labels

/-! # The control flow of a lowered program

Between two statements the last block of the function is open: it waits for an instruction or a
jump.  A statement may end that block and open others, but it leaves an open one behind.

* `Qbe.Builds`: adding items to a function one by one.
* `Qbe.flow`: whether a block is open behind some items, if each of them has its place.
* `Qbe.builds_of_flow`: items that have their place are all added, and give what `listingOf` says.
* `Qbe.items_of_flow`, `Qbe.listingOf_items`: from items to blocks and back.
* `flow_statement`: from an open block to an open block.
* `lower_control_flow`: how the blocks of a lowered program hang together.
-/

namespace TapeCompiler

namespace Qbe

/-! ## Adding items one by one -/

def Function.withBlocks (f : Function) (blocks : List Block) : Function := { f with blocks := blocks }

/-- A block that goes on with what a listing holds before its first label, and the blocks behind. -/
def Block.resume (b : Block) (l : Listing) : List Block :=
  ⟨b.label, b.instrs ++ l.instrs, b.jump.or l.jump⟩ :: l.blocks

namespace Function

variable (f : Function) (bs : List Block)

/-- There is a last block, and it has no jump yet. -/
def IsOpen : Prop := ∃ b, f.blocks.getLast? = some b ∧ b.jump = none

theorem append_label (name : String) :
    (f.withBlocks bs).append (.label name) = .ok (f.withBlocks (bs ++ [⟨name, [], none⟩])) := rfl

theorem append_instr (b : Block) (i : Instr) :
    (f.withBlocks (bs ++ [b])).append (.instr i) =
      .ok (f.withBlocks (bs ++ [{ b with instrs := b.instrs ++ [i] }])) := by
  simp [append, withBlocks, Block.append, Except.map]

theorem append_jump {b : Block} (hb : b.jump = none) (j : Jump) :
    (f.withBlocks (bs ++ [b])).append (.jump j) =
      .ok (f.withBlocks (bs ++ [{ b with jump := some j }])) := by
  simp [append, withBlocks, Block.append, Except.map, hb]

theorem isOpen_withBlocks {b : Block} (hb : b.jump = none) : (f.withBlocks (bs ++ [b])).IsOpen :=
  ⟨b, List.getLast?_concat, hb⟩

end Function

/-- Adding items to the first function one by one gives the second.  No item is refused, and no
instruction is added to a block that has its jump. -/
inductive Builds : Function → List Item → Function → Prop where
  | done (f : Function) : Builds f [] f
  | add {f g h : Function} {item : Item} {rest : List Item} :
      f.append item = .ok g → (∀ i, item = .instr i → f.IsOpen) → Builds g rest h →
      Builds f (item :: rest) h

/-- Whether a block is open behind some items.  There is no answer if an instruction or a jump meets
no open block, or a label comes before the open block has its jump. -/
def flow : Bool → List Item → Option Bool
  | isOpen, [] => some isOpen
  | true, .instr _ :: rest => flow true rest
  | true, .jump _ :: rest => flow false rest
  | false, .label _ :: rest => flow true rest
  | _, _ => none

theorem flow_append (isOpen : Bool) (xs ys : List Item) :
    flow isOpen (xs ++ ys) = (flow isOpen xs).bind (flow · ys) := by
  induction xs generalizing isOpen with
  | nil => simp [flow]
  | cons item rest ih => cases isOpen <;> cases item <;> simp [flow, ih]

/-- Items that have their place are all added, to the last block and behind it. -/
theorem builds_of_flow {items : List Item} {isOpen : Bool} (h : (flow isOpen items).isSome)
    (f : Function) (bs : List Block) {b : Block} (hb : b.jump.isNone = isOpen) :
    Builds (f.withBlocks (bs ++ [b])) items
      (f.withBlocks (bs ++ b.resume (listingOf items))) := by
  fun_induction flow isOpen items generalizing bs b with
  | case1 isOpen =>
    have hsame : b.resume (listingOf []) = [b] := by simp [Block.resume, listingOf]
    rw [hsame]
    exact .done _
  | case2 i rest ih =>
    have hnone := Option.isNone_iff_eq_none.1 hb
    have hsame : Block.resume { b with instrs := b.instrs ++ [i] } (listingOf rest) =
        b.resume (listingOf (.instr i :: rest)) := by
      simp [Block.resume, listingOf]
    rw [← hsame]
    exact .add (f.append_instr bs b i) (fun _ _ => f.isOpen_withBlocks bs hnone) (ih h bs hb)
  | case3 j rest ih =>
    have hnone := Option.isNone_iff_eq_none.1 hb
    have hsame : Block.resume { b with jump := some j } (listingOf rest) =
        b.resume (listingOf (.jump j :: rest)) := by
      simp [Block.resume, listingOf, hnone]
    rw [← hsame]
    exact .add (f.append_jump bs hnone j) (fun i hi => by cases hi) (ih h bs rfl)
  | case4 name rest ih =>
    have hsame : bs ++ [b] ++ Block.resume ⟨name, [], none⟩ (listingOf rest) =
        bs ++ b.resume (listingOf (.label name :: rest)) := by
      simp [Block.resume, listingOf]
    rw [← hsame]
    exact .add (f.append_label _ name) (fun i hi => by cases hi) (ih h (bs ++ [b]) rfl)
  | case5 => cases h

/-! ## Blocks as items -/

def Block.items (b : Block) : List Item :=
  .label b.label :: (b.instrs.map .instr ++ b.jump.toList.map .jump)

def Function.items (f : Function) : List Item := f.blocks.flatMap Block.items

def Listing.items (l : Listing) : List Item :=
  l.instrs.map .instr ++ l.jump.toList.map .jump ++ l.blocks.flatMap Block.items

/-- Items that have their place can be read off the blocks that they are sorted into. -/
theorem items_of_flow {items : List Item} {isOpen : Bool} (h : (flow isOpen items).isSome) :
    (listingOf items).items = items ∧
      (isOpen = false → (listingOf items).instrs = [] ∧ (listingOf items).jump = none) := by
  fun_induction flow isOpen items with
  | case1 isOpen => exact ⟨rfl, fun _ => ⟨rfl, rfl⟩⟩
  | case2 i rest ih =>
    refine ⟨?_, fun hopen => by cases hopen⟩
    conv_rhs => rw [← (ih h).1]
    rfl
  | case3 j rest ih =>
    obtain ⟨hitems, hclosed⟩ := ih h
    refine ⟨?_, fun hopen => by cases hopen⟩
    -- Behind a jump only a label has its place, so nothing comes before the first one.
    obtain ⟨hinstrs, hjump⟩ := hclosed rfl
    conv_rhs => rw [← hitems]
    simp [Listing.items, listingOf, hinstrs, hjump]
  | case4 name rest ih =>
    refine ⟨?_, fun _ => ⟨rfl, rfl⟩⟩
    conv_rhs => rw [← (ih h).1]
    simp [Listing.items, listingOf, Block.items]
  | case5 => cases h

theorem listingOf_instrs (instrs : List Instr) (items : List Item) :
    listingOf (instrs.map .instr ++ items) =
      { listingOf items with instrs := instrs ++ (listingOf items).instrs } := by
  induction instrs with
  | nil => rfl
  | cons i rest ih => simp [listingOf, ih]

/-- Blocks are found again among their items, whatever they hold. -/
theorem listingOf_items (blocks : List Block) :
    listingOf (blocks.flatMap Block.items) = ⟨[], none, blocks⟩ := by
  induction blocks with
  | nil => rfl
  | cons b rest ih =>
    have hjump : listingOf (b.jump.toList.map .jump ++ rest.flatMap Block.items) =
        ⟨[], b.jump, rest⟩ := by
      cases b.jump <;> simp [listingOf, ih]
    simp [Block.items, listingOf, listingOf_instrs, hjump]

theorem Listing.listingOf_items (l : Listing) : listingOf l.items = l := by
  obtain ⟨instrs, jump, blocks⟩ := l
  cases jump <;> simp [items, listingOf_instrs, listingOf, Qbe.listingOf_items]

/-- When no block is left open, every block of the items has its jump. -/
theorem jump_isSome_of_flow {items : List Item} {isOpen : Bool} (h : flow isOpen items = some false) :
    (listingOf items).jump.isSome = isOpen ∧ ∀ b ∈ (listingOf items).blocks, b.jump.isSome := by
  fun_induction flow isOpen items with
  | case1 isOpen =>
    cases h
    exact ⟨rfl, List.forall_mem_nil _⟩
  | case2 i rest ih => exact ih h
  | case3 j rest ih => exact ⟨rfl, (ih h).2⟩
  | case4 name rest ih => exact ⟨rfl, List.forall_mem_cons.2 (ih h)⟩
  | case5 => cases h

/-! ## Labels and jumps of blocks -/

theorem map_label_blocksOf (items : List Item) :
    (blocksOf items).map Block.label = labelsOf items := by
  induction items with
  | nil => rfl
  | cons item rest ih =>
    cases item with
    | label name =>
      rw [labelsOf, ← ih]
      rfl
    | instr i => exact ih
    | jump j => exact ih

theorem jump_mem {items : List Item} {j : Jump} :
    ((listingOf items).jump = some j → .jump j ∈ items) ∧
      ∀ b ∈ (listingOf items).blocks, b.jump = some j → .jump j ∈ items := by
  induction items with
  | nil => exact ⟨fun h => (by cases h), List.forall_mem_nil _⟩
  | cons item rest ih =>
    cases item with
    | label name =>
      refine ⟨fun h => (by cases h), List.forall_mem_cons.2 ⟨fun h => ?_, fun b hb h => ?_⟩⟩
      · exact List.mem_cons_of_mem _ (ih.1 h)
      · exact List.mem_cons_of_mem _ (ih.2 b hb h)
    | instr i =>
      exact ⟨fun h => List.mem_cons_of_mem _ (ih.1 h),
        fun b hb h => List.mem_cons_of_mem _ (ih.2 b hb h)⟩
    | jump other =>
      refine ⟨fun h => ?_, fun b hb h => List.mem_cons_of_mem _ (ih.2 b hb h)⟩
      cases h
      exact List.mem_cons_self

def Jump.targets : Jump → List String
  | .jnz _ ifNonZero ifZero => [ifNonZero, ifZero]
  | .ret _ => []

end Qbe

namespace Lowering

open Qbe (Block Builds Item flow flow_append labelsOf listingOf)

variable {α : Type}

/-! ## Statements -/

mutual

theorem flow_statement (layout : Tape) (t l : Nat) :
    ∀ s : Statement α, flow true (statement layout t l s) = some true
  | .counted .moveLeft _ _ => rfl
  | .counted .moveRight _ _ => rfl
  | .counted .increment _ _ => rfl
  | .counted .decrement _ _ => rfl
  | .read _ => rfl
  | .write _ => rfl
  | .loop body _ => by
    -- The first test ends the open block and the label behind it opens the body.
    have hbody := flow_statements layout (t + 1) (l + 1) body
    simp only [statement, test, loadCell, List.cons_append, List.nil_append, flow, flow_append, hbody,
      Option.bind_some]

theorem flow_statements (layout : Tape) (t l : Nat) :
    ∀ ss : List (Statement α), flow true (statements layout t l ss) = some true
  | [] => rfl
  | s :: rest => by
    have hs := flow_statement layout t l s
    have hrest := flow_statements layout (t + temps s) (l + labels s) rest
    simp only [statements, flow_append, hs, Option.bind_some, hrest]

end

theorem targets_move (operation : Qbe.Value → Qbe.Value → Qbe.Operation) (layout : Tape)
    (count : Number) (t l : Nat) {j : Qbe.Jump} (h : .jump j ∈ move operation layout count t l) :
    j.targets ⊆ labelsOf (move operation layout count t l) := by
  have hnames : labelsOf (move operation layout count t l) =
      [label "halt" (l + 1), label "cont" l] := rfl
  rw [hnames]
  simp only [move, guard, List.mem_cons, reduceCtorEq, Item.jump.injEq, false_or, or_false,
    List.not_mem_nil] at h
  rcases h with rfl | rfl
  · simp [Qbe.Jump.targets]
  · simp [Qbe.Jump.targets]

mutual

/-- A statement jumps only to labels of its own. -/
theorem targets_statement (layout : Tape) (t l : Nat) {j : Qbe.Jump} :
    ∀ s : Statement α, .jump j ∈ statement layout t l s →
      j.targets ⊆ labelsOf (statement layout t l s)
  | .counted .moveLeft count _, h => targets_move .sub layout count t l h
  | .counted .moveRight count _, h => targets_move .add layout count t l h
  | .counted .increment _ _, h => by simp [statement, change, loadCell] at h
  | .counted .decrement _ _, h => by simp [statement, change, loadCell] at h
  | .read _, h => by simp [statement, transfer] at h
  | .write _, h => by simp [statement, transfer] at h
  | .loop body _, h => by
    simp only [statement, test, loadCell, labelsOf, Qbe.labelsOf_append, List.mem_append,
      List.mem_cons, reduceCtorEq, Item.jump.injEq, List.not_mem_nil, false_or, or_false] at h ⊢
    rcases h with rfl | h | rfl
    · simp [Qbe.Jump.targets]
    · intro target htarget
      have hbody := targets_statements layout (t + 1) (l + 1) body h htarget
      simp [hbody]
    · simp [Qbe.Jump.targets]

theorem targets_statements (layout : Tape) (t l : Nat) {j : Qbe.Jump} :
    ∀ ss : List (Statement α), .jump j ∈ statements layout t l ss →
      j.targets ⊆ labelsOf (statements layout t l ss)
  | [], h => by cases h
  | s :: rest, h => by
    rw [statements, Qbe.labelsOf_append]
    rcases List.mem_append.1 h with h | h
    · exact List.subset_append_of_subset_left _ (targets_statement layout t l s h)
    · exact List.subset_append_of_subset_right _
        (targets_statements layout (t + temps s) (l + labels s) rest h)

end

/-! ## Whole programs -/

/-- The blocks of a function hang together.  No two have the same label; all but the first, which
runs on into the second, end in a jump; and every conditional jump goes to two of them, but never
back to the first. -/
structure ControlFlow (f : Qbe.Function) : Prop where
  labels_nodup : (f.blocks.map Block.label).Nodup
  targets_mem : ∀ b ∈ f.blocks, ∀ cond ifNonZero ifZero,
    b.jump = some (.jnz cond ifNonZero ifZero) →
    ∀ target ∈ [ifNonZero, ifZero], target ∈ f.blocks.map Block.label ∧ target ≠ "runtime"
  terminated : ∃ runtime start later, f.blocks = runtime :: start :: later ∧
    runtime.label = "runtime" ∧ runtime.jump = none ∧ start.label = "start" ∧
    ∀ b ∈ start :: later, b.jump.isSome

/-- The block in front of the program. -/
def runtimeBlock (layout : Tape) : Block :=
  ⟨"runtime",
    [.assign tape .long (.alloc8 layout.allocated),
      .call "memset" [⟨.long, tape⟩, ⟨.word, const 0⟩, ⟨.long, .const layout.allocated⟩],
      .assign ptr .long (.copy tape)],
    none⟩

/-- The items of the block `start` and of all blocks behind it. -/
def startItems (layout : Tape) (program : List (Statement α)) : List Item :=
  statements layout firstTemp firstLabel program ++ [.jump (.ret (some (const 0)))]

theorem blocks_mainFunction (layout : Tape) (program : List (Statement α)) :
    (mainFunction layout program).blocks =
      [runtimeBlock layout] ++ Block.resume ⟨"start", [], none⟩
        (listingOf (startItems layout program)) := rfl

theorem flow_startItems (layout : Tape) (program : List (Statement α)) :
    flow true (startItems layout program) = some false := by
  rw [startItems, flow_append, flow_statements]
  rfl

/-- The function of a program has the items of the program in their order. -/
theorem items_mainFunction (layout : Tape) (program : List (Statement α)) :
    (mainFunction layout program).items = body layout program := by
  have hflow : (flow true (startItems layout program)).isSome := by rw [flow_startItems]; rfl
  rw [Qbe.Function.items, blocks_mainFunction, List.flatMap_append, body]
  conv_rhs => rw [← startItems, ← (Qbe.items_of_flow hflow).1]
  simp [Block.resume, Block.items, Qbe.Listing.items, prologue, runtimeBlock]

theorem builds_body (layout : Tape) (program : List (Statement α)) :
    Builds emptyMain (body layout program) (mainFunction layout program) := by
  have hflow : (flow true (startItems layout program)).isSome := by rw [flow_startItems]; rfl
  have hstart := Qbe.builds_of_flow hflow emptyMain [runtimeBlock layout]
    (b := ⟨"start", [], none⟩) rfl
  -- The label `start` comes while `runtime` is open, so the prologue is not part of the flow.
  exact .add rfl (fun i hi => by cases hi) (.add rfl (fun _ _ => ⟨_, rfl, rfl⟩)
    (.add rfl (fun _ _ => ⟨_, rfl, rfl⟩) (.add rfl (fun _ _ => ⟨_, rfl, rfl⟩)
      (.add rfl (fun i hi => by cases hi) hstart))))

theorem targets_body (layout : Tape) (program : List (Statement α)) {j : Qbe.Jump}
    (h : .jump j ∈ body layout program) :
    ∀ target ∈ j.targets, target ∈ labelsOf (body layout program) ∧ target ≠ "runtime" := by
  simp only [body, prologue, List.mem_append, List.mem_cons, reduceCtorEq, Item.jump.injEq,
    List.not_mem_nil, false_or, or_false] at h
  rcases h with h | rfl
  · intro target htarget
    have hmem := targets_statements layout firstTemp firstLabel program h htarget
    have hnumbered := (fresh_statements layout firstTemp firstLabel program).numbered target hmem
    exact ⟨by simp [labelsOf_body, hmem], hnumbered.ne_fixed.1⟩
  · exact List.forall_mem_nil _

theorem controlFlow_mainFunction (layout : Tape) (program : List (Statement α)) :
    ControlFlow (mainFunction layout program) where
  labels_nodup := by
    rw [mainFunction, Qbe.map_label_blocksOf]
    exact nodup_body layout program
  targets_mem := by
    intro b hb cond ifNonZero ifZero hjump
    rw [mainFunction, Qbe.map_label_blocksOf]
    exact targets_body layout program (Qbe.jump_mem.2 b hb hjump)
  terminated := by
    have hjumps := Qbe.jump_isSome_of_flow (flow_startItems layout program)
    exact ⟨_, _, _, blocks_mainFunction layout program, rfl, rfl, rfl, List.forall_mem_cons.2 hjumps⟩

/-- A program is lowered for every accepted tape.  Its items are added one by one to the empty
function without one being refused, no instruction ever comes behind a jump of its block, and the
blocks of the function that they give hang together. -/
theorem lower_control_flow {options : TapeOptions} {layout : Tape}
    (hresolve : options.resolve = .ok layout) (program : List (Statement α)) :
    ∃ main, lower options program = .ok ⟨[main]⟩ ∧
      Builds emptyMain (body layout program) main ∧ ControlFlow main :=
  ⟨_, lower_eq_ok hresolve program, builds_body layout program,
    controlFlow_mainFunction layout program⟩

/-- Two nested loops with a move in the inner one, on word cells. -/
theorem lower_control_flow_nested :
    TapeOptions.resolve ⟨some (.integer 2), some (.integer 8)⟩ = .ok ⟨.integer 2, .eight⟩ ∧
      ∃ main, lower ⟨some (.integer 2), some (.integer 8)⟩
          [.loop [.loop [.counted .moveLeft (.integer 1) ()] ()] ()] = .ok ⟨[main]⟩ ∧
        main.blocks.map Block.label =
          ["runtime", "start", "loop0", "loop1", "halt3", "cont2", "end1", "end0"] ∧
        ControlFlow main := by
  refine ⟨by decide, ?_⟩
  obtain ⟨main, hlower, _, hflow⟩ := lower_control_flow
    (by decide : TapeOptions.resolve ⟨some (.integer 2), some (.integer 8)⟩ =
      .ok ⟨.integer 2, .eight⟩)
    [.loop [.loop [.counted .moveLeft (.integer 1) ()] ()] ()]
  refine ⟨main, hlower, ?_, hflow⟩
  cases hlower
  decide

end Lowering

end TapeCompiler
