import TapeCompiler.Proofs.Layout
import TapeCompiler.Proofs.Notes
import TapeCompiler.Proofs.Temporaries

/-! # How much a program is lowered to

Every move, every change and every loop adds a fixed number of everything to the function that a
program is lowered to, at whatever depth it stands, and reading and writing add nothing.

* `Statement.moveCount`, `Statement.changeCount`, `Statement.loopCount`: what is counted in a tree.
* `Lowering.Tally`, `Lowering.Tally.total`: quantities that add up over a tree.
* `Lowering.GuardedItems`: wherever the pointer is assigned, a guard comes next.
* `Lowering.lower_resources`: what there is in a lowered program.
-/

namespace TapeCompiler

/-! ## Counting statements -/

def Counted.isMove : Counted → Bool
  | .moveLeft => true
  | .moveRight => true
  | .increment => false
  | .decrement => false

namespace Statement

variable {α : Type}

def isMove : Statement α → Bool
  | .counted command _ _ => command.isMove
  | _ => false

def isChange : Statement α → Bool
  | .counted command _ _ => !command.isMove
  | _ => false

def isLoop : Statement α → Bool
  | .loop _ _ => true
  | _ => false

/-- How many moves of the pointer there are, at any depth. -/
def moveCount (ss : List (Statement α)) : Nat := (partsAll ss).countP isMove

def changeCount (ss : List (Statement α)) : Nat := (partsAll ss).countP isChange

def loopCount (ss : List (Statement α)) : Nat := (partsAll ss).countP isLoop

end Statement

/-! ## Items of a function -/

namespace Qbe

def Item.isLabel : Item → Bool
  | .label _ => true
  | _ => false

def Item.isInstr (q : Instr → Bool) : Item → Bool
  | .instr i => q i
  | _ => false

def Item.isJump (j : Jump) (item : Item) : Bool := item = .jump j

namespace Function

def instrs (f : Function) : List Instr := f.blocks.flatMap Block.instrs

theorem countP_items (p : Item → Bool) (f : Function) :
    f.items.countP p = f.blocks.countP (fun b => p (.label b.label)) +
      f.instrs.countP (fun i => p (.instr i)) +
      f.blocks.countP fun b => b.jump.any fun j => p (.jump j) := by
  rw [items, instrs]
  -- Each block adds its label, its instructions and its jump, if it has one.
  induction f.blocks with
  | nil => rfl
  | cons b rest ih =>
    have hjump : (b.jump.toList.map Item.jump).countP p =
        if b.jump.any fun j => p (.jump j) then 1 else 0 := by
      cases b.jump <;> simp
    have hinstrs : (b.instrs.map Item.instr).countP p = b.instrs.countP fun i => p (.instr i) :=
      List.countP_map
    simp only [List.flatMap_cons, List.countP_append, List.countP_cons, Block.items, hjump, hinstrs,
      ih]
    omega

theorem countP_isLabel (f : Function) : f.items.countP Item.isLabel = f.blocks.length := by
  simp [countP_items, Item.isLabel]

theorem countP_isInstr (q : Instr → Bool) (f : Function) :
    f.items.countP (Item.isInstr q) = f.instrs.countP q := by
  simp [countP_items, Item.isInstr]

theorem countP_isJump (j : Jump) (f : Function) :
    f.items.countP (Item.isJump j) = f.blocks.countP fun b => b.jump = some j := by
  have hjump : ∀ b : Block, (b.jump.any fun k => decide (k = j)) = decide (b.jump = some j) := by
    intro b
    cases b.jump <;> simp
  simp [countP_items, Item.isJump, hjump]

end Function

end Qbe

/-! ## Quantities that add up -/

namespace Lowering

open Statement (parts partsAll isMove isChange isLoop moveCount changeCount loopCount)
open Qbe (Block Instr Item Jump labelsOf assignsOf)

variable {α : Type}

/-- A quantity that may depend on the first numbers of a statement, but to which each move, each
change and each loop adds as much as any other. -/
structure Tally (f : Nat → Nat → Statement α → Nat) (fAll : Nat → Nat → List (Statement α) → Nat)
    (perMove perChange perLoop : Nat) : Prop where
  nil : ∀ t l, fAll t l [] = 0
  cons : ∀ t l s rest, ∃ t' l', fAll t l (s :: rest) = f t l s + fAll t' l' rest
  counted : ∀ t l command count note,
    f t l (.counted command count note) = if command.isMove then perMove else perChange
  read : ∀ t l note, f t l (.read note) = 0
  write : ∀ t l note, f t l (.write note) = 0
  loop : ∀ t l body note, ∃ t' l', f t l (.loop body note) = perLoop + fAll t' l' body

namespace Tally

variable {f : Nat → Nat → Statement α → Nat} {fAll : Nat → Nat → List (Statement α) → Nat}
  {perMove perChange perLoop : Nat}

mutual

theorem total_parts (h : Tally f fAll perMove perChange perLoop) (t l : Nat) (s : Statement α) :
    f t l s = perMove * s.parts.countP isMove + perChange * s.parts.countP isChange +
      perLoop * s.parts.countP isLoop := by
  cases s with
  | counted command count note =>
    rw [h.counted]
    cases hmove : command.isMove <;> simp [parts, isMove, isChange, isLoop, hmove]
  | read note => simp [h.read, parts, isMove, isChange, isLoop]
  | write note => simp [h.write, parts, isMove, isChange, isLoop]
  | loop body note =>
    obtain ⟨t', l', hloop⟩ := h.loop t l body note
    have hbody := total h t' l' body
    simp only [moveCount, changeCount, loopCount] at hbody
    simp only [hloop, hbody, parts, isMove, isChange, isLoop, List.countP_cons, Bool.false_eq_true,
      if_true, if_false, Nat.mul_add]
    omega

theorem total (h : Tally f fAll perMove perChange perLoop) (t l : Nat) (ss : List (Statement α)) :
    fAll t l ss = perMove * moveCount ss + perChange * changeCount ss + perLoop * loopCount ss := by
  cases ss with
  | nil => simp [h.nil, moveCount, changeCount, loopCount, partsAll]
  | cons s rest =>
    obtain ⟨t', l', hcons⟩ := h.cons t l s rest
    have hfirst := total_parts h t l s
    have hrest := total h t' l' rest
    simp only [moveCount, changeCount, loopCount] at hrest ⊢
    simp only [hcons, hfirst, hrest, partsAll, List.countP_append, Nat.mul_add]
    omega

end

end Tally

theorem tempsAll_eq (program : List (Statement α)) :
    tempsAll program = 2 * moveCount program + 2 * changeCount program + 2 * loopCount program := by
  have htally : Tally (fun _ _ (s : Statement α) => temps s) (fun _ _ => tempsAll) 2 2 2 :=
    { nil := fun _ _ => rfl
      cons := fun _ _ _ _ => ⟨0, 0, rfl⟩
      counted := fun _ _ command _ _ => (ite_self 2).symm
      read := fun _ _ _ => rfl
      write := fun _ _ _ => rfl
      loop := fun _ _ _ _ => ⟨0, 0, rfl⟩ }
  exact htally.total 0 0 program

theorem labelsAll_eq (program : List (Statement α)) :
    labelsAll program = 2 * moveCount program + loopCount program := by
  have htally : Tally (fun _ _ (s : Statement α) => labels s) (fun _ _ => labelsAll) 2 0 1 :=
    { nil := fun _ _ => rfl
      cons := fun _ _ _ _ => ⟨0, 0, rfl⟩
      counted := fun _ _ command _ _ => by cases command <;> rfl
      read := fun _ _ _ => rfl
      write := fun _ _ _ => rfl
      loop := fun _ _ _ _ => ⟨0, 0, rfl⟩ }
  simpa using htally.total 0 0 program

/-! ## Counting items -/

/-- How many items of a kind there are in every program, and how many each move, each change and each
loop has of its own. -/
structure Rates (layout : Tape) (p : Item → Bool) (fixed perMove perChange perLoop : Nat) : Prop where
  frame : (prologue layout).countP p + [.jump (.ret (some (const 0)))].countP p = fixed
  counted : ∀ t l command count, (statement layout t l (.counted command count ())).countP p =
    if command.isMove then perMove else perChange
  transfer : ∀ target descriptor, p (transfer target descriptor) = false
  loop : ∀ t t' l, (test layout.stride t l).countP p + [.label (label "loop" l)].countP p +
    (test layout.stride t' l).countP p + [.label (label "end" l)].countP p = perLoop

theorem Rates.countP_items {layout : Tape} {p : Item → Bool} {fixed perMove perChange perLoop : Nat}
    (h : Rates layout p fixed perMove perChange perLoop) (program : List (Statement α)) :
    (mainFunction layout program).items.countP p =
      fixed + (perMove * moveCount program + perChange * changeCount program +
        perLoop * loopCount program) := by
  have htally : Tally (fun t l (s : Statement α) => (statement layout t l s).countP p)
      (fun t l ss => (statements layout t l ss).countP p) perMove perChange perLoop :=
    { nil := fun _ _ => rfl
      cons := fun t l s rest => ⟨t + temps s, l + labels s, List.countP_append⟩
      counted := fun t l command count note => by
        -- The items are the same whatever the note is.
        rw [← statement_erase]
        exact h.counted t l command count
      read := fun _ _ _ => by simp [statement, h.transfer]
      write := fun _ _ _ => by simp [statement, h.transfer]
      loop := fun t l body _ => by
        refine ⟨t + 1, l + 1, ?_⟩
        rw [← h.loop t (t + 1 + tempsAll body) l, statement]
        simp only [List.countP_append, List.countP_cons, List.countP_nil]
        omega }
  rw [items_mainFunction, body, List.countP_append, List.countP_append, htally.total, ← h.frame]
  omega

def isComparison : Instr → Bool
  | .assign _ _ (.above _ _ _) => true
  | _ => false

def movesPtr (i : Instr) : Bool := "ptr" ∈ i.assigns

theorem rates_isComparison (layout : Tape) : Rates layout (Item.isInstr isComparison) 0 1 0 0 where
  frame := rfl
  counted _ _ command _ := by cases command <;> rfl
  transfer _ _ := rfl
  loop _ _ _ := rfl

theorem rates_movesPtr (layout : Tape) : Rates layout (Item.isInstr movesPtr) 1 1 0 0 where
  frame := rfl
  counted _ _ command _ := by
    cases command <;> simp [statement, move, change, guard, loadCell, Item.isInstr, movesPtr,
      Instr.assigns, Qbe.Value.temps, temp_eq, ptr, (tempName_ne_ptr _).symm, Counted.isMove]
  transfer _ _ := rfl
  loop _ _ _ := by
    simp [test, loadCell, Item.isInstr, movesPtr, Instr.assigns, Qbe.Value.temps, temp_eq,
      (tempName_ne_ptr _).symm]

theorem rates_isLabel (layout : Tape) : Rates layout Item.isLabel 2 2 0 2 where
  frame := rfl
  counted _ _ command _ := by cases command <;> rfl
  transfer _ _ := rfl
  loop _ _ _ := rfl

theorem rates_halt (layout : Tape) :
    Rates layout (Item.isJump (.ret (some (const 1)))) 0 1 0 0 where
  frame := rfl
  counted _ _ command _ := by cases command <;> rfl
  transfer _ _ := rfl
  loop _ _ _ := rfl

theorem rates_end (layout : Tape) :
    Rates layout (Item.isJump (.ret (some (const 0)))) 1 0 0 0 where
  frame := rfl
  counted _ _ command _ := by cases command <;> rfl
  transfer _ _ := rfl
  loop _ _ _ := rfl

/-! ## Label numbers -/

mutual

/-- A statement has a label for every number that it may use. -/
theorem label_mem_statement (layout : Tape) (t l : Nat) {n : Nat} (hl : l ≤ n) (s : Statement α)
    (hn : n < l + labels s) : ∃ stem ∈ stems, label stem n ∈ labelsOf (statement layout t l s) := by
  -- A move has a label `cont` with its first number and a label `halt` with its second.
  have hmove : ∀ operation count, n < l + 2 →
      ∃ stem ∈ stems, label stem n ∈ labelsOf (move operation layout count t l) := by
    intro operation count hlt
    by_cases hfirst : n = l
    · exact ⟨"cont", by decide, by simp [move, guard, labelsOf, hfirst]⟩
    · have hsecond : n = l + 1 := by omega
      exact ⟨"halt", by decide, by simp [move, guard, labelsOf, hsecond]⟩
  match s with
  | .counted .moveLeft count _ => exact hmove .sub count hn
  | .counted .moveRight count _ => exact hmove .add count hn
  | .counted .increment _ _ => exact absurd hl (Nat.not_le_of_lt hn)
  | .counted .decrement _ _ => exact absurd hl (Nat.not_le_of_lt hn)
  | .read _ => exact absurd hl (Nat.not_le_of_lt hn)
  | .write _ => exact absurd hl (Nat.not_le_of_lt hn)
  | .loop body _ =>
    simp only [statement, test, loadCell, labelsOf, Qbe.labelsOf_append, List.nil_append]
    -- The number of the loop itself, or one of its body.
    by_cases hfirst : n = l
    · exact ⟨"loop", by decide, by simp [hfirst]⟩
    · rw [labels] at hn
      obtain ⟨stem, hstem, hmem⟩ :=
        label_mem_statements layout (t + 1) (l + 1) (n := n) (by omega) body (by omega)
      exact ⟨stem, hstem, List.mem_cons_of_mem _ (List.mem_append_left _ hmem)⟩

theorem label_mem_statements (layout : Tape) (t l : Nat) {n : Nat} (hl : l ≤ n)
    (ss : List (Statement α)) (hn : n < l + labelsAll ss) :
    ∃ stem ∈ stems, label stem n ∈ labelsOf (statements layout t l ss) := by
  match ss with
  | [] => exact absurd hl (Nat.not_le_of_lt hn)
  | s :: rest =>
    simp only [statements, Qbe.labelsOf_append, List.mem_append]
    rw [labelsAll] at hn
    by_cases hfirst : n < l + labels s
    · obtain ⟨stem, hstem, hmem⟩ := label_mem_statement layout t l hl s hfirst
      exact ⟨stem, hstem, .inl hmem⟩
    · obtain ⟨stem, hstem, hmem⟩ :=
        label_mem_statements layout (t + temps s) (l + labels s) (n := n) (by omega) rest (by omega)
      exact ⟨stem, hstem, .inr hmem⟩

end

/-! ## Guards -/

/-- Wherever the pointer is assigned, a guard comes next. -/
def GuardedItems (limit : Number) : List Item → Prop
  | [] => True
  | item :: rest =>
    ("ptr" ∈ item.assigns → ∃ t l behind, rest = guard limit t l ++ behind) ∧
      GuardedItems limit rest

namespace GuardedItems

variable {limit : Number} {xs ys : List Item}

theorem of_append (h : GuardedItems limit (xs ++ ys)) : GuardedItems limit ys := by
  induction xs with
  | nil => exact h
  | cons item rest ih => exact ih h.2

theorem cons {item : Item} (hitem : "ptr" ∉ item.assigns) (hys : GuardedItems limit ys) :
    GuardedItems limit (item :: ys) :=
  ⟨fun hassigns => absurd hassigns hitem, hys⟩

theorem append_left (hxs : "ptr" ∉ assignsOf xs) (hys : GuardedItems limit ys) :
    GuardedItems limit (xs ++ ys) := by
  induction xs with
  | nil => exact hys
  | cons item rest ih =>
    simp only [assignsOf, List.flatMap_cons, List.mem_append, not_or] at hxs
    exact .cons hxs.1 (ih hxs.2)

end GuardedItems

section Guards

variable {layout : Tape} {rest : List Item}

theorem guarded_move (operation : Qbe.Value → Qbe.Value → Qbe.Operation) (count : Number) (t l : Nat)
    (hrest : GuardedItems layout.addressable rest) :
    GuardedItems layout.addressable (move operation layout count t l ++ rest) := by
  refine ⟨fun _ => ⟨t, l, rest, rfl⟩, hrest.append_left ?_⟩
  simp [assignsOf, guard, Qbe.Item.assigns, Instr.assigns, Qbe.Value.temps, temp_eq,
    (tempName_ne_ptr _).symm]

theorem guarded_change (operation : Qbe.Value → Qbe.Value → Qbe.Operation) (count : Number) (t : Nat)
    (hrest : GuardedItems layout.addressable rest) :
    GuardedItems layout.addressable (change operation layout count t ++ rest) := by
  refine hrest.append_left ?_
  simp [assignsOf, change, loadCell, Qbe.Item.assigns, Instr.assigns, Qbe.Value.temps, temp_eq,
    (tempName_ne_ptr _).symm]

theorem guarded_test (t l : Nat) (name : String) (hrest : GuardedItems layout.addressable rest) :
    GuardedItems layout.addressable (test layout.stride t l ++ .label name :: rest) := by
  have hlabel : GuardedItems layout.addressable (.label name :: rest) := .cons List.not_mem_nil hrest
  refine hlabel.append_left ?_
  simp [assignsOf, test, loadCell, Qbe.Item.assigns, Instr.assigns, Qbe.Value.temps, temp_eq,
    (tempName_ne_ptr _).symm]

mutual

theorem guarded_statement (t l : Nat) {rest : List Item}
    (hrest : GuardedItems layout.addressable rest) :
    ∀ s : Statement α, GuardedItems layout.addressable (statement layout t l s ++ rest)
  | .counted .moveLeft count _ => guarded_move .sub count t l hrest
  | .counted .moveRight count _ => guarded_move .add count t l hrest
  | .counted .increment count _ => guarded_change .add count t hrest
  | .counted .decrement count _ => guarded_change .sub count t hrest
  | .read _ => .cons List.not_mem_nil hrest
  | .write _ => .cons List.not_mem_nil hrest
  | .loop body _ => by
    simp only [statement, List.append_assoc, List.cons_append, List.nil_append]
    exact guarded_test _ _ _ (guarded_statements (t + 1) (l + 1) (guarded_test _ _ _ hrest) body)

theorem guarded_statements (t l : Nat) {rest : List Item}
    (hrest : GuardedItems layout.addressable rest) :
    ∀ ss : List (Statement α), GuardedItems layout.addressable (statements layout t l ss ++ rest)
  | [] => hrest
  | s :: more => by
    rw [statements, List.append_assoc]
    exact guarded_statement t l (guarded_statements _ _ hrest more) s

end

end Guards

/-- An assignment to the pointer is followed by the two instructions of a guard and the jump on what
they compare, and by nothing else. -/
def Guarded (limit : Number) (b : Block) : Prop :=
  ∀ before type operation after, b.instrs = before ++ .assign ptr type operation :: after →
    ∃ t l,
      after = [.assign (temp t) .long (.sub ptr tape),
        .assign (temp (t + 1)) .word (.above .long (.const limit) (temp t))] ∧
      b.jump = some (.jnz (temp (t + 1)) (label "cont" l) (label "halt" (l + 1)))

theorem guarded_of_items {limit : Number} {blocks : List Block}
    (h : GuardedItems limit (blocks.flatMap Block.items)) : ∀ b ∈ blocks, Guarded limit b := by
  intro b hb before type operation after hinstrs
  obtain ⟨earlier, later, rfl⟩ := List.append_of_mem hb
  have hsplit : (earlier ++ b :: later).flatMap Block.items =
      (earlier.flatMap Block.items ++ .label b.label :: before.map .instr) ++
        .instr (.assign ptr type operation) :: Qbe.Listing.items ⟨after, b.jump, later⟩ := by
    simp [Block.items, Qbe.Listing.items, hinstrs]
  rw [hsplit] at h
  obtain ⟨t, l, behind, hguard⟩ := h.of_append.1 List.mem_cons_self
  -- Sorting both sides into blocks shows where the rest of this block ends.
  have hlisting := congrArg Qbe.listingOf hguard
  rw [Qbe.Listing.listingOf_items] at hlisting
  exact ⟨t, l, congrArg Qbe.Listing.instrs hlisting, congrArg Qbe.Listing.jump hlisting⟩

/-! ## Whole programs -/

/-- What there is in a function with a number of moves, changes and loops. -/
structure Resources (f : Qbe.Function) (limit : Number) (m c o : Nat) : Prop where
  comparisons : f.instrs.countP isComparison = m
  blocks_length : f.blocks.length = 2 + 2 * m + 2 * o
  halts : f.blocks.countP (fun b => b.jump = some (.ret (some (const 1)))) = m
  ends : f.blocks.countP (fun b => b.jump = some (.ret (some (const 0)))) = 1
  temps_iff : ∀ name, (∃ b ∈ f.blocks, name ∈ b.temps) ↔
    name = "tape" ∨ name = "ptr" ∨ ∃ k < 2 * m + 2 * c + 2 * o, name = tempName k
  label_eq : ∀ b ∈ f.blocks, b.label = "runtime" ∨ b.label = "start" ∨
    ∃ stem ∈ stems, ∃ n < 2 * m + o, b.label = label stem n
  label_used : ∀ n < 2 * m + o, ∃ b ∈ f.blocks, ∃ stem ∈ stems, b.label = label stem n
  moves : f.instrs.countP movesPtr = m + 1
  guards : ∃ runtime later, f.blocks = runtime :: later ∧ runtime.label = "runtime" ∧
    runtime.instrs.filter movesPtr = [.assign ptr .long (.copy tape)] ∧
    ∀ b ∈ later, Guarded limit b

variable (layout : Tape) (program : List (Statement α))

theorem temps_subset_assigns {b : Block} (hb : b ∈ (mainFunction layout program).blocks) :
    b.temps ⊆ (mainFunction layout program).assigns := by
  obtain ⟨runtime, later, hblocks, _, hruntime, htape, hptr, hlater⟩ :=
    scoped_mainFunction layout program
  have hassigns : (mainFunction layout program).assigns =
      runtime.assigns ++ later.flatMap Block.assigns := by
    rw [Qbe.Function.assigns, hblocks, List.flatMap_cons]
  rw [hassigns]
  rw [hblocks] at hb
  intro name hname
  obtain rfl | hb := List.mem_cons.1 hb
  · have hmem := Block.temps_subset hruntime hname
    rw [List.append_nil] at hmem
    exact List.mem_append_left _ hmem
  · obtain hmem | hmem := List.mem_append.1 (Block.temps_subset (hlater b hb) hname)
    · exact List.mem_append_right _ (List.mem_flatMap.2 ⟨b, hb, hmem⟩)
    · -- What a block knows from the start is assigned by the first one.
      apply List.mem_append_left
      simp only [fixedNames, List.mem_cons, List.not_mem_nil, or_false] at hmem
      obtain rfl | rfl := hmem
      · exact htape
      · exact hptr

theorem temps_mainFunction (name : String) :
    (∃ b ∈ (mainFunction layout program).blocks, name ∈ b.temps) ↔
      name = "tape" ∨ name = "ptr" ∨ ∃ k < tempsAll program, name = tempName k := by
  have hassigns := assigns_mainFunction layout program
  constructor
  · rintro ⟨b, hb, hname⟩
    exact name_eq_of_mem hassigns (temps_subset_assigns layout program hb hname)
  · intro h
    have hmem : name ∈ (mainFunction layout program).assigns := by
      obtain rfl | rfl | ⟨k, hk, rfl⟩ := h
      · exact (List.mem_filter.1 (hassigns ▸ List.mem_cons_self)).1
      · exact List.mem_cons_of_mem _ List.mem_cons_self
      · have hnumber : tempName k ∈ (List.range (tempsAll program)).map tempName :=
          List.mem_map_of_mem (List.mem_range.2 hk)
        exact (List.mem_filter.1 (hassigns ▸ List.mem_cons_of_mem _ hnumber)).1
    obtain ⟨b, hb, hname⟩ := List.mem_flatMap.1 hmem
    exact ⟨b, hb, List.mem_append_left _ (List.mem_append_left _ hname)⟩

theorem label_mainFunction {b : Block} (hb : b ∈ (mainFunction layout program).blocks) :
    b.label = "runtime" ∨ b.label = "start" ∨
      ∃ stem ∈ stems, ∃ n < labelsAll program, b.label = label stem n := by
  have hlabel : b.label ∈ (mainFunction layout program).blocks.map Block.label :=
    List.mem_map_of_mem hb
  rw [mainFunction, Qbe.map_label_blocksOf, labelsOf_body, List.mem_cons, List.mem_cons] at hlabel
  obtain hlabel | hlabel | hlabel := hlabel
  · exact .inl hlabel
  · exact .inr (.inl hlabel)
  · obtain ⟨stem, hstem, n, _, hn, hname⟩ :=
      (fresh_statements layout firstTemp firstLabel program).numbered _ hlabel
    rw [firstLabel, Nat.zero_add] at hn
    exact .inr (.inr ⟨stem, hstem, n, hn, hname⟩)

theorem exists_label_mainFunction {n : Nat} (hn : n < labelsAll program) :
    ∃ b ∈ (mainFunction layout program).blocks, ∃ stem ∈ stems, b.label = label stem n := by
  obtain ⟨stem, hstem, hmem⟩ := label_mem_statements layout firstTemp firstLabel (Nat.zero_le n)
    program (by rwa [firstLabel, Nat.zero_add])
  have hlabel : label stem n ∈ (mainFunction layout program).blocks.map Block.label := by
    rw [mainFunction, Qbe.map_label_blocksOf, labelsOf_body]
    exact List.mem_cons_of_mem _ (List.mem_cons_of_mem _ hmem)
  obtain ⟨b, hb, hname⟩ := List.mem_map.1 hlabel
  exact ⟨b, hb, stem, hstem, hname⟩

theorem flatMap_items_later :
    (mainFunction layout program).blocks.tail.flatMap Block.items =
      .label "start" :: startItems layout program := by
  have hitems := items_mainFunction layout program
  rw [Qbe.Function.items, blocks_mainFunction, List.flatMap_append] at hitems
  exact (List.append_right_inj (runtimeBlock layout).items).1 hitems

theorem resources_mainFunction (haccepted : layout.Accepted) :
    Resources (mainFunction layout program) (.ofNat (layout.size * layout.stride.bytes))
      (moveCount program) (changeCount program) (loopCount program) where
  comparisons := by
    rw [← Qbe.Function.countP_isInstr, (rates_isComparison layout).countP_items]
    omega
  blocks_length := by
    rw [← Qbe.Function.countP_isLabel, (rates_isLabel layout).countP_items]
    omega
  halts := by
    rw [← Qbe.Function.countP_isJump, (rates_halt layout).countP_items]
    omega
  ends := by
    rw [← Qbe.Function.countP_isJump, (rates_end layout).countP_items]
    omega
  temps_iff := by
    rw [← tempsAll_eq]
    exact temps_mainFunction layout program
  label_eq := by
    rw [← labelsAll_eq]
    exact fun b => label_mainFunction layout program
  label_used := by
    rw [← labelsAll_eq]
    exact fun n => exists_label_mainFunction layout program
  moves := by
    rw [← Qbe.Function.countP_isInstr, (rates_movesPtr layout).countP_items]
    omega
  guards := by
    refine ⟨runtimeBlock layout, _, blocks_mainFunction layout program, rfl, ?_, ?_⟩
    · rfl
    · rw [← haccepted.addressable_eq]
      have hguarded : GuardedItems layout.addressable (startItems layout program) :=
        guarded_statements firstTemp firstLabel (by simp [GuardedItems, Qbe.Item.assigns]) program
      have hlater := flatMap_items_later layout program
      exact guarded_of_items (hlater ▸ hguarded.cons List.not_mem_nil)

/-- For any accepted choice of tape, a program becomes a function with one comparison and one halting
return for each move, and with as many blocks, temporaries and labels as its moves, changes and loops
need together.  Behind the first block every assignment to the pointer is guarded. -/
theorem lower_resources {options : TapeOptions} {layout : Tape}
    (hresolve : options.resolve = .ok layout) (program : List (Statement α)) :
    ∃ main, lower options program = .ok ⟨[main]⟩ ∧
      Resources main (.ofNat (layout.size * layout.stride.bytes)) (moveCount program)
        (changeCount program) (loopCount program) :=
  ⟨_, lower_eq_ok hresolve program,
    resources_mainFunction layout program (options.resolve_accepted hresolve)⟩

/-- A loop in a loop, with a change in the outer and a move in each. -/
theorem lower_resources_nested :
    TapeOptions.resolve ⟨some (.integer 2), some (.integer 8)⟩ = .ok ⟨.integer 2, .eight⟩ ∧
      ∃ main, lower ⟨some (.integer 2), some (.integer 8)⟩
          [.loop [.counted .moveRight (.integer 1) (), .counted .increment (.integer 3) (),
            .loop [.counted .moveLeft (.integer 1) ()] (), .write ()] ()] = .ok ⟨[main]⟩ ∧
        Resources main (.ofNat 16) 2 1 2 := by
  have hresolve : TapeOptions.resolve ⟨some (.integer 2), some (.integer 8)⟩ =
      .ok ⟨.integer 2, .eight⟩ := by decide
  exact ⟨hresolve, lower_resources hresolve _⟩

end Lowering

end TapeCompiler
