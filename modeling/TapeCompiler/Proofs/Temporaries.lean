import Mathlib.Data.List.Nodup
import TapeCompiler.Proofs.ControlFlow

/-! # The temporaries of a lowered program

Two temporaries live as long as the program: `tape`, which is assigned once, and `ptr`.  All others
have a number, are assigned once, and are not used outside the block that assigns them.

* `Qbe.Block.Scoped`: a block uses a temporary only where it is known.
* `Qbe.ScopedItems`: the same for items, with a label forgetting all temporaries but those two.
* `assigns_statement`: a statement assigns the numbers that it may use, each once and in order.
* `scoped_statement`: whatever is known before a statement, it uses no more than that.
* `lower_temporaries`: the temporaries of a whole program.
-/

namespace TapeCompiler

namespace Qbe

/-! ## What is assigned and what is used -/

def Value.temps : Value → List String
  | .temp name => [name]
  | .const _ => []

def Operation.uses : Operation → List String
  | .copy v => v.temps
  | .add v w => v.temps ++ w.temps
  | .sub v w => v.temps ++ w.temps
  | .load _ address => address.temps
  | .alloc8 _ => []
  | .above _ v w => v.temps ++ w.temps

namespace Instr

def uses : Instr → List String
  | .assign _ _ operation => operation.uses
  | .store _ value address => value.temps ++ address.temps
  | .call _ args => args.flatMap fun a => a.value.temps

def assigns : Instr → List String
  | .assign dest _ _ => dest.temps
  | .store _ _ _ => []
  | .call _ _ => []

/-- Each instruction uses only temporaries that are known or that one before it has assigned. -/
def Scoped (known : List String) : List Instr → Prop
  | [] => True
  | i :: rest => i.uses ⊆ known ∧ Scoped (i.assigns ++ known) rest

theorem Scoped.uses_subset {known : List String} {instrs : List Instr} (h : Scoped known instrs) :
    instrs.flatMap uses ⊆ instrs.flatMap assigns ++ known := by
  induction instrs generalizing known with
  | nil => exact List.nil_subset _
  | cons i rest ih =>
    obtain ⟨huses, hrest⟩ := h
    intro name hname
    rcases List.mem_append.1 hname with hname | hname
    · exact List.mem_append_right _ (huses hname)
    · have hmem := ih hrest hname
      simp only [List.flatMap_cons, List.mem_append] at hmem ⊢
      tauto

end Instr

def Jump.uses : Jump → List String
  | .jnz cond _ _ => cond.temps
  | .ret none => []
  | .ret (some value) => value.temps

/-- Some instructions and the jump behind them use only temporaries that are known before them or
that they have assigned by then. -/
structure Scoped (known : List String) (instrs : List Instr) (jump : Option Jump) : Prop where
  instrs_scoped : Instr.Scoped known instrs
  jump_scoped : ∀ j ∈ jump, j.uses ⊆ instrs.flatMap Instr.assigns ++ known

namespace Block

/-- The temporaries that a block assigns, as often as it does and in that order. -/
def assigns (b : Block) : List String := b.instrs.flatMap Instr.assigns

/-- All temporaries that occur in a block. -/
def temps (b : Block) : List String :=
  b.assigns ++ b.instrs.flatMap Instr.uses ++ b.jump.toList.flatMap Jump.uses

theorem temps_subset {known : List String} {b : Block} (h : Scoped known b.instrs b.jump) :
    b.temps ⊆ b.assigns ++ known := by
  intro name hname
  simp only [temps, List.mem_append, List.mem_flatMap, Option.mem_toList] at hname
  rcases hname with (hname | hname) | ⟨j, hj, hname⟩
  · exact List.mem_append_left _ hname
  · exact h.instrs_scoped.uses_subset (List.mem_flatMap.2 hname)
  · exact h.jump_scoped j hj hname

end Block

/-- The temporaries that a function assigns, as often as it does and in that order. -/
def Function.assigns (f : Function) : List String := f.blocks.flatMap Block.assigns

/-! ## Items -/

def Item.assigns : Item → List String
  | .label _ => []
  | .instr i => i.assigns
  | .jump _ => []

def assignsOf (items : List Item) : List String := items.flatMap Item.assigns

theorem assigns_listingOf (items : List Item) :
    (listingOf items).instrs.flatMap Instr.assigns ++ (blocksOf items).flatMap Block.assigns =
      assignsOf items := by
  induction items with
  | nil => rfl
  | cons item rest ih =>
    simp only [assignsOf, List.flatMap_cons] at ih ⊢
    rw [← ih]
    cases item <;> simp [listingOf, blocksOf, Item.assigns, Block.assigns]

/-- Each item uses only temporaries that are known where it stands.  Behind a label no more are known
than at the start of any block. -/
def ScopedItems (fixed known : List String) : List Item → Prop
  | [] => True
  | .label _ :: rest => ScopedItems fixed fixed rest
  | .instr i :: rest => i.uses ⊆ known ∧ ScopedItems fixed (i.assigns ++ known) rest
  | .jump j :: rest => j.uses ⊆ known ∧ ScopedItems fixed known rest

theorem scoped_of_items {fixed known : List String} {items : List Item}
    (h : ScopedItems fixed known items) :
    Scoped known (listingOf items).instrs (listingOf items).jump ∧
      ∀ b ∈ (listingOf items).blocks, Scoped fixed b.instrs b.jump := by
  induction items generalizing known with
  | nil => exact ⟨⟨trivial, fun j hj => by cases hj⟩, List.forall_mem_nil _⟩
  | cons item rest ih =>
    cases item with
    | label name => exact ⟨⟨trivial, fun j hj => by cases hj⟩, List.forall_mem_cons.2 (ih h)⟩
    | instr i =>
      obtain ⟨huses, hrest⟩ := h
      obtain ⟨hfirst, hlater⟩ := ih hrest
      refine ⟨⟨⟨huses, hfirst.instrs_scoped⟩, fun j hj name hname => ?_⟩, hlater⟩
      have hmem := hfirst.jump_scoped j hj hname
      simp only [listingOf, List.flatMap_cons, List.mem_append] at hmem ⊢
      tauto
    | jump j =>
      obtain ⟨huses, hrest⟩ := h
      obtain ⟨hfirst, hlater⟩ := ih hrest
      refine ⟨⟨hfirst.instrs_scoped, fun other hother => ?_⟩, hlater⟩
      cases hother
      exact List.subset_append_of_subset_right _ huses

end Qbe

namespace Lowering

open Qbe (ScopedItems assignsOf)

variable {α : Type}

/-! ## Statements -/

/-- The name of the temporary with a number. -/
def tempName (n : Nat) : String := "v" ++ Number.natText n

/-- The temporaries without a number. -/
def fixedNames : List String := ["tape", "ptr"]

theorem temp_eq (n : Nat) : temp n = .temp (tempName n) := rfl

theorem tempName_injective {m n : Nat} (h : tempName m = tempName n) : m = n :=
  Number.natText_injective ((String.append_right_inj "v").1 h)

theorem tempName_ne_ptr (n : Nat) : tempName n ≠ "ptr" := temp_ne_ptr n

theorem tempName_ne_tape (n : Nat) : tempName n ≠ "tape" := temp_ne_tape n

theorem filter_pair (t : Nat) :
    [tempName t, tempName (t + 1)].filter (· ≠ "ptr") = (List.range' t 2).map tempName := by
  simp [tempName_ne_ptr, List.range'_succ]

mutual

/-- Apart from the pointer a statement assigns its own numbers, each once and in order. -/
theorem assigns_statement (layout : Tape) (t l : Nat) :
    ∀ s : Statement α, (assignsOf (statement layout t l s)).filter (· ≠ "ptr") =
      (List.range' t (temps s)).map tempName
  | .counted .moveLeft _ _ => filter_pair t
  | .counted .moveRight _ _ => filter_pair t
  | .counted .increment _ _ => filter_pair t
  | .counted .decrement _ _ => filter_pair t
  | .read _ => rfl
  | .write _ => rfl
  | .loop body note => by
    have hbody := assigns_statements layout (t + 1) (l + 1) body
    have hnames : assignsOf (statement layout t l (.loop body note)) =
        tempName t :: (assignsOf (statements layout (t + 1) (l + 1) body) ++
          [tempName (t + 1 + tempsAll body)]) := by
      simp [assignsOf, statement, test, loadCell, Qbe.Item.assigns, Qbe.Instr.assigns, temp_eq,
        Qbe.Value.temps]
    -- The two tests of the loop have the first and the last number.
    have hnumbers : temps (.loop body note) = tempsAll body + 1 + 1 := by
      rw [temps]
      omega
    rw [hnames, hnumbers, List.range'_succ, List.range'_concat]
    simpa [tempName_ne_ptr] using hbody

theorem assigns_statements (layout : Tape) (t l : Nat) :
    ∀ ss : List (Statement α), (assignsOf (statements layout t l ss)).filter (· ≠ "ptr") =
      (List.range' t (tempsAll ss)).map tempName
  | [] => rfl
  | s :: rest => by
    have hs := assigns_statement layout t l s
    have hrest := assigns_statements layout (t + temps s) (l + labels s) rest
    rw [statements, assignsOf, List.flatMap_append, List.filter_append]
    rw [assignsOf] at hs hrest
    rw [hs, hrest, tempsAll, ← List.map_append, List.range'_append_1]

end

/-- Items that use no more than what every block knows, whatever else is known before them. -/
def ScopedAnywhere (items : List Qbe.Item) : Prop :=
  ∀ known, fixedNames ⊆ known → ScopedItems fixedNames known items

theorem ScopedAnywhere.label {rest : List Qbe.Item} (name : String) (h : ScopedAnywhere rest) :
    ScopedAnywhere (.label name :: rest) := fun _ _ => h fixedNames (List.Subset.refl _)

section Operations

variable {operation : Qbe.Value → Qbe.Value → Qbe.Operation}
  (uses_eq : ∀ v w, (operation v w).uses = v.temps ++ w.temps)

include uses_eq

theorem scoped_move (layout : Tape) (count : Number) (t l : Nat) {rest : List Qbe.Item}
    (hrest : ScopedAnywhere rest) : ScopedAnywhere (move operation layout count t l ++ rest) := by
  intro known hknown
  have htape : "tape" ∈ known := hknown (by decide)
  have hptr : "ptr" ∈ known := hknown (by decide)
  have hcont := hrest fixedNames (List.Subset.refl _)
  simp only [move, guard, List.cons_append, List.nil_append, ScopedItems, Qbe.Instr.uses, uses_eq]
  simp [Qbe.Instr.assigns, Qbe.Operation.uses, Qbe.Value.temps, Qbe.Jump.uses, tape, ptr, temp_eq,
    const, htape, hptr, hcont]

theorem scoped_change (layout : Tape) (count : Number) (t : Nat) {rest : List Qbe.Item}
    (hrest : ScopedAnywhere rest) : ScopedAnywhere (change operation layout count t ++ rest) := by
  intro known hknown
  have hptr : "ptr" ∈ known := hknown (by decide)
  have hafter := hrest (tempName (t + 1) :: tempName t :: known)
    (fun name hname => by simp [hknown hname])
  simp only [change, loadCell, List.cons_append, List.nil_append, ScopedItems, Qbe.Instr.uses,
    uses_eq]
  simp [Qbe.Instr.assigns, Qbe.Operation.uses, Qbe.Value.temps, ptr, temp_eq, hptr, hafter]

end Operations

theorem scoped_transfer (target : String) (descriptor : Nat) {rest : List Qbe.Item}
    (hrest : ScopedAnywhere rest) : ScopedAnywhere (transfer target descriptor :: rest) := by
  intro known hknown
  have hptr : "ptr" ∈ known := hknown (by decide)
  have hafter := hrest known hknown
  simp [transfer, ScopedItems, Qbe.Instr.uses, Qbe.Instr.assigns, Qbe.Value.temps, ptr, const, hptr,
    hafter]

theorem scoped_test (stride : Stride) (t l : Nat) {rest : List Qbe.Item}
    (hrest : ScopedAnywhere rest) : ScopedAnywhere (test stride t l ++ rest) := by
  intro known hknown
  have hptr : "ptr" ∈ known := hknown (by decide)
  have hafter := hrest (tempName t :: known) (fun name hname => by simp [hknown hname])
  simp [test, loadCell, ScopedItems, Qbe.Instr.uses, Qbe.Instr.assigns, Qbe.Operation.uses,
    Qbe.Value.temps, Qbe.Jump.uses, ptr, temp_eq, hptr, hafter]

mutual

/-- Nothing behind a statement needs a temporary of it. -/
theorem scoped_statement (layout : Tape) (t l : Nat) {rest : List Qbe.Item}
    (hrest : ScopedAnywhere rest) :
    ∀ s : Statement α, ScopedAnywhere (statement layout t l s ++ rest)
  | .counted .moveLeft count _ => scoped_move (fun _ _ => rfl) layout count t l hrest
  | .counted .moveRight count _ => scoped_move (fun _ _ => rfl) layout count t l hrest
  | .counted .increment count _ => scoped_change (fun _ _ => rfl) layout count t hrest
  | .counted .decrement count _ => scoped_change (fun _ _ => rfl) layout count t hrest
  | .read _ => scoped_transfer "read" 0 hrest
  | .write _ => scoped_transfer "write" 1 hrest
  | .loop body _ => by
    simp only [statement, List.append_assoc, List.cons_append, List.nil_append]
    exact scoped_test _ _ _ (.label _ (scoped_statements layout (t + 1) (l + 1)
      (scoped_test _ _ _ (.label _ hrest)) body))

theorem scoped_statements (layout : Tape) (t l : Nat) {rest : List Qbe.Item}
    (hrest : ScopedAnywhere rest) :
    ∀ ss : List (Statement α), ScopedAnywhere (statements layout t l ss ++ rest)
  | [] => hrest
  | s :: more => by
    rw [statements, List.append_assoc]
    exact scoped_statement layout t l (scoped_statements layout _ _ hrest more) s

end

/-! ## Whole programs -/

theorem assigns_body (layout : Tape) (program : List (Statement α)) :
    (assignsOf (body layout program)).filter (· ≠ "ptr") =
      "tape" :: (List.range (tempsAll program)).map tempName := by
  have hprogram := assigns_statements layout firstTemp firstLabel program
  rw [firstTemp, ← List.range_eq_range'] at hprogram
  have hnames : assignsOf (body layout program) =
      "tape" :: "ptr" :: assignsOf (statements layout 0 firstLabel program) := by
    simp [assignsOf, body, prologue, Qbe.Item.assigns, Qbe.Instr.assigns, tape, ptr, Qbe.Value.temps,
      firstTemp]
  rw [hnames]
  simpa using hprogram

theorem assigns_mainFunction (layout : Tape) (program : List (Statement α)) :
    (mainFunction layout program).assigns.filter (· ≠ "ptr") =
      "tape" :: (List.range (tempsAll program)).map tempName := by
  rw [← assigns_body layout program, ← Qbe.assigns_listingOf]
  rfl

theorem scoped_mainFunction (layout : Tape) (program : List (Statement α)) :
    ∃ runtime later, (mainFunction layout program).blocks = runtime :: later ∧
      runtime.label = "runtime" ∧ Qbe.Scoped [] runtime.instrs runtime.jump ∧
      "tape" ∈ runtime.assigns ∧ "ptr" ∈ runtime.assigns ∧
      ∀ b ∈ later, Qbe.Scoped fixedNames b.instrs b.jump := by
  have hend : ScopedAnywhere [.jump (.ret (some (const 0)))] :=
    fun _ _ => ⟨List.nil_subset _, trivial⟩
  have hstart := Qbe.scoped_of_items
    (scoped_statements layout firstTemp firstLabel hend program fixedNames (List.Subset.refl _))
  have hassigns : (runtimeBlock layout).assigns = ["tape", "ptr"] := rfl
  refine ⟨runtimeBlock layout, _, blocks_mainFunction layout program, rfl, ⟨?_, fun j hj => ?_⟩,
    by simp [hassigns], by simp [hassigns], List.forall_mem_cons.2 hstart⟩
  · simp [runtimeBlock, Qbe.Instr.Scoped, Qbe.Instr.uses, Qbe.Instr.assigns, Qbe.Operation.uses,
      Qbe.Value.temps, tape, ptr, const]
  · cases hj

section Counting

variable {names : List String} {n : Nat}
  (hnames : names.filter (· ≠ "ptr") = "tape" :: (List.range n).map tempName)

include hnames

theorem count_tape : names.count "tape" = 1 := by
  have hnone : ((List.range n).map tempName).count "tape" = 0 := by
    rw [List.count_eq_zero]
    intro hmem
    obtain ⟨k, _, hk⟩ := List.mem_map.1 hmem
    exact tempName_ne_tape k hk
  have hkept : decide ("tape" ≠ "ptr") = true := by decide
  rw [← List.count_filter (p := (· ≠ "ptr")) hkept, hnames, List.count_cons_self, hnone]

theorem count_tempName {k : Nat} (hk : k < n) : names.count (tempName k) = 1 := by
  have hnodup : ((List.range n).map tempName).Nodup :=
    List.Nodup.map (fun _ _ => tempName_injective) List.nodup_range
  have hmem : tempName k ∈ (List.range n).map tempName :=
    List.mem_map_of_mem (List.mem_range.2 hk)
  have hkept : decide (tempName k ≠ "ptr") = true := decide_eq_true (tempName_ne_ptr k)
  rw [← List.count_filter (p := (· ≠ "ptr")) hkept, hnames,
    List.count_cons_of_ne (tempName_ne_tape k).symm]
  exact List.count_eq_one_of_mem hnodup hmem

theorem name_eq_of_mem {name : String} (h : name ∈ names) :
    name = "tape" ∨ name = "ptr" ∨ ∃ k < n, name = tempName k := by
  by_cases hptr : name = "ptr"
  · exact .inr (.inl hptr)
  · have hmem : name ∈ names.filter (· ≠ "ptr") :=
      List.mem_filter.2 ⟨h, decide_eq_true hptr⟩
    rw [hnames] at hmem
    rcases List.mem_cons.1 hmem with htape | hmem
    · exact .inl htape
    · obtain ⟨k, hk, hname⟩ := List.mem_map.1 hmem
      exact .inr (.inr ⟨k, List.mem_range.1 hk, hname.symm⟩)

end Counting

/-- The temporaries of a lowered program.  Apart from the assignments to `ptr` there is one to `tape`
and then one to each number below some `n`, in this order.  The first block assigns `tape` and `ptr`
before it uses them, a temporary with a number is used only behind its assignment and in the same
block, and no other temporary occurs. -/
theorem lower_temporaries {options : TapeOptions} {layout : Tape}
    (hresolve : options.resolve = .ok layout) (program : List (Statement α)) :
    ∃ main n, lower options program = .ok ⟨[main]⟩ ∧
      main.assigns.filter (· ≠ "ptr") = "tape" :: (List.range n).map tempName ∧
      main.assigns.count "tape" = 1 ∧ (∀ k < n, main.assigns.count (tempName k) = 1) ∧
      (∃ runtime later, main.blocks = runtime :: later ∧ runtime.label = "runtime" ∧
        Qbe.Scoped [] runtime.instrs runtime.jump ∧
        "tape" ∈ runtime.assigns ∧ "ptr" ∈ runtime.assigns ∧
        ∀ b ∈ later, Qbe.Scoped ["tape", "ptr"] b.instrs b.jump) ∧
      ∀ b ∈ main.blocks, ∀ name ∈ b.temps,
        name = "tape" ∨ name = "ptr" ∨ ∃ k < n, name = tempName k := by
  have hassigns := assigns_mainFunction layout program
  have hscoped := scoped_mainFunction layout program
  refine ⟨_, _, lower_eq_ok hresolve program, hassigns, count_tape hassigns,
    fun k => count_tempName hassigns, hscoped, fun b hb name hname => ?_⟩
  have hassigned : ∀ x ∈ b.assigns, x = "tape" ∨ x = "ptr" ∨ ∃ k < _, x = tempName k :=
    fun x hx => name_eq_of_mem hassigns (List.mem_flatMap.2 ⟨b, hb, hx⟩)
  obtain ⟨runtime, later, hblocks, _, hruntime, _, _, hlater⟩ := hscoped
  rw [hblocks] at hb
  -- A block mentions only what it assigns and what it knew before.
  rcases List.mem_cons.1 hb with rfl | hb
  · have hmem := Qbe.Block.temps_subset hruntime hname
    rw [List.append_nil] at hmem
    exact hassigned name hmem
  · rcases List.mem_append.1 (Qbe.Block.temps_subset (hlater b hb) hname) with hmem | hmem
    · exact hassigned name hmem
    · simp only [fixedNames, List.mem_cons, List.not_mem_nil, or_false] at hmem
      rcases hmem with rfl | rfl
      · exact .inl rfl
      · exact .inr (.inl rfl)

/-- A loop around a move, and a change behind it. -/
theorem lower_temporaries_loop :
    TapeOptions.resolve ⟨none, none⟩ = .ok ⟨.integer 30000, .one⟩ ∧
      ∃ main n, lower ⟨none, none⟩ [.loop [.counted .moveRight (.integer 1) ()] (),
          .counted .increment (.integer 2) ()] = .ok ⟨[main]⟩ ∧
        main.assigns = ["tape", "ptr", "v0", "ptr", "v1", "v2", "v3", "v4", "v5"] ∧
        main.assigns.filter (· ≠ "ptr") = "tape" :: (List.range n).map tempName ∧
        ∀ b ∈ main.blocks, ∀ name ∈ b.temps,
          name = "tape" ∨ name = "ptr" ∨ ∃ k < n, name = tempName k := by
  refine ⟨by decide, ?_⟩
  obtain ⟨main, n, hlower, hassigns, _, _, _, hnames⟩ := lower_temporaries
    (by decide : TapeOptions.resolve ⟨none, none⟩ = .ok ⟨.integer 30000, .one⟩)
    [.loop [.counted .moveRight (.integer 1) ()] (), .counted .increment (.integer 2) ()]
  refine ⟨main, n, hlower, ?_, hassigns, hnames⟩
  cases hlower
  decide

end Lowering

end TapeCompiler
