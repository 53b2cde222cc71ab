import TapeCompiler.Proofs.ControlFlow

/-! # What runs behind the prologue

The prologue allocates the tape and clears it, and it is run once: no jump goes back to the block that
it is in.  Behind it only the instructions of statements are run, and there are few kinds of them.

* `Qbe.step_cases`: what a step can do.
* `Qbe.Listing.All`: a condition on everything that is left to run, which steps preserve.
* `Emitted`: the instructions that statements are lowered to.
* `BehindPrologue`: only such instructions are left to run.
-/

namespace TapeCompiler

namespace Qbe

variable {f : Function} {host : Host} {P : Instr → Prop} {Q : Jump → Prop}

/-! ## Single steps -/

/-- What a step that does not end the run can do: an instruction, or going to another block. -/
theorem step_cases {s s' : State} (h : step f host s = .next s') :
    (∃ i rest, s.control = ⟨i :: rest, s'.control.jump, s'.control.blocks⟩ ∧
      s'.control.instrs = rest ∧ s.data.execute host i = some s'.data) ∨
    (s.control.instrs = [] ∧ s'.data = s.data ∧
      ((∃ b ∈ s.control.blocks, s'.control.instrs = b.instrs ∧ s'.control.jump = b.jump ∧
          s'.control.blocks ⊆ s.control.blocks) ∨
        ∃ j target, s.control.jump = some j ∧ target ∈ j.targets ∧
          enter target f.blocks = some s'.control)) := by
  obtain ⟨⟨instrs, jump, blocks⟩, d⟩ := s
  cases instrs with
  | cons i rest =>
    left
    simp only [step] at h
    split at h
    · rename_i d' hexec
      cases h
      exact ⟨i, rest, rfl, rfl, hexec⟩
    · cases h
  | nil =>
    right
    cases jump with
    | none =>
      cases blocks with
      | nil => cases h
      | cons b later =>
        cases h
        exact ⟨rfl, rfl, .inl ⟨b, by simp, rfl, rfl, by simp⟩⟩
    | some j =>
      cases j with
      | ret value =>
        simp only [step] at h
        split at h <;> cases h
      | jnz cond ifNonZero ifZero =>
        simp only [step] at h
        split at h
        · cases h
        · split at h
          · rename_i henter
            cases h
            refine ⟨rfl, rfl, .inr ⟨_, _, rfl, ?_, henter⟩⟩
            split <;> simp [Jump.targets]
          · cases h

/-! ## What is left to run -/

/-- Conditions on the instructions and the jumps in the rest of the open block and in the blocks
behind it. -/
structure Listing.All (P : Instr → Prop) (Q : Jump → Prop) (l : Listing) : Prop where
  instrs : ∀ i ∈ l.instrs, P i
  jump : ∀ j, l.jump = some j → Q j
  blocks : ∀ b ∈ l.blocks, (∀ i ∈ b.instrs, P i) ∧ ∀ j, b.jump = some j → Q j

theorem all_listingOf {items : List Item} (hinstr : ∀ i, .instr i ∈ items → P i)
    (hjump : ∀ j, .jump j ∈ items → Q j) : (listingOf items).All P Q := by
  induction items with
  | nil => exact ⟨by simp [listingOf], by simp [listingOf], by simp [listingOf]⟩
  | cons item rest ih =>
    have hrest := ih (fun i hi => hinstr i (by simp [hi])) (fun j hj => hjump j (by simp [hj]))
    cases item with
    | label name =>
      refine ⟨by simp [listingOf], by simp [listingOf], ?_⟩
      exact List.forall_mem_cons.2 ⟨⟨hrest.instrs, hrest.jump⟩, hrest.blocks⟩
    | instr i =>
      exact ⟨List.forall_mem_cons.2 ⟨hinstr i (by simp), hrest.instrs⟩, hrest.jump, hrest.blocks⟩
    | jump j =>
      -- An earlier jump takes the place of the later ones of its block.
      refine ⟨hrest.instrs, fun j' hj' => ?_, hrest.blocks⟩
      cases hj'
      exact hjump j (by simp)

theorem all_enter {label : String} {blocks : List Block} {l : Listing}
    (h : ∀ b ∈ blocks, (∀ i ∈ b.instrs, P i) ∧ ∀ j, b.jump = some j → Q j)
    (henter : enter label blocks = some l) : l.All P Q := by
  induction blocks with
  | nil => cases henter
  | cons b later ih =>
    obtain ⟨hb, hlater⟩ := List.forall_mem_cons.1 h
    rw [enter] at henter
    split at henter
    · cases henter
      exact ⟨hb.1, hb.2, hlater⟩
    · exact ih hlater henter

/-- Once the first block has been left and no jump goes back to it, only what the other blocks
hold is run. -/
theorem Listing.All.step {first : Block} {later : List Block} (hf : f.blocks = first :: later)
    (hlater : ∀ b ∈ later, (∀ i ∈ b.instrs, P i) ∧ ∀ j, b.jump = some j → Q j)
    (hfirst : ∀ j, Q j → first.label ∉ j.targets) {s s' : State} (h : s.control.All P Q)
    (hstep : Qbe.step f host s = .next s') : s'.control.All P Q := by
  obtain ⟨i, rest, hcontrol, hrest, -⟩ | ⟨-, -, ⟨b, hb, hinstrs, hjump, hblocks⟩ |
    ⟨j, target, hjump, htarget, henter⟩⟩ := step_cases hstep
  · rw [hcontrol] at h
    exact ⟨fun i' hi' => h.instrs i' (by simp [← hrest, hi']), h.jump, h.blocks⟩
  · obtain ⟨hP, hQ⟩ := h.blocks b hb
    exact ⟨by rwa [hinstrs], by rwa [hjump], fun c hc => h.blocks c (hblocks hc)⟩
  · -- A jump goes by the label, so the search passes over the first block.
    have hne : first.label ≠ target := by
      rintro rfl
      exact hfirst j (h.jump j hjump) htarget
    rw [hf, enter, if_neg hne] at henter
    exact all_enter hlater henter

end Qbe

namespace Lowering

open Qbe (Host Item State listingOf)

variable {α : Type} {layout : Tape} {host : Host} {program : List (Statement α)}

/-! ## The instructions behind the prologue -/

def isArithmetic : Qbe.Operation → Bool
  | .add _ _ => true
  | .sub _ _ => true
  | .above _ _ _ => true
  | _ => false

/-- The instructions that statements are lowered to. -/
inductive Emitted (stride : Stride) : Qbe.Instr → Prop where
  | load (t : Nat) : Emitted stride (.assign (temp t) .word (.load (loadOp stride) ptr))
  | store (v : Qbe.Value) : Emitted stride (.store (storeOp stride) v ptr)
  | read : Emitted stride (.call "read" [⟨.word, const 0⟩, ⟨.long, ptr⟩, ⟨.long, const 1⟩])
  | write : Emitted stride (.call "write" [⟨.word, const 1⟩, ⟨.long, ptr⟩, ⟨.long, const 1⟩])
  | compute {dest : Qbe.Value} {type : Qbe.BaseType} {operation : Qbe.Operation} :
      isArithmetic operation → Emitted stride (.assign dest type operation)

theorem emitted_move {operation : Qbe.Value → Qbe.Value → Qbe.Operation}
    (h : ∀ v w, isArithmetic (operation v w)) {count : Number} {t l : Nat} {i : Qbe.Instr}
    (hi : .instr i ∈ move operation layout count t l) : Emitted layout.stride i := by
  simp only [move, guard, List.mem_cons, reduceCtorEq, Item.instr.injEq, List.not_mem_nil,
    or_false] at hi
  obtain rfl | rfl | rfl := hi
  · exact .compute (h _ _)
  · exact .compute rfl
  · exact .compute rfl

theorem emitted_change {operation : Qbe.Value → Qbe.Value → Qbe.Operation}
    (h : ∀ v w, isArithmetic (operation v w)) {count : Number} {t : Nat} {i : Qbe.Instr}
    (hi : .instr i ∈ change operation layout count t) : Emitted layout.stride i := by
  simp only [change, loadCell, List.mem_cons, Item.instr.injEq, List.not_mem_nil, or_false] at hi
  obtain rfl | rfl | rfl := hi
  · exact .load t
  · exact .compute (h _ _)
  · exact .store _

mutual

theorem emitted_statement {t l : Nat} {i : Qbe.Instr} :
    ∀ s : Statement α, .instr i ∈ statement layout t l s → Emitted layout.stride i
  | .counted .moveLeft _ _, hi => emitted_move (fun _ _ => rfl) hi
  | .counted .moveRight _ _, hi => emitted_move (fun _ _ => rfl) hi
  | .counted .increment _ _, hi => emitted_change (fun _ _ => rfl) hi
  | .counted .decrement _ _, hi => emitted_change (fun _ _ => rfl) hi
  | .read _, hi => by
    simp only [statement, transfer, List.mem_singleton, Item.instr.injEq] at hi
    exact hi ▸ .read
  | .write _, hi => by
    simp only [statement, transfer, List.mem_singleton, Item.instr.injEq] at hi
    exact hi ▸ .write
  | .loop body _, hi => by
    simp only [statement, test, loadCell, List.mem_append, List.mem_cons, reduceCtorEq,
      Item.instr.injEq, List.not_mem_nil, or_false, false_or] at hi
    obtain rfl | hi | rfl := hi
    · exact .load t
    · exact emitted_statements body hi
    · exact .load _

theorem emitted_statements {t l : Nat} {i : Qbe.Instr} :
    ∀ ss : List (Statement α), .instr i ∈ statements layout t l ss → Emitted layout.stride i
  | [], hi => by cases hi
  | s :: rest, hi => by
    rw [statements, List.mem_append] at hi
    exact hi.elim (emitted_statement s) (emitted_statements rest)

end

/-- Only emitted instructions are left to run, and no jump goes back to the prologue. -/
abbrev BehindPrologue (stride : Stride) (l : Qbe.Listing) : Prop :=
  l.All (Emitted stride) fun j => "runtime" ∉ j.targets

theorem behindPrologue_start (layout : Tape) (program : List (Statement α)) :
    BehindPrologue layout.stride (listingOf (startItems layout program)) := by
  apply Qbe.all_listingOf
  · intro i hi
    simp only [startItems, List.mem_append, List.mem_singleton, reduceCtorEq, or_false] at hi
    exact emitted_statements program hi
  · intro j hj hruntime
    have hbody : .jump j ∈ body layout program := List.mem_append_right _ hj
    exact (targets_body layout program hbody _ hruntime).2 rfl

theorem BehindPrologue.step {s s' : State} (h : BehindPrologue layout.stride s.control)
    (hstep : Qbe.step (mainFunction layout program) host s = .next s') :
    BehindPrologue layout.stride s'.control := by
  have hstart := behindPrologue_start layout program
  refine Qbe.Listing.All.step (blocks_mainFunction layout program) ?_ (fun _ hj => hj) h hstep
  exact List.forall_mem_cons.2 ⟨⟨hstart.instrs, hstart.jump⟩, hstart.blocks⟩

theorem BehindPrologue.of_reachable {s s' : State} (h : BehindPrologue layout.stride s.control)
    (hs' : Reachable (Qbe.step (mainFunction layout program) host) s s') :
    BehindPrologue layout.stride s'.control :=
  hs'.preserves (P := fun s => BehindPrologue layout.stride s.control) BehindPrologue.step h

end Lowering

end TapeCompiler
