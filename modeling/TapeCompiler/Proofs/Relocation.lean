import TapeCompiler.Proofs.Emission

/-! # Emission is relocatable

The numbers of a statement matter only relative to the counters that it starts from.  With other
counters the same items come out, except that the number in every numbered name is shifted.

* `Qbe.Renaming`: new names for temporaries and labels, carried through items and blocks.
* `relocation`: adds to the numbers of temporaries and to those of labels.
* `statement_relocate`: the items of a statement from shifted counters.
* `emission_relocates`: what is emitted from any counters, in terms of what is emitted from zero.
-/

namespace TapeCompiler

/-! ## Renaming -/

namespace Qbe

/-- New names for temporaries and for labels. -/
structure Renaming where
  temp : String → String
  label : String → String

variable (r : Renaming)

def Value.rename : Value → Value
  | .temp name => .temp (r.temp name)
  | .const n => .const n

def Operation.rename : Operation → Operation
  | .copy v => .copy (v.rename r)
  | .add v w => .add (v.rename r) (w.rename r)
  | .sub v w => .sub (v.rename r) (w.rename r)
  | .load op address => .load op (address.rename r)
  | .alloc8 bytes => .alloc8 bytes
  | .above type v w => .above type (v.rename r) (w.rename r)

/-- Renames the temporaries of an instruction.  The target of a call is neither a temporary nor a
label of the function. -/
def Instr.rename : Instr → Instr
  | .assign dest type operation => .assign (dest.rename r) type (operation.rename r)
  | .store op value address => .store op (value.rename r) (address.rename r)
  | .call target args => .call target (args.map fun a => ⟨a.type, a.value.rename r⟩)

def Jump.rename : Jump → Jump
  | .jnz cond ifNonZero ifZero => .jnz (cond.rename r) (r.label ifNonZero) (r.label ifZero)
  | .ret value => .ret (value.map (Value.rename r))

def Block.rename (b : Block) : Block :=
  ⟨r.label b.label, b.instrs.map (Instr.rename r), b.jump.map (Jump.rename r)⟩

def Item.rename : Item → Item
  | .label name => .label (r.label name)
  | .instr i => .instr (i.rename r)
  | .jump j => .jump (j.rename r)

def Listing.rename (l : Listing) : Listing :=
  ⟨l.instrs.map (Instr.rename r), l.jump.map (Jump.rename r), l.blocks.map (Block.rename r)⟩

theorem listingOf_rename (items : List Item) :
    listingOf (items.map (Item.rename r)) = (listingOf items).rename r := by
  induction items with
  | nil => rfl
  | cons item rest ih =>
    cases item <;> simp [listingOf, Item.rename, ih, Listing.rename, Block.rename]

end Qbe

namespace Lowering

open Qbe (Block Item Listing Operation Renaming Value)

variable {α : Type}

/-! ## Numbers in names -/

/-- The number of a name that consists of a stem and a number. -/
def numberAfter? (stem name : String) : Option Nat :=
  -- Any characters are read as digits here, so the name is written again and compared.
  let n := Nat.ofDigitChars 10 (name.toList.drop stem.toList.length) 0
  if name = label stem n then some n else none

theorem numberAfter?_label (stem : String) (n : Nat) : numberAfter? stem (label stem n) = some n := by
  have hdigits : Nat.ofDigitChars 10 ((label stem n).toList.drop stem.toList.length) 0 = n := by
    have htext : (Number.natText n).toList = Nat.toDigits 10 n := String.toList_ofList
    rw [label, String.toList_append, List.drop_left, htext, Nat.ofDigitChars_ten_toDigits]
  simp [numberAfter?, hdigits]

theorem eq_label_of_numberAfter? {stem name : String} {n : Nat} (h : numberAfter? stem name = some n) :
    name = label stem n := by
  simp only [numberAfter?] at h
  split at h
  · rename_i hname
    cases h
    exact hname
  · cases h

/-- Adds to the number of a name with one of the stems. -/
def shiftNumber (stems : List String) (amount : Nat) (name : String) : String :=
  (stems.findSome? fun stem =>
    (numberAfter? stem name).map fun n => label stem (n + amount)).getD name

theorem shiftNumber_label {stems : List String} {stem : String} {n : Nat} (hstem : stem ∈ stems)
    (hunique : ∀ other ∈ stems, ∀ m, label stem n = label other m → other = stem ∧ m = n)
    (amount : Nat) : shiftNumber stems amount (label stem n) = label stem (n + amount) := by
  have hown : (numberAfter? stem (label stem n)).map (fun m => label stem (m + amount)) =
      some (label stem (n + amount)) := by
    rw [numberAfter?_label, Option.map_some]
  cases hfound : stems.findSome? fun other =>
      (numberAfter? other (label stem n)).map fun m => label other (m + amount) with
  | none =>
    have hnone := List.findSome?_eq_none_iff.1 hfound stem hstem
    rw [hown] at hnone
    cases hnone
  | some name =>
    -- Whichever stem is found, the name consists of it and a number, and only `stem` is such a one.
    obtain ⟨other, hother, hname⟩ := List.exists_of_findSome?_eq_some hfound
    obtain ⟨m, hm, rfl⟩ := Option.map_eq_some_iff.1 hname
    obtain ⟨rfl, rfl⟩ := hunique other hother m (eq_label_of_numberAfter? hm)
    rw [shiftNumber, hfound, Option.getD_some]

theorem shiftNumber_of_ne {stems : List String} {name : String}
    (h : ∀ stem ∈ stems, ∀ n, name ≠ label stem n) (amount : Nat) :
    shiftNumber stems amount name = name := by
  have hnone : (stems.findSome? fun stem =>
      (numberAfter? stem name).map fun n => label stem (n + amount)) = none := by
    rw [List.findSome?_eq_none_iff]
    intro stem hstem
    cases hnumber : numberAfter? stem name with
    | none => rfl
    | some n => exact absurd (eq_label_of_numberAfter? hnumber) (h stem hstem n)
  rw [shiftNumber, hnone, Option.getD_none]

/-! ## Relocation -/

/-- Adds `t` to the number of every numbered temporary and `l` to that of every numbered label. -/
def relocation (t l : Nat) : Renaming := ⟨shiftNumber ["v"] t, shiftNumber stems l⟩

section Names

variable (t l : Nat)

theorem rename_temp (n : Nat) : (temp n).rename (relocation t l) = temp (n + t) := by
  have hname : shiftNumber ["v"] t (label "v" n) = label "v" (n + t) := by
    apply shiftNumber_label (List.mem_singleton_self _)
    intro other hother m hlabel
    cases List.mem_singleton.1 hother
    exact ⟨rfl, (Number.natText_injective ((String.append_right_inj "v").1 hlabel)).symm⟩
  exact congrArg Value.temp hname

theorem rename_fixed {name : String} (h : ∀ n, "v" ++ Number.natText n ≠ name) :
    (Value.temp name).rename (relocation t l) = .temp name := by
  have hname : shiftNumber ["v"] t name = name := by
    apply shiftNumber_of_ne
    intro stem hstem n
    cases List.mem_singleton.1 hstem
    exact (h n).symm
  exact congrArg Value.temp hname

theorem rename_tape : tape.rename (relocation t l) = tape := rename_fixed t l temp_ne_tape

theorem rename_ptr : ptr.rename (relocation t l) = ptr := rename_fixed t l temp_ne_ptr

theorem rename_const (n : Number) : (Value.const n).rename (relocation t l) = .const n := rfl

theorem rename_label {stem : String} (hstem : stem ∈ stems) (n : Nat) :
    (relocation t l).label (label stem n) = label stem (n + l) := by
  apply shiftNumber_label hstem
  intro other hother m hlabel
  obtain ⟨rfl, rfl⟩ := label_injective hstem hother hlabel
  exact ⟨rfl, rfl⟩

end Names

/-! ## Statements -/

section Parts

variable (t l t₀ l₀ : Nat)

theorem rename_load (op : Qbe.LoadOp) :
    (Operation.load op ptr).rename (relocation t l) = .load op ptr := by
  rw [Operation.rename, rename_ptr]

theorem test_relocate (stride : Stride) :
    test stride (t₀ + t) (l₀ + l) = (test stride t₀ l₀).map (Item.rename (relocation t l)) := by
  have hloop := rename_label t l (by decide : "loop" ∈ stems) l₀
  have hend := rename_label t l (by decide : "end" ∈ stems) l₀
  simp [test, loadCell, Item.rename, Qbe.Instr.rename, Qbe.Jump.rename, rename_temp, rename_load, hloop,
    hend]

theorem guard_relocate (limit : Number) :
    guard limit (t₀ + t) (l₀ + l) = (guard limit t₀ l₀).map (Item.rename (relocation t l)) := by
  have hcont := rename_label t l (by decide : "cont" ∈ stems) l₀
  have hhalt := rename_label t l (by decide : "halt" ∈ stems) (l₀ + 1)
  simp [guard, Item.rename, Qbe.Instr.rename, Operation.rename, Qbe.Jump.rename, rename_temp, rename_ptr,
    rename_tape, rename_const, const, hcont, hhalt, Nat.add_right_comm]

theorem transfer_relocate (target : String) (descriptor : Nat) :
    (transfer target descriptor).rename (relocation t l) = transfer target descriptor := by
  simp [transfer, Item.rename, Qbe.Instr.rename, rename_ptr, rename_const, const]

variable {operation : Value → Value → Operation}
  (rename_eq : ∀ r v w, (operation v w).rename r = operation (v.rename r) (w.rename r))

include rename_eq

theorem move_relocate (layout : Tape) (count : Number) :
    move operation layout count (t₀ + t) (l₀ + l) =
      (move operation layout count t₀ l₀).map (Item.rename (relocation t l)) := by
  simp [move, guard_relocate, Item.rename, Qbe.Instr.rename, rename_eq, rename_ptr, rename_const]

theorem change_relocate (layout : Tape) (count : Number) :
    change operation layout count (t₀ + t) =
      (change operation layout count t₀).map (Item.rename (relocation t l)) := by
  simp [change, loadCell, Item.rename, Qbe.Instr.rename, rename_eq, rename_temp, rename_ptr, rename_load,
    rename_const, Nat.add_right_comm]

end Parts

mutual

/-- From shifted counters a statement has the same items with shifted numbers. -/
theorem statement_relocate (layout : Tape) (t l t₀ l₀ : Nat) :
    ∀ s : Statement α, statement layout (t₀ + t) (l₀ + l) s =
      (statement layout t₀ l₀ s).map (Item.rename (relocation t l))
  | .counted .moveLeft count _ => move_relocate t l t₀ l₀ (fun _ _ _ => rfl) layout count
  | .counted .moveRight count _ => move_relocate t l t₀ l₀ (fun _ _ _ => rfl) layout count
  | .counted .increment count _ => change_relocate t l t₀ (fun _ _ _ => rfl) layout count
  | .counted .decrement count _ => change_relocate t l t₀ (fun _ _ _ => rfl) layout count
  | .read _ => by simp [statement, transfer_relocate]
  | .write _ => by simp [statement, transfer_relocate]
  | .loop body _ => by
    -- The body starts one number later, and the second test comes behind the numbers of the body.
    have hbody := statements_relocate layout t l (t₀ + 1) (l₀ + 1) body
    have hfirst := test_relocate t l t₀ l₀ layout.stride
    have hsecond := test_relocate t l (t₀ + 1 + tempsAll body) l₀ layout.stride
    have hloop := rename_label t l (by decide : "loop" ∈ stems) l₀
    have hend := rename_label t l (by decide : "end" ∈ stems) l₀
    rw [Nat.add_right_comm t₀, Nat.add_right_comm l₀] at hbody
    rw [Nat.add_right_comm (t₀ + 1), Nat.add_right_comm t₀] at hsecond
    simp only [statement, List.map_append, List.map_cons, List.map_nil, hfirst, hbody, hsecond,
      Item.rename, hloop, hend]

theorem statements_relocate (layout : Tape) (t l t₀ l₀ : Nat) :
    ∀ ss : List (Statement α), statements layout (t₀ + t) (l₀ + l) ss =
      (statements layout t₀ l₀ ss).map (Item.rename (relocation t l))
  | [] => rfl
  | s :: rest => by
    have hs := statement_relocate layout t l t₀ l₀ s
    have hrest := statements_relocate layout t l (t₀ + temps s) (l₀ + labels s) rest
    rw [Nat.add_right_comm t₀, Nat.add_right_comm l₀] at hrest
    rw [statements, statements, List.map_append, hs, hrest]

end

/-! ## Emission -/

theorem emitAll_append (xs ys : List (Statement α)) :
    emitAll (xs ++ ys) = (do emitAll xs; emitAll ys) := by
  induction xs with
  | nil => simp [emitAll]
  | cons s rest ih => simp [emitAll, ih]

/-- While a block is open, emission goes on with that block and leaves everything before it alone. -/
theorem emitAll_open {c : Context} {earlier : List Block} {last : Block}
    (hblocks : c.function.blocks = earlier ++ [last]) (hopen : last.jump = none)
    (ss : List (Statement α)) :
    (emitAll ss).run c = .ok ((), ⟨c.function.withBlocks (earlier ++
        last.resume (Qbe.listingOf (statements c.layout c.nextTemp c.nextLabel ss))),
      c.nextTemp + tempsAll ss, c.nextLabel + labelsAll ss, c.layout⟩) := by
  have hflow : (Qbe.flow true (statements c.layout c.nextTemp c.nextLabel ss)).isSome := by
    rw [flow_statements]
    rfl
  have hbuilt := (Qbe.builds_of_flow hflow c.function earlier
    (by rw [hopen]; rfl : last.jump.isNone = true)).appendAll_eq
  -- The items go behind the blocks that the function has already.
  have hsame : c.function.withBlocks (earlier ++ [last]) = c.function := by
    rw [← hblocks]
    rfl
  rw [hsame] at hbuilt
  rw [emitAll_run, Context.write, hbuilt]
  rfl

/-- Emission is relocatable.  From a context with an open block, statements are emitted without an
error.  What they append to that block and behind it is what they append from the same context with
both counters at zero, with the numbers of temporaries and labels shifted by the counters; nothing
else in the function changes, and how far the counters move depends on the statements alone.
Emitting two lists of statements one after the other is emitting them as one list. -/
theorem emission_relocates {c : Context} {earlier : List Block} {last : Block}
    (hblocks : c.function.blocks = earlier ++ [last]) (hopen : last.jump = none)
    (ss : List (Statement α)) :
    (∃ appended : Listing, appended = Qbe.listingOf (statements c.layout 0 0 ss) ∧
      (emitAll ss).run { c with nextTemp := 0, nextLabel := 0 } =
        .ok ((), { c with
          function := c.function.withBlocks (earlier ++ last.resume appended)
          nextTemp := tempsAll ss
          nextLabel := labelsAll ss }) ∧
      (emitAll ss).run c =
        .ok ((), { c with
          function := c.function.withBlocks
            (earlier ++ last.resume (appended.rename (relocation c.nextTemp c.nextLabel)))
          nextTemp := c.nextTemp + tempsAll ss
          nextLabel := c.nextLabel + labelsAll ss })) ∧
    ∀ more : List (Statement α), emitAll (ss ++ more) = (do emitAll ss; emitAll more) := by
  refine ⟨⟨_, rfl, ?_, ?_⟩, emitAll_append ss⟩
  · have hzero := emitAll_open (c := { c with nextTemp := 0, nextLabel := 0 }) hblocks hopen ss
    rwa [Nat.zero_add, Nat.zero_add] at hzero
  · have hshifted := statements_relocate c.layout c.nextTemp c.nextLabel 0 0 ss
    rw [Nat.zero_add, Nat.zero_add] at hshifted
    rw [emitAll_open hblocks hopen, hshifted, Qbe.listingOf_rename]

/-- A loop around a move, emitted into the second block of a function: seven temporaries and twelve
labels have been used before it. -/
theorem emission_relocates_loop :
    ∃ (c c' : Context) (first second : Block) (appended : Listing),
      c.function.blocks = [first] ++ [second] ∧ second.jump = none ∧ c.nextTemp = 7 ∧
      c.nextLabel = 12 ∧
      (emitAll [.loop [.counted .moveLeft (.integer 1) ()] ()]).run c = .ok ((), c') ∧
      c'.function.blocks = [first] ++ second.resume (appended.rename (relocation 7 12)) ∧
      c'.function.blocks.map Block.label = ["a", "b", "loop12", "halt14", "cont13", "end12"] ∧
      c'.nextTemp = 11 ∧ c'.nextLabel = 15 := by
  let first : Block := ⟨"a", [], some (.ret none)⟩
  let second : Block := ⟨"b", [.call "f" []], none⟩
  let c : Context := ⟨⟨false, "f", none, [first, second]⟩, 7, 12, ⟨.integer 2, .eight⟩⟩
  have hblocks : c.function.blocks = [first] ++ [second] := rfl
  have hopen : second.jump = none := rfl
  obtain ⟨⟨appended, _, _, hrun⟩, _⟩ :=
    emission_relocates hblocks hopen [.loop [.counted .moveLeft (.integer 1) ()] ()]
  have hlabels : ((emitAll [.loop [.counted .moveLeft (.integer 1) ()] ()]).run c).toOption.map
      (fun result => result.2.function.blocks.map Block.label) =
        some ["a", "b", "loop12", "halt14", "cont13", "end12"] := by
    decide +kernel
  rw [hrun] at hlabels
  exact ⟨c, _, first, second, appended, hblocks, hopen, rfl, rfl, hrun, rfl,
    Option.some.inj hlabels, rfl, rfl⟩

end Lowering

end TapeCompiler
