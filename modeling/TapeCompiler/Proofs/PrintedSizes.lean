import TapeCompiler.Proofs.DecimalText
import TapeCompiler.Proofs.PrintedLines

/-! # The sizes in a printed program

A printed program names the size of its tape where it allocates the tape, where it clears it and in
every guard.

* `SizeUse.readAll`: the sizes that a text names, read off its words.
* `Lowering.readAll_text`: what is read off a printed program.
* `Lowering.printed_sizes`: the numbers that are read, and when they are exact.
-/

namespace TapeCompiler

/-- A numeral that stands for a size of the tape: the operand of its allocation, the last argument of
the call that clears it, or the left operand of a guard. -/
inductive SizeUse where
  | allocated (numeral : String)
  | cleared (numeral : String)
  | limit (numeral : String)
deriving DecidableEq

namespace SizeUse

/-- A word without the comma or the bracket that ends it. -/
def unmarked (word : String) : String := String.ofList word.toList.dropLast

/-- The size that the words of a line name. -/
def read? : List String → Option SizeUse
  | [_, _, keyword, operand] => if keyword = "alloc8" then some (.allocated operand) else none
  | [_, _, keyword, lhs, _] => if keyword = "cugtl" then some (.limit (unmarked lhs)) else none
  | [keyword, target, _, _, _, _, last] =>
    if keyword = "\tcall" ∧ target = "$memset(l" then some (.cleared (unmarked last)) else none
  | _ => none

/-- The sizes that a text names, in their order. -/
def readAll (text : String) : List SizeUse := (Text.words text).filterMap read?

theorem unmarked_append {word mark : String} {c : Char} (h : mark.toList = [c]) :
    unmarked (word ++ mark) = word := by
  rw [unmarked, String.toList_append, h, List.dropLast_concat, String.ofList_toList]

end SizeUse

namespace Lowering

open Number (WrittenAs natText)
open Qbe (Item)

variable {α : Type}

/-! ## The sizes that the items name -/

def sizeUses (items : List Item) : List SizeUse :=
  items.filterMap fun item => SizeUse.read? item.words

@[simp] theorem sizeUses_nil : sizeUses [] = [] := rfl

@[simp] theorem sizeUses_append (xs ys : List Item) :
    sizeUses (xs ++ ys) = sizeUses xs ++ sizeUses ys :=
  List.filterMap_append

@[simp] theorem sizeUses_cons (item : Item) (rest : List Item) :
    sizeUses (item :: rest) = (SizeUse.read? item.words).toList ++ sizeUses rest := by
  simp only [sizeUses, List.filterMap_cons]
  cases SizeUse.read? item.words <;> rfl

section Items

variable (dest lhs rhs value address : Qbe.Value) (type : Qbe.BaseType)

@[simp] theorem read?_label (name : String) : SizeUse.read? (Item.label name).words = none := rfl

@[simp] theorem read?_ret : SizeUse.read? (Item.jump (.ret (some value))).words = none := rfl

@[simp] theorem read?_jnz (ifNonZero ifZero : String) :
    SizeUse.read? (Item.jump (.jnz value ifNonZero ifZero)).words = none := by
  have hkeyword : "@" ++ ifNonZero ++ "," ≠ "alloc8" := by
    intro h
    have hlist := congrArg String.toList h
    simp at hlist
  simp only [Item.words, Qbe.Jump.words, SizeUse.read?, if_neg hkeyword]

@[simp] theorem read?_copy :
    SizeUse.read? (Item.instr (.assign dest type (.copy value))).words = none := rfl

@[simp] theorem read?_add :
    SizeUse.read? (Item.instr (.assign dest type (.add lhs rhs))).words = none := rfl

@[simp] theorem read?_sub :
    SizeUse.read? (Item.instr (.assign dest type (.sub lhs rhs))).words = none := rfl

@[simp] theorem read?_load (op : Qbe.LoadOp) :
    SizeUse.read? (Item.instr (.assign dest type (.load op address))).words = none := by
  cases op <;> rfl

@[simp] theorem read?_store (op : Qbe.StoreOp) :
    SizeUse.read? (Item.instr (.store op value address)).words = none := rfl

@[simp] theorem read?_alloc8 (bytes : Number) :
    SizeUse.read? (Item.instr (.assign dest type (.alloc8 bytes))).words =
      some (.allocated bytes.text) := rfl

@[simp] theorem read?_above (limit : Number) :
    SizeUse.read? (Item.instr (.assign dest type (.above .long (.const limit) rhs))).words =
      some (.limit limit.text) :=
  congrArg (fun numeral => some (SizeUse.limit numeral)) (SizeUse.unmarked_append rfl)

@[simp] theorem read?_memset (bytes : Number) :
    SizeUse.read? (Item.instr (.call "memset" [⟨.long, address⟩, ⟨.word, value⟩,
      ⟨.long, .const bytes⟩])).words = some (.cleared bytes.text) :=
  congrArg (fun numeral => some (SizeUse.cleared numeral)) (SizeUse.unmarked_append rfl)

@[simp] theorem read?_loadCell (stride : Stride) (t : Nat) :
    SizeUse.read? (loadCell stride t).words = none := read?_load ..

end Items

theorem sizeUses_guard (limit : Number) (t l : Nat) :
    sizeUses (guard limit t l) = [.limit limit.text] := by
  simp [guard]

theorem sizeUses_test (stride : Stride) (t l : Nat) : sizeUses (test stride t l) = [] := by
  simp [test]

theorem sizeUses_prologue (layout : Tape) :
    sizeUses (prologue layout) =
      [.allocated layout.allocated.text, .cleared layout.allocated.text] := by
  simp [prologue]

/-! ## Whole programs -/

mutual

/-- How often a statement moves the pointer, wherever in it. -/
def moves : Statement α → Nat
  | .counted .moveLeft _ _ => 1
  | .counted .moveRight _ _ => 1
  | .counted .increment _ _ => 0
  | .counted .decrement _ _ => 0
  | .read _ => 0
  | .write _ => 0
  | .loop body _ => movesAll body

def movesAll : List (Statement α) → Nat
  | [] => 0
  | s :: rest => moves s + movesAll rest

end

mutual

theorem sizeUses_statement (layout : Tape) (t l : Nat) :
    ∀ s : Statement α, sizeUses (statement layout t l s) =
      List.replicate (moves s) (.limit layout.addressable.text)
  | .counted .moveLeft _ _ => by simp [statement, move, sizeUses_guard, moves]
  | .counted .moveRight _ _ => by simp [statement, move, sizeUses_guard, moves]
  | .counted .increment _ _ => by simp [statement, change, moves]
  | .counted .decrement _ _ => by simp [statement, change, moves]
  | .read _ => rfl
  | .write _ => rfl
  | .loop body _ => by
    have hbody := sizeUses_statements layout (t + 1) (l + 1) body
    simp [statement, sizeUses_test, hbody, moves]

theorem sizeUses_statements (layout : Tape) (t l : Nat) :
    ∀ ss : List (Statement α), sizeUses (statements layout t l ss) =
      List.replicate (movesAll ss) (.limit layout.addressable.text)
  | [] => rfl
  | s :: rest => by
    rw [statements, sizeUses_append, sizeUses_statement, sizeUses_statements, movesAll,
      List.replicate_append_replicate]

end

/-- A printed program names the bytes that are allocated twice, and the bytes that the pointer may
reach once for each move. -/
theorem readAll_text (layout : Tape) (program : List (Statement α)) :
    SizeUse.readAll (Qbe.Module.text ⟨[mainFunction layout program]⟩) =
      .allocated layout.allocated.text :: .cleared layout.allocated.text ::
        List.replicate (movesAll program) (.limit layout.addressable.text) := by
  have hbody : sizeUses (body layout program) = .allocated layout.allocated.text ::
      .cleared layout.allocated.text ::
        List.replicate (movesAll program) (.limit layout.addressable.text) := by
    simp [body, sizeUses_prologue, sizeUses_statements]
  have hopen : SizeUse.read? ["export", "function", "w", "$main()", "\x7b"] = none := rfl
  have hclose : [["\x7d"], [""]].filterMap SizeUse.read? = [] := rfl
  rw [SizeUse.readAll, words_text, programWords, List.filterMap_append, hclose, List.append_nil,
    List.filterMap_cons_none hopen, List.filterMap_map, ← hbody]
  rfl

/-- What an accepted tape's sizes are written as. -/
theorem exists_written {layout : Tape} (h : layout.Accepted) :
    ∃ bytes limit, layout.allocated.text = natText bytes ∧ layout.addressable.text = natText limit ∧
      WrittenAs (2 * (layout.size * layout.stride.bytes)) bytes ∧
      WrittenAs (layout.size * layout.stride.bytes) limit := by
  obtain ⟨k, -, hbytes⟩ := layout.stride.bytes_eq_two_pow
  have hregion := h.region_lt
  rw [h.allocated_eq, h.addressable_eq]
  rw [hbytes] at hregion ⊢
  obtain ⟨limit, hlimit, hwritten⟩ :=
    Number.text_eq_natText (Number.nearest_mul_two_pow h.size_lt k) (by omega)
  rw [Number.two_mul_two_pow] at hregion ⊢
  obtain ⟨bytes, hallocated, hwritten'⟩ :=
    Number.text_eq_natText (Number.nearest_mul_two_pow h.size_lt (k + 1)) (by omega)
  exact ⟨bytes, limit, hallocated, hlimit, hwritten', hwritten⟩

/-- The printed sizes of a program's tape.  The allocation and the call that clears the tape name the
same number of bytes, all guards one limit, and both numbers read back as the exact sizes.  A number
is the exact size itself unless a rounder one reads back as that size; below `safeLimit` bytes none
does. -/
theorem printed_sizes {options : TapeOptions} {layout : Tape}
    (hresolve : options.resolve = .ok layout) (program : List (Statement α)) :
    ∃ target bytes limit, lower options program = .ok target ∧
      SizeUse.readAll target.text = .allocated (natText bytes) :: .cleared (natText bytes) ::
        List.replicate (movesAll program) (.limit (natText limit)) ∧
      WrittenAs (2 * (layout.size * layout.stride.bytes)) bytes ∧
      WrittenAs (layout.size * layout.stride.bytes) limit ∧
      (layout.size * layout.stride.bytes < Number.safeLimit →
        bytes = 2 * (layout.size * layout.stride.bytes) ∧
          limit = layout.size * layout.stride.bytes) := by
  obtain ⟨bytes, limit, hallocated, haddressable, hbytes, hlimit⟩ :=
    exists_written (TapeOptions.resolve_accepted hresolve)
  refine ⟨_, bytes, limit, lower_eq_ok hresolve program, ?_, hbytes, hlimit, fun hsmall => ?_⟩
  · rw [readAll_text, hallocated, haddressable]
  · exact ⟨hbytes.eq_iff.2 (Number.isRoundest_of_lt (by omega)),
      hlimit.eq_iff.2 (Number.isRoundest_of_lt (by omega))⟩

/-- Two moves, one of them in a loop, on thirty thousand word cells. -/
theorem printed_sizes_words :
    TapeOptions.resolve ⟨some (.integer 30000), some (.integer 8)⟩ = .ok ⟨.integer 30000, .eight⟩ ∧
      ∃ target, lower ⟨some (.integer 30000), some (.integer 8)⟩
          [.counted .moveRight (.integer 1) (), .loop [.counted .moveLeft (.integer 1) ()] ()] =
            .ok target ∧
        SizeUse.readAll target.text =
          [.allocated "480000", .cleared "480000", .limit "240000", .limit "240000"] := by
  refine ⟨by decide, ?_⟩
  obtain ⟨target, bytes, limit, hlower, hread, -, -, hexact⟩ := printed_sizes
    (by decide : TapeOptions.resolve ⟨some (.integer 30000), some (.integer 8)⟩ =
      .ok ⟨.integer 30000, .eight⟩)
    [.counted .moveRight (.integer 1) (), .loop [.counted .moveLeft (.integer 1) ()] ()]
  obtain ⟨rfl, rfl⟩ := hexact (by decide)
  refine ⟨target, hlower, ?_⟩
  rw [hread]
  decide

/-- On the longest tape of word cells neither size is printed exactly. -/
theorem printed_sizes_rounded :
    ∃ target, lower ⟨some (.integer 9007199254740991), some (.integer 8)⟩
        [.counted .moveRight (.integer 1) ()] = .ok target ∧
      SizeUse.readAll target.text = [.allocated "144115188075855860",
        .cleared "144115188075855860", .limit "72057594037927930"] ∧
      2 * (9007199254740991 * 8) = 144115188075855856 ∧
      9007199254740991 * 8 = 72057594037927928 := by
  refine ⟨_, rfl, ?_, rfl, rfl⟩
  rw [readAll_text]
  decide

end Lowering

end TapeCompiler
